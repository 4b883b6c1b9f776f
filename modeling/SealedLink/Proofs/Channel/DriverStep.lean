import SealedLink.Channel.Driver

/-!
# What one step of the driver can do

`Driver.Step` has one constructor for each way in which an event is handled. The proofs about runs
go by these cases and do not look into the driver again.
-/

namespace SealedLink.Driver

variable {σ α : Type}

/-! ## Failing -/

def shut (d : Driver σ α) : Driver σ α :=
  { d with state := .permanentFailure, outstanding := none, queue := [] }

/-- A failure is shown to the handles before any write fails. -/
def failActions (queue : List Pending) (code : ChannelError) : List Action :=
  .publish .permanentFailure :: queue.map fun w => .resolve w (.error code)

/-! ## The cases -/

/-- The reply that a state waits for. Any other one is a failure. -/
def Expected : ChannelState → TransportResult → Prop
  | .performingAttestation, .ok (.message (.attest _)) => True
  | .performingHandshake, .ok (.message (.handshake _)) => True
  | .established, .ok (.message (.encrypted _)) => True
  | _, _ => False

def sending (d : Driver σ α) : Driver σ α :=
  { d with outstanding := some d.nextSequence, nextSequence := d.nextSequence + 1 }

variable [CipherSession σ]

/-- What an established driver does with its queue when no answer is due. -/
inductive Dispatch (d : Driver σ α) : Driver σ α → List Action → Prop where
  | idle (hq : d.queue = []) : Dispatch d d []
  | sends {w ws sealed s} (hq : d.queue = w :: ws)
      (he : CipherSession.encrypt d.session w.request = (.ok sealed, s)) :
      Dispatch d { d with session := s }.sending
        [.call (.encrypt w.request (.ok sealed)), .send d.nextSequence (.encrypted sealed)]
  | fails {w ws e s} (hq : d.queue = w :: ws)
      (he : CipherSession.encrypt d.session w.request = (.error e, s)) :
      Dispatch d { d with session := s }.shut
        (.call (.encrypt w.request (.error e)) :: failActions d.queue .encryptionFailed)

theorem dispatchNext_dispatch (d : Driver σ α) (hs : d.state = .established)
    (ho : d.outstanding = none) : Dispatch d d.dispatchNext.1 d.dispatchNext.2 := by
  unfold dispatchNext
  rw [if_pos ⟨hs, ho⟩]
  split
  · rename_i hq
    exact .idle hq
  · rename_i w ws hq
    split
    · rename_i he
      exact .sends hq he
    · rename_i he
      exact .fails hq he

variable [Attester α]

inductive Step (d : Driver σ α) : Event → Driver σ α → List Action → Prop where
  | rejects {w} (hs : d.state = .permanentFailure) :
      Step d (.write w) d [.resolve w (.error .genericError)]
  | noEvidence {w a} (hs : d.state = .uninitialized)
      (ha : Attester.request d.attester = (none, a)) :
      Step d (.write w) { d with attester := a, queue := d.queue ++ [w] }.shut
        (.call (.attestationRequest none) :: failActions (d.queue ++ [w]) .attestationFailed)
  | attests {w evidence a} (hs : d.state = .uninitialized)
      (ha : Attester.request d.attester = (some evidence, a)) :
      Step d (.write w)
        { d with attester := a, queue := d.queue ++ [w], state := .performingAttestation }.sending
        [.call (.attestationRequest (some evidence)), .publish .performingAttestation,
          .send d.nextSequence (.attest evidence)]
  | queues {w} (hs : d.state = .performingAttestation ∨ d.state = .performingHandshake ∨
        d.state = .established ∧ d.outstanding ≠ none) :
      Step d (.write w) { d with queue := d.queue ++ [w] } []
  | dispatches {w d' actions} (hs : d.state = .established) (ho : d.outstanding = none)
      (h : Dispatch { d with queue := d.queue ++ [w] } d' actions) : Step d (.write w) d' actions
  | ignores {q r} (ho : d.outstanding ≠ some q) : Step d (.reply q r) d []
  | breaks {q r} (ho : d.outstanding = some q) (hr : ¬ Expected d.state r) :
      Step d (.reply q r) d.shut (failActions d.queue d.phaseError)
  | refuses {q answer a} (ho : d.outstanding = some q) (hs : d.state = .performingAttestation)
      (hv : Attester.verify d.attester answer = (false, a)) :
      Step d (.reply q (.ok (.message (.attest answer)))) { d with attester := a }.shut
        (.call (.verify answer false) :: failActions d.queue .attestationFailed)
  | noHandshake {q answer a e s} (ho : d.outstanding = some q)
      (hs : d.state = .performingAttestation)
      (hv : Attester.verify d.attester answer = (true, a))
      (hc : CipherSession.start d.session = (.error e, s)) :
      Step d (.reply q (.ok (.message (.attest answer)))) { d with attester := a, session := s }.shut
        (.call (.verify answer true) :: .call (.start (.error e)) ::
          failActions d.queue .handshakeFailed)
  | greets {q answer a message s} (ho : d.outstanding = some q)
      (hs : d.state = .performingAttestation)
      (hv : Attester.verify d.attester answer = (true, a))
      (hc : CipherSession.start d.session = (.ok message, s)) :
      Step d (.reply q (.ok (.message (.attest answer))))
        { d with attester := a, session := s, state := .performingHandshake }.sending
        [.call (.verify answer true), .call (.start (.ok message)), .publish .performingHandshake,
          .send d.nextSequence (.handshake message)]
  | notFinished {q response e s} (ho : d.outstanding = some q)
      (hs : d.state = .performingHandshake)
      (hf : CipherSession.finish d.session response = (.error e, s)) :
      Step d (.reply q (.ok (.message (.handshake response)))) { d with session := s }.shut
        (.call (.finish response (.error e)) :: failActions d.queue .handshakeFailed)
  | establishes {q response s d' actions} (ho : d.outstanding = some q)
      (hs : d.state = .performingHandshake)
      (hf : CipherSession.finish d.session response = (.ok (), s))
      (h : Dispatch { d with session := s, state := .established, outstanding := none } d' actions) :
      Step d (.reply q (.ok (.message (.handshake response)))) d'
        (.call (.finish response (.ok ())) :: .publish .established :: actions)
  | notOpened {q answer e s} (ho : d.outstanding = some q) (hs : d.state = .established)
      (hd : CipherSession.decrypt d.session answer = (.error e, s)) :
      Step d (.reply q (.ok (.message (.encrypted answer)))) { d with session := s }.shut
        (.call (.decrypt answer (.error e)) :: failActions d.queue .decryptionFailed)
  | opens {q answer opened s d' actions} (ho : d.outstanding = some q) (hs : d.state = .established)
      (hd : CipherSession.decrypt d.session answer = (.ok opened, s))
      (h : Dispatch { d with session := s, queue := d.queue.drop 1, outstanding := none } d' actions) :
      Step d (.reply q (.ok (.message (.encrypted answer)))) d'
        (.call (.decrypt answer (.ok opened)) ::
          ((d.queue.take 1).map (fun w => .resolve w (.ok opened)) ++ actions))

/-! ## The driver takes these steps and no others -/

theorem onWrite_step (d : Driver σ α) (w : Pending) :
    Step d (.write w) (d.onWrite w).1 (d.onWrite w).2 := by
  unfold onWrite
  split
  · rename_i hs
    exact .rejects hs
  · rename_i hs
    dsimp only [startAttestation]
    split
    · rename_i ha
      exact .attests hs ha
    · rename_i ha
      exact .noEvidence hs ha
  · rename_i hs
    exact .queues (.inl hs)
  · rename_i hs
    exact .queues (.inr (.inl hs))
  · rename_i hs
    by_cases ho : d.outstanding = none
    · exact .dispatches hs ho (dispatchNext_dispatch _ hs ho)
    · rw [dispatchNext, if_neg (by simp [ho])]
      exact .queues (.inr (.inr ⟨hs, ho⟩))

theorem onAttestation_step (d : Driver σ α) (q : UInt64) (answer : Bytes)
    (ho : d.outstanding = some q) (hs : d.state = .performingAttestation) :
    Step d (.reply q (.ok (.message (.attest answer))))
      ({ d with outstanding := none }.onAttestation answer).1
      ({ d with outstanding := none }.onAttestation answer).2 := by
  unfold onAttestation
  split
  · rename_i hv
    exact .refuses ho hs hv
  · rename_i hv
    split
    · rename_i hc
      exact .greets ho hs hv hc
    · rename_i hc
      exact .noHandshake ho hs hv hc

theorem onHandshake_step (d : Driver σ α) (q : UInt64) (response : HandshakeMessage)
    (ho : d.outstanding = some q) (hs : d.state = .performingHandshake) :
    Step d (.reply q (.ok (.message (.handshake response))))
      ({ d with outstanding := none }.onHandshake response).1
      ({ d with outstanding := none }.onHandshake response).2 := by
  unfold onHandshake
  split
  · rename_i hf
    exact .establishes ho hs hf (dispatchNext_dispatch _ rfl rfl)
  · rename_i hf
    exact .notFinished ho hs hf

theorem onEncrypted_step (d : Driver σ α) (q : UInt64) (answer : Bytes)
    (ho : d.outstanding = some q) (hs : d.state = .established) :
    Step d (.reply q (.ok (.message (.encrypted answer))))
      ({ d with outstanding := none }.onEncrypted answer).1
      ({ d with outstanding := none }.onEncrypted answer).2 := by
  unfold onEncrypted
  split
  · rename_i hd
    exact .opens ho hs hd (dispatchNext_dispatch _ hs rfl)
  · rename_i hd
    exact .notOpened ho hs hd

theorem onReply_step (d : Driver σ α) (q : UInt64) (r : TransportResult) :
    Step d (.reply q r) (d.onReply q r).1 (d.onReply q r).2 := by
  unfold onReply
  split
  · rename_i ho
    split
    · rename_i hs
      exact onAttestation_step d q _ ho hs
    · rename_i hs
      exact onHandshake_step d q _ ho hs
    · rename_i hs
      exact onEncrypted_step d q _ ho hs
    · rename_i ha hh he
      refine .breaks ho ?_
      -- A reply that is expected is one of those treated above.
      intro hr
      unfold Expected at hr
      split at hr
      · exact ha _ ‹_› rfl
      · exact hh _ ‹_› rfl
      · exact he _ ‹_› rfl
      · exact hr
  · rename_i ho
    exact .ignores ho

/-- **Every event is handled in one of the ways of `Step`.** -/
theorem handle_step (d : Driver σ α) (e : Event) : Step d e (d.handle e).1 (d.handle e).2 := by
  cases e with
  | write w => exact onWrite_step d w
  | reply q r => exact onReply_step d q r

/-! ## What a step sends and shows -/

end Driver

def Action.sequence? : Action → Option UInt64
  | .send q _ => some q
  | _ => none

def Action.state? : Action → Option ChannelState
  | .publish state => some state
  | _ => none

def sequences (actions : List Action) : List UInt64 := actions.filterMap Action.sequence?

def states (actions : List Action) : List ChannelState := actions.filterMap Action.state?

@[simp] theorem sequences_call (c : Call) (actions : List Action) :
    sequences (.call c :: actions) = sequences actions := rfl

@[simp] theorem sequences_publish (state : ChannelState) (actions : List Action) :
    sequences (.publish state :: actions) = sequences actions := rfl

@[simp] theorem sequences_send (q : UInt64) (request : Request) (actions : List Action) :
    sequences (.send q request :: actions) = q :: sequences actions := rfl

@[simp] theorem sequences_resolved (w : Pending) (outcome : Outcome) (actions : List Action) :
    sequences (.resolve w outcome :: actions) = sequences actions := rfl

@[simp] theorem sequences_nil : sequences [] = [] := rfl

@[simp] theorem states_call (c : Call) (actions : List Action) :
    states (.call c :: actions) = states actions := rfl

@[simp] theorem states_publish (state : ChannelState) (actions : List Action) :
    states (.publish state :: actions) = state :: states actions := rfl

@[simp] theorem sequences_append (a b : List Action) :
    sequences (a ++ b) = sequences a ++ sequences b := List.filterMap_append ..

@[simp] theorem states_append (a b : List Action) : states (a ++ b) = states a ++ states b :=
  List.filterMap_append ..

@[simp] theorem sequences_resolve (queue : List Pending) (outcome : Outcome) :
    sequences (queue.map fun w => .resolve w outcome) = [] := by
  simp [sequences, Action.sequence?]

@[simp] theorem states_resolve (queue : List Pending) (outcome : Outcome) :
    states (queue.map fun w => .resolve w outcome) = [] := by
  simp [states, Action.state?]

namespace Driver

@[simp] theorem sequences_failActions (queue : List Pending) (code : ChannelError) :
    sequences (failActions queue code) = [] := sequences_resolve queue _

@[simp] theorem states_failActions (queue : List Pending) (code : ChannelError) :
    states (failActions queue code) = [.permanentFailure] :=
  congrArg (_ :: ·) (states_resolve queue _)

variable {σ α : Type} [CipherSession σ] {d d' : Driver σ α} {e : Event} {actions : List Action}

theorem dispatch_sequences (h : Dispatch d d' actions) :
    (sequences actions).Sublist d'.outstanding.toList := by
  cases h with
  | idle => exact List.nil_sublist _
  | sends => exact List.Sublist.refl [d.nextSequence]
  | fails => simp [shut]

theorem dispatch_counts (h : Dispatch d d' actions) :
    d'.nextSequence = d.nextSequence + .ofNat (sequences actions).length ∧
      ∀ q ∈ sequences actions, q = d.nextSequence := by
  cases h <;> simp [sending, shut]

theorem dispatch_states (h : Dispatch d d' actions) :
    (states actions).getLastD d.state = d'.state := by
  cases h with
  | idle => rfl
  | sends => rfl
  | fails => simp [shut]

omit [CipherSession σ] in
@[simp] theorem resolve_mem_failActions {w : Pending} {outcome : Outcome} {queue : List Pending}
    {code : ChannelError} :
    .resolve w outcome ∈ failActions queue code ↔ w ∈ queue ∧ outcome = .error code := by
  simp only [failActions, List.mem_cons, reduceCtorEq, false_or, List.mem_map, Action.resolve.injEq]
  exact ⟨fun ⟨_, hw, hw', ho⟩ => ⟨hw' ▸ hw, ho.symm⟩, fun ⟨hw, ho⟩ => ⟨w, hw, rfl, ho.symm⟩⟩

theorem dispatch_writes (h : Dispatch d d' actions) :
    (∀ w ∈ d'.queue, w ∈ d.queue) ∧ ∀ w outcome, .resolve w outcome ∈ actions → w ∈ d.queue := by
  cases h with
  | idle => simp
  | sends => simp [sending]
  | fails => simp +contextual [shut]

variable [Attester α]

theorem step_sequences (h : Step d e d' actions) :
    (sequences actions).Sublist d'.outstanding.toList := by
  cases h with
  | rejects | queues | ignores => exact List.nil_sublist _
  | attests | greets => exact List.Sublist.refl [d.nextSequence]
  | dispatches _ _ h => exact dispatch_sequences h
  | establishes _ _ _ h =>
    simp only [sequences_call, sequences_publish]
    exact dispatch_sequences h
  | opens _ _ _ h =>
    simp only [sequences_call, sequences_append, sequences_resolve, List.nil_append]
    exact dispatch_sequences h
  | _ => simp [shut]

theorem step_counts (h : Step d e d' actions) :
    d'.nextSequence = d.nextSequence + .ofNat (sequences actions).length ∧
      ∀ q ∈ sequences actions, q = d.nextSequence := by
  cases h with
  | dispatches _ _ h =>
    have := dispatch_counts h
    exact this
  | establishes _ _ _ h =>
    have := dispatch_counts h
    exact this
  | opens _ _ _ h =>
    have := dispatch_counts h
    simp only [sequences_call, sequences_append, sequences_resolve, List.nil_append]
    exact this
  | _ => simp [sending, shut]

theorem step_waits {w : Pending} {q : UInt64} (h : Step d (.write w) d' actions)
    (ho : d.outstanding = some q) (hs : d.state ≠ .uninitialized) :
    sequences actions = [] ∧ d'.outstanding = some q := by
  cases h with
  | rejects => exact ⟨rfl, ho⟩
  | queues => exact ⟨rfl, ho⟩
  | noEvidence h _ | attests h _ => exact absurd h hs
  | dispatches _ hn _ => simp [hn] at ho

theorem step_states (h : Step d e d' actions) : (states actions).getLastD d.state = d'.state := by
  cases h with
  | rejects | queues | ignores | attests | greets => rfl
  | dispatches _ _ h =>
    have := dispatch_states h
    exact this
  | establishes _ _ _ h =>
    have := dispatch_states h
    simp only [states_call, states_publish, List.getLastD_cons]
    exact this
  | opens _ _ _ h =>
    have := dispatch_states h
    simp only [states_call, states_append, states_resolve, List.nil_append]
    exact this
  | _ => simp [shut]

theorem step_writes (h : Step d e d' actions) :
    (∀ w ∈ d'.queue, w ∈ d.queue ∨ e = .write w) ∧
      ∀ w outcome, .resolve w outcome ∈ actions → w ∈ d.queue ∨ e = .write w := by
  cases h with
  | @dispatches w _ _ _ _ h =>
    have := dispatch_writes h
    simp only [List.mem_append, List.mem_singleton] at this
    refine ⟨fun w' hw => (this.1 w' hw).imp_right ?_, fun w' outcome ho =>
      (this.2 w' outcome ho).imp_right ?_⟩ <;> exact fun heq => congrArg Event.write heq.symm
  | establishes _ _ _ h =>
    have := dispatch_writes h
    refine ⟨fun w hw => .inl (this.1 w hw), fun w outcome ho => .inl (this.2 w outcome ?_)⟩
    simpa using ho
  | opens _ _ _ h =>
    have := dispatch_writes h
    refine ⟨fun w hw => .inl (List.mem_of_mem_drop (this.1 w hw)), fun w outcome ho => .inl ?_⟩
    simp only [List.mem_cons, reduceCtorEq, List.mem_append, List.mem_map, false_or] at ho
    rcases ho with ⟨w', hw', heq⟩ | ho
    · cases heq
      exact List.mem_of_mem_take hw'
    · exact List.mem_of_mem_drop (this.2 w outcome ho)
  | _ => simp +contextual [sending, shut, eq_comm]

end SealedLink.Driver
