import SealedLink.Proofs.Channel.Live

/-!
# The order of calls

A driver calls its attester and its session in the order of the protocol and goes past a step only
if the step has succeeded. Until the evidence of the peer is accepted it sends nothing but its own
evidence, and after the first failure it calls nobody and sends nothing.
-/

namespace SealedLink

/-! ## Reading calls and replies -/

inductive Operation where
  | attestationRequest
  | verify
  | start
  | finish
  | encrypt
  | decrypt
  deriving DecidableEq, Repr

namespace Call

def operation : Call → Operation
  | .attestationRequest _ => .attestationRequest
  | .verify .. => .verify
  | .start _ => .start
  | .finish .. => .finish
  | .encrypt .. => .encrypt
  | .decrypt .. => .decrypt

def plaintext? : Call → Option Bytes
  | .encrypt plaintext _ => some plaintext
  | _ => none

/-- No evidence to send, evidence that is refused, or an error of the session. -/
def Fails : Call → Prop
  | .attestationRequest evidence => evidence = none
  | .verify _ accepted => accepted = false
  | .start result => ∃ e, result = .error e
  | .finish _ result => ∃ e, result = .error e
  | .encrypt _ result => ∃ e, result = .error e
  | .decrypt _ result => ∃ e, result = .error e

end Call

namespace Entry

def answer? : Entry → Option (UInt64 × TransportResult)
  | .handled (.reply q result) => some (q, result)
  | _ => none

/-- A failure in a given state: of a call, of the transport, or by a reply that does not fit. -/
def Fails (state : ChannelState) : Entry → Prop
  | .called c => c.Fails
  | .handled (.reply _ result) => ¬ Driver.Expected state result
  | _ => False

/-- The state that is shown after an entry. -/
def shows (state : ChannelState) : Entry → ChannelState
  | .published state => state
  | _ => state

end Entry

def answersIn (log : List Entry) : List (UInt64 × TransportResult) := log.filterMap Entry.answer?

def shownAfter (log : List Entry) : ChannelState := log.foldl Entry.shows .uninitialized

/-! ## The part of a log that counts -/

theorem sentIn_deeds (log : List Entry) : sentIn (deeds log) = sentIn log :=
  filterMap_deeds _ (fun _ => rfl) (fun _ => rfl) log

theorem answersIn_deeds (log : List Entry) : answersIn (deeds log) = answersIn log :=
  filterMap_deeds _ (fun _ => rfl) (fun _ => rfl) log

/-- How a log goes on after a story: not at all, or with a failure. -/
inductive Ending (story : Story) : List Entry → Prop where
  | goingOn : Ending story []
  | failed {w cause code dropped late} (h : Breaks story w cause code) :
      Ending story (cause ++ aftermath dropped code late)

theorem deeds_told {σ α : Type} {d : Driver σ α} {log : List Entry} (h : Told d log) :
    ∃ story tail, deeds log = story.entries ++ tail ∧ Ending story tail := by
  cases h with
  | alive story h => exact ⟨story, [], by rw [h.deeds, List.append_nil], .goingOn⟩
  | @failed story code dropped late h =>
    obtain ⟨w, cause, hdeeds, -, -, hbreak⟩ := h.whole
    exact ⟨story, cause ++ aftermath dropped code late, hdeeds, .failed hbreak⟩

/-! ### Calls of a story -/

@[simp] theorem calls_nil : calls [] = [] := rfl

@[simp] theorem calls_sent (q : UInt64) (request : Request) (log : List Entry) :
    calls (.sent q request :: log) = calls log := rfl

@[simp] theorem calls_attestation (a : Attestation) :
    calls a.entries = [.attestationRequest (some a.evidence)] := rfl

@[simp] theorem calls_greeting (g : Greeting) : calls g.entries =
    [.attestationRequest (some g.evidence), .verify g.answer true, .start (.ok g.message)] := rfl

@[simp] theorem calls_opening (o : Opening) : calls o.entries =
    [.attestationRequest (some o.evidence), .verify o.answer true, .start (.ok o.message),
      .finish o.response (.ok ())] := rfl

@[simp] theorem calls_sending (x : Sending) :
    calls x.entries = [.encrypt x.write.request (.ok x.sealed)] := rfl

@[simp] theorem calls_exchange (x : Exchange) :
    calls x.entries =
      [.encrypt x.write.request (.ok x.sealed), .decrypt x.answer (.ok x.opened)] := rfl

theorem calls_served (served : List Exchange) :
    calls (served.flatMap Exchange.entries) = served.flatMap fun x => calls x.entries := by
  induction served with
  | nil => rfl
  | cons x served ih => rw [List.flatMap_cons, List.flatMap_cons, calls_append, ih]

theorem calls_current (current : Option Sending) :
    calls ((current.map Sending.entries).getD []) =
      current.toList.map fun x => .encrypt x.write.request (.ok x.sealed) := by
  cases current <;> rfl

theorem calls_failed (before cause : List Entry) (dropped : List Pending) (code : ChannelError)
    (late : List Pending) : calls (before ++ (cause ++ aftermath dropped code late)) =
      calls before ++ calls cause := by
  rw [calls_append, calls_append, calls_aftermath, List.append_nil]

theorem mem_calls {c : Call} {log : List Entry} : c ∈ calls log ↔ .called c ∈ log := by
  rw [calls, List.mem_filterMap]
  constructor
  · rintro ⟨e, he, hc⟩
    cases e <;> cases hc
    exact he
  · exact fun h => ⟨_, h, rfl⟩

/-! ## The order of the operations -/

def Operation.protocol (exchanges : Nat) : List Operation :=
  [attestationRequest, verify, start, finish] ++
    (List.replicate exchanges [encrypt, decrypt]).flatten

theorem operations_served (served : List Exchange) :
    (calls (served.flatMap Exchange.entries)).map Call.operation =
      (List.replicate served.length [.encrypt, .decrypt]).flatten := by
  induction served with
  | nil => rfl
  | cons x served ih =>
    rw [List.flatMap_cons, calls_append, List.map_append, ih]
    rfl

theorem protocol_succ (n : Nat) :
    Operation.protocol (n + 1) = Operation.protocol n ++ [.encrypt, .decrypt] := by
  simp [Operation.protocol, List.replicate_succ']

theorem operations_traffic (o : Opening) (served : List Exchange) (current : Option Sending) :
    (calls (Story.traffic o served current).entries).map Call.operation =
      Operation.protocol served.length ++ if current.isSome then [.encrypt] else [] := by
  rw [Story.entries, calls_append, calls_append, List.map_append, List.map_append,
    operations_served]
  cases current <;> rfl

theorem operations_story (story : Story) :
    ∃ n, (story.state ≠ .established → n = 0) ∧
      (calls story.entries).map Call.operation <+: Operation.protocol n := by
  cases story with
  | fresh => exact ⟨0, fun _ => rfl, List.nil_prefix⟩
  | attesting => exact ⟨0, fun _ => rfl, [.verify, .start, .finish], rfl⟩
  | greeting => exact ⟨0, fun _ => rfl, [.finish], rfl⟩
  | traffic o served current =>
    rw [operations_traffic]
    cases current with
    | none => exact ⟨served.length, fun h => absurd rfl h, by simp⟩
    | some => exact ⟨served.length + 1, fun h => absurd rfl h, [.decrypt], by simp [protocol_succ]⟩

theorem operations_ending {story : Story} {tail : List Entry} (h : Ending story tail) :
    ∃ n, (story.state ≠ .established → n = 0) ∧
      (calls (story.entries ++ tail)).map Call.operation <+: Operation.protocol n := by
  cases h with
  | goingOn =>
    rw [List.append_nil]
    exact operations_story story
  | failed h =>
    rw [calls_failed, List.map_append]
    cases h with
    | noEvidence => exact ⟨0, fun _ => rfl, [.verify, .start, .finish], rfl⟩
    | reply =>
      rw [show calls [_] = [] from rfl, List.map_nil, List.append_nil]
      exact operations_story story
    | refused => exact ⟨0, fun _ => rfl, [.start, .finish], rfl⟩
    | noHandshake => exact ⟨0, fun _ => rfl, [.finish], rfl⟩
    | notFinished => exact ⟨0, fun _ => rfl, [], rfl⟩
    | @notSealed o served =>
      refine ⟨served.length + 1, fun h => absurd rfl h, [.decrypt], ?_⟩
      rw [operations_traffic, protocol_succ, List.append_assoc, List.append_assoc]
      rfl
    | @notOpened o served =>
      refine ⟨served.length + 1, fun h => absurd rfl h, [], ?_⟩
      rw [operations_traffic, protocol_succ, List.append_assoc, List.append_assoc]
      rfl

/-! ## Nothing after a failure -/

/-- Nothing is called or sent after an entry that fails. -/
def Halts (state : ChannelState) : List Entry → Prop
  | [] => True
  | e :: log => (e.Fails state → calls log = [] ∧ sentIn log = []) ∧ Halts (e.shows state) log

theorem halts_split {before after : List Entry} {e : Entry} {state : ChannelState}
    (h : Halts state (before ++ e :: after)) (he : e.Fails (before.foldl Entry.shows state)) :
    calls after = [] ∧ sentIn after = [] := by
  induction before generalizing state with
  | nil => exact h.1 he
  | cons e' before ih => exact ih h.2 he

theorem halts_silent {log : List Entry} (state : ChannelState) (hc : calls log = [])
    (hs : sentIn log = []) : Halts state log := by
  induction log generalizing state with
  | nil => trivial
  | cons e log ih =>
    rw [← List.singleton_append, calls_append, List.append_eq_nil_iff] at hc
    rw [← List.singleton_append, sentIn_append, List.append_eq_nil_iff] at hs
    exact ⟨fun _ => ⟨hc.2, hs.2⟩, ih _ hc.2 hs.2⟩

theorem halts_of_deeds {log : List Entry} {state : ChannelState} (h : Halts state (deeds log)) :
    Halts state log := by
  induction log generalizing state with
  | nil => trivial
  | cons e log ih =>
    have hrest : calls (deeds log) = calls log ∧ sentIn (deeds log) = sentIn log :=
      ⟨calls_deeds log, sentIn_deeds log⟩
    rcases e with w | ⟨w | ⟨q, r⟩⟩ | c | s | ⟨q, r⟩ | ⟨w, o⟩
    · exact ⟨fun hf => hf.elim, ih h⟩
    · exact ⟨fun hf => hf.elim, ih h⟩
    all_goals exact ⟨fun hf => hrest.1 ▸ hrest.2 ▸ h.1 hf, ih h.2⟩

theorem halts_served (served : List Exchange) (rest : List Entry) :
    Halts .established (served.flatMap Exchange.entries ++ rest) ↔ Halts .established rest := by
  induction served with
  | nil => rfl
  | cons x served ih =>
    rw [List.flatMap_cons, List.append_assoc, ← ih]
    simp [Exchange.entries, Sending.entries, Halts, Entry.Fails, Entry.shows, Call.Fails,
      Driver.Expected]

theorem halts_story (story : Story) (rest : List Entry) :
    Halts .uninitialized (story.entries ++ rest) ↔ Halts story.state rest := by
  cases story with
  | fresh => rfl
  | attesting a =>
    simp [Story.entries, Attestation.entries, Halts, Entry.Fails, Entry.shows, Call.Fails,
      Story.state]
  | greeting g =>
    simp [Story.entries, Greeting.entries, Attestation.entries, Halts, Entry.Fails, Entry.shows,
      Call.Fails, Driver.Expected, Story.state]
  | traffic o served current =>
    have hopening (rest : List Entry) :
        Halts .uninitialized (o.entries ++ rest) ↔ Halts .established rest := by
      simp [Opening.entries, Greeting.entries, Attestation.entries, Halts, Entry.Fails,
        Entry.shows, Call.Fails, Driver.Expected]
    rw [Story.entries, List.append_assoc, List.append_assoc, hopening, halts_served]
    cases current with
    | none => rfl
    | some x =>
      simp [Sending.entries, Halts, Entry.Fails, Entry.shows, Call.Fails, Story.state]

theorem halts_ending {story : Story} {tail : List Entry} (h : Ending story tail) :
    Halts story.state tail := by
  cases h with
  | goingOn => trivial
  | @failed _ _ _ dropped late h =>
    have hsilent (state : ChannelState) (code : ChannelError) :
        Halts state (aftermath dropped code late) := halts_silent state (by simp) (by simp)
    cases h <;>
      simp [Halts, Entry.Fails, Entry.shows, Call.Fails, Driver.Expected, Story.state, hsilent]

/-! ## What comes first -/

/-- An entry that must wait for the evidence of the peer to be accepted. -/
def Entry.Late : Entry → Prop
  | .called c => c.operation ≠ .attestationRequest ∧ c.operation ≠ .verify
  | .sent _ request => request.kind ≠ .attest
  | _ => False

/-- An attestation up to the evidence that is accepted. -/
def Attestation.accepted (a : Attestation) (answer : Bytes) : List Entry :=
  a.entries ++
    [.handled (.reply a.sequence (.ok (.message (.attest answer)))), .called (.verify answer true)]

/-- A handshake up to the response of the peer. -/
def Greeting.answered (g : Greeting) (response : HandshakeMessage) : List Entry :=
  g.entries ++ [.handled (.reply g.handshake (.ok (.message (.handshake response))))]

theorem not_late_accepted (a : Attestation) (answer : Bytes) :
    ∀ e ∈ a.accepted answer, ¬ e.Late := by
  simp [Attestation.accepted, Attestation.entries, Entry.Late, Call.operation, Message.kind]

theorem not_late_failed {before cause : List Entry} (hbefore : ∀ e ∈ before, ¬ e.Late)
    (hcause : ∀ e ∈ cause, ¬ e.Late) (dropped : List Pending) (code : ChannelError)
    (late : List Pending) : ∀ e ∈ before ++ (cause ++ aftermath dropped code late), ¬ e.Late := by
  have hafter : ∀ e ∈ aftermath dropped code late, ¬ e.Late := by
    simp only [aftermath, List.mem_cons, List.mem_append, List.mem_map]
    rintro e (rfl | ⟨w, -, rfl⟩ | ⟨w, -, rfl⟩) <;> exact id
  exact List.forall_mem_append.mpr ⟨hbefore, List.forall_mem_append.mpr ⟨hcause, hafter⟩⟩

theorem accepted_prefix {story : Story} {tail : List Entry} (h : Ending story tail) {e : Entry}
    (he : e ∈ story.entries ++ tail) (hlate : e.Late) :
    ∃ (a : Attestation) (answer : Bytes), a.accepted answer <+: story.entries ++ tail := by
  cases story with
  | fresh =>
    cases h with
    | goingOn => simp [Story.entries] at he
    | failed h =>
      cases h with
      | noEvidence =>
        refine absurd hlate (not_late_failed ?_ ?_ _ _ _ e he) <;>
          simp [Story.entries, Entry.Late, Call.operation]
      | reply hq => cases hq
  | attesting a =>
    have hstory : ∀ e ∈ a.entries, ¬ e.Late := fun e he =>
      not_late_accepted a [] e (List.mem_append_left _ he)
    cases h with
    | goingOn =>
      rw [List.append_nil] at he
      exact absurd hlate (hstory e he)
    | failed h =>
      cases h with
      | reply => exact absurd hlate (not_late_failed hstory (by simp [Entry.Late]) _ _ _ e he)
      | refused =>
        exact absurd hlate
          (not_late_failed hstory (by simp [Entry.Late, Call.operation]) _ _ _ e he)
      | @noHandshake _ _ answer => exact ⟨a, answer, _, rfl⟩
  | greeting g => exact ⟨g.toAttestation, g.answer, _, rfl⟩
  | traffic o => exact ⟨o.toAttestation, o.answer, _, rfl⟩

theorem greeted_story {story : Story} {response : HandshakeMessage}
    {result : Except CryptoError Unit} (he : .finish response result ∈ calls story.entries) :
    ∃ g : Greeting, g.answered response <+: story.entries := by
  cases story with
  | fresh | attesting | greeting => simp [Story.entries] at he
  | traffic o served current =>
    obtain ⟨rfl, -⟩ : response = o.response ∧ result = .ok () := by
      simpa [Story.entries, calls_served, calls_current] using he
    exact ⟨o.toGreeting, _, rfl⟩

theorem greeted_prefix {story : Story} {tail : List Entry} (h : Ending story tail)
    {response : HandshakeMessage} {result : Except CryptoError Unit}
    (he : .finish response result ∈ calls (story.entries ++ tail)) :
    ∃ g : Greeting, g.answered response <+: story.entries ++ tail := by
  cases h with
  | goingOn =>
    rw [List.append_nil] at he ⊢
    exact greeted_story he
  | failed h =>
    rw [calls_failed] at he
    rcases List.mem_append.mp he with hstory | hcause
    · obtain ⟨g, hg⟩ := greeted_story hstory
      exact ⟨g, hg.trans (List.prefix_append ..)⟩
    · cases h with
      | @notFinished g _ response' =>
        obtain ⟨rfl, -⟩ : response = response' ∧ result = .error _ := by simpa using hcause
        exact ⟨g, _, rfl⟩
      | _ => simp at hcause

theorem opened_prefix {story : Story} {tail : List Entry} (h : Ending story tail) {c : Call}
    (hc : c.operation = .encrypt ∨ c.operation = .decrypt)
    (he : c ∈ calls (story.entries ++ tail)) :
    ∃ o : Opening, o.entries <+: story.entries ++ tail := by
  by_cases hs : story.state = .established
  · cases story with
    | traffic o => exact ⟨o, _, rfl⟩
    | _ => cases hs
  · obtain ⟨n, hn, hoperations⟩ := operations_ending h
    have hmem : c.operation ∈ Operation.protocol 0 :=
      hn hs ▸ hoperations.subset (List.mem_map_of_mem he)
    rcases hc with hc | hc <;> simp [hc, Operation.protocol] at hmem

/-! ## Whose requests are encrypted -/

def plaintexts (log : List Entry) : List Bytes := (calls log).filterMap Call.plaintext?

theorem plaintexts_append (a b : List Entry) :
    plaintexts (a ++ b) = plaintexts a ++ plaintexts b := by
  rw [plaintexts, calls_append, List.filterMap_append]
  rfl

theorem plaintexts_deeds (log : List Entry) : plaintexts (deeds log) = plaintexts log := by
  rw [plaintexts, calls_deeds]
  rfl

theorem plaintexts_story (story : Story) : plaintexts story.entries =
    story.served.map (·.write.request) ++ story.current.toList.map (·.write.request) := by
  have hcurrent : plaintexts ((story.current.map Sending.entries).getD []) =
      story.current.toList.map (·.write.request) := by
    cases story.current <;> rfl
  have hread : Reading plaintexts := ⟨rfl, plaintexts_append⟩
  rw [hread.story (g := fun x => x.write.request) (fun _ => rfl) (fun _ => rfl) (fun _ => rfl)
    (fun _ => rfl), hcurrent]

theorem plaintexts_breaks {story : Story} {w : Pending} {cause : List Entry} {code : ChannelError}
    (h : Breaks story w cause code) :
    story.current.toList.map (·.write.request) ++ plaintexts cause <+: [w.request] := by
  cases h with
  | reply _ _ hw =>
    cases hcurrent : story.current with
    | none => exact List.nil_prefix
    | some x =>
      rw [← hw x hcurrent]
      exact List.prefix_refl _
  | notSealed | notOpened => exact List.prefix_refl _
  | _ => exact List.nil_prefix

theorem plaintexts_told {σ α : Type} {d : Driver σ α} {log : List Entry} (h : Told d log) :
    plaintexts log <+: (taken log).map (·.request) := by
  cases h with
  | alive story h =>
    rw [← plaintexts_deeds, h.deeds, plaintexts_story, h.taken, List.map_append, List.map_map]
    refine (List.prefix_append_right_inj _).mpr ?_
    cases hcurrent : story.current with
    | none => exact List.nil_prefix
    | some x =>
      obtain ⟨ws, hq⟩ := List.head?_eq_some_iff.mp (h.current hcurrent)
      rw [hq]
      exact List.prefix_append [_] _
  | @failed story code dropped late h =>
    obtain ⟨w, cause, hdeeds, htaken, hw, hbreak⟩ := h.whole
    obtain ⟨ws, rfl⟩ := List.head?_eq_some_iff.mp hw
    have hnone : plaintexts (aftermath (w :: ws) code late) = [] := by
      rw [plaintexts, calls_aftermath]
      rfl
    rw [← plaintexts_deeds, hdeeds, plaintexts_append, plaintexts_append, plaintexts_story, hnone,
      List.append_nil, List.append_assoc, htaken, List.map_append, List.map_map]
    refine (List.prefix_append_right_inj _).mpr ((plaintexts_breaks hbreak).trans ?_)
    exact List.prefix_append [_] _

/-! ## The theorem -/

/-- What the entries before a moment must show for the channel to go past the attestation: the
evidence in the reply to the first send was accepted. -/
def Attested (before : List Entry) : Prop :=
  ∃ q evidence answer, (sentIn before).head? = some q ∧
    (requestsIn before).head? = some (.attest evidence) ∧
    (answersIn before).head? = some (q, .ok (.message (.attest answer))) ∧
    .called (.verify answer true) ∈ before

/-- The second send was a handshake, and this is the reply to it. -/
def Greeted (before : List Entry) (response : HandshakeMessage) : Prop :=
  ∃ q message, (sentIn before)[1]? = some q ∧ (requestsIn before)[1]? = some (.handshake message) ∧
    (answersIn before)[1]? = some (q, .ok (.message (.handshake response)))

theorem mem_of_deeds {e : Entry} {log : List Entry} (h : e ∈ deeds log) : e ∈ log :=
  (List.mem_filter.mp h).1

theorem prefix_of_split {log before after part : List Entry} {e : Entry}
    (h : log = before ++ e :: after) (hdeed : e.isDeed = true) (hpart : part <+: deeds log)
    (he : e ∉ part) : part <+: deeds before := by
  obtain ⟨rest, hrest⟩ := hpart
  have hsplit : part ++ rest = deeds before ++ e :: deeds after := by
    rw [hrest, h, deeds_append]
    simp [deeds, hdeed]
  rcases List.append_eq_append_iff.mp hsplit with ⟨more, hbefore, -⟩ | ⟨more, hpart, hmore⟩
  · exact ⟨more, hbefore.symm⟩
  · cases more with
    | nil => exact ⟨[], by simpa using hpart⟩
    | cons e' more =>
      obtain rfl : e = e' := (List.cons.inj hmore).1
      exact absurd (hpart ▸ List.mem_append_right _ List.mem_cons_self) he

theorem attested_of_prefix {a : Attestation} {answer : Bytes} {before : List Entry}
    (h : a.accepted answer <+: deeds before) : Attested before := by
  obtain ⟨rest, hrest⟩ := h
  refine ⟨a.sequence, a.evidence, answer, ?_, ?_, ?_, mem_of_deeds ?_⟩
  · rw [← sentIn_deeds, ← hrest, sentIn_append]
    rfl
  · rw [← requestsIn_deeds, ← hrest, requestsIn_append]
    rfl
  · rw [← answersIn_deeds, ← hrest, answersIn, List.filterMap_append]
    rfl
  · rw [← hrest]
    simp [Attestation.accepted]

theorem greeted_of_prefix {g : Greeting} {response : HandshakeMessage} {before : List Entry}
    (h : g.answered response <+: deeds before) : Greeted before response := by
  obtain ⟨rest, hrest⟩ := h
  refine ⟨g.handshake, g.message, ?_, ?_, ?_⟩
  · rw [← sentIn_deeds, ← hrest, sentIn_append]
    rfl
  · rw [← requestsIn_deeds, ← hrest, requestsIn_append]
    rfl
  · rw [← answersIn_deeds, ← hrest, answersIn, List.filterMap_append]
    rfl

section

variable {story : Story} {tail log before after : List Entry}

theorem called_mem {call : Call} (hdeeds : deeds log = story.entries ++ tail)
    (hsplit : log = before ++ .called call :: after) : call ∈ calls (story.entries ++ tail) := by
  rw [← hdeeds, calls_deeds, mem_calls, hsplit]
  exact List.mem_append_right _ List.mem_cons_self

theorem attested_of_late {e : Entry} (hdeeds : deeds log = story.entries ++ tail)
    (hending : Ending story tail) (hsplit : log = before ++ e :: after) (hdeed : e.isDeed = true)
    (he : e.Late) : Attested before := by
  have hmem : e ∈ story.entries ++ tail := by
    rw [← hdeeds, hsplit, deeds_append]
    exact List.mem_append_right _ (by simp [deeds, hdeed])
  obtain ⟨a, answer, hprefix⟩ := accepted_prefix hending hmem he
  rw [← hdeeds] at hprefix
  apply attested_of_prefix (prefix_of_split hsplit hdeed hprefix ?_)
  exact fun hin => not_late_accepted a answer e hin he

theorem greeted_of_finish {response : HandshakeMessage} {result : Except CryptoError Unit}
    (hdeeds : deeds log = story.entries ++ tail) (hending : Ending story tail)
    (hsplit : log = before ++ .called (.finish response result) :: after) :
    Greeted before response := by
  obtain ⟨g, hprefix⟩ := greeted_prefix hending (called_mem hdeeds hsplit)
  rw [← hdeeds] at hprefix
  apply greeted_of_prefix (prefix_of_split hsplit rfl hprefix ?_)
  simp [Greeting.answered, Greeting.entries, Attestation.entries]

theorem finished_of_traffic {call : Call} (hdeeds : deeds log = story.entries ++ tail)
    (hending : Ending story tail) (hsplit : log = before ++ .called call :: after)
    (hoperation : call.operation = .encrypt ∨ call.operation = .decrypt) :
    ∃ response, .called (.finish response (.ok ())) ∈ before := by
  obtain ⟨o, hprefix⟩ := opened_prefix hending hoperation (called_mem hdeeds hsplit)
  rw [← hdeeds] at hprefix
  have hnot : Entry.called call ∉ o.entries := by
    intro hin
    rcases hoperation with ho | ho <;> cases call <;>
      simp [Opening.entries, Greeting.entries, Attestation.entries, Call.operation] at hin ho
  obtain ⟨rest, hrest⟩ := prefix_of_split hsplit rfl hprefix hnot
  refine ⟨o.response, mem_of_deeds ?_⟩
  rw [← hrest]
  simp [Opening.entries]

theorem halts_told (hdeeds : deeds log = story.entries ++ tail) (hending : Ending story tail) :
    Halts .uninitialized log := by
  apply halts_of_deeds
  rw [hdeeds, halts_story]
  exact halts_ending hending

end

namespace Channel

variable {τ σ α : Type}

/-- How a channel treats its attester, its session and its transport. -/
structure Orderly (c : Channel τ σ α) : Prop where
  /-- Each call of the opening is made once at most; then encryption and decryption take turns. -/
  order : ∃ n, (calls c.history).map Call.operation <+: Operation.protocol n
  attested : ∀ before result after, c.history = before ++ .called (.start result) :: after →
    Attested before
  gate : ∀ before q request after, c.history = before ++ .sent q request :: after →
    request.kind ≠ .attest → Attested before
  greeted : ∀ before response result after,
    c.history = before ++ .called (.finish response result) :: after → Greeted before response
  keyed : ∀ before call after, c.history = before ++ .called call :: after →
    call.operation = .encrypt ∨ call.operation = .decrypt →
    ∃ response, .called (.finish response (.ok ())) ∈ before
  /-- The requests of the writes are encrypted in turn. -/
  own : plaintexts c.history <+: c.submitted.map (·.request)
  halts : ∀ before e after, c.history = before ++ e :: after → e.Fails (shownAfter before) →
    calls after = [] ∧ sentIn after = []

theorem deeds_course (c : Channel τ σ α) : deeds c.course = deeds c.history := by
  rw [deeds, deeds, course, List.filter_filter]
  congr 1
  funext e
  cases e <;> simp [Entry.isDeed, Entry.submission?]

theorem orderly_of_told {c : Channel τ σ α} {d : Driver σ α} (h : Told d c.course)
    (hown : taken c.course <+: c.submitted) : Orderly c := by
  obtain ⟨story, tail, hdeeds, hending⟩ := deeds_told h
  rw [deeds_course] at hdeeds
  refine ⟨?_, ?_, ?_, ?_, ?_, ?_, ?_⟩
  · obtain ⟨n, -, hn⟩ := operations_ending hending
    exact ⟨n, by rwa [← calls_deeds, hdeeds]⟩
  · intro before result after hsplit
    exact attested_of_late hdeeds hending hsplit rfl (by simp [Entry.Late, Call.operation])
  · intro before q request after hsplit hkind
    exact attested_of_late hdeeds hending hsplit rfl hkind
  · intro before response result after hsplit
    exact greeted_of_finish hdeeds hending hsplit
  · intro before call after hsplit hoperation
    exact finished_of_traffic hdeeds hending hsplit hoperation
  · rw [← plaintexts_deeds, ← deeds_course, plaintexts_deeds]
    exact (plaintexts_told h).trans (hown.map _)
  · intro before e after hsplit he
    exact halts_split (hsplit ▸ halts_told hdeeds hending) he

/-- **Every run keeps the order of the calls.** -/
theorem orderly_after [Transport τ] [CipherSession σ] [Attester α] (t : τ) (s₀ : σ) (a₀ : α)
    (moves : List Move) : Orderly ((new ⟨t, []⟩ s₀ a₀).after moves) := by
  obtain ⟨d, h⟩ := live_after t s₀ a₀ moves
  exact orderly_of_told h.told (h.fifo ▸ List.prefix_append ..)

end Channel

end SealedLink
