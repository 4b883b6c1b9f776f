import SealedLink.Channel.Basic
import SealedLink.Proofs.Channel.DriverStep

/-!
# The story of a channel

What a driver does is always the same story: attestation, handshake, one exchange after another,
and perhaps a failure. `Story` is the part before a failure, with all the data that went back and
forth, and `Told` says that a log tells such a story and that the driver stands where it ends.
-/

namespace SealedLink

/-! ## Reading a log -/

namespace Entry

def ofAction : Action → Entry
  | .call c => .called c
  | .publish state => .published state
  | .send q request => .sent q request
  | .resolve w outcome => .resolved w outcome

def submission? : Entry → Option Pending
  | .submitted w => some w
  | _ => none

def taken? : Entry → Option Pending
  | .handled (.write w) => some w
  | _ => none

def call? : Entry → Option Call
  | .called c => some c
  | _ => none

def outcome? : Entry → Option (Pending × Outcome)
  | .resolved w outcome => some (w, outcome)
  | _ => none

def sequence? : Entry → Option UInt64
  | .sent q _ => some q
  | _ => none

def request? : Entry → Option Request
  | .sent _ request => some request
  | _ => none

def answered? : Entry → Option UInt64
  | .handled (.reply q _) => some q
  | _ => none

/-- Everything but the coming of writes. -/
def isDeed : Entry → Bool
  | .submitted _ | .handled (.write _) => false
  | _ => true

end Entry

def taken (log : List Entry) : List Pending := log.filterMap Entry.taken?

def calls (log : List Entry) : List Call := log.filterMap Entry.call?

def outcomesOf (log : List Entry) : List (Pending × Outcome) := log.filterMap Entry.outcome?

def sentIn (log : List Entry) : List UInt64 := log.filterMap Entry.sequence?

def requestsIn (log : List Entry) : List Request := log.filterMap Entry.request?

def answeredIn (log : List Entry) : List UInt64 := log.filterMap Entry.answered?

def deeds (log : List Entry) : List Entry := log.filter Entry.isDeed

@[simp] theorem taken_append (a b : List Entry) : taken (a ++ b) = taken a ++ taken b :=
  List.filterMap_append ..

@[simp] theorem calls_append (a b : List Entry) : calls (a ++ b) = calls a ++ calls b :=
  List.filterMap_append ..

@[simp] theorem outcomesOf_append (a b : List Entry) :
    outcomesOf (a ++ b) = outcomesOf a ++ outcomesOf b := List.filterMap_append ..

@[simp] theorem sentIn_append (a b : List Entry) : sentIn (a ++ b) = sentIn a ++ sentIn b :=
  List.filterMap_append ..

@[simp] theorem requestsIn_append (a b : List Entry) :
    requestsIn (a ++ b) = requestsIn a ++ requestsIn b := List.filterMap_append ..

@[simp] theorem answeredIn_append (a b : List Entry) :
    answeredIn (a ++ b) = answeredIn a ++ answeredIn b := List.filterMap_append ..

@[simp] theorem deeds_append (a b : List Entry) : deeds (a ++ b) = deeds a ++ deeds b :=
  List.filter_append ..

@[simp] theorem taken_ofAction (actions : List Action) : taken (actions.map Entry.ofAction) = [] := by
  simp only [taken, List.filterMap_map, List.filterMap_eq_nil_iff]
  intro a _
  cases a <;> rfl

@[simp] theorem deeds_ofAction (actions : List Action) :
    deeds (actions.map Entry.ofAction) = actions.map Entry.ofAction := by
  simp only [deeds, List.filter_eq_self, List.mem_map]
  rintro _ ⟨a, _, rfl⟩
  cases a <;> rfl

theorem sentIn_ofAction (actions : List Action) :
    sentIn (actions.map Entry.ofAction) = sequences actions := by
  simp only [sentIn, sequences, List.filterMap_map]
  congr 1
  funext a
  cases a <;> rfl

/-! What can be read off the deeds alone. -/

theorem filterMap_deeds {β : Type} (f : Entry → Option β) (hs : ∀ w, f (.submitted w) = none)
    (hw : ∀ w, f (.handled (.write w)) = none) (log : List Entry) :
    (deeds log).filterMap f = log.filterMap f := by
  rw [deeds, List.filterMap_filter]
  congr 1
  funext e
  rcases e with w | ⟨w | _⟩ | _ | _ | _ | _
  · exact (hs w).symm
  · exact (hw w).symm
  all_goals rfl

theorem outcomesOf_deeds (log : List Entry) : outcomesOf (deeds log) = outcomesOf log :=
  filterMap_deeds _ (fun _ => rfl) (fun _ => rfl) log

theorem calls_deeds (log : List Entry) : calls (deeds log) = calls log :=
  filterMap_deeds _ (fun _ => rfl) (fun _ => rfl) log

theorem requestsIn_deeds (log : List Entry) : requestsIn (deeds log) = requestsIn log :=
  filterMap_deeds _ (fun _ => rfl) (fun _ => rfl) log

/-! ## The story before a failure -/

/-- An encrypted request under way. -/
structure Sending where
  write : Pending
  sequence : UInt64
  sealed : Bytes

/-- An encrypted request and its answer. -/
structure Exchange extends Sending where
  answer : Bytes
  opened : Bytes

structure Attestation where
  sequence : UInt64
  evidence : Bytes

structure Greeting extends Attestation where
  answer : Bytes
  handshake : UInt64
  message : HandshakeMessage

structure Opening extends Greeting where
  response : HandshakeMessage

inductive Story where
  | fresh
  | attesting (a : Attestation)
  | greeting (g : Greeting)
  | traffic (o : Opening) (served : List Exchange) (current : Option Sending)

def Sending.entries (x : Sending) : List Entry :=
  [.called (.encrypt x.write.request (.ok x.sealed)), .sent x.sequence (.encrypted x.sealed)]

def Exchange.entries (x : Exchange) : List Entry :=
  x.toSending.entries ++
    [.handled (.reply x.sequence (.ok (.message (.encrypted x.answer)))),
      .called (.decrypt x.answer (.ok x.opened)), .resolved x.write (.ok x.opened)]

def Attestation.entries (a : Attestation) : List Entry :=
  [.called (.attestationRequest (some a.evidence)), .published .performingAttestation,
    .sent a.sequence (.attest a.evidence)]

def Greeting.entries (g : Greeting) : List Entry :=
  g.toAttestation.entries ++
    [.handled (.reply g.sequence (.ok (.message (.attest g.answer)))),
      .called (.verify g.answer true), .called (.start (.ok g.message)),
      .published .performingHandshake, .sent g.handshake (.handshake g.message)]

def Opening.entries (o : Opening) : List Entry :=
  o.toGreeting.entries ++
    [.handled (.reply o.handshake (.ok (.message (.handshake o.response)))),
      .called (.finish o.response (.ok ())), .published .established]

namespace Story

def entries : Story → List Entry
  | fresh => []
  | attesting a => a.entries
  | greeting g => g.entries
  | traffic o served current =>
    o.entries ++ served.flatMap Exchange.entries ++ (current.map Sending.entries).getD []

def state : Story → ChannelState
  | fresh => .uninitialized
  | attesting _ => .performingAttestation
  | greeting _ => .performingHandshake
  | traffic .. => .established

def served : Story → List Exchange
  | traffic _ served _ => served
  | _ => []

def current : Story → Option Sending
  | traffic _ _ current => current
  | _ => none

def outstanding : Story → Option UInt64
  | fresh => none
  | attesting a => some a.sequence
  | greeting g => some g.handshake
  | traffic _ _ current => current.map Sending.sequence

/-- The queue that goes with a story: it is empty when the driver has nothing to do, and its head
is the request under way. -/
def Queued : Story → List Pending → Prop
  | fresh, queue => queue = []
  | attesting _, queue => queue ≠ []
  | greeting _, queue => queue ≠ []
  | traffic _ _ none, queue => queue = []
  | traffic _ _ (some x), queue => queue.head? = some x.write

end Story

/-! ### Reading a story -/

/-- Something that is read off a log part by part. -/
structure Reading {β : Type} (f : List Entry → List β) : Prop where
  nil : f [] = []
  append : ∀ a b, f (a ++ b) = f a ++ f b

section

variable {β : Type} {f : List Entry → List β} {g : Exchange → β}

theorem Reading.served (h : Reading f) (hx : ∀ x : Exchange, f x.entries = [g x])
    (served : List Exchange) : f (served.flatMap Exchange.entries) = served.map g := by
  induction served with
  | nil => exact h.nil
  | cons x served ih =>
    rw [List.flatMap_cons, h.append, hx, ih]
    rfl

theorem Reading.story (h : Reading f) (hx : ∀ x : Exchange, f x.entries = [g x])
    (ha : ∀ a : Attestation, f a.entries = []) (hg : ∀ g : Greeting, f g.entries = [])
    (ho : ∀ o : Opening, f o.entries = []) (story : Story) : f story.entries =
      story.served.map g ++ f ((story.current.map Sending.entries).getD []) := by
  have hnil : f [] = [] := h.nil
  cases story with
  | fresh => simp [Story.entries, Story.served, Story.current, hnil]
  | attesting a => simp [Story.entries, Story.served, Story.current, hnil, ha]
  | greeting g => simp [Story.entries, Story.served, Story.current, hnil, hg]
  | traffic o served current =>
    rw [Story.entries, h.append, h.append, ho, h.served hx]
    rfl

end

/-! ## Failures -/

/-- The code of a reply that is an error or does not fit. -/
def ChannelState.replyError : ChannelState → ChannelError
  | .performingAttestation => .attestationFailed
  | .performingHandshake => .handshakeFailed
  | .established => .networkError
  | .uninitialized | .permanentFailure => .genericError

/-- The ways in which a story ends in a failure: the oldest write that fails, the entries that
bring it about, and the code that the writes fail with. -/
inductive Breaks : Story → Pending → List Entry → ChannelError → Prop where
  | noEvidence {w} : Breaks .fresh w [.called (.attestationRequest none)] .attestationFailed
  | reply {story w q r} (hq : story.outstanding = some q) (hr : ¬ Driver.Expected story.state r)
      (hw : ∀ x, story.current = some x → x.write = w) :
      Breaks story w [.handled (.reply q r)] story.state.replyError
  | refused {a w answer} : Breaks (.attesting a) w
      [.handled (.reply a.sequence (.ok (.message (.attest answer)))),
        .called (.verify answer false)] .attestationFailed
  | noHandshake {a w answer e} : Breaks (.attesting a) w
      [.handled (.reply a.sequence (.ok (.message (.attest answer)))),
        .called (.verify answer true), .called (.start (.error e))] .handshakeFailed
  | notFinished {g w response e} : Breaks (.greeting g) w
      [.handled (.reply g.handshake (.ok (.message (.handshake response)))),
        .called (.finish response (.error e))] .handshakeFailed
  | notSealed {o served w e} : Breaks (.traffic o served none) w
      [.called (.encrypt w.request (.error e))] .encryptionFailed
  | notOpened {o served x answer e} : Breaks (.traffic o served (some x)) x.write
      [.handled (.reply x.sequence (.ok (.message (.encrypted answer)))),
        .called (.decrypt answer (.error e))] .decryptionFailed

/-! ## Logs that tell a story -/

section

variable {σ α : Type}

structure Alive (d : Driver σ α) (log : List Entry) (story : Story) : Prop where
  deeds : deeds log = story.entries
  taken : taken log = story.served.map (·.write) ++ d.queue
  state : d.state = story.state
  outstanding : d.outstanding = story.outstanding
  queue : story.Queued d.queue

/-- A log up to a failure, and after it: the writes taken before fail with its code, and those that
come later with the generic one. -/
structure Failed (log : List Entry) (story : Story) (code : ChannelError)
    (dropped late : List Pending) : Prop where
  intro ::
  split : ∃ before after w cause, log = before ++ .published .permanentFailure :: after ∧
    SealedLink.deeds before = story.entries ++ cause ∧
    SealedLink.taken before = story.served.map (·.write) ++ dropped ∧
    dropped.head? = some w ∧ Breaks story w cause code ∧
    SealedLink.deeds after = dropped.map (.resolved · (.error code)) ++
      late.map (.resolved · (.error .genericError)) ∧
    SealedLink.taken after = late

/-- What follows a failure. -/
def aftermath (dropped : List Pending) (code : ChannelError) (late : List Pending) : List Entry :=
  .published .permanentFailure ::
    (dropped.map (.resolved · (.error code)) ++ late.map (.resolved · (.error .genericError)))

theorem Failed.whole {log : List Entry} {story : Story} {code : ChannelError}
    {dropped late : List Pending} (h : Failed log story code dropped late) : ∃ w cause,
    SealedLink.deeds log = story.entries ++ (cause ++ aftermath dropped code late) ∧
    SealedLink.taken log = story.served.map (·.write) ++ (dropped ++ late) ∧
    dropped.head? = some w ∧ Breaks story w cause code := by
  obtain ⟨before, after, w, cause, rfl, hbefore, htaken, hw, hbreak, hafter, hlate⟩ := h
  refine ⟨w, cause, ?_, ?_, hw, hbreak⟩
  · rw [List.append_cons, deeds_append, deeds_append, hbefore, hafter, List.append_assoc,
      List.append_assoc]
    rfl
  · have hnothing : SealedLink.taken [.published .permanentFailure] = [] := rfl
    rw [List.append_cons, taken_append, taken_append, htaken, hnothing, hlate, List.append_nil,
      List.append_assoc]

inductive Told (d : Driver σ α) (log : List Entry) : Prop where
  | alive (story : Story) (h : Alive d log story)
  | failed {story code dropped late} (h : Failed log story code dropped late)
      (state : d.state = .permanentFailure) (outstanding : d.outstanding = none)
      (queue : d.queue = [])

theorem deeds_reply (q : UInt64) (r : TransportResult) :
    deeds [.handled (.reply q r)] = [.handled (.reply q r)] := rfl

theorem taken_reply (q : UInt64) (r : TransportResult) : taken [.handled (.reply q r)] = [] := rfl

theorem deeds_write (w : Pending) : deeds [.handled (.write w)] = [] := rfl

theorem taken_write (w : Pending) : taken [.handled (.write w)] = [w] := rfl

theorem told_fresh (d : Driver σ α) (hs : d.state = .uninitialized) (ho : d.outstanding = none)
    (hq : d.queue = []) : Told d [] :=
  .alive .fresh ⟨rfl, by simp [taken, Story.served, hq], hs, ho, hq⟩

theorem told_failAll {d : Driver σ α} (log : List Entry) {story : Story} {w : Pending}
    {cause : List Entry} {queue : List Pending} {code : ChannelError}
    (hd : deeds log = story.entries ++ cause)
    (ht : taken log = story.served.map (·.write) ++ queue) (hw : queue.head? = some w)
    (hb : Breaks story w cause code) :
    Told d.shut (log ++ (Driver.failActions queue code).map Entry.ofAction) := by
  have hf : Failed (log ++ (Driver.failActions queue code).map Entry.ofAction) story code queue [] := by
    refine ⟨log, queue.map (.resolved · (.error code)), w, cause, ?_, hd, ht, hw, hb, ?_, ?_⟩
    · simp [Driver.failActions, Entry.ofAction, Function.comp_def]
    · have := deeds_ofAction (queue.map fun w => .resolve w (.error code))
      simpa [Function.comp_def, Entry.ofAction] using this
    · have := taken_ofAction (queue.map fun w => .resolve w (.error code))
      simpa [Function.comp_def, Entry.ofAction] using this
  exact .failed hf rfl rfl rfl

theorem taken_handled (log : List Entry) (e : Event) (actions : List Action) :
    taken (log ++ .handled e :: actions.map Entry.ofAction) = taken log ++ taken [.handled e] := by
  rw [List.append_cons, taken_append, taken_append, taken_ofAction, List.append_nil]

theorem sentIn_handled (log : List Entry) (e : Event) (actions : List Action) :
    sentIn (log ++ .handled e :: actions.map Entry.ofAction) = sentIn log ++ sequences actions := by
  rw [List.append_cons, sentIn_append, sentIn_append, sentIn_ofAction]
  exact congrArg (· ++ _) (List.append_nil _)

theorem deeds_handled (log : List Entry) (e : Event) (actions : List Action) :
    deeds (log ++ .handled e :: actions.map Entry.ofAction) =
      deeds log ++ deeds [.handled e] ++ actions.map Entry.ofAction := by
  rw [List.append_cons, deeds_append, deeds_append, deeds_ofAction]

theorem filterMap_aftermath {β : Type} (f : Entry → Option β)
    (hp : f (.published .permanentFailure) = none)
    (hr : ∀ w outcome, f (.resolved w outcome) = none) (dropped : List Pending)
    (code : ChannelError) (late : List Pending) :
    (aftermath dropped code late).filterMap f = [] := by
  have hresolved (ws : List Pending) (outcome : Outcome) :
      (ws.map (.resolved · outcome)).filterMap f = [] := by
    rw [List.filterMap_map]
    exact List.filterMap_eq_nil_iff.mpr fun _ _ => hr ..
  rw [aftermath, List.filterMap_cons_none hp, List.filterMap_append, hresolved, hresolved]
  rfl

@[simp] theorem calls_aftermath (dropped : List Pending) (code : ChannelError)
    (late : List Pending) : calls (aftermath dropped code late) = [] :=
  filterMap_aftermath _ rfl (fun _ _ => rfl) dropped code late

@[simp] theorem sentIn_aftermath (dropped : List Pending) (code : ChannelError)
    (late : List Pending) : sentIn (aftermath dropped code late) = [] :=
  filterMap_aftermath _ rfl (fun _ _ => rfl) dropped code late

@[simp] theorem requestsIn_aftermath (dropped : List Pending) (code : ChannelError)
    (late : List Pending) : requestsIn (aftermath dropped code late) = [] :=
  filterMap_aftermath _ rfl (fun _ _ => rfl) dropped code late

/-! ### Which story it is -/

theorem Alive.of_uninitialized {d : Driver σ α} {log : List Entry} {story : Story}
    (h : Alive d log story) (hs : d.state = .uninitialized) : story = .fresh := by
  have hst := hs.symm.trans h.state
  cases story <;> cases hst
  rfl

theorem Alive.of_attesting {d : Driver σ α} {log : List Entry} {story : Story}
    (h : Alive d log story) (hs : d.state = .performingAttestation) :
    ∃ a, story = .attesting a := by
  have hst := hs.symm.trans h.state
  cases story <;> cases hst
  exact ⟨_, rfl⟩

theorem Alive.of_greeting {d : Driver σ α} {log : List Entry} {story : Story}
    (h : Alive d log story) (hs : d.state = .performingHandshake) : ∃ g, story = .greeting g := by
  have hst := hs.symm.trans h.state
  cases story <;> cases hst
  exact ⟨_, rfl⟩

theorem Alive.of_established {d : Driver σ α} {log : List Entry} {story : Story}
    (h : Alive d log story) (hs : d.state = .established) :
    ∃ o served current, story = .traffic o served current := by
  have hst := hs.symm.trans h.state
  cases story <;> cases hst
  exact ⟨_, _, _, rfl⟩

theorem Alive.not_failed {d : Driver σ α} {log : List Entry} {story : Story}
    (h : Alive d log story) : d.state ≠ .permanentFailure := by
  rw [h.state]
  cases story <;> simp [Story.state]

theorem Alive.head {d : Driver σ α} {log : List Entry} {story : Story} {q : UInt64}
    (h : Alive d log story) (ho : d.outstanding = some q) : ∃ w, d.queue.head? = some w := by
  have hq := h.queue
  have hout := h.outstanding
  rw [ho] at hout
  match story with
  | .fresh => simp [Story.outstanding] at hout
  | .attesting _ | .greeting _ => exact Option.isSome_iff_exists.mp (List.isSome_head?.mpr hq)
  | .traffic _ _ none => simp [Story.outstanding] at hout
  | .traffic _ _ (some x) => exact ⟨x.write, hq⟩

theorem Alive.rests {d : Driver σ α} {log : List Entry} {story : Story} (h : Alive d log story)
    (ho : d.outstanding = none) : d.queue = [] := by
  have hqueue := h.queue
  have hout := h.outstanding.symm.trans ho
  match story with
  | .fresh | .traffic _ _ none => exact hqueue
  | .attesting _ | .greeting _ | .traffic _ _ (some _) => cases hout

theorem Alive.current {d : Driver σ α} {log : List Entry} {story : Story} {x : Sending}
    (h : Alive d log story) (hx : story.current = some x) : d.queue.head? = some x.write := by
  have hq := h.queue
  match story with
  | .fresh | .attesting _ | .greeting _ | .traffic _ _ none => cases hx
  | .traffic _ _ (some y) =>
    obtain rfl : y = x := Option.some.inj hx
    exact hq

end

theorem Breaks.current {story : Story} {w : Pending} {cause : List Entry} {code : ChannelError}
    {x : Sending} (h : Breaks story w cause code) (hx : story.current = some x) : x.write = w := by
  cases h with
  | reply _ _ hw => exact hw x hx
  | notOpened =>
    cases hx
    rfl
  | _ => cases hx

end SealedLink
