import Mathlib.Data.List.Perm.Basic
import SealedLink.Proofs.Channel.Telling
import SealedLink.Proofs.Channel.Calls

/-!
# Runs of a live channel

A run is a list of moves: writes, work with futures and handles, answers of the transport and
events taken by the driver, in any order. The transport keeps account of its callbacks: each one
is called or dropped once, inside the send or in a later move, or stays.
-/

namespace SealedLink

/-! ## A transport and its callbacks -/

/-- A transport that knows which callbacks it has neither called nor dropped, the oldest first. A
callback is known by the sequence number of its send. -/
class Accounts (τ : Type) extends Transport τ where
  held : τ → List UInt64
  held_send : ∀ t q request, held (Transport.send t q request).2 =
    held t ++ if (Transport.send t q request).1.isNone then [q] else []

/-- Any transport, with an account of its callbacks. -/
structure Held (τ : Type) where
  transport : τ
  callbacks : List UInt64 := []
  deriving DecidableEq

def Held.send {τ : Type} [Transport τ] (h : Held τ) (q : UInt64) (request : Request) :
    Option TransportResult × Held τ :=
  match Transport.send h.transport q request with
  | (some result, t) => (some result, ⟨t, h.callbacks⟩)
  | (none, t) => (none, ⟨t, h.callbacks ++ [q]⟩)

instance {τ : Type} [Transport τ] : Accounts (Held τ) where
  send := Held.send
  held := Held.callbacks
  held_send h q request := by
    unfold Held.send
    split <;> simp

/-! ## What is read off a channel -/

namespace Channel

variable {τ σ α : Type}

def history (c : Channel τ σ α) : List Entry := c.log.reverse

/-- The writes in the order of their submission. -/
def submitted (c : Channel τ σ α) : List Pending := c.history.filterMap Entry.submission?

/-- What the driver did, from the log. -/
def course (c : Channel τ σ α) : List Entry := c.history.filter (·.submission?.isNone)

end Channel

def Event.write? : Event → Option Pending
  | .write w => some w
  | .reply .. => none

def Event.reply? : Event → Option UInt64
  | .write _ => none
  | .reply q _ => some q

namespace Channel

variable {τ σ α : Type}

def waiting (c : Channel τ σ α) : List Pending := c.events.filterMap Event.write?

@[simp] theorem history_record (c : Channel τ σ α) (e : Entry) :
    (c.record e).history = c.history ++ [e] := List.reverse_cons

@[simp] theorem course_record (c : Channel τ σ α) (e : Entry) :
    (c.record e).course = c.course ++ [e].filter (·.submission?.isNone) := by
  simp [course]

@[simp] theorem submitted_record (c : Channel τ σ α) (e : Entry) :
    (c.record e).submitted = c.submitted ++ [e].filterMap Entry.submission? := by
  simp [submitted]

def submit (c : Channel τ σ α) (w : Pending) : Channel τ σ α :=
  { c with
    submissions := c.submissions + 1
    log := .submitted w :: c.log
    events := c.events ++ [.write w] }

theorem submitPlan_write {c : Channel τ σ α} (h : c.accepting = true) (request : Bytes)
    (whenResolved rest : Plan) : submitPlan (.write request whenResolved rest) c =
      submitPlan rest (c.submit ⟨c.submissions, request, .callback whenResolved⟩) := by
  simp only [submitPlan, record, post, h, if_true]
  rw [submit, h]

theorem writeFuture_submit {c : Channel τ σ α} (h : c.accepting = true) (request : Bytes) :
    c.writeFuture request =
      { c with futures := c.futures ++ [(c.submissions, none)] }.submit
        ⟨c.submissions, request, .future⟩ := by
  simp only [writeFuture, record, post, h, if_true, submit]

/-- The channel when the driver has taken an event and has not acted yet. -/
def take [CipherSession σ] [Attester α] (c : Channel τ σ α) (d : Driver σ α) (e : Event)
    (rest : List Event) : Channel τ σ α :=
  { c with driver := some (d.handle e).1, events := rest }.record (.handled e)

theorem course_take [CipherSession σ] [Attester α] (c : Channel τ σ α) (d : Driver σ α)
    (e : Event) (rest : List Event) : (c.take d e rest).course = c.course ++ [.handled e] := by
  simp [take, course, history, record, Entry.submission?]

theorem submitted_take [CipherSession σ] [Attester α] (c : Channel τ σ α) (d : Driver σ α)
    (e : Event) (rest : List Event) : (c.take d e rest).submitted = c.submitted := by
  simp [take, submitted, history, record, Entry.submission?]

/-- The callbacks that may still be called, and the replies in the event queue. -/
def due [Accounts τ] (c : Channel τ σ α) : List UInt64 :=
  Accounts.held c.transport ++ c.events.filterMap Event.reply?

/-! ## What writes leave alone -/

/-- What holds between a channel and what becomes of it when writes are made and resolved. -/
structure Tolerates (R : Channel τ σ α → Channel τ σ α → Prop) : Prop where
  refl : ∀ c, R c c
  trans : ∀ {c c' c''}, R c c' → R c' c'' → R c c''
  submitted : ∀ (c : Channel τ σ α) w,
    R c ({ c with submissions := c.submissions + 1 }.record (.submitted w))
  post : ∀ c e, R c (c.post e)
  resolved : ∀ (c : Channel τ σ α) w outcome, R c (c.record (.resolved w outcome))
  fill : ∀ c number outcome, R c (c.fill number outcome)

section

variable {R : Channel τ σ α → Channel τ σ α → Prop}

theorem Tolerates.plan (h : Tolerates R) (plan : Plan) (c : Channel τ σ α) :
    R c (submitPlan plan c) := by
  induction plan generalizing c with
  | nothing => exact h.refl c
  | write request whenResolved rest ih ih' =>
    unfold submitPlan
    dsimp only
    split
    · apply h.trans (h.submitted c _)
      apply h.trans (h.post _ _)
      exact ih' _
    · apply h.trans (h.submitted c _)
      apply h.trans (h.resolved _ _ _)
      apply h.trans (ih _)
      exact ih' _

theorem Tolerates.resolve (h : Tolerates R) (c : Channel τ σ α) (w : Pending) (outcome : Outcome) :
    R c (c.resolve w outcome) := by
  unfold Channel.resolve
  split
  · exact h.trans (h.resolved c w outcome) (h.plan _ _)
  · exact h.trans (h.resolved c w outcome) (h.fill _ _ _)

theorem Tolerates.foldl (h : Tolerates R) {β : Type} {f : Channel τ σ α → β → Channel τ σ α}
    (hf : ∀ c b, R c (f c b)) (l : List β) (c : Channel τ σ α) : R c (l.foldl f c) := by
  induction l generalizing c with
  | nil => exact h.refl c
  | cons b l ih => exact h.trans (hf c b) (ih _)

end

/-! ### Histories grow -/

theorem history_grows_record (c : Channel τ σ α) (e : Entry) :
    c.history <+: (c.record e).history := by
  rw [history_record]
  exact List.prefix_append ..

@[simp] theorem history_post (c : Channel τ σ α) (e : Event) : (c.post e).history = c.history := by
  unfold post
  split <;> rfl

theorem history_tolerates : Tolerates fun c c' : Channel τ σ α => c.history <+: c'.history where
  refl _ := List.prefix_refl _
  trans := List.IsPrefix.trans
  submitted c w := history_grows_record { c with submissions := c.submissions + 1 } (.submitted w)
  post c e := (history_post c e).symm ▸ List.prefix_refl _
  resolved c _ _ := c.history_grows_record _
  fill _ _ _ := List.prefix_refl _

theorem history_grows_perform [Transport τ] (c : Channel τ σ α) (a : Action) :
    c.history <+: (c.perform a).history := by
  cases a with
  | call call => exact c.history_grows_record _
  | publish state => exact { c with published := state }.history_grows_record _
  | resolve w outcome => exact history_tolerates.resolve c w outcome
  | send q request =>
    rcases hsend : Transport.send c.transport q request with ⟨answer, t⟩
    have hsent : c.history <+: ({ c with transport := t }.record (.sent q request)).history :=
      { c with transport := t }.history_grows_record _
    simp only [perform, hsend]
    cases answer with
    | none => exact hsent
    | some result => exact (history_post _ _).symm ▸ hsent

/-! ### The transport and the handles stay the same -/

structure Keeps (c c' : Channel τ σ α) : Prop where
  transport : c'.transport = c.transport
  handles : c'.handles = c.handles

theorem Keeps.trans {c c' c'' : Channel τ σ α} (h : Keeps c c') (h' : Keeps c' c'') :
    Keeps c c'' :=
  ⟨h'.transport.trans h.transport, h'.handles.trans h.handles⟩

theorem keeps_post (c : Channel τ σ α) (e : Event) : Keeps c (c.post e) := by
  unfold post
  split <;> exact ⟨rfl, rfl⟩

theorem keeps_tolerates : Tolerates (@Keeps τ σ α) where
  refl _ := ⟨rfl, rfl⟩
  trans := Keeps.trans
  submitted _ _ := ⟨rfl, rfl⟩
  post := keeps_post
  resolved _ _ _ := ⟨rfl, rfl⟩
  fill _ _ _ := ⟨rfl, rfl⟩

theorem keeps_submitPlan (plan : Plan) (c : Channel τ σ α) : Keeps c (submitPlan plan c) :=
  keeps_tolerates.plan plan c

theorem keeps_writeFuture (c : Channel τ σ α) (request : Bytes) :
    Keeps c (c.writeFuture request) := by
  have hsubmitted (w : Pending) (futures : List (Nat × Option Outcome)) :
      Keeps c ({ c with submissions := c.submissions + 1, futures := futures }.record
        (.submitted w)) := ⟨rfl, rfl⟩
  simp only [writeFuture]
  split
  · exact (hsubmitted ..).trans (keeps_post ..)
  · exact (hsubmitted ..).trans (keeps_tolerates.resolve ..)

theorem keeps_poll (c : Channel τ σ α) (number : Nat) : Keeps c (c.poll number).2 := by
  unfold poll
  split <;> exact ⟨rfl, rfl⟩

/-! ## Effects of actions

What a live channel does when it carries out actions of its driver. Writes made by callbacks come
in between; they go to the end of the event queue.
-/

variable [Accounts τ]

structure Effect (c c' : Channel τ σ α) (actions : List Action) : Prop where
  driver : c'.driver = c.driver
  accepting : c'.accepting = c.accepting
  events : c.events <+: c'.events
  course : c'.course = c.course ++ actions.map Entry.ofAction
  fifo : ∃ ws : List Pending, c'.submitted = c.submitted ++ ws ∧ c'.waiting = c.waiting ++ ws ∧
    ws.map (·.number) = List.range' c.submissions ws.length ∧
    c'.submissions = c.submissions + ws.length
  due : c'.due.Perm (c.due ++ sequences actions)
  published : c'.published = (states actions).getLastD c.published

theorem Effect.rfl {c : Channel τ σ α} : Effect c c [] where
  driver := .refl _
  accepting := .refl _
  events := List.prefix_refl _
  course := by simp
  fifo := ⟨[], by simp, by simp, by simp, by simp⟩
  due := by simp [sequences]
  published := .refl _

theorem Effect.trans {c₁ c₂ c₃ : Channel τ σ α} {a b : List Action} (h : Effect c₁ c₂ a)
    (h' : Effect c₂ c₃ b) : Effect c₁ c₃ (a ++ b) where
  driver := h'.driver.trans h.driver
  accepting := h'.accepting.trans h.accepting
  events := h.events.trans h'.events
  course := by rw [h'.course, h.course, List.map_append, List.append_assoc]
  fifo := by
    obtain ⟨ws, hs, hw, hn, hc⟩ := h.fifo
    obtain ⟨ws', hs', hw', hn', hc'⟩ := h'.fifo
    refine ⟨ws ++ ws', by rw [hs', hs, List.append_assoc], by rw [hw', hw, List.append_assoc], ?_, ?_⟩
    · rw [List.map_append, hn, hn', hc, List.length_append, List.range'_append_1]
    · rw [hc', hc, List.length_append, Nat.add_assoc]
  due := by
    have := h'.due.trans (h.due.append_right (sequences b))
    rwa [List.append_assoc, ← sequences_append] at this
  published := by
    rw [h'.published, h.published, states_append]
    simp [List.getLast?_append]

theorem range_append (n k : Nat) : List.range n ++ List.range' n k = List.range (n + k) := by
  have := List.range'_append_1 (s := 0) (m := n) (n := k)
  rwa [Nat.zero_add, ← List.range_eq_range', ← List.range_eq_range'] at this

theorem Effect.submitted {c c' : Channel τ σ α} {actions : List Action}
    (h : Effect c c' actions) : c.submitted <+: c'.submitted := by
  obtain ⟨ws, hs, -⟩ := h.fifo
  exact ⟨ws, hs.symm⟩

theorem numbers_of_effect {c c' : Channel τ σ α} {actions : List Action} (h : Effect c c' actions)
    (hn : c.submitted.map (·.number) = List.range c.submissions) :
    c'.submitted.map (·.number) = List.range c'.submissions := by
  obtain ⟨ws, hs, -, hw, hc⟩ := h.fifo
  rw [hs, List.map_append, hn, hw, hc, range_append]

theorem effect_record (c : Channel τ σ α) (a : Action) (hs : a.sequence? = none)
    (hp : a.state? = none) : Effect c (c.record (.ofAction a)) [a] where
  driver := rfl
  accepting := rfl
  events := List.prefix_refl _
  course := by cases a <;> simp [Entry.ofAction, Entry.submission?]
  fifo := ⟨[], by cases a <;> simp [Entry.ofAction, Entry.submission?], by simp [waiting, record],
    rfl, rfl⟩
  due := by simp [due, record, sequences, hs]
  published := by simp [record, states, hp]

theorem effect_submit (c : Channel τ σ α) {w : Pending} (hw : w.number = c.submissions) :
    Effect c (c.submit w) [] where
  driver := rfl
  accepting := rfl
  events := List.prefix_append ..
  course := by simp [submit, course, history, Entry.submission?]
  fifo := ⟨[w], by simp [submit, submitted, history, Entry.submission?],
    by simp [submit, waiting, Event.write?], by simp [hw], rfl⟩
  due := by
    simp [due, submit, sequences, List.filterMap_cons, Event.reply?]
  published := rfl

theorem effect_submitPlan (plan : Plan) (c : Channel τ σ α) (h : c.accepting = true) :
    Effect c (submitPlan plan c) [] := by
  induction plan generalizing c with
  | nothing => exact .rfl
  | write request whenResolved rest _ ih =>
    rw [submitPlan_write h]
    exact (effect_submit c rfl).trans (ih _ h)

theorem effect_fill (c : Channel τ σ α) (number : Nat) (outcome : Outcome) :
    Effect c (c.fill number outcome) [] where
  driver := rfl
  accepting := rfl
  events := List.prefix_refl _
  course := by simp [fill, course, history]
  fifo := ⟨[], by simp [fill, submitted, history], by simp [fill, waiting], rfl, rfl⟩
  due := by simp [fill, due, sequences]
  published := rfl

theorem effect_resolve (c : Channel τ σ α) (w : Pending) (outcome : Outcome)
    (h : c.accepting = true) : Effect c (c.resolve w outcome) [.resolve w outcome] := by
  have hr := effect_record c (.resolve w outcome) rfl rfl
  unfold resolve
  split
  · rename_i plan _
    exact hr.trans (effect_submitPlan plan _ h)
  · exact hr.trans (effect_fill _ _ _)

/-! ### Moves that do not reach the driver -/

theorem effect_futures (c : Channel τ σ α) (futures : List (Nat × Option Outcome)) :
    Effect c { c with futures := futures } [] :=
  ⟨rfl, rfl, List.prefix_refl _, by simp [course, history],
    ⟨[], by simp [submitted, history], by simp [waiting], rfl, rfl⟩, by simp [due, sequences], rfl⟩

theorem effect_handles (c : Channel τ σ α) (handles : Nat) :
    Effect c { c with handles := handles } [] :=
  ⟨rfl, rfl, List.prefix_refl _, by simp [course, history],
    ⟨[], by simp [submitted, history], by simp [waiting], rfl, rfl⟩, by simp [due, sequences], rfl⟩

theorem effect_writeFuture (c : Channel τ σ α) (request : Bytes) (h : c.accepting = true) :
    Effect c (c.writeFuture request) [] := by
  have hf := effect_futures c (c.futures ++ [(c.submissions, none)])
  have hs := effect_submit { c with futures := c.futures ++ [(c.submissions, none)] }
    (w := ⟨c.submissions, request, .future⟩) rfl
  rw [writeFuture_submit h]
  exact hf.trans hs

theorem effect_poll (c : Channel τ σ α) (number : Nat) : Effect c (c.poll number).2 [] := by
  unfold poll
  split
  · exact .rfl
  · exact .rfl
  · exact effect_futures c _

/-! ### Actions of the driver -/

theorem effect_send (c : Channel τ σ α) (q : UInt64) (request : Request)
    (h : c.accepting = true) : Effect c (c.perform (.send q request)) [.send q request] := by
  have hheld := Accounts.held_send c.transport q request
  simp only [perform]
  rcases hs : Transport.send c.transport q request with ⟨_ | result, t⟩
  · have ht : Accounts.held t = Accounts.held c.transport ++ [q] := by
      simpa [hs] using hheld
    exact {
      driver := rfl
      accepting := rfl
      events := List.prefix_refl _
      course := by simp [course, history, record, Entry.submission?, Entry.ofAction]
      fifo := ⟨[], by simp [submitted, history, record, Entry.submission?], by simp [waiting, record],
        rfl, rfl⟩
      due := by
        simp only [due, record, ht, sequences_send, sequences_nil, List.append_assoc]
        exact List.perm_append_comm.append_left _
      published := rfl }
  · have ht : Accounts.held t = Accounts.held c.transport := by
      simpa [hs] using hheld
    simp only [record, post, h, if_true]
    exact {
      driver := rfl
      accepting := h.symm
      events := List.prefix_append ..
      course := by simp [course, history, Entry.submission?, Entry.ofAction]
      fifo := ⟨[], by simp [submitted, history, Entry.submission?],
        by simp [waiting, Event.write?], rfl, rfl⟩
      due := by simp [due, ht, Event.reply?]
      published := rfl }

theorem effect_perform (c : Channel τ σ α) (a : Action) (h : c.accepting = true) :
    Effect c (c.perform a) [a] := by
  cases a with
  | call call => exact effect_record c (.call call) rfl rfl
  | publish state =>
    exact {
      driver := rfl
      accepting := rfl
      events := List.prefix_refl _
      course := by simp [perform, course, history, record, Entry.submission?, Entry.ofAction]
      fifo := ⟨[], by simp [perform, submitted, history, record, Entry.submission?],
        by simp [perform, waiting, record], rfl, rfl⟩
      due := by simp [perform, due, record, sequences, List.filterMap_cons, Action.sequence?]
      published := rfl }
  | send q request => exact effect_send c q request h
  | resolve w outcome => exact effect_resolve c w outcome h

theorem effect_performAll (actions : List Action) (c : Channel τ σ α)
    (h : c.accepting = true) : Effect c (actions.foldl perform c) actions := by
  induction actions generalizing c with
  | nil => exact .rfl
  | cons a rest ih =>
    have ha := effect_perform c a h
    exact ha.trans (ih _ (ha.accepting.trans h))

end Channel

/-! ## Moves -/

inductive Move where
  | write (request : Bytes) (plan : Plan)
  | writeFuture (request : Bytes)
  | poll (number : Nat)
  | dropFuture (number : Nat)
  | cloneHandle
  | dropHandle
  /-- The transport calls one of its callbacks. -/
  | answer (position : Nat) (result : TransportResult)
  /-- The transport drops one of its callbacks. -/
  | forget (position : Nat)
  | process

namespace Channel

variable {τ σ α : Type}

def forget (c : Channel (Held τ) σ α) (position : Nat) : Channel (Held τ) σ α :=
  { c with transport := ⟨c.transport.transport, c.transport.callbacks.eraseIdx position⟩ }

def answer (c : Channel (Held τ) σ α) (position : Nat) (result : TransportResult) :
    Channel (Held τ) σ α :=
  match c.transport.callbacks[position]? with
  | some q => (c.forget position).deliver q result
  | none => c

variable [Transport τ]

def move [CipherSession σ] [Attester α] (c : Channel (Held τ) σ α) : Move → Channel (Held τ) σ α
  | .write request plan => c.write request plan
  | .writeFuture request => c.writeFuture request
  | .poll number => (c.poll number).2
  | .dropFuture number => (c.dropFuture number).2
  | .cloneHandle => c.cloneHandle
  | .dropHandle => c.dropHandle
  | .answer position result => c.answer position result
  | .forget position => c.forget position
  | .process => c.processNext.getD c

def after [CipherSession σ] [Attester α] (c : Channel (Held τ) σ α) (moves : List Move) :
    Channel (Held τ) σ α := moves.foldl move c

theorem runFor_eq_after [CipherSession σ] [Attester α] (limit : Nat) (c : Channel (Held τ) σ α) :
    (c.runFor limit).2 = c.after (List.replicate (c.runFor limit).1 .process) := by
  induction limit generalizing c with
  | zero => rfl
  | succ limit ih =>
    unfold runFor
    split
    · rfl
    · rename_i next hnext
      have hmove : c.move .process = next := by rw [move, hnext, Option.getD_some]
      rw [List.replicate_succ, after, List.foldl_cons, hmove]
      exact ih next

theorem runUntilIdle_eq_after [CipherSession σ] [Attester α] (c : Channel (Held τ) σ α) :
    c.runUntilIdle.2 = c.after (List.replicate c.runUntilIdle.1 .process) :=
  runFor_eq_after c.potential c

theorem effect_answer (c : Channel (Held τ) σ α) (position : Nat) (result : TransportResult)
    (h : c.accepting = true) : Effect c (c.answer position result) [] := by
  unfold answer
  split
  · rename_i q hq
    obtain ⟨hlt, rfl⟩ := List.getElem?_eq_some_iff.mp hq
    have hperm : (c.transport.callbacks[position] :: c.transport.callbacks.eraseIdx position).Perm
        c.transport.callbacks := List.getElem_cons_eraseIdx_perm hlt
    simp only [deliver, forget, post, h, if_true]
    refine ⟨rfl, h.symm, List.prefix_append .., by simp [course, history],
      ⟨[], by simp [submitted, history], by simp [waiting, List.filterMap_cons, Event.write?],
        rfl, rfl⟩, ?_, rfl⟩
    simp only [due, List.filterMap_append, List.filterMap_cons, Event.reply?,
      List.filterMap_nil, sequences, List.append_nil]
    rw [← List.append_assoc]
    refine List.perm_append_comm.trans ?_
    rw [List.singleton_append, ← List.cons_append]
    exact hperm.append_right _
  · exact .rfl

end Channel

end SealedLink
