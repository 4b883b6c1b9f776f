import SealedLink.Proofs.Channel.Outcomes

/-!
# Teardown

Dropping the driver cancels every write that is not resolved, wherever it waits, and those that
callbacks make meanwhile. Before the event queue is closed such a write goes into it and is
cancelled with the others; afterwards it is cancelled on the spot. So every write of a channel is
resolved once, whenever it was made.
-/

namespace SealedLink.Channel

open scoped List

variable {τ σ α : Type}

/-! ## Cancelling -/

/-- From `c` to `c'` writes were made, and these and `ws` were cancelled, each of them once. Nothing
else happened. -/
structure Cancels (c c' : Channel τ σ α) (ws : List Pending) : Prop where
  intro ::
  log : ∃ cancelled made : List Pending,
    c'.course = c.course ++ cancelled.map (.resolved · (.error .cancelled)) ∧
    c'.submitted = c.submitted ++ made ∧ cancelled ~ ws ++ made ∧
    made.map (·.number) = List.range' c.submissions made.length ∧
    c'.submissions = c.submissions + made.length

theorem Cancels.rfl {c : Channel τ σ α} : Cancels c c [] :=
  ⟨[], [], by simp, by simp, by simp, by simp, by simp⟩

theorem perm_interleave {β : Type} (a b c d : List β) :
    (a ++ b) ++ (c ++ d) ~ (a ++ c) ++ (b ++ d) := by
  rw [List.append_assoc, List.append_assoc]
  refine List.Perm.append_left a ?_
  rw [← List.append_assoc, ← List.append_assoc]
  exact List.perm_append_comm.append_right d

theorem Cancels.trans {c₁ c₂ c₃ : Channel τ σ α} {ws ws' : List Pending} (h : Cancels c₁ c₂ ws)
    (h' : Cancels c₂ c₃ ws') : Cancels c₁ c₃ (ws ++ ws') := by
  obtain ⟨gone, made, hcourse, hsubmitted, hperm, hnumbers, hcount⟩ := h
  obtain ⟨gone', made', hcourse', hsubmitted', hperm', hnumbers', hcount'⟩ := h'
  refine ⟨gone ++ gone', made ++ made', ?_, ?_, ?_, ?_, ?_⟩
  · rw [hcourse', hcourse, List.map_append, List.append_assoc]
  · rw [hsubmitted', hsubmitted, List.append_assoc]
  · exact (hperm.append hperm').trans (perm_interleave ..)
  · rw [List.map_append, hnumbers, hnumbers', hcount, List.length_append, List.range'_append_1]
  · rw [hcount', hcount, List.length_append, Nat.add_assoc]

theorem numbers_of_cancels {c c' : Channel τ σ α} {ws : List Pending} (h : Cancels c c' ws)
    (hn : c.submitted.map (·.number) = List.range c.submissions) :
    c'.submitted.map (·.number) = List.range c'.submissions := by
  obtain ⟨-, made, -, hsubmitted, -, hnumbers, hcount⟩ := h
  rw [hsubmitted, List.map_append, hn, hnumbers, hcount, range_append]

theorem outcomes_of_cancels {c c' : Channel τ σ α} {ws : List Pending} (h : Cancels c c' ws)
    (hws : c.outcomes.map (·.1) ++ ws ~ c.submitted) : c'.outcomes.map (·.1) ~ c'.submitted := by
  obtain ⟨cancelled, made, hcourse, hsubmitted, hperm, -⟩ := h
  have hone :
      (cancelled.map fun w => (w, (.error .cancelled : Outcome))).map (·.1) = cancelled := by
    rw [List.map_map]
    exact List.map_id _
  rw [outcomes_eq, hcourse, outcomesOf_append, ← outcomes_eq, outcomesOf_resolved, List.map_append,
    hone, hsubmitted]
  calc c.outcomes.map (·.1) ++ cancelled
    _ ~ c.outcomes.map (·.1) ++ (ws ++ made) := hperm.append_left _
    _ = (c.outcomes.map (·.1) ++ ws) ++ made := (List.append_assoc ..).symm
    _ ~ c.submitted ++ made := hws.append_right _

/-! ## A closed channel -/

structure Closed (c : Channel τ σ α) : Prop where
  driver : c.driver = none
  accepting : c.accepting = false
  events : c.events = []

/-- A write made when the channel is closed. -/
def refuse (c : Channel τ σ α) (w : Pending) : Channel τ σ α :=
  ({ c with submissions := c.submissions + 1 }.record (.submitted w)).record
    (.resolved w (.error .cancelled))

theorem cancels_refuse (c : Channel τ σ α) {w : Pending} (hw : w.number = c.submissions) :
    Cancels c (c.refuse w) [] :=
  ⟨[w], [w], by simp [refuse, course, history, record, Entry.submission?],
    by simp [refuse, submitted, history, record, Entry.submission?], .refl _, by simp [hw], .refl _⟩

theorem cancels_record (c : Channel τ σ α) (w : Pending) :
    Cancels c (c.record (.resolved w (.error .cancelled))) [w] :=
  ⟨[w], [], by simp [Entry.submission?], by simp [Entry.submission?], by simp, by simp, .refl _⟩

theorem cancels_quiet {c c' : Channel τ σ α} (hlog : c'.log = c.log)
    (hcount : c'.submissions = c.submissions) : Cancels c c' [] :=
  ⟨[], [], by simp [course, history, hlog], by simp [submitted, history, hlog], by simp, by simp,
    hcount⟩

theorem submitPlan_refuse {c : Channel τ σ α} (h : c.accepting = false) (request : Bytes)
    (whenResolved rest : Plan) : submitPlan (.write request whenResolved rest) c =
      submitPlan rest (submitPlan whenResolved
        (c.refuse ⟨c.submissions, request, .callback whenResolved⟩)) := by
  simp [submitPlan, record, refuse, h]

theorem cancels_submitPlan (plan : Plan) (c : Channel τ σ α) (h : c.Closed) :
    Cancels c (submitPlan plan c) [] ∧ (submitPlan plan c).Closed := by
  induction plan generalizing c with
  | nothing => exact ⟨.rfl, h⟩
  | write request whenResolved rest ih ih' =>
    rw [submitPlan_refuse h.accepting]
    have hrefused := cancels_refuse c (w := ⟨c.submissions, request, .callback whenResolved⟩) rfl
    obtain ⟨hnested, hclosed⟩ := ih (c.refuse _) ⟨h.driver, h.accepting, h.events⟩
    obtain ⟨hrest, hclosed⟩ := ih' _ hclosed
    exact ⟨(hrefused.trans hnested).trans hrest, hclosed⟩

theorem cancels_resolve (c : Channel τ σ α) (w : Pending) (h : c.Closed) :
    Cancels c (c.resolve w (.error .cancelled)) [w] ∧
      (c.resolve w (.error .cancelled)).Closed := by
  have hclosed : (c.record (.resolved w (.error .cancelled))).Closed :=
    ⟨h.driver, h.accepting, h.events⟩
  unfold resolve
  split
  · rename_i plan _
    obtain ⟨hplan, hclosed⟩ := cancels_submitPlan plan _ hclosed
    exact ⟨(cancels_record c w).trans hplan, hclosed⟩
  · exact ⟨(cancels_record c w).trans (cancels_quiet rfl rfl),
      ⟨hclosed.driver, hclosed.accepting, hclosed.events⟩⟩

theorem cancels_events (events : List Event) (c : Channel τ σ α) (h : c.Closed) :
    Cancels c (events.foldl cancelEvent c) (events.filterMap Event.write?) ∧
      (events.foldl cancelEvent c).Closed := by
  induction events generalizing c with
  | nil => exact ⟨.rfl, h⟩
  | cons e events ih =>
    cases e with
    | write w =>
      obtain ⟨hw, hclosed⟩ := cancels_resolve c w h
      obtain ⟨hrest, hclosed⟩ := ih _ hclosed
      exact ⟨hw.trans hrest, hclosed⟩
    | reply => exact ih c h

/-! ## Dropping the driver -/

theorem unresolved_of_lawful [CipherSession σ] [Attester α] {s₀ : σ} {a₀ : α} {c : Channel τ σ α}
    {d : Driver σ α} {served : List Exchange} (h : Lawful s₀ a₀ c d served) :
    c.submitted = c.outcomes.map (·.1) ++ (d.queue ++ c.waiting) := by
  have hserved : (served.map Exchange.outcome).map (·.1) = served.map (·.write) := by
    rw [List.map_map]
    rfl
  rcases h.outcome with h | ⟨code, dropped, late, h⟩
  · rw [h.submitted, h.outcomes, hserved, List.append_assoc]
  · rw [h.submitted, h.outcomes, h.queue]
    simp [Function.comp_def, Exchange.outcome]

def release (c : Channel τ σ α) : Channel τ σ α := { c with driver := none }

def close (c : Channel τ σ α) : Channel τ σ α := { c with accepting := false, events := [] }

/-- The channel when the queue of its driver is empty. The event queue still takes writes. -/
def emptied (c : Channel τ σ α) (d : Driver σ α) : Channel τ σ α :=
  d.queue.foldl (fun c w => c.resolve w (.error .cancelled)) c.release

theorem dropDriver_eq {c : Channel τ σ α} {d : Driver σ α} (hd : c.driver = some d) :
    c.dropDriver = (c.emptied d).events.foldl cancelEvent (c.emptied d).close := by
  simp only [dropDriver, hd]
  rfl

theorem dropDriver_gone {c : Channel τ σ α} (hd : c.driver = none) : c.dropDriver = c := by
  simp [dropDriver, hd]

theorem effect_emptied [Accounts τ] (c : Channel τ σ α) (d : Driver σ α)
    (ha : c.accepting = true) :
    Effect c.release (c.emptied d) (d.queue.map (.resolve · (.error .cancelled))) := by
  have := effect_performAll (d.queue.map (.resolve · (.error .cancelled))) c.release ha
  rwa [List.foldl_map] at this

theorem cancels_dropDriver [Accounts τ] {c : Channel τ σ α} {d : Driver σ α}
    (hd : c.driver = some d) (ha : c.accepting = true) :
    Cancels c c.dropDriver (d.queue ++ c.waiting) ∧ c.dropDriver.Closed := by
  have heffect := c.effect_emptied d ha
  obtain ⟨made, hsubmitted, hwaiting, hnumbers, hcount⟩ := heffect.fifo
  obtain ⟨⟨cancelled, late, hcourse, hsubmitted', hperm, hnumbers', hcount'⟩, hclosed⟩ :=
    cancels_events (c.emptied d).events (c.emptied d).close ⟨heffect.driver, rfl, rfl⟩
  rw [dropDriver_eq hd]
  refine ⟨⟨d.queue ++ cancelled, made ++ late, ?_, ?_, ?_, ?_, ?_⟩, hclosed⟩
  · have hqueue :
        (c.emptied d).course = c.course ++ d.queue.map (.resolved · (.error .cancelled)) := by
      rw [heffect.course, List.map_map]
      rfl
    rw [hcourse, List.map_append, ← List.append_assoc, ← hqueue]
    rfl
  · rw [hsubmitted', ← List.append_assoc]
    exact congrArg (· ++ late) hsubmitted
  · calc d.queue ++ cancelled
      _ ~ d.queue ++ ((c.emptied d).waiting ++ late) := hperm.append_left _
      _ = d.queue ++ c.waiting ++ (made ++ late) := by
        rw [hwaiting]
        simp only [List.append_assoc]
        rfl
  · rw [List.map_append, hnumbers, hnumbers', List.length_append, ← List.range'_append_1]
    exact congrArg (fun n => _ ++ List.range' n late.length) hcount
  · rw [hcount', List.length_append, ← Nat.add_assoc]
    exact congrArg (· + late.length) hcount

/-! ### Nothing is called -/

theorem Tolerates.cancelEvent {R : Channel τ σ α → Channel τ σ α → Prop} (h : Tolerates R)
    (c : Channel τ σ α) (e : Event) : R c (c.cancelEvent e) := by
  cases e with
  | write w => exact h.resolve c w _
  | reply => exact h.refl c

theorem Tolerates.dropDriver {R : Channel τ σ α → Channel τ σ α → Prop} (h : Tolerates R)
    (hrelease : ∀ c, R c c.release) (hclose : ∀ c, R c c.close) (c : Channel τ σ α) :
    R c c.dropDriver := by
  cases hd : c.driver with
  | none =>
    rw [dropDriver_gone hd]
    exact h.refl c
  | some d =>
    have hqueue : R c.release (c.emptied d) := h.foldl (fun c w => h.resolve c w _) d.queue _
    rw [dropDriver_eq hd]
    apply h.trans (hrelease c)
    apply h.trans hqueue
    apply h.trans (hclose _)
    exact h.foldl h.cancelEvent _ _

theorem keeps_dropDriver (c : Channel τ σ α) : Keeps c c.dropDriver :=
  keeps_tolerates.dropDriver (fun _ => ⟨rfl, rfl⟩) (fun _ => ⟨rfl, rfl⟩) c

/-! ## After the drop -/

theorem history_refuse (c : Channel τ σ α) (w : Pending) :
    (c.refuse w).history = c.history ++ [.submitted w, .resolved w (.error .cancelled)] := by
  rw [refuse, history_record, history_record, List.append_assoc]
  rfl

theorem history_write {c : Channel τ σ α} (h : c.Closed) (request : Bytes) (plan : Plan) :
    c.history ++ [.submitted ⟨c.submissions, request, .callback plan⟩,
      .resolved ⟨c.submissions, request, .callback plan⟩ (.error .cancelled)] <+:
        (c.write request plan).history := by
  rw [write, submitPlan_refuse h.accepting, ← history_refuse]
  exact history_tolerates.plan plan _

theorem writeFuture_refuse {c : Channel τ σ α} (h : c.accepting = false) (request : Bytes) :
    c.writeFuture request =
      ({ c with futures := c.futures ++ [(c.submissions, none)] }.refuse
        ⟨c.submissions, request, .future⟩).fill c.submissions (.error .cancelled) := by
  simp [writeFuture, resolve, record, refuse, h]

theorem lookup_filled (futures : List (Nat × Option Outcome)) (number : Nat) (outcome : Outcome)
    (h : number ∈ futures.map (·.1)) :
    (futures.map fun f => if f.1 = number then (f.1, some outcome) else f).lookup number =
      some (some outcome) := by
  induction futures with
  | nil => simp at h
  | cons f futures ih =>
    obtain ⟨n, o⟩ := f
    by_cases hn : n = number
    · simp [hn]
    · have hrest : number ∈ futures.map (·.1) := by
        simpa [Ne.symm hn] using h
      have hbeq : (number == n) = false := beq_eq_false_iff_ne.mpr (Ne.symm hn)
      simp [hn, List.lookup_cons, hbeq, ih hrest]

theorem poll_writeFuture {c : Channel τ σ α} (h : c.accepting = false) (request : Bytes) :
    ((c.writeFuture request).poll c.submissions).1 = .ready (.error .cancelled) := by
  have hlookup : (c.writeFuture request).futures.lookup c.submissions =
      some (some (.error .cancelled)) := by
    rw [writeFuture_refuse h]
    exact lookup_filled _ _ _ (by simp [refuse, record])
  simp [poll, hlookup]

theorem deliver_closed {c : Channel τ σ α} (h : c.accepting = false) (q : UInt64)
    (result : TransportResult) : c.deliver q result = c := by
  simp [deliver, post, h]

section

variable {c : Channel (Held τ) σ α}

theorem answer_closed (h : c.accepting = false) (position : Nat) (result : TransportResult) :
    c.answer position result = c.forget position := by
  unfold answer
  split
  · exact deliver_closed (c := c.forget position) h _ _
  · rename_i hnone
    rw [forget, List.eraseIdx_of_length_le (List.getElem?_eq_none_iff.mp hnone)]

variable [Transport τ] [CipherSession σ] [Attester α]

theorem cancels_move (h : c.Closed) (m : Move) : Cancels c (c.move m) [] ∧ (c.move m).Closed := by
  cases m with
  | write request plan => exact cancels_submitPlan _ c h
  | writeFuture request =>
    rw [move, writeFuture_refuse h.accepting]
    have hfuture : Cancels c { c with futures := c.futures ++ [(c.submissions, none)] } [] :=
      cancels_quiet rfl rfl
    have hrefused := hfuture.trans (cancels_refuse _ (w := ⟨c.submissions, request, .future⟩) rfl)
    exact ⟨hrefused.trans (cancels_quiet rfl rfl), h.driver, h.accepting, h.events⟩
  | poll number =>
    rw [move, poll]
    split <;> exact ⟨cancels_quiet rfl rfl, h.driver, h.accepting, h.events⟩
  | dropFuture | cloneHandle | dropHandle | forget =>
    exact ⟨cancels_quiet rfl rfl, h.driver, h.accepting, h.events⟩
  | answer position result =>
    rw [move, answer_closed h.accepting]
    exact ⟨cancels_quiet rfl rfl, h.driver, h.accepting, h.events⟩
  | process =>
    have hidle : c.processNext = none := by simp [processNext, h.driver]
    rw [move, hidle]
    exact ⟨.rfl, h⟩

theorem cancels_after (h : c.Closed) (moves : List Move) :
    Cancels c (c.after moves) [] ∧ (c.after moves).Closed := by
  induction moves using List.reverseRecOn with
  | nil => exact ⟨.rfl, h⟩
  | append_singleton moves m ih =>
    rw [after, List.foldl_append]
    obtain ⟨hbefore, hclosed⟩ := ih
    obtain ⟨hmove, hclosed⟩ := cancels_move hclosed m
    exact ⟨hbefore.trans hmove, hclosed⟩

/-! ## The theorem -/

/-- The channel with other events in its event queue. -/
def withEvents (c : Channel τ σ α) (events : List Event) : Channel τ σ α :=
  { c with events := events }

/-- What the drop of its driver makes of a channel. -/
structure Dissolves (c : Channel (Held τ) σ α) (d : Driver σ α) : Prop where
  /-- What is not resolved is in the queue of the driver or in the event queue. -/
  unresolved : c.submitted = c.outcomes.map (·.1) ++ (d.queue ++ c.waiting)
  /-- The drop cancels all of it, whatever the event queue holds, and calls nobody. -/
  cancels : ∀ events, Cancels (c.withEvents events) (c.withEvents events).dropDriver
    (d.queue ++ events.filterMap Event.write?)
  transport : ∀ events, (c.withEvents events).dropDriver.transport = c.transport
  /-- A write made later is cancelled at once, and so are those of its callback. -/
  write : ∀ moves request plan, let c' := c.dropDriver.after moves
    let w : Pending := ⟨c'.submissions, request, .callback plan⟩
    c'.history ++ [.submitted w, .resolved w (.error .cancelled)] <+:
      (c'.write request plan).history ∧ Cancels c' (c'.write request plan) []
  writeFuture : ∀ moves request, let c' := c.dropDriver.after moves
    ((c'.writeFuture request).poll c'.submissions).1 = .ready (.error .cancelled)
  /-- A callback that the transport kept has no effect any more. -/
  answer : ∀ moves position result, let c' := c.dropDriver.after moves
    c'.answer position result = c'.forget position
  deliver : ∀ moves q result, let c' := c.dropDriver.after moves
    c'.deliver q result = c'
  /-- In the end every write was resolved once. -/
  once : ∀ moves, let c' := c.dropDriver.after moves
    c'.outcomes.map (·.1) ~ c'.submitted ∧ c'.submitted.map (·.number) = List.range c'.submissions

/-- **The drop of the driver loses no write and resolves none twice.** -/
theorem dissolves_after (t : τ) (s₀ : σ) (a₀ : α) (moves : List Move) :
    ∃ d, ((new ⟨t, []⟩ s₀ a₀).after moves).driver = some d ∧
      Dissolves ((new ⟨t, []⟩ s₀ a₀).after moves) d := by
  obtain ⟨d, h⟩ := live_after t s₀ a₀ moves
  obtain ⟨served, hlawful⟩ := lawful_of_live h
  obtain ⟨hdrop, hclosed⟩ := cancels_dropDriver h.driver h.accepting
  have hleft := unresolved_of_lawful hlawful
  exact ⟨d, h.driver, {
    unresolved := hleft
    cancels := fun events =>
      (cancels_dropDriver (c := withEvents _ events) h.driver h.accepting).1
    transport := fun events => (keeps_dropDriver _).transport
    write := fun moves request plan =>
      have hlater := (cancels_after hclosed moves).2
      ⟨history_write hlater request plan, (cancels_submitPlan _ _ hlater).1⟩
    writeFuture := fun moves request =>
      poll_writeFuture (cancels_after hclosed moves).2.accepting request
    answer := fun moves position result =>
      answer_closed (cancels_after hclosed moves).2.accepting position result
    deliver := fun moves q result =>
      deliver_closed (cancels_after hclosed moves).2.accepting q result
    once := fun moves =>
      have hlife := hdrop.trans (cancels_after hclosed moves).1
      ⟨outcomes_of_cancels hlife (by rw [hleft, List.append_nil]),
        numbers_of_cancels hlife h.numbers⟩ }⟩

end

end SealedLink.Channel
