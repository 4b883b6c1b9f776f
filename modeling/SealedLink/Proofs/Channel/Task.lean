import SealedLink.Channel.Scripted
import SealedLink.Proofs.Channel.Potential
import SealedLink.Proofs.Channel.Teardown

/-!
# The driver as a task

A driver that runs as a task does what a driver does that is run by hand until it is idle, as long
as something can still come. It ends by itself when it gets to run and afterwards no handle is left,
no send is outstanding and no event is queued. By then every write has its outcome.
-/

namespace SealedLink

namespace Channel

variable {τ σ α : Type}

/-! ## A deserted channel -/

/-- Nothing can come any more: no handle is left, no send is outstanding and no event is queued. -/
structure Deserted (c : Channel τ σ α) (d : Driver σ α) : Prop where
  driver : c.driver = some d
  handles : c.hasHandle = false
  outstanding : d.outstanding = none
  events : c.events = []

section

variable {c : Channel τ σ α} {d : Driver σ α}

theorem Deserted.dropDriver_eq (h : Deserted c d) (hqueue : d.queue = []) :
    c.dropDriver = { c with driver := none, accepting := false } := by
  simp [dropDriver, h.driver, hqueue, h.events]

theorem isAbandoned_iff (hd : c.driver = some d) :
    c.isAbandoned = true ↔ d.outstanding = none ∧ c.hasHandle = false := by
  simp [isAbandoned, hd]

/-- How a task leaves a channel that has no event left. -/
def leave (c : Channel τ σ α) : Channel τ σ α := if c.isAbandoned then c.dropDriver else c

theorem leave_cases (hd : c.driver = some d) (he : c.events = []) :
    Deserted c d ∧ c.leave = c.dropDriver ∨ (∀ d', ¬ Deserted c d') ∧ c.leave = c := by
  unfold leave
  by_cases ha : c.isAbandoned = true
  · obtain ⟨ho, hh⟩ := (isAbandoned_iff hd).mp ha
    exact .inl ⟨⟨hd, hh, ho, he⟩, if_pos ha⟩
  · refine .inr ⟨fun d' h => ha ?_, if_neg ha⟩
    exact (isAbandoned_iff h.driver).mpr ⟨h.outstanding, h.handles⟩

/-- All writes have outcomes, and none of them was cancelled. -/
structure Settles (c : Channel τ σ α) (d : Driver σ α) : Prop where
  queue : d.queue = []
  resolved : c.outcomes.map (·.1) = c.submitted
  answered : ∀ x ∈ c.outcomes, x.2 ≠ .error .cancelled

variable [CipherSession σ] [Attester α] {s₀ : σ} {a₀ : α}

theorem not_cancelled_of_lawful {served : List Exchange} (h : Lawful s₀ a₀ c d served) :
    ∀ x ∈ c.outcomes, x.2 ≠ .error .cancelled := by
  intro x hx
  rcases h.outcome with h | ⟨code, dropped, late, h⟩
  · rw [h.outcomes] at hx
    obtain ⟨y, -, rfl⟩ := List.mem_map.mp hx
    simp [Exchange.outcome]
  · have hcode : code ≠ .cancelled := by
      by_cases hmem : .published .established ∈ c.course
      · rcases h.late hmem with rfl | rfl | rfl <;> simp
      · rcases (h.early hmem).2 with rfl | rfl <;> simp
    rw [h.outcomes, List.mem_append, List.mem_append] at hx
    rcases hx with (hx | hx) | hx
    all_goals
      obtain ⟨y, -, rfl⟩ := List.mem_map.mp hx
      simp [Exchange.outcome, hcode]

theorem queue_of_idle [Accounts τ] (h : Live s₀ a₀ c d) (ho : d.outstanding = none) :
    d.queue = [] := by
  cases h.told with
  | alive _ ha => exact ha.rests ho
  | failed _ _ _ hq => exact hq

theorem Deserted.settles [Accounts τ] (hd : Deserted c d) (h : Live s₀ a₀ c d) : Settles c d := by
  obtain ⟨served, hlawful⟩ := lawful_of_live h
  have hqueue := queue_of_idle h hd.outstanding
  have hwaiting : c.waiting = [] := by
    rw [waiting, hd.events]
    rfl
  have hleft := unresolved_of_lawful hlawful
  rw [hqueue, hwaiting, List.append_nil, List.append_nil] at hleft
  exact ⟨hqueue, hleft.symm, not_cancelled_of_lawful hlawful⟩

end

/-! ## One run of the task -/

variable [Transport τ] [CipherSession σ] [Attester α]

section

variable {c : Channel (Held τ) σ α} {d : Driver σ α} {s₀ : σ} {a₀ : α}

theorem taskStep_closed (h : c.Closed) : c.taskStep = none := by
  have hnext : c.processNext = none := by simp [processNext, h.driver]
  simp [taskStep, hnext, isAbandoned, h.driver]

theorem runTaskFor_closed (h : c.Closed) (limit : Nat) : c.runTaskFor limit = c := by
  cases limit with
  | zero => rfl
  | succ limit => simp only [runTaskFor, taskStep_closed h]

theorem runTaskFor_idle (h : Live s₀ a₀ c d) (hnext : c.processNext = none) (limit : Nat) :
    c.runTaskFor (limit + 1) = c.leave := by
  unfold runTaskFor taskStep leave
  rw [hnext]
  cases c.isAbandoned with
  | true => exact runTaskFor_closed (cancels_dropDriver h.driver h.accepting).2 limit
  | false => rfl

theorem runTaskFor_eq (limit : Nat) (h : Live s₀ a₀ c d) (hlimit : c.potential ≤ limit) :
    c.runTaskFor (limit + 1) = (c.runFor limit).2.leave := by
  induction limit generalizing c d with
  | zero =>
    rcases processNext_cases h with ⟨-, hnext⟩ | ⟨next, d', -, -, hless⟩
    · exact runTaskFor_idle h hnext 0
    · omega
  | succ limit ih =>
    rcases processNext_cases h with ⟨-, hnext⟩ | ⟨next, d', hnext, h', hless⟩
    · rw [runTaskFor_idle h hnext]
      simp only [runFor, hnext]
    · have hstep : c.taskStep = some next := by simp [taskStep, hnext]
      rw [runTaskFor, hstep]
      simp only [runFor, hnext]
      exact ih h' (by omega)

theorem runTask_eq (h : Live s₀ a₀ c d) : c.runTask = c.runUntilIdle.2.leave :=
  runTaskFor_eq c.potential h (Nat.le_refl _)

end

/-! ## Runs among other moves -/

end Channel

/-- What happens to a channel: a move from outside, or the driver gets to run. -/
inductive Occasion where
  | move (m : Move)
  | run

namespace Channel

variable {τ σ α : Type} [Transport τ] [CipherSession σ] [Attester α]

def byHand (c : Channel (Held τ) σ α) (occasions : List Occasion) : Channel (Held τ) σ α :=
  occasions.foldl
    (fun c o => match o with
      | .move m => c.move m
      | .run => c.runUntilIdle.2) c

def asTask (c : Channel (Held τ) σ α) (occasions : List Occasion) : Channel (Held τ) σ α :=
  occasions.foldl
    (fun c o => match o with
      | .move m => c.move m
      | .run => c.runTask) c

/-- One of the runs by hand leaves the channel deserted. -/
def Ends (c : Channel (Held τ) σ α) (occasions : List Occasion) : Prop :=
  ∃ before rest d, occasions = before ++ .run :: rest ∧ Deserted (c.byHand (before ++ [.run])) d

section

variable (c : Channel (Held τ) σ α) (occasions : List Occasion)

theorem byHand_move (m : Move) :
    c.byHand (occasions ++ [.move m]) = (c.byHand occasions).move m := by
  simp [byHand]

theorem byHand_run :
    c.byHand (occasions ++ [.run]) = (c.byHand occasions).runUntilIdle.2 := by
  simp [byHand]

theorem asTask_move (m : Move) :
    c.asTask (occasions ++ [.move m]) = (c.asTask occasions).move m := by
  simp [asTask]

theorem asTask_run : c.asTask (occasions ++ [.run]) = (c.asTask occasions).runTask := by
  simp [asTask]

theorem ends_concat (o : Occasion) : c.Ends (occasions ++ [o]) ↔
    c.Ends occasions ∨ o = .run ∧ ∃ d, Deserted (c.byHand (occasions ++ [.run])) d := by
  constructor
  · rintro ⟨before, rest, d, hsplit, hd⟩
    rcases List.eq_nil_or_concat rest with rfl | ⟨rest, last, rfl⟩
    · obtain ⟨rfl, ho⟩ := List.append_inj' hsplit rfl
      obtain rfl : o = .run := by simpa using ho
      exact .inr ⟨rfl, d, hd⟩
    · left
      rw [List.concat_eq_append, ← List.cons_append, ← List.append_assoc] at hsplit
      exact ⟨before, rest, d, (List.append_inj' hsplit rfl).1, hd⟩
  · rintro (⟨before, rest, d, rfl, hd⟩ | ⟨rfl, d, hd⟩)
    · exact ⟨before, rest ++ [o], d, by simp, hd⟩
    · exact ⟨occasions, [], d, rfl, hd⟩

end

theorem live_byHand (t : τ) (s₀ : σ) (a₀ : α) (occasions : List Occasion) :
    ∃ d, Live s₀ a₀ ((new ⟨t, []⟩ s₀ a₀).byHand occasions) d := by
  induction occasions using List.reverseRecOn with
  | nil => exact ⟨_, live_new _ rfl s₀ a₀⟩
  | append_singleton occasions o ih =>
    obtain ⟨d, h⟩ := ih
    cases o with
    | move m =>
      rw [byHand_move]
      exact live_move h m
    | run =>
      rw [byHand_run]
      obtain ⟨d', h', -⟩ := live_runUntilIdle h
      exact ⟨d', h'⟩

theorem task_cases (t : τ) (s₀ : σ) (a₀ : α) (occasions : List Occasion) :
    let c : Channel (Held τ) σ α := new ⟨t, []⟩ s₀ a₀
    c.Ends occasions ∧ (c.asTask occasions).Closed ∨
      ¬ c.Ends occasions ∧ c.asTask occasions = c.byHand occasions := by
  intro c
  induction occasions using List.reverseRecOn with
  | nil =>
    refine .inr ⟨?_, rfl⟩
    rintro ⟨before, rest, d, hsplit, -⟩
    simp at hsplit
  | append_singleton occasions o ih =>
    rw [ends_concat]
    rcases ih with ⟨hends, hclosed⟩ | ⟨hgoing, hsame⟩
    · refine .inl ⟨.inl hends, ?_⟩
      cases o with
      | move m =>
        rw [asTask_move]
        exact (cancels_move hclosed m).2
      | run =>
        rw [asTask_run, runTask, runTaskFor_closed hclosed]
        exact hclosed
    · cases o with
      | move m =>
        rw [asTask_move, byHand_move, hsame]
        exact .inr ⟨by simp [hgoing], rfl⟩
      | run =>
        obtain ⟨d, h⟩ : ∃ d, Live s₀ a₀ (c.byHand occasions) d := live_byHand t s₀ a₀ occasions
        obtain ⟨d', h', he⟩ := live_runUntilIdle h
        rw [asTask_run, byHand_run, hsame, runTask_eq h]
        rcases leave_cases h'.driver he with ⟨hd, hleave⟩ | ⟨hnot, hleave⟩
        · rw [hleave]
          exact .inl ⟨.inr ⟨rfl, d', hd⟩, (cancels_dropDriver h'.driver h'.accepting).2⟩
        · rw [hleave]
          exact .inr ⟨by simp [hgoing, hnot], rfl⟩

/-! ## The theorem -/

/-- A task beside the same channel run by hand. -/
structure Attends (c : Channel (Held τ) σ α) (occasions : List Occasion) : Prop where
  /-- A run by hand leaves no event. -/
  idle : ∀ before rest, occasions = before ++ .run :: rest →
    (c.byHand (before ++ [.run])).events = []
  /-- Until the task ends, nothing tells it from the channel run by hand. -/
  same : ¬ c.Ends occasions → c.asTask occasions = c.byHand occasions
  /-- It ends with the first run that leaves the channel deserted. -/
  ends : (c.asTask occasions).driver = none ↔ c.Ends occasions
  /-- Its last run does what is done by hand too, and leaves nothing to cancel. -/
  last : ∀ before rest d, occasions = before ++ .run :: rest → ¬ c.Ends before →
    Deserted (c.byHand (before ++ [.run])) d →
    c.asTask (before ++ [.run]) =
        { c.byHand (before ++ [.run]) with driver := none, accepting := false } ∧
      Settles (c.byHand (before ++ [.run])) d

/-- **The task does what is done by hand, and ends when nothing can come any more.** -/
theorem attends_after (t : τ) (s₀ : σ) (a₀ : α) (occasions : List Occasion) :
    Attends (new ⟨t, []⟩ s₀ a₀) occasions where
  idle := by
    rintro before rest rfl
    obtain ⟨d, h⟩ := live_byHand t s₀ a₀ before
    obtain ⟨d', -, he⟩ := live_runUntilIdle h
    rwa [byHand_run]
  same := by
    intro hgoing
    rcases task_cases t s₀ a₀ occasions with ⟨hends, -⟩ | ⟨-, hsame⟩
    · exact absurd hends hgoing
    · exact hsame
  ends := by
    rcases task_cases t s₀ a₀ occasions with ⟨hends, hclosed⟩ | ⟨hgoing, hsame⟩
    · exact ⟨fun _ => hends, fun _ => hclosed.driver⟩
    · obtain ⟨d, h⟩ := live_byHand t s₀ a₀ occasions
      rw [hsame, h.driver]
      exact ⟨fun hnone => (nomatch hnone), fun hends => absurd hends hgoing⟩
  last := by
    rintro before rest d rfl hgoing hdeserted
    rcases task_cases t s₀ a₀ before with ⟨hends, -⟩ | ⟨-, hsame⟩
    · exact absurd hends hgoing
    obtain ⟨d₀, h⟩ := live_byHand t s₀ a₀ before
    obtain ⟨d', h', he⟩ := live_runUntilIdle h
    rw [byHand_run] at hdeserted ⊢
    obtain rfl : d' = d := Option.some.inj (h'.driver.symm.trans hdeserted.driver)
    have hsettles := hdeserted.settles h'
    refine ⟨?_, hsettles⟩
    rw [asTask_run, hsame, runTask_eq h, ← hdeserted.dropDriver_eq hsettles.queue]
    rcases leave_cases h'.driver he with ⟨-, hleave⟩ | ⟨hnot, -⟩
    · exact hleave
    · exact absurd hdeserted (hnot d')

/-- The last handle goes while a callback that will write still owns one; the task ends when the
write of that callback is answered too. -/
example :
    let c : Channel (Held ScriptedTransport) ScriptedSession InsecureAttester :=
      new ⟨⟨[.ok (.message (.attest [])), .ok (.message (.handshake ⟨[], []⟩))], []⟩, []⟩ {} {}
    let early : List Occasion :=
      [.move (.write [1] (.write [2] .nothing .nothing)), .run, .move .dropHandle,
        .move (.answer 0 (.ok (.message (.encrypted [1])))), .run]
    let late : List Occasion := [.move (.answer 0 (.ok (.message (.encrypted [2])))), .run]
    (c.asTask early).driver.isSome = true ∧ (c.asTask (early ++ late)).driver.isSome = false := by
  decide

end Channel

end SealedLink
