import Mathlib.Data.List.Induction
import SealedLink.Proofs.Channel.Run

/-!
# What holds all through a run

`Live` ties the driver, its log, the event queue and the callbacks of the transport together. It
holds of a new channel and every move keeps it.
-/

namespace SealedLink.Channel

variable {τ σ α : Type} [Accounts τ] [CipherSession σ] [Attester α]
variable {s₀ : σ} {a₀ : α} {c c' : Channel τ σ α} {d : Driver σ α}

structure Live (s₀ : σ) (a₀ : α) (c : Channel τ σ α) (d : Driver σ α) : Prop where
  driver : c.driver = some d
  accepting : c.accepting = true
  told : Told d c.course
  made : Made s₀ a₀ (calls c.course) d.session d.attester
  fifo : c.submitted = taken c.course ++ c.waiting
  numbers : c.submitted.map (·.number) = List.range c.submissions
  sends : ∃ k, d.nextSequence = .ofNat k ∧ sentIn c.course = (List.range k).map .ofNat
  /-- At most one answer is due, and it is the one that the driver waits for. -/
  due : c.due.Sublist d.outstanding.toList
  published : c.published = d.state

theorem live_new (t : τ) (ht : Accounts.held t = []) (s₀ : σ) (a₀ : α) :
    Live s₀ a₀ (new t s₀ a₀) { session := s₀, attester := a₀ } where
  driver := rfl
  accepting := rfl
  told := told_fresh _ rfl rfl rfl
  made := .none
  fifo := rfl
  numbers := rfl
  sends := ⟨0, rfl, rfl⟩
  due := by simp [due, new, ht]
  published := rfl

/-! ## Moves that do not reach the driver -/

theorem sublist_toList_of_perm {l m : List UInt64} {o : Option UInt64} (h : l.Perm m)
    (hm : m.Sublist o.toList) : l.Sublist o.toList := by
  cases o with
  | none =>
    obtain rfl := List.sublist_nil.mp hm
    simp [h.eq_nil]
  | some q =>
    rcases List.sublist_singleton.mp hm with rfl | rfl
    · simp [h.eq_nil]
    · rw [List.perm_singleton.mp h]
      exact List.Sublist.refl _

theorem live_quiet (h : Live s₀ a₀ c d) (he : Effect c c' []) : Live s₀ a₀ c' d := by
  have hcourse : c'.course = c.course := by simpa using he.course
  obtain ⟨ws, hs, hw, -, -⟩ := he.fifo
  exact {
    driver := he.driver.trans h.driver
    accepting := he.accepting.trans h.accepting
    told := hcourse ▸ h.told
    made := hcourse ▸ h.made
    fifo := by rw [hs, hw, hcourse, h.fifo, List.append_assoc]
    numbers := numbers_of_effect he h.numbers
    sends := hcourse ▸ h.sends
    due := sublist_toList_of_perm (he.due.trans (by simp [sequences])) h.due
    published := he.published.trans h.published }

/-! ## The driver takes an event -/

theorem due_of_reply {q : UInt64} {r : TransportResult} {rest : List Event} (h : Live s₀ a₀ c d)
    (he : c.events = .reply q r :: rest) :
    d.outstanding = some q ∧ Accounts.held c.transport ++ rest.filterMap Event.reply? = [] := by
  have hdue : c.due.Perm (q :: (Accounts.held c.transport ++ rest.filterMap Event.reply?)) := by
    simp only [due, he, List.filterMap_cons, Event.reply?]
    exact List.perm_middle
  have hs := sublist_toList_of_perm hdue.symm h.due
  cases ho : d.outstanding with
  | none => simp [ho] at hs
  | some p =>
    rw [ho] at hs
    obtain ⟨rfl, hnil⟩ : q = p ∧ Accounts.held c.transport ++ rest.filterMap Event.reply? = [] := by
      simpa using hs
    exact ⟨rfl, hnil⟩

theorem begun_of_waits {q : UInt64} (h : Live s₀ a₀ c d) (ho : d.outstanding = some q) :
    d.state ≠ .uninitialized := by
  intro hu
  cases h.told with
  | alive _ ht =>
    have := ht.outstanding
    rw [ht.of_uninitialized hu, ho] at this
    cases this
  | failed _ hf _ _ =>
    rw [hu] at hf
    cases hf

theorem due_process {e : Event} {rest : List Event} (h : Live s₀ a₀ c d)
    (he : c.events = e :: rest) :
    ((c.take d e rest).due ++ sequences (d.handle e).2).Sublist
      (d.handle e).1.outstanding.toList := by
  have hstep := d.handle_step e
  have hseq := Driver.step_sequences hstep
  cases e with
  | reply q r =>
    have hnil : (c.take d (.reply q r) rest).due = [] := (due_of_reply h he).2
    rwa [hnil, List.nil_append]
  | write w =>
    have hdue : (c.take d (.write w) rest).due = c.due := by
      simp [due, he, take, record, List.filterMap_cons, Event.reply?]
    have hs := h.due
    rw [hdue]
    cases ho : d.outstanding with
    | none =>
      rw [ho] at hs
      rwa [List.sublist_nil.mp hs, List.nil_append]
    | some q =>
      obtain ⟨hnone, hq⟩ := Driver.step_waits hstep ho (begun_of_waits h ho)
      rw [ho] at hs
      rwa [hnone, hq, List.append_nil]

theorem fifo_process {e : Event} {rest : List Event} (h : Live s₀ a₀ c d)
    (he : c.events = e :: rest) :
    c.submitted = taken (c.course ++ [.handled e]) ++ (c.take d e rest).waiting := by
  have hw : c.waiting = taken [.handled e] ++ (c.take d e rest).waiting := by
    unfold waiting
    rw [he]
    cases e <;> simp [take, record, List.filterMap_cons, Event.write?, taken, Entry.taken?]
  rw [h.fifo, hw, taken_append, List.append_assoc]

theorem sends_process {e : Event} (h : Live s₀ a₀ c d) :
    ∃ k, (d.handle e).1.nextSequence = .ofNat k ∧
      sentIn c.course ++ sequences (d.handle e).2 = (List.range k).map .ofNat := by
  obtain ⟨k, hk, hsent⟩ := h.sends
  obtain ⟨hnext, hq⟩ := Driver.step_counts (d.handle_step e)
  have hone := (Driver.step_sequences (d.handle_step e)).length_le
  rw [hnext, hk, hsent]
  cases hs : sequences (d.handle e).2 with
  | nil => exact ⟨k, by simp, by simp⟩
  | cons q rest =>
    obtain rfl : rest = [] := by
      rw [hs, List.length_cons] at hone
      have : (d.handle e).1.outstanding.toList.length ≤ 1 := by
        cases (d.handle e).1.outstanding <;> simp
      exact List.eq_nil_of_length_eq_zero (by omega)
    obtain rfl : q = .ofNat k := by rw [hq q (by simp [hs]), hk]
    exact ⟨k + 1, by simp [UInt64.ofNat_add], by simp [List.range_succ]⟩

theorem processNext_eq {e : Event} {rest : List Event} (hd : c.driver = some d)
    (he : c.events = e :: rest) :
    c.processNext = some ((d.handle e).2.foldl perform (c.take d e rest)) := by
  simp only [processNext, hd, he]
  rfl

theorem live_process {e : Event} {rest : List Event} (h : Live s₀ a₀ c d)
    (he : c.events = e :: rest) :
    Live s₀ a₀ ((d.handle e).2.foldl perform (c.take d e rest)) (d.handle e).1 := by
  have hstep := d.handle_step e
  have heff := effect_performAll (d.handle e).2 (c.take d e rest) h.accepting
  have hcourse := c.course_take d e rest
  have hsub := c.submitted_take d e rest
  have htimely : ∀ q r, e = .reply q r → d.outstanding = some q := by
    rintro q r rfl
    exact (due_of_reply h he).1
  -- The writes that callbacks make while the step is carried out.
  obtain ⟨ws, hs, hw, -, -⟩ := heff.fifo
  exact {
    driver := heff.driver
    accepting := heff.accepting.trans h.accepting
    told := by
      have := told_step h.told hstep htimely
      rwa [heff.course, hcourse, List.append_assoc, List.singleton_append]
    made := by
      have := made_step hstep h.made
      rw [heff.course, hcourse]
      simpa using this
    fifo := by
      rw [hs, hw, hsub, fifo_process h he, heff.course, hcourse, taken_append (c.course ++ _),
        taken_ofAction, List.append_nil, List.append_assoc]
    numbers := by
      apply numbers_of_effect heff
      rw [hsub]
      exact h.numbers
    sends := by
      rw [heff.course, hcourse, List.append_assoc, List.singleton_append, sentIn_handled]
      exact sends_process h
    due := sublist_toList_of_perm heff.due (due_process h he)
    published := by
      rw [heff.published, ← Driver.step_states hstep, ← h.published]
      rfl }

theorem course_process {e : Event} {rest : List Event} (h : Live s₀ a₀ c d) :
    ((d.handle e).2.foldl perform (c.take d e rest)).course =
      c.course ++ .handled e :: (d.handle e).2.map Entry.ofAction := by
  rw [(effect_performAll (d.handle e).2 (c.take d e rest) h.accepting).course, course_take,
    List.append_assoc]
  rfl

/-! ## Runs -/

section

variable {τ : Type} [Transport τ] {c : Channel (Held τ) σ α}

theorem live_forget (h : Live s₀ a₀ c d) (position : Nat) :
    Live s₀ a₀ (c.forget position) d :=
  { h with
    due := ((List.eraseIdx_sublist ..).append_right _).trans h.due }

theorem move_process {e : Event} {rest : List Event} (h : Live s₀ a₀ c d)
    (he : c.events = e :: rest) :
    Live s₀ a₀ (c.move .process) (d.handle e).1 ∧
      (c.move .process).course = c.course ++ .handled e :: (d.handle e).2.map Entry.ofAction := by
  rw [move, processNext_eq h.driver he]
  exact ⟨live_process h he, course_process h⟩

theorem move_cases (h : Live s₀ a₀ c d) (m : Move) :
    (Live s₀ a₀ (c.move m) d ∧ (c.move m).course = c.course) ∨
      ∃ e rest, m = .process ∧ c.events = e :: rest ∧ Live s₀ a₀ (c.move m) (d.handle e).1 ∧
        (c.move m).course = c.course ++ .handled e :: (d.handle e).2.map Entry.ofAction := by
  have quiet {c' : Channel (Held τ) σ α} (he : Effect c c' []) :
      Live s₀ a₀ c' d ∧ c'.course = c.course :=
    ⟨live_quiet h he, by simpa using he.course⟩
  cases m with
  | write request plan => exact .inl (quiet (effect_submitPlan _ c h.accepting))
  | writeFuture request => exact .inl (quiet (effect_writeFuture c request h.accepting))
  | poll number => exact .inl (quiet (effect_poll c number))
  | dropFuture number => exact .inl (quiet (effect_futures c _))
  | cloneHandle => exact .inl (quiet (effect_handles c _))
  | dropHandle => exact .inl (quiet (effect_handles c _))
  | answer position result => exact .inl (quiet (effect_answer c position result h.accepting))
  | forget position => exact .inl ⟨live_forget h position, rfl⟩
  | process =>
    cases he : c.events with
    | nil =>
      have : c.processNext = none := by simp [processNext, h.driver, he]
      rw [move, this]
      exact .inl ⟨h, rfl⟩
    | cons e rest => exact .inr ⟨e, rest, rfl, rfl, move_process h he⟩

theorem live_move (h : Live s₀ a₀ c d) (m : Move) : ∃ d', Live s₀ a₀ (c.move m) d' := by
  rcases move_cases h m with ⟨h', -⟩ | ⟨_, _, -, -, h', -⟩
  · exact ⟨d, h'⟩
  · exact ⟨_, h'⟩

theorem kept_after {P : Driver σ α → List Entry → Prop} (t : τ) (s₀ : σ) (a₀ : α)
    (hnew : P { session := s₀, attester := a₀ } [])
    (hstep : ∀ (c : Channel (Held τ) σ α) d e rest, Live s₀ a₀ c d → c.events = e :: rest →
      P d c.course → P (d.handle e).1 (c.course ++ .handled e :: (d.handle e).2.map Entry.ofAction))
    (moves : List Move) :
    ∃ d, Live s₀ a₀ ((new ⟨t, []⟩ s₀ a₀).after moves) d ∧
      P d ((new ⟨t, []⟩ s₀ a₀).after moves).course := by
  induction moves using List.reverseRecOn with
  | nil => exact ⟨_, live_new _ rfl s₀ a₀, hnew⟩
  | append_singleton moves m ih =>
    obtain ⟨d, h, hp⟩ := ih
    rw [after, List.foldl_append]
    rcases move_cases h m with ⟨h', hcourse⟩ | ⟨e, rest, -, he, h', hcourse⟩
    · exact ⟨d, h', hcourse ▸ hp⟩
    · exact ⟨_, h', hcourse ▸ hstep _ d e rest h he hp⟩

/-- **Every run of a new channel keeps what ties its parts together.** -/
theorem live_after (t : τ) (s₀ : σ) (a₀ : α) (moves : List Move) :
    ∃ d, Live s₀ a₀ ((new ⟨t, []⟩ s₀ a₀).after moves) d := by
  obtain ⟨d, h, -⟩ := kept_after (P := fun _ _ => True) t s₀ a₀ trivial
    (fun _ _ _ _ _ _ _ => trivial) moves
  exact ⟨d, h⟩

end

end SealedLink.Channel
