import Mathlib.Data.List.Nodup
import SealedLink.Proofs.Channel.Promises

/-!
# Futures in the place of callbacks

A write with a future is one whose callback does nothing and that gets a future when it is made
(`adopt_write`). A future may be dropped before the driver acts or afterwards, with the same effect
(`loose`).
-/

namespace SealedLink

/-! ## A future for a write that was made -/

/-- The write with a future, if it has the number and its callback does nothing. -/
def Pending.adopt (number : Nat) (w : Pending) : Pending :=
  if w.number = number ∧ w.completion = .callback .nothing then
    { w with completion := .future }
  else w

namespace Pending

variable {number : Nat} {w : Pending}

theorem adopt_bare : (w.adopt number).bare = w.bare := by
  unfold adopt
  split
  · rename_i h
    simp [bare, h.2, Completion.bare, Completion.plan]
  · rfl

theorem adopt_number : (w.adopt number).number = w.number := by
  unfold adopt
  split <;> rfl

theorem adopt_of_ne (h : w.number ≠ number) : w.adopt number = w :=
  if_neg fun hw => h hw.1

end Pending

theorem Entry.pending?_mapWrite (f : Pending → Pending) (e : Entry) :
    (e.mapWrite f).pending? = e.pending?.map f := by
  rcases e with _ | (_ | _) | _ | _ | _ | _ <;> rfl

namespace Channel

variable {τ σ α : Type} {c : Channel τ σ α} {number : Nat}

/-- There is no future for the write yet, and its callback does nothing but take note. -/
def Adoptable (c : Channel τ σ α) (number : Nat) : Prop :=
  number < c.submissions ∧ number ∉ c.hand ∧
    ∀ w ∈ c.backlog ++ c.submitted, w.number = number → w.completion = .callback .nothing

instance : Decidable (c.Adoptable number) := inferInstanceAs (Decidable (_ ∧ _ ∧ _))

/-- Has the write of a callback made with a future. -/
def adopt (c : Channel τ σ α) (number : Nat) : Channel τ σ α :=
  if c.Adoptable number then
    { c.mapWrites (.adopt number) with futures := c.futures ++ [(number, c.outcomeOf number)] }
  else c

theorem bare_mapWrites {f : Pending → Pending} (hf : ∀ w, (f w).bare = w.bare)
    (c : Channel τ σ α) : (c.mapWrites f).bare = c.bare := by
  have hevent (e : Event) : (e.mapWrite f).mapWrite Pending.bare = e.mapWrite Pending.bare := by
    cases e <;> simp [Event.mapWrite, hf]
  have hentry (e : Entry) : (e.mapWrite f).mapWrite Pending.bare = e.mapWrite Pending.bare := by
    cases e <;> simp [Entry.mapWrite, hf, hevent]
  have hdriver (d : Driver σ α) :
      (d.mapWrites f).mapWrites Pending.bare = d.mapWrites Pending.bare := by
    simp [Driver.mapWrites, Function.comp_def, hf]
  simp [bare, mapWrites, Function.comp_def, hevent, hentry, hdriver]

theorem bare_adopt (c : Channel τ σ α) (number : Nat) : (c.adopt number).bare = c.bare := by
  unfold adopt
  split
  · exact bare_mapWrites (fun _ => Pending.adopt_bare) c
  · rfl

theorem outcomeOf_mapWrites {f : Pending → Pending} (hf : ∀ w, (f w).number = w.number)
    (c : Channel τ σ α) (number : Nat) :
    (c.mapWrites f).outcomeOf number = c.outcomeOf number := by
  have hentry (e : Entry) : (e.mapWrite f).outcomeOf? number = e.outcomeOf? number := by
    cases e <;> simp [Entry.mapWrite, Entry.outcomeOf?, hf]
  simp [outcomeOf, mapWrites, List.findSome?_map, Function.comp_def, hentry]

theorem waiting_mapWrites (f : Pending → Pending) (c : Channel τ σ α) :
    (c.mapWrites f).waiting = c.waiting.map f := by
  have hevent (e : Event) : (e.mapWrite f).write? = e.write?.map f := by cases e <;> rfl
  simp only [waiting, mapWrites, List.filterMap_map, List.map_filterMap]
  exact congrArg (List.filterMap · c.events) (funext hevent)

theorem backlog_mapWrites (f : Pending → Pending) (c : Channel τ σ α) :
    (c.mapWrites f).backlog = c.backlog.map f := by
  have hqueue : (c.mapWrites f).driver.elim [] (·.queue) =
      (c.driver.elim [] (·.queue)).map f := by
    cases hd : c.driver <;> simp [mapWrites, hd, Driver.mapWrites]
  rw [backlog, waiting_mapWrites, hqueue, backlog, List.map_append]

theorem hand_adopt (h : c.Adoptable number) : (c.adopt number).hand = c.hand ++ [number] := by
  rw [adopt, if_pos h]
  simp [hand]

theorem kept_adopt (h : c.Kept) (number : Nat) : (c.adopt number).Kept := by
  by_cases ha : c.Adoptable number
  · have hhand := hand_adopt ha
    have hadopt : c.adopt number = { c.mapWrites (.adopt number) with
        futures := c.futures ++ [(number, c.outcomeOf number)] } := if_pos ha
    obtain ⟨hlt, hnew, hsilent⟩ := ha
    rw [hadopt] at hhand ⊢
    refine ⟨fun e he w hw => ?_, fun w hw => ?_, fun f hf => ?_⟩
    · obtain ⟨e', he', rfl⟩ := List.mem_map.mp he
      rw [Entry.pending?_mapWrite] at hw
      obtain ⟨w', hw', rfl⟩ := Option.map_eq_some_iff.mp hw
      rw [Pending.adopt_number]
      exact h.logged e' he' w' hw'
    · have hw : w ∈ c.backlog.map (.adopt number) := backlog_mapWrites _ c ▸ hw
      obtain ⟨w', hw', rfl⟩ := List.mem_map.mp hw
      have hsuited := h.backlog w' hw'
      refine ⟨Pending.adopt_number.symm ▸ hsuited.number, fun hmem => ?_⟩
      rw [hhand, Pending.adopt_number, List.mem_append, List.mem_singleton] at hmem
      rcases hmem with hmem | hn
      · have hfuture := hsuited.future hmem
        simp [Pending.adopt, hfuture]
      · rw [Pending.adopt, if_pos ⟨hn, hsilent w' (List.mem_append_left _ hw') hn⟩]
    · have houtcome (n : Nat) : (c.mapWrites (.adopt number)).outcomeOf n = c.outcomeOf n :=
        outcomeOf_mapWrites (fun _ => Pending.adopt_number) c n
      rcases List.mem_append.mp hf with hf | hf
      · obtain ⟨hlt, heq⟩ := h.futures f hf
        exact ⟨hlt, heq.trans (houtcome f.1).symm⟩
      · obtain rfl := List.mem_singleton.mp hf
        exact ⟨hlt, (houtcome number).symm⟩
  · rwa [adopt, if_neg ha]

theorem mapWrites_self {f : Pending → Pending} (hb : ∀ w ∈ c.backlog, f w = w)
    (hl : ∀ e ∈ c.log, ∀ w, e.pending? = some w → f w = w) : c.mapWrites f = c := by
  have hmap {β : Type} {g : β → β} {l : List β} (h : ∀ x ∈ l, g x = x) : l.map g = l :=
    (List.map_congr_left h).trans (List.map_id' l)
  have hevents : c.events.map (·.mapWrite f) = c.events := by
    refine hmap fun e he => ?_
    cases e with
    | write w =>
      have hmem : w ∈ c.waiting := List.mem_filterMap.mpr ⟨_, he, rfl⟩
      rw [Event.mapWrite, hb w (List.mem_append_right _ hmem)]
    | reply => rfl
  have hlog : c.log.map (·.mapWrite f) = c.log := by
    refine hmap fun e he => ?_
    rcases e with w | (w | _) | _ | _ | _ | ⟨w, outcome⟩
    all_goals simp only [Entry.mapWrite, Event.mapWrite]
    all_goals rw [hl _ he w rfl]
  have hdriver : c.driver.map (·.mapWrites f) = c.driver := by
    cases hd : c.driver with
    | none => rfl
    | some d =>
      have hqueue : d.queue.map f = d.queue := hmap fun w hw => hb w (by simp [backlog, hd, hw])
      rw [Option.map_some, Driver.mapWrites, hqueue]
  rw [mapWrites, hdriver, hevents, hlog]

theorem mapWrites_submit (f : Pending → Pending) (c : Channel τ σ α) (w : Pending) :
    (c.submit w).mapWrites f = (c.mapWrites f).submit (f w) := by
  simp [submit, mapWrites, Entry.mapWrite, Event.mapWrite]

theorem mapWrites_refuse (f : Pending → Pending) (c : Channel τ σ α) (w : Pending) :
    (c.refuse w).mapWrites f = (c.mapWrites f).refuse (f w) := rfl

theorem Kept.lt_of_mem {w : Pending} (h : c.Kept) (hw : w ∈ c.backlog ++ c.submitted) :
    w.number < c.submissions := by
  rcases List.mem_append.mp hw with hw | hw
  · exact (h.backlog w hw).number
  · obtain ⟨e, he, hw⟩ := List.mem_filterMap.mp hw
    refine h.logged e (List.mem_reverse.mp he) w ?_
    cases e with
    | submitted => exact hw
    | handled | called | published | sent | resolved => cases hw

theorem mem_submit {w w' : Pending} (h : w' ∈ (c.submit w).backlog ++ (c.submit w).submitted) :
    w' ∈ c.backlog ++ c.submitted ∨ w' = w := by
  have hbacklog : (c.submit w).backlog = c.backlog ++ [w] := by
    simp [backlog, submit, waiting, Event.write?]
  have hsubmitted : (c.submit w).submitted = c.submitted ++ [w] := by
    simp [submit, submitted, history, Entry.submission?]
  rw [hbacklog, hsubmitted] at h
  simp only [List.mem_append, List.mem_singleton] at h ⊢
  tauto

theorem mem_refuse {w w' : Pending} (h : w' ∈ (c.refuse w).backlog ++ (c.refuse w).submitted) :
    w' ∈ c.backlog ++ c.submitted ∨ w' = w := by
  have hbacklog : (c.refuse w).backlog = c.backlog := rfl
  have hsubmitted : (c.refuse w).submitted = c.submitted ++ [w] := by
    simp [refuse, submitted, history, record, Entry.submission?]
  rw [hbacklog, hsubmitted, ← List.append_assoc] at h
  simpa only [List.mem_append, List.mem_singleton] using h

/-- **A write with a future is one with a callback that does nothing, and gets its future then.** -/
theorem adopt_write (h : c.Kept) (request : Bytes) :
    (c.write request .nothing).adopt c.submissions = c.writeFuture request := by
  obtain ⟨hnew, hunknown⟩ := h.fresh (Nat.le_refl _)
  -- The number is new, so no other write is touched.
  have hself : c.mapWrites (.adopt c.submissions) = c :=
    mapWrites_self (fun w hw => Pending.adopt_of_ne (Nat.ne_of_lt (h.backlog w hw).number))
      fun e he w hw => Pending.adopt_of_ne (Nat.ne_of_lt (h.logged e he w hw))
  have hadopted : Pending.adopt c.submissions ⟨c.submissions, request, .callback .nothing⟩ =
      ⟨c.submissions, request, .future⟩ := if_pos ⟨rfl, rfl⟩
  have hsilent {w : Pending} (hw : w ∈ c.backlog ++ c.submitted ∨
      w = ⟨c.submissions, request, .callback .nothing⟩) (hn : w.number = c.submissions) :
      w.completion = .callback .nothing := by
    rcases hw with hw | rfl
    · exact absurd hn (Nat.ne_of_lt (h.lt_of_mem hw))
    · rfl
  cases haccepting : c.accepting with
  | true =>
    rw [writeFuture_submit haccepting, write, submitPlan_write haccepting, submitPlan, adopt,
      if_pos]
    · have houtcome : (c.submit ⟨c.submissions, request, .callback .nothing⟩).outcomeOf
          c.submissions = none := hunknown
      rw [mapWrites_submit, hself, hadopted, houtcome]
      rfl
    · refine ⟨Nat.lt_succ_self _, hnew, fun w hw => hsilent (mem_submit hw)⟩
  | false =>
    rw [writeFuture_refuse haccepting, write, submitPlan_refuse haccepting, submitPlan, submitPlan,
      adopt, if_pos]
    · have houtcome : (c.refuse ⟨c.submissions, request, .callback .nothing⟩).outcomeOf
          c.submissions = some (.error .cancelled) := by
        simp [refuse, outcomeOf_record, Entry.outcomeOf?]
      have hothers : c.futures.map (fun f =>
          if f.1 = c.submissions then (f.1, some (.error .cancelled)) else f) = c.futures := by
        refine (List.map_congr_left fun f hf => ?_).trans (List.map_id' c.futures)
        have hne : f.1 ≠ c.submissions := fun hn => hnew (hn ▸ List.mem_map_of_mem hf)
        exact if_neg hne
      rw [mapWrites_refuse, hself, hadopted, houtcome]
      simp [fill, refuse, record, hothers]
    · refine ⟨Nat.lt_succ_self _, hnew, fun w hw => hsilent (mem_refuse hw)⟩

/-! ## Outcomes -/

theorem mem_outcomes {x : Pending × Outcome} :
    x ∈ c.outcomes ↔ .resolved x.1 x.2 ∈ c.log := by
  rw [outcomes, List.mem_filterMap]
  constructor
  · rintro ⟨e, he, hx⟩
    cases e with
    | resolved w outcome =>
      obtain rfl := Option.some.inj hx
      exact List.mem_reverse.mp he
    | submitted | handled | called | published | sent => cases hx
  · exact fun hx => ⟨_, List.mem_reverse.mpr hx, rfl⟩

theorem outcomeOf_eq_none_iff {number : Nat} :
    c.outcomeOf number = none ↔ ∀ x ∈ c.outcomes, x.1.number ≠ number := by
  rw [outcomeOf, List.findSome?_eq_none_iff]
  constructor
  · intro h x hx hn
    have := h _ (mem_outcomes.mp hx)
    rw [Entry.outcomeOf?, if_pos hn] at this
    cases this
  · intro h e he
    cases e with
    | resolved w outcome => exact if_neg (h (w, outcome) (mem_outcomes.mpr he))
    | submitted | handled | called | published | sent => rfl

theorem exists_of_outcomeOf {number : Nat} {outcome : Outcome}
    (h : c.outcomeOf number = some outcome) :
    ∃ x ∈ c.outcomes, x.1.number = number ∧ x.2 = outcome := by
  obtain ⟨e, he, hout⟩ := List.exists_of_findSome?_eq_some h
  cases e with
  | resolved w outcome' =>
    simp only [Entry.outcomeOf?] at hout
    split at hout
    · rename_i hn
      exact ⟨(w, outcome'), mem_outcomes.mpr he, hn, Option.some.inj hout⟩
    · cases hout
  | submitted | handled | called | published | sent => cases hout

theorem outcomeOf_of_mem (hn : (c.outcomes.map (·.1.number)).Nodup) {x : Pending × Outcome}
    (hx : x ∈ c.outcomes) : c.outcomeOf x.1.number = some x.2 := by
  cases h : c.outcomeOf x.1.number with
  | none => exact absurd rfl (outcomeOf_eq_none_iff.mp h x hx)
  | some outcome =>
    obtain ⟨y, hy, hnumber, rfl⟩ := exists_of_outcomeOf h
    rw [List.inj_on_of_nodup_map hn hx hy hnumber.symm]

/-! ## When a future is dropped -/

theorem dropFuture_submitPlan (plan : Plan) (c : Channel τ σ α) (number : Nat) :
    submitPlan plan (c.dropFuture number).2 = ((submitPlan plan c).dropFuture number).2 := by
  induction plan generalizing c with
  | nothing => rfl
  | write request whenResolved rest ih ih' =>
    cases h : c.accepting with
    | true =>
      have h' : (c.dropFuture number).2.accepting = true := h
      rw [submitPlan_write h, submitPlan_write h', ← ih']
      rfl
    | false =>
      have h' : (c.dropFuture number).2.accepting = false := h
      rw [submitPlan_refuse h, submitPlan_refuse h', ← ih', ← ih]
      rfl

theorem dropFuture_fill (c : Channel τ σ α) (number n : Nat) (outcome : Outcome) :
    (c.dropFuture number).2.fill n outcome = ((c.fill n outcome).dropFuture number).2 := by
  have hsame : (fun f : Nat × Option Outcome => decide (f.1 ≠ number)) ∘
      (fun f => if f.1 = n then (f.1, some outcome) else f) = fun f => decide (f.1 ≠ number) := by
    funext f
    rw [Function.comp_apply]
    split <;> rfl
  simp only [dropFuture, fill, List.filter_map, hsame]

theorem dropFuture_resolve (c : Channel τ σ α) (w : Pending) (outcome : Outcome) (number : Nat) :
    (c.dropFuture number).2.resolve w outcome = ((c.resolve w outcome).dropFuture number).2 := by
  obtain ⟨n, request, plan | _⟩ := w
  · exact dropFuture_submitPlan plan (c.record _) number
  · exact dropFuture_fill (c.record _) number n outcome

theorem dropFuture_post (c : Channel τ σ α) (e : Event) (number : Nat) :
    (c.dropFuture number).2.post e = ((c.post e).dropFuture number).2 := by
  have haccepting : (c.dropFuture number).2.accepting = c.accepting := rfl
  unfold post
  rw [haccepting]
  split <;> rfl

/-- A future that is dropped before something is done, or after it. -/
structure Loose [Transport τ] (c : Channel τ σ α) (number : Nat) : Prop where
  perform : ∀ a, (c.dropFuture number).2.perform a = ((c.perform a).dropFuture number).2
  cancelEvent : ∀ e, (c.dropFuture number).2.cancelEvent e =
    ((c.cancelEvent e).dropFuture number).2
  submitPlan : ∀ plan, submitPlan plan (c.dropFuture number).2 =
    ((submitPlan plan c).dropFuture number).2

theorem loose [Transport τ] (c : Channel τ σ α) (number : Nat) : c.Loose number where
  perform a := by
    cases a with
    | call | publish => rfl
    | resolve w outcome => exact dropFuture_resolve c w outcome number
    | send q request =>
      have htransport : (c.dropFuture number).2.transport = c.transport := rfl
      simp only [Channel.perform, htransport]
      rcases Transport.send c.transport q request with ⟨_ | result, t⟩
      · rfl
      · exact dropFuture_post ({ c with transport := t }.record (.sent q request)) _ number
  cancelEvent e := by
    cases e with
    | write w => exact dropFuture_resolve c w _ number
    | reply => rfl
  submitPlan plan := dropFuture_submitPlan plan c number

end Channel

end SealedLink
