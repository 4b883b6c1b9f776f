import SealedLink.Attestation
import SealedLink.Channel.Scripted
import SealedLink.Proofs.Channel.Teardown

/-!
# The order of teardown

The drop of the driver cancels the writes in the driver's queue in the order of their submission.
The writes left in the event queue are then cancelled each together with what its callback writes,
so that a callback that writes overtakes the writes behind it.
-/

namespace SealedLink

/-- What the callbacks of a plan's writes do in their turn. -/
def Plan.callbacks : Plan → List Plan
  | .nothing => []
  | .write _ whenResolved rest => whenResolved :: rest.callbacks

def Pending.plan (w : Pending) : Plan := w.completion.plan

namespace Channel

variable {τ σ α : Type}

/-! ## Numbers of the cancelled writes -/

/-- The numbers of the writes that are resolved, in the order of their resolution. -/
def settled (c : Channel τ σ α) : List Nat := c.outcomes.map (·.1.number)

theorem settled_of_course {c c' : Channel τ σ α} (cancelled : List Pending)
    (h : c'.course = c.course ++ cancelled.map (.resolved · (.error .cancelled))) :
    c'.settled = c.settled ++ cancelled.map (·.number) := by
  rw [settled, outcomes_eq, h, outcomesOf_append, ← outcomes_eq, outcomesOf_resolved,
    List.map_append, List.map_map]
  rfl

/-- The numbers of cancelled writes if each is followed by what its callback writes; these writes
are numbered from `n` on. -/
def unwound : List Pending → (n : Nat) → List Nat
  | [], _ => []
  | w :: ws, n => w.number :: (List.range' n w.plan.size ++ unwound ws (n + w.plan.size))

section

variable {c : Channel τ σ α}

theorem settled_submitPlan (plan : Plan) (h : c.Closed) :
    (submitPlan plan c).settled = c.settled ++ List.range' c.submissions plan.size ∧
      (submitPlan plan c).submissions = c.submissions + plan.size := by
  induction plan generalizing c with
  | nothing => simp [submitPlan, Plan.size]
  | write request whenResolved rest ih ih' =>
    rw [submitPlan_refuse h.accepting]
    let w : Pending := ⟨c.submissions, request, .callback whenResolved⟩
    have hrefused : (c.refuse w).settled = c.settled ++ [c.submissions] :=
      settled_of_course [w] (by simp [refuse, course, history, record, Entry.submission?])
    have hclosed : (c.refuse w).Closed := ⟨h.driver, h.accepting, h.events⟩
    obtain ⟨hnested, hcount⟩ := ih hclosed
    obtain ⟨hrest, hcount'⟩ := ih' (cancels_submitPlan whenResolved _ hclosed).2
    have hsubmissions : (c.refuse w).submissions = c.submissions + 1 := rfl
    -- The numbers of the two parts follow on each other.
    constructor
    · rw [hrest, hnested, hrefused, hcount, hsubmissions, List.append_assoc, List.append_assoc,
        List.range'_append_1, Plan.size, List.range'_succ]
      rfl
    · rw [hcount', hcount, hsubmissions, Plan.size]
      omega

theorem settled_resolve (w : Pending) (h : c.Closed) :
    let c' := c.resolve w (.error .cancelled)
    c'.settled = c.settled ++ w.number :: List.range' c.submissions w.plan.size ∧
      c'.submissions = c.submissions + w.plan.size := by
  intro c'
  have hrecord : (c.record (.resolved w (.error .cancelled))).settled = c.settled ++ [w.number] :=
    settled_of_course [w] (by simp [Entry.submission?])
  unfold c' resolve Pending.plan
  split
  · rename_i plan hplan
    have hclosed : (c.record (.resolved w (.error .cancelled))).Closed :=
      ⟨h.driver, h.accepting, h.events⟩
    obtain ⟨hnested, hcount⟩ := settled_submitPlan plan hclosed
    rw [hnested, hcount, hrecord, hplan, List.append_assoc]
    exact ⟨rfl, rfl⟩
  · rename_i hfuture
    rw [hfuture]
    exact ⟨hrecord, rfl⟩

theorem settled_events (events : List Event) (h : c.Closed) :
    (events.foldl cancelEvent c).settled =
      c.settled ++ unwound (events.filterMap Event.write?) c.submissions := by
  induction events generalizing c with
  | nil => exact (List.append_nil _).symm
  | cons e events ih =>
    cases e with
    | write w =>
      obtain ⟨hsettled, hcount⟩ := settled_resolve w h
      rw [List.foldl_cons, cancelEvent, ih (cancels_resolve c w h).2, hsettled, hcount,
        List.append_assoc]
      rfl
    | reply => exact ih h

end

/-! ### When they are in order -/

theorem lt_of_mem_unwound {ws : List Pending} {k n x : Nat} (hw : ∀ w ∈ ws, k < w.number)
    (hn : k < n) (hx : x ∈ unwound ws n) : k < x := by
  induction ws generalizing n with
  | nil => cases hx
  | cons w ws ih =>
    obtain ⟨hfirst, hrest⟩ := List.forall_mem_cons.mp hw
    rcases List.mem_cons.mp hx with rfl | hx
    · exact hfirst
    · rcases List.mem_append.mp hx with hx | hx
      · have := (List.mem_range'_1.mp hx).1
        omega
      · exact ih hrest (by omega) hx

theorem pairwise_callback (w : Pending) {n : Nat} (hn : w.number < n) :
    (unwound [w] n).Pairwise (· < ·) := by
  rw [unwound, unwound, List.append_nil, List.pairwise_cons]
  refine ⟨?_, List.pairwise_lt_range'⟩
  intro x hx
  have := (List.mem_range'_1.mp hx).1
  omega

theorem unwound_quiet {w : Pending} (hw : w.plan = .nothing) (ws : List Pending) (n : Nat) :
    unwound (w :: ws) n = w.number :: unwound ws n := by
  rw [unwound, hw]
  rfl

theorem quiet_of_pairwise {w next : Pending} {ws : List Pending} {n : Nat}
    (hn : next.number < n) (h : (unwound (w :: next :: ws) n).Pairwise (· < ·)) :
    w.plan = .nothing := by
  cases hplan : w.plan with
  | nothing => rfl
  | write request whenResolved rest =>
    have hmem : n ∈ List.range' n w.plan.size := by
      rw [hplan, Plan.size, List.mem_range'_1]
      omega
    have hover := (List.pairwise_append.mp (List.pairwise_cons.mp h).2).2.2 n hmem next.number
      (List.mem_cons_self ..)
    omega

theorem pairwise_unwound {ws : List Pending} {n : Nat}
    (hordered : (ws.map (·.number)).Pairwise (· < ·)) (hn : ∀ w ∈ ws, w.number < n) :
    (unwound ws n).Pairwise (· < ·) ↔ ∀ plan ∈ (ws.map Pending.plan).dropLast, plan = .nothing := by
  induction ws with
  | nil => simp [unwound]
  | cons w ws ih =>
    obtain ⟨hlater, hordered⟩ := List.pairwise_cons.mp hordered
    obtain ⟨hw, hn⟩ := List.forall_mem_cons.mp hn
    cases ws with
    | nil => exact iff_of_true (pairwise_callback w hw) (by simp)
    | cons next ws =>
      have hdrop : ((w :: next :: ws).map Pending.plan).dropLast =
          w.plan :: ((next :: ws).map Pending.plan).dropLast := rfl
      have hnumbers : ∀ v ∈ next :: ws, w.number < v.number :=
        fun v hv => hlater _ (List.mem_map_of_mem hv)
      rw [hdrop, List.forall_mem_cons, ← ih hordered hn]
      constructor
      · intro h
        have hquiet := quiet_of_pairwise (hn next (List.mem_cons_self ..)) h
        rw [unwound_quiet hquiet] at h
        exact ⟨hquiet, (List.pairwise_cons.mp h).2⟩
      · rintro ⟨hquiet, h⟩
        rw [unwound_quiet hquiet]
        exact List.pairwise_cons.mpr ⟨fun x hx => lt_of_mem_unwound hnumbers hw hx, h⟩

/-! ## What is left in the event queue -/

/-- The plans of the writes that are in the event queue when it is closed: those that wait there,
and those that the callbacks of the driver's queue put behind them. -/
def left (c : Channel τ σ α) (d : Driver σ α) : List Plan :=
  c.waiting.map Pending.plan ++ d.queue.flatMap (·.plan.callbacks)

section

variable {c : Channel τ σ α}

theorem plans_submitPlan (plan : Plan) (h : c.accepting = true) :
    (submitPlan plan c).waiting.map Pending.plan =
      c.waiting.map Pending.plan ++ plan.callbacks := by
  induction plan generalizing c with
  | nothing => exact (List.append_nil _).symm
  | write request whenResolved rest _ ih =>
    have hsubmit : (c.submit ⟨c.submissions, request, .callback whenResolved⟩).waiting.map
        Pending.plan = c.waiting.map Pending.plan ++ [whenResolved] := by
      simp [submit, waiting, Event.write?, Pending.plan, Completion.plan]
    rw [submitPlan_write h, ih (c := c.submit _) h, hsubmit, List.append_assoc]
    rfl

theorem plans_resolve (w : Pending) (outcome : Outcome) (h : c.accepting = true) :
    (c.resolve w outcome).waiting.map Pending.plan =
      c.waiting.map Pending.plan ++ w.plan.callbacks := by
  unfold resolve Pending.plan
  split
  · rename_i plan hplan
    rw [hplan]
    exact plans_submitPlan (c := c.record _) plan h
  · rename_i hfuture
    rw [hfuture]
    exact (List.append_nil _).symm

theorem plans_queue [Accounts τ] (queue : List Pending) (h : c.accepting = true) :
    (queue.foldl (fun c w => c.resolve w (.error .cancelled)) c).waiting.map Pending.plan =
      c.waiting.map Pending.plan ++ queue.flatMap (·.plan.callbacks) := by
  induction queue generalizing c with
  | nil => exact (List.append_nil _).symm
  | cons w queue ih =>
    rw [List.foldl_cons, ih ((effect_resolve c w _ h).accepting.trans h), plans_resolve w _ h,
      List.append_assoc]
    rfl

end

section

variable [Accounts τ] [CipherSession σ] [Attester α] {s₀ : σ} {a₀ : α} {c : Channel τ σ α}
  {d : Driver σ α}

theorem settled_dropDriver (h : Live s₀ a₀ c d) : c.dropDriver.settled =
    c.settled ++ (d.queue.map (·.number) ++
      unwound (c.emptied d).waiting (c.emptied d).submissions) := by
  have heffect := c.effect_emptied d h.accepting
  have hqueue : (c.emptied d).settled = c.settled ++ d.queue.map (·.number) := by
    refine settled_of_course (c := c.release) d.queue ?_
    rw [heffect.course, List.map_map]
    rfl
  have hclosed : (c.emptied d).close.Closed := ⟨heffect.driver, rfl, rfl⟩
  rw [dropDriver_eq h.driver, settled_events _ hclosed, ← List.append_assoc, ← hqueue]
  rfl

theorem numbers_emptied (h : Live s₀ a₀ c d) :
    ∃ past, past ++ (d.queue ++ (c.emptied d).waiting).map (·.number) =
      List.range (c.emptied d).submissions := by
  obtain ⟨served, hlawful⟩ := lawful_of_live h
  have hunresolved := unresolved_of_lawful hlawful
  have heffect := c.effect_emptied d h.accepting
  obtain ⟨made, hsubmitted, hwaiting, -⟩ := heffect.fifo
  refine ⟨(c.outcomes.map (·.1)).map (·.number), ?_⟩
  have hleft : (c.emptied d).submitted =
      c.outcomes.map (·.1) ++ (d.queue ++ (c.emptied d).waiting) := by
    rw [hsubmitted, hwaiting, ← List.append_assoc d.queue, ← List.append_assoc]
    exact congrArg (· ++ made) hunresolved
  rw [← List.map_append, ← hleft]
  exact numbers_of_effect heffect h.numbers

theorem ordered_dropDriver (h : Live s₀ a₀ c d) :
    (d.queue.map (·.number) ++
        unwound (c.emptied d).waiting (c.emptied d).submissions).Pairwise (· < ·) ↔
      ∀ plan ∈ (c.left d).dropLast, plan = .nothing := by
  obtain ⟨past, hpast⟩ := numbers_emptied h
  have hordered : ((d.queue ++ (c.emptied d).waiting).map (·.number)).Pairwise (· < ·) := by
    refine List.Pairwise.sublist ?_ (List.pairwise_lt_range (n := (c.emptied d).submissions))
    rw [← hpast]
    exact List.sublist_append_right ..
  have hbound : ∀ w ∈ d.queue ++ (c.emptied d).waiting, w.number < (c.emptied d).submissions := by
    intro w hw
    rw [← List.mem_range, ← hpast]
    exact List.mem_append_right _ (List.mem_map_of_mem hw)
  obtain ⟨hqueued, hwaiting⟩ := List.forall_mem_append.mp hbound
  rw [List.map_append, List.pairwise_append] at hordered
  obtain ⟨hqueue, hlater, hcross⟩ := hordered
  have hleft : (c.emptied d).waiting.map Pending.plan = c.left d :=
    plans_queue (c := c.release) d.queue h.accepting
  rw [List.pairwise_append, pairwise_unwound hlater hwaiting, hleft]
  constructor
  · exact fun h => h.2.1
  · intro hquiet
    refine ⟨hqueue, hquiet, ?_⟩
    intro x hx y hy
    obtain ⟨w, hw, rfl⟩ := List.mem_map.mp hx
    refine lt_of_mem_unwound ?_ (hqueued w hw) hy
    intro v hv
    exact hcross _ hx _ (List.mem_map_of_mem hv)

end

/-! ## The theorem -/

/-- In which order the drop of a driver cancels the writes. -/
structure Unwinds (c : Channel τ σ α) (d : Driver σ α) (cancelled : List Pending) : Prop where
  outcomes : c.dropDriver.outcomes =
    c.outcomes ++ cancelled.map fun w => (w, .error .cancelled)
  /-- The numbers tell in which order the writes were submitted. -/
  numbers : c.dropDriver.submitted.map (·.number) = List.range c.dropDriver.submissions
  order : cancelled.map (·.number) =
    d.queue.map (·.number) ++ unwound (c.emptied d).waiting (c.emptied d).submissions
  /-- Only the last callback that is left may write. -/
  ordered : (cancelled.map (·.number)).Pairwise (· < ·) ↔
    ∀ plan ∈ (c.left d).dropLast, plan = .nothing

/-- **The drop cancels in the order of submission if, of the callbacks left in the event queue, none
but the last writes, and only then.** -/
theorem unwinds_after [Transport τ] [CipherSession σ] [Attester α] (t : τ) (s₀ : σ) (a₀ : α)
    (moves : List Move) :
    ∃ d cancelled, ((new ⟨t, []⟩ s₀ a₀).after moves).driver = some d ∧
      Unwinds ((new ⟨t, []⟩ s₀ a₀).after moves) d cancelled := by
  generalize hc : (new ⟨t, []⟩ s₀ a₀).after moves = c
  obtain ⟨d, h⟩ : ∃ d, Live s₀ a₀ c d := hc ▸ live_after t s₀ a₀ moves
  obtain ⟨hdrop, -⟩ := cancels_dropDriver h.driver h.accepting
  obtain ⟨cancelled, made, hcourse, -⟩ := hdrop.log
  have horder : cancelled.map (·.number) =
      d.queue.map (·.number) ++ unwound (c.emptied d).waiting (c.emptied d).submissions := by
    have hsettled := settled_dropDriver h
    rw [settled_of_course cancelled hcourse] at hsettled
    exact List.append_cancel_left hsettled
  refine ⟨d, cancelled, h.driver, ⟨?_, numbers_of_cancels hdrop h.numbers, horder, ?_⟩⟩
  · rw [outcomes_eq, hcourse, outcomesOf_append, ← outcomes_eq, outcomesOf_resolved]
  · rw [horder]
    exact ordered_dropDriver h

/-- Of two writes that wait, the first has a callback that writes: this third write is cancelled
before the second. -/
theorem callback_overtakes :
    let c : Channel (Held ScriptedTransport) ScriptedSession InsecureAttester :=
      (new ⟨{}, []⟩ {} {}).after
        [.write [65] (.write [67] .nothing .nothing), .write [66] .nothing]
    c.dropDriver.submitted.map (·.number) = [0, 1, 2] ∧
      c.dropDriver.outcomes.map (·.1.number) = [0, 2, 1] := by
  decide

end Channel

end SealedLink
