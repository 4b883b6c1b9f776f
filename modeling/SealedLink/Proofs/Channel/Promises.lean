import SealedLink.Proofs.Channel.Bare

/-!
# What futures hold

Every future that is at hand holds the outcome of its write as soon as there is one (`poll_kept`).
The driver and the callbacks may do what they like: the futures at hand stay the same, and each one
is filled by the resolution of its write.
-/

namespace SealedLink

/-- The write that an entry is about. -/
def Entry.pending? : Entry → Option Pending
  | .submitted w | .handled (.write w) | .resolved w _ => some w
  | .handled (.reply ..) | .called _ | .published _ | .sent .. => none

/-- The write that an action resolves. -/
def Action.write? : Action → Option Pending
  | .resolve w _ => some w
  | .call _ | .publish _ | .send .. => none

def Entry.outcomeOf? (number : Nat) : Entry → Option Outcome
  | .resolved w outcome => if w.number = number then some outcome else none
  | _ => none

namespace Channel

variable {τ σ α : Type} {c c' : Channel τ σ α} {w : Pending}

/-- The numbers of the futures that were not dropped and did not give an outcome yet. -/
def hand (c : Channel τ σ α) : List Nat := c.futures.map (·.1)

def outcomeOf (c : Channel τ σ α) (number : Nat) : Option Outcome :=
  c.log.findSome? (Entry.outcomeOf? number)

/-- The writes that have no outcome yet: those that the driver has taken, and those that wait. -/
def backlog (c : Channel τ σ α) : List Pending := (c.driver.elim [] (·.queue)) ++ c.waiting

/-- A write that may be resolved: if there is a future for it, it is resolved by filling that. -/
structure Suited (c : Channel τ σ α) (w : Pending) : Prop where
  number : w.number < c.submissions
  future : w.number ∈ c.hand → w.completion = .future

/-- The futures at hand hold what is known of their writes. -/
structure Kept (c : Channel τ σ α) : Prop where
  logged : ∀ e ∈ c.log, ∀ w, e.pending? = some w → w.number < c.submissions
  backlog : ∀ w ∈ c.backlog, c.Suited w
  futures : ∀ f ∈ c.futures, f.1 < c.submissions ∧ f.2 = c.outcomeOf f.1

/-! ## Asking -/

theorem lookup_of_mem {futures : List (Nat × Option Outcome)} {number : Nat}
    (h : number ∈ futures.map (·.1)) :
    ∃ outcome, futures.lookup number = some outcome ∧ (number, outcome) ∈ futures := by
  induction futures with
  | nil => cases h
  | cons f futures ih =>
    obtain ⟨n, o⟩ := f
    by_cases hn : number = n
    · subst hn
      exact ⟨o, by simp, List.mem_cons_self⟩
    · have hrest : number ∈ futures.map (·.1) := by simpa [hn] using h
      obtain ⟨outcome, hlookup, hmem⟩ := ih hrest
      have hne : (number == n) = false := beq_eq_false_iff_ne.mpr hn
      exact ⟨outcome, by simp [List.lookup_cons, hne, hlookup], List.mem_cons_of_mem _ hmem⟩

theorem lookup_of_not_mem {futures : List (Nat × Option Outcome)} {number : Nat}
    (h : number ∉ futures.map (·.1)) : futures.lookup number = none := by
  rw [List.lookup_eq_none_iff]
  intro f hf
  have hne : number ≠ f.1 := fun heq => h (heq ▸ List.mem_map_of_mem hf)
  simpa using hne

/-- What is known of a write. -/
def answerTo (c : Channel τ σ α) (number : Nat) : Polled :=
  match c.outcomeOf number with
  | some outcome => .ready outcome
  | none => .waiting

/-- **A future at hand gives the outcome of its write if there is one, and waits if not.** -/
theorem poll_kept (h : c.Kept) (number : Nat) :
    (c.poll number).1 = if number ∈ c.hand then c.answerTo number else .gone := by
  by_cases hn : number ∈ c.hand
  · obtain ⟨outcome, hlookup, hmem⟩ := lookup_of_mem hn
    have houtcome : outcome = c.outcomeOf number := (h.futures _ hmem).2
    rw [if_pos hn, poll, hlookup, answerTo, ← houtcome]
    cases outcome <;> rfl
  · rw [if_neg hn, poll, lookup_of_not_mem hn]

/-! ## Resolving -/

/-- From `c` to `c'` no future was made or taken away. -/
structure SameHand (c c' : Channel τ σ α) : Prop where
  hand : c'.hand = c.hand
  submissions : c.submissions ≤ c'.submissions

theorem SameHand.rfl : SameHand c c := ⟨Eq.refl _, Nat.le_refl _⟩

theorem SameHand.trans {c'' : Channel τ σ α} (h : SameHand c c') (h' : SameHand c' c'') :
    SameHand c c'' :=
  ⟨h'.hand.trans h.hand, Nat.le_trans h.submissions h'.submissions⟩

theorem SameHand.suited (h : SameHand c c') (hw : c.Suited w) : c'.Suited w where
  number := Nat.lt_of_lt_of_le hw.number h.submissions
  future := h.hand ▸ hw.future

theorem sameHand_post (c : Channel τ σ α) (e : Event) : SameHand c (c.post e) := by
  unfold post
  split <;> exact ⟨rfl, Nat.le_refl _⟩

theorem hand_fill (c : Channel τ σ α) (number : Nat) (outcome : Outcome) :
    (c.fill number outcome).hand = c.hand := by
  simp only [hand, fill, List.map_map]
  refine List.map_congr_left fun f _ => ?_
  rw [Function.comp_apply]
  split <;> rfl

theorem sameHand_tolerates : Tolerates (@SameHand τ σ α) where
  refl _ := .rfl
  trans := .trans
  submitted _ _ := ⟨rfl, Nat.le_succ _⟩
  post := sameHand_post
  resolved _ _ _ := ⟨rfl, Nat.le_refl _⟩
  fill c number outcome := ⟨hand_fill c number outcome, Nat.le_refl _⟩

theorem sameHand_dropDriver (c : Channel τ σ α) : SameHand c c.dropDriver :=
  sameHand_tolerates.dropDriver (fun _ => ⟨rfl, Nat.le_refl _⟩) (fun _ => ⟨rfl, Nat.le_refl _⟩) c

/-! ### What the resolution of a write does -/

theorem Kept.fresh (h : c.Kept) {number : Nat} (hn : c.submissions ≤ number) :
    number ∉ c.hand ∧ c.outcomeOf number = none := by
  constructor
  · intro hmem
    obtain ⟨f, hf, rfl⟩ := List.mem_map.mp hmem
    have := (h.futures f hf).1
    omega
  · refine List.findSome?_eq_none_iff.mpr fun e he => ?_
    cases e with
    | resolved w outcome =>
      have := h.logged _ he w rfl
      exact if_neg (by omega)
    | submitted | handled | called | published | sent => rfl

theorem Kept.less (h : c.Kept) (hbacklog : c'.backlog ⊆ c.backlog)
    (hfutures : c'.futures = c.futures) (hcount : c.submissions ≤ c'.submissions)
    (hlog : c'.log = c.log) : c'.Kept where
  logged e he w hw := Nat.lt_of_lt_of_le (h.logged e (hlog ▸ he) w hw) hcount
  backlog w hw := SameHand.suited ⟨congrArg (List.map Prod.fst) hfutures, hcount⟩
    (h.backlog w (hbacklog hw))
  futures f hf := by
    obtain ⟨hlt, heq⟩ := h.futures f (hfutures ▸ hf)
    have houtcome : c'.outcomeOf f.1 = c.outcomeOf f.1 := by rw [outcomeOf, hlog, outcomeOf]
    exact ⟨Nat.lt_of_lt_of_le hlt hcount, heq.trans houtcome.symm⟩

theorem Kept.next (h : c.Kept) (request : Bytes) (plan : Plan) :
    { c with submissions := c.submissions + 1 }.Kept ∧
      { c with submissions := c.submissions + 1 }.Suited
        ⟨c.submissions, request, .callback plan⟩ where
  left := h.less (List.Subset.refl _) rfl (Nat.le_succ _) rfl
  right := ⟨Nat.lt_succ_self _, fun hmem => absurd hmem (h.fresh (Nat.le_refl _)).1⟩

theorem outcomeOf_record (c : Channel τ σ α) (e : Entry) (number : Nat) :
    (c.record e).outcomeOf number = (e.outcomeOf? number).or (c.outcomeOf number) := by
  rw [outcomeOf, record, List.findSome?_cons]
  cases e.outcomeOf? number <;> rfl

theorem Kept.record (h : c.Kept) {e : Entry}
    (hw : ∀ w, e.pending? = some w → w.number < c.submissions)
    (ho : ∀ number ∈ c.hand, e.outcomeOf? number = none) : (c.record e).Kept where
  logged e' he := by
    rcases List.mem_cons.mp he with rfl | he
    · exact hw
    · exact h.logged e' he
  backlog w hw := SameHand.suited (c := c) ⟨rfl, Nat.le_refl _⟩ (h.backlog w hw)
  futures f hf := by
    obtain ⟨hlt, heq⟩ := h.futures f hf
    rw [outcomeOf_record, ho f.1 (List.mem_map_of_mem hf)]
    exact ⟨hlt, heq⟩

theorem Kept.post (h : c.Kept) {e : Event} (hw : ∀ w, e.write? = some w → c.Suited w) :
    (c.post e).Kept := by
  unfold Channel.post
  split
  · refine ⟨h.logged, fun w hmem => ?_, h.futures⟩
    have hcases : w ∈ c.backlog ∨ e.write? = some w := by
      simpa [Channel.backlog, waiting, or_assoc] using hmem
    have hsuited : c.Suited w := hcases.elim (h.backlog w) (hw w)
    exact SameHand.suited (c := c) ⟨rfl, Nat.le_refl _⟩ hsuited
  · exact h

theorem kept_reply (h : c.Kept) (q : UInt64) (result : TransportResult) :
    (c.post (.reply q result)).Kept := by
  refine h.post fun w hw => ?_
  cases hw

theorem Suited.unheld {plan : Plan} {number : Nat} {request : Bytes}
    (h : c.Suited ⟨number, request, .callback plan⟩) : number ∉ c.hand :=
  fun hmem => nomatch h.future hmem

theorem kept_submitPlan (plan : Plan) (h : c.Kept) : (submitPlan plan c).Kept := by
  induction plan generalizing c with
  | nothing => exact h
  | write request whenResolved rest ih ih' =>
    obtain ⟨hnext, hsuited⟩ := h.next request whenResolved
    have hsubmitted := hnext.record
      (e := .submitted ⟨c.submissions, request, .callback whenResolved⟩)
      (fun w hw => Option.some.inj hw ▸ hsuited.number) (fun _ _ => rfl)
    unfold submitPlan
    dsimp only
    split
    · refine ih' (hsubmitted.post fun w hw => ?_)
      obtain rfl := Option.some.inj hw
      exact ⟨hsuited.number, hsuited.future⟩
    · refine ih' (ih (hsubmitted.record (fun w hw => Option.some.inj hw ▸ hsuited.number) ?_))
      intro number hmem
      have hne : c.submissions ≠ number := fun heq => hsuited.unheld (heq ▸ hmem)
      exact if_neg hne

theorem kept_fill (h : c.Kept) (hw : w.number < c.submissions) (outcome : Outcome) :
    ((c.record (.resolved w outcome)).fill w.number outcome).Kept where
  logged e he := by
    rcases List.mem_cons.mp he with rfl | he
    · exact fun w' hw' => Option.some.inj hw' ▸ hw
    · exact h.logged e he
  backlog w' hw' := SameHand.suited (c := c) ⟨hand_fill .., Nat.le_refl _⟩ (h.backlog w' hw')
  futures f' hf' := by
    obtain ⟨f, hf, rfl⟩ := List.mem_map.mp hf'
    obtain ⟨hlt, heq⟩ := h.futures f hf
    have houtcome (number : Nat) :
        ((c.record (.resolved w outcome)).fill w.number outcome).outcomeOf number =
          (if w.number = number then some outcome else none).or (c.outcomeOf number) :=
      outcomeOf_record c (.resolved w outcome) number
    by_cases hn : f.1 = w.number
    · rw [if_pos hn, houtcome, if_pos hn.symm]
      exact ⟨hlt, rfl⟩
    · rw [if_neg hn, houtcome, if_neg (Ne.symm hn)]
      exact ⟨hlt, heq⟩

/-- **The resolution of a write fills its future, and no other one.** -/
theorem kept_resolve (h : c.Kept) (hw : c.Suited w) (outcome : Outcome) :
    (c.resolve w outcome).Kept := by
  obtain ⟨number, request, plan | _⟩ := w
  -- There is no future at hand for a write with a callback.
  · refine kept_submitPlan plan (h.record (fun w hw' => Option.some.inj hw' ▸ hw.number) ?_)
    intro n hmem
    have hne : number ≠ n := fun heq => hw.unheld (heq ▸ hmem)
    exact if_neg hne
  · exact kept_fill h hw.number outcome

/-! ## Dropping the driver -/

theorem kept_foldl {β : Type} {f : Channel τ σ α → β → Channel τ σ α} {g : β → Option Pending}
    (hf : ∀ c b, Kept c → (∀ w, g b = some w → c.Suited w) → (f c b).Kept)
    (hsame : ∀ c b, SameHand c (f c b)) (l : List β) (h : c.Kept)
    (hl : ∀ b ∈ l, ∀ w, g b = some w → c.Suited w) : (l.foldl f c).Kept := by
  induction l generalizing c with
  | nil => exact h
  | cons b l ih =>
    refine ih (hf c b h (hl b List.mem_cons_self)) fun b' hb' w hw => ?_
    exact (hsame c b).suited (hl b' (List.mem_cons_of_mem _ hb') w hw)

theorem kept_release {d : Driver σ α} (h : c.Kept) (hd : c.driver = some d) :
    c.release.Kept ∧ ∀ w ∈ d.queue, c.release.Suited w := by
  refine ⟨h.less (List.subset_append_right _ _) rfl (Nat.le_refl _) rfl, fun w hw => ?_⟩
  have hmem : w ∈ c.backlog := by simp [backlog, hd, hw]
  exact SameHand.suited (c := c) ⟨rfl, Nat.le_refl _⟩ (h.backlog w hmem)

theorem kept_cancelQueue {queue : List Pending} (h : c.Kept) (hqueue : ∀ w ∈ queue, c.Suited w) :
    (queue.foldl (fun c w => c.resolve w (.error .cancelled)) c).Kept :=
  kept_foldl (g := some) (fun _ w h hw => kept_resolve h (hw w rfl) _)
    (fun c w => sameHand_tolerates.resolve c w _) queue h
    fun w hw _ heq => Option.some.inj heq ▸ hqueue w hw

theorem kept_close (h : c.Kept) :
    c.close.Kept ∧ ∀ e ∈ c.events, ∀ w, e.write? = some w → c.close.Suited w := by
  refine ⟨h.less (by simp [backlog, close, waiting]) rfl (Nat.le_refl _) rfl, fun e he w hw => ?_⟩
  have hmem : w ∈ c.backlog := List.mem_append_right _ (List.mem_filterMap.mpr ⟨e, he, hw⟩)
  exact SameHand.suited (c := c) ⟨rfl, Nat.le_refl _⟩ (h.backlog w hmem)

theorem kept_cancelEvent (c : Channel τ σ α) (e : Event) (h : c.Kept)
    (he : ∀ w, e.write? = some w → c.Suited w) : (c.cancelEvent e).Kept := by
  cases e with
  | write w => exact kept_resolve h (he w rfl) _
  | reply => exact h

theorem kept_dropDriver (h : c.Kept) : c.dropDriver.Kept := by
  cases hd : c.driver with
  | none =>
    exact (dropDriver_gone hd).symm ▸ h
  | some d =>
    obtain ⟨hrelease, hqueue⟩ := kept_release h hd
    have hemptied : (c.emptied d).Kept := kept_cancelQueue hrelease hqueue
    obtain ⟨hclose, hevents⟩ := kept_close hemptied
    rw [dropDriver_eq hd]
    exact kept_foldl kept_cancelEvent sameHand_tolerates.cancelEvent _ hclose hevents

/-! ## Driving -/

section

variable [Accounts τ]

theorem sameHand_perform (c : Channel τ σ α) (a : Action) : SameHand c (c.perform a) := by
  cases a with
  | call | publish => exact ⟨rfl, Nat.le_refl _⟩
  | resolve w outcome => exact sameHand_tolerates.resolve c w outcome
  | send q request =>
    have hsent (t : τ) : SameHand c ({ c with transport := t }.record (.sent q request)) :=
      ⟨rfl, Nat.le_refl _⟩
    unfold perform
    dsimp only
    split
    · exact (hsent _).trans (sameHand_post ..)
    · exact hsent _

theorem kept_perform (c : Channel τ σ α) (a : Action) (h : c.Kept)
    (ha : ∀ w, a.write? = some w → c.Suited w) : (c.perform a).Kept := by
  cases a with
  | call call => exact h.record (fun _ hw => nomatch hw) fun _ _ => rfl
  | publish state =>
    have hshown : { c with published := state }.Kept :=
      h.less (List.Subset.refl _) rfl (Nat.le_refl _) rfl
    exact hshown.record (fun _ hw => nomatch hw) fun _ _ => rfl
  | resolve w outcome => exact kept_resolve h (ha w rfl) outcome
  | send q request =>
    have hsent (t : τ) : ({ c with transport := t }.record (.sent q request)).Kept :=
      have hcarried : { c with transport := t }.Kept :=
        h.less (List.Subset.refl _) rfl (Nat.le_refl _) rfl
      hcarried.record (fun _ hw => nomatch hw) fun _ _ => rfl
    unfold perform
    dsimp only
    split
    · exact kept_reply (hsent _) _ _
    · exact hsent _

variable [CipherSession σ] [Attester α]

omit [Accounts τ] in
theorem kept_take {d : Driver σ α} {e : Event} {rest : List Event} (h : c.Kept)
    (hd : c.driver = some d) (he : c.events = e :: rest) :
    (c.take d e rest).Kept ∧
      ∀ a ∈ (d.handle e).2, ∀ w, a.write? = some w → (c.take d e rest).Suited w := by
  -- What is queued or resolved in a step was queued before, or comes with the event.
  obtain ⟨hqueue, hresolved⟩ := Driver.step_writes (d.handle_step e)
  have htaken : ∀ w, w ∈ d.queue ∨ e = .write w → w ∈ c.backlog := by
    rintro w (hw | rfl)
    · simp [backlog, hd, hw]
    · simp [backlog, waiting, he, Event.write?]
  have hsame : SameHand c (c.take d e rest) := ⟨rfl, Nat.le_refl _⟩
  constructor
  · have hless : { c with driver := some (d.handle e).1, events := rest }.Kept := by
      refine h.less (fun w hw => ?_) rfl (Nat.le_refl _) rfl
      rcases List.mem_append.mp hw with hw | hw
      · exact htaken w (hqueue w hw)
      · obtain ⟨e', hmem, hw⟩ := List.mem_filterMap.mp hw
        refine List.mem_append_right _ (List.mem_filterMap.mpr ⟨e', ?_, hw⟩)
        exact he ▸ List.mem_cons_of_mem _ hmem
    refine hless.record (fun w hw => ?_) fun _ _ => rfl
    cases e with
    | write w' =>
      obtain rfl := Option.some.inj hw
      exact (h.backlog _ (htaken _ (.inr rfl))).number
    | reply => cases hw
  · intro a ha w hw
    cases a with
    | resolve w' outcome =>
      obtain rfl := Option.some.inj hw
      exact hsame.suited (h.backlog _ (htaken _ (hresolved _ outcome ha)))
    | call | publish | send => cases hw

theorem kept_processNext {next : Channel τ σ α} (h : c.Kept) (hnext : c.processNext = some next) :
    next.Kept ∧ SameHand c next := by
  cases hd : c.driver with
  | none => simp [processNext, hd] at hnext
  | some d =>
    cases he : c.events with
    | nil => simp [processNext, he] at hnext
    | cons e rest =>
      rw [processNext_eq hd he] at hnext
      obtain rfl := Option.some.inj hnext
      obtain ⟨htake, hsuited⟩ := kept_take h hd he
      have hsame : SameHand c (c.take d e rest) := ⟨rfl, Nat.le_refl _⟩
      exact ⟨kept_foldl kept_perform sameHand_perform _ htake hsuited,
        hsame.trans (sameHand_tolerates.foldl sameHand_perform _ _)⟩

theorem kept_runTaskFor (limit : Nat) (h : c.Kept) :
    (c.runTaskFor limit).Kept ∧ SameHand c (c.runTaskFor limit) := by
  induction limit generalizing c with
  | zero => exact ⟨h, .rfl⟩
  | succ limit ih =>
    unfold runTaskFor taskStep
    cases hnext : c.processNext with
    | some next =>
      obtain ⟨hkept, hsame⟩ := kept_processNext h hnext
      obtain ⟨hlast, hrest⟩ := ih hkept
      exact ⟨hlast, hsame.trans hrest⟩
    | none =>
      cases c.isAbandoned with
      | true =>
        obtain ⟨hlast, hrest⟩ := ih (kept_dropDriver h)
        exact ⟨hlast, c.sameHand_dropDriver.trans hrest⟩
      | false => exact ⟨h, .rfl⟩

end

/-! ## Futures come and go -/

theorem kept_writeFuture (h : c.Kept) (request : Bytes) : (c.writeFuture request).Kept := by
  have hnew : { c with submissions := c.submissions + 1,
                       futures := c.futures ++ [(c.submissions, none)] }.Kept := {
    logged := fun e he w hw => Nat.lt_succ_of_lt (h.logged e he w hw)
    backlog := fun w hw => by
      have hsuited := h.backlog w hw
      refine ⟨Nat.lt_succ_of_lt hsuited.number, fun hmem => hsuited.future ?_⟩
      have hne : w.number ≠ c.submissions := Nat.ne_of_lt hsuited.number
      simpa [hand, hne] using hmem
    futures := fun f hf => by
      rcases List.mem_append.mp hf with hf | hf
      · exact ⟨Nat.lt_succ_of_lt (h.futures f hf).1, (h.futures f hf).2⟩
      · obtain rfl := List.mem_singleton.mp hf
        exact ⟨Nat.lt_succ_self _, (h.fresh (Nat.le_refl _)).2.symm⟩ }
  have hsubmitted := hnew.record (e := .submitted ⟨c.submissions, request, .future⟩)
    (fun w hw => Option.some.inj hw ▸ Nat.lt_succ_self _) (fun _ _ => rfl)
  unfold writeFuture
  dsimp only
  split
  · refine hsubmitted.post fun w hw => ?_
    obtain rfl := Option.some.inj hw
    exact ⟨Nat.lt_succ_self _, fun _ => rfl⟩
  · exact kept_resolve hsubmitted ⟨Nat.lt_succ_self _, fun _ => rfl⟩ _

theorem hand_writeFuture (c : Channel τ σ α) (request : Bytes) :
    (c.writeFuture request).hand = c.hand ++ [c.submissions] := by
  have hnew (w : Pending) : ({ c with submissions := c.submissions + 1, futures := c.futures ++
      [(c.submissions, none)] }.record (.submitted w)).hand = c.hand ++ [c.submissions] := by
    simp [hand, record]
  unfold writeFuture
  dsimp only
  split
  · exact (sameHand_post ..).hand.trans (hnew _)
  · exact (sameHand_tolerates.resolve ..).hand.trans (hnew _)

theorem hand_dropFuture (c : Channel τ σ α) (number : Nat) :
    (c.dropFuture number).2.hand = c.hand.filter (· ≠ number) := by
  simp [dropFuture, hand, List.filter_map, Function.comp_def]

theorem kept_dropFuture (h : c.Kept) (number : Nat) : (c.dropFuture number).2.Kept where
  logged := h.logged
  backlog w hw := by
    have hsuited := h.backlog w hw
    refine ⟨hsuited.number, fun hmem => hsuited.future ?_⟩
    rw [hand_dropFuture] at hmem
    exact List.mem_of_mem_filter hmem
  futures f hf := h.futures f (List.mem_of_mem_filter hf)

theorem poll_cases (c : Channel τ σ α) (number : Nat) :
    (∃ outcome, (c.poll number).1 = .ready outcome ∧ (c.poll number).2 = (c.dropFuture number).2) ∨
      (c.poll number).2 = c := by
  unfold poll
  split
  · exact .inr rfl
  · exact .inr rfl
  · exact .inl ⟨_, rfl, rfl⟩

section

variable [Transport τ] [CipherSession σ] [Attester α] {c : Channel (Held τ) σ α}

theorem kept_move (h : c.Kept) (m : Move) : (c.move m).Kept := by
  cases m with
  | write request plan => exact kept_submitPlan _ h
  | writeFuture request => exact kept_writeFuture h request
  | poll number =>
    rw [move]
    rcases c.poll_cases number with ⟨_, -, hgone⟩ | hsame
    · exact hgone ▸ kept_dropFuture h number
    · exact hsame.symm ▸ h
  | dropFuture number => exact kept_dropFuture h number
  | cloneHandle | dropHandle | forget =>
    exact h.less (List.Subset.refl _) rfl (Nat.le_refl _) rfl
  | answer position result =>
    rw [move, answer]
    split
    · have hforgot : (c.forget position).Kept :=
        h.less (List.Subset.refl _) rfl (Nat.le_refl _) rfl
      exact kept_reply hforgot _ _
    · exact h
  | process =>
    rw [move]
    cases hnext : c.processNext with
    | none => exact h
    | some next => exact (kept_processNext h hnext).1

theorem mem_hand_move (h : c.Kept) {number : Nat} (hmem : number ∈ c.hand) {m : Move}
    (hdrop : m ≠ .dropFuture number) (hpoll : m = .poll number → c.outcomeOf number = none) :
    number ∈ (c.move m).hand := by
  have hother {n : Nat} (hn : n ≠ number) : number ∈ (c.dropFuture n).2.hand := by
    rw [hand_dropFuture]
    simpa [hmem] using Ne.symm hn
  cases m with
  | write request plan => exact (sameHand_tolerates.plan _ c).hand ▸ hmem
  | writeFuture request =>
    rw [move, hand_writeFuture]
    exact List.mem_append_left _ hmem
  | poll n =>
    rw [move]
    rcases c.poll_cases n with ⟨outcome, hready, hgone⟩ | hsame
    · rw [hgone]
      refine hother fun hn => ?_
      subst hn
      rw [poll_kept h, if_pos hmem, answerTo, hpoll rfl] at hready
      cases hready
    · exact hsame.symm ▸ hmem
  | dropFuture n => exact hother fun hn => hdrop (hn ▸ rfl)
  | cloneHandle | dropHandle | forget => exact hmem
  | answer position result =>
    rw [move, answer]
    split
    · rw [deliver, (sameHand_post ..).hand]
      exact hmem
    · exact hmem
  | process =>
    rw [move]
    cases hnext : c.processNext with
    | none => exact hmem
    | some next => exact (kept_processNext h hnext).2.hand ▸ hmem

end

end Channel

end SealedLink
