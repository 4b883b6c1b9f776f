import SealedLink.Proofs.Channel.Establishment
import SealedLink.Proofs.Channel.Futures

/-!
# Runs with futures

Whether those who wait for the outcomes of writes do so with callbacks or with futures makes no
difference to a channel, and neither does it when they ask for the outcomes or drop the futures.
A future gives what the callback would have got (`transparent_after`).
-/

namespace SealedLink

/-! ## Runs -/

/-- What happens to a channel. -/
inductive Episode where
  | move (m : Move)
  /-- The driver gets to run as a task. -/
  | run
  | drop
  /-- The write that a callback made gets a future. -/
  | adopt (number : Nat)

def Episode.bare? : Episode → Option Episode
  | .move m => m.bare?.map .move
  | .adopt _ => none
  | e => some e

/-- The run with a callback that does nothing in the place of every future. -/
def callbacks (run : List Episode) : List Episode := run.filterMap Episode.bare?

namespace Channel

variable {τ σ α : Type} [Transport τ] [CipherSession σ] [Attester α] {c : Channel (Held τ) σ α}

def pass (c : Channel (Held τ) σ α) : Episode → Channel (Held τ) σ α
  | .move m => c.move m
  | .run => c.runTask
  | .drop => c.dropDriver
  | .adopt number => c.adopt number

def through (c : Channel (Held τ) σ α) (run : List Episode) : Channel (Held τ) σ α :=
  run.foldl pass c

theorem through_append (c : Channel (Held τ) σ α) (a b : List Episode) :
    c.through (a ++ b) = (c.through a).through b := List.foldl_append

theorem bare_pass (c : Channel (Held τ) σ α) (e : Episode) :
    (c.pass e).bare = e.bare?.elim c.bare c.bare.pass := by
  cases e with
  | move m =>
    rw [pass, bare_move, Episode.bare?]
    cases m.bare? <;> rfl
  | run => exact bare_runTask c
  | drop => exact bare_dropDriver c
  | adopt number => exact bare_adopt c number

theorem bare_through (c : Channel (Held τ) σ α) (run : List Episode) :
    (c.through run).bare = c.bare.through (callbacks run) := by
  induction run generalizing c with
  | nil => rfl
  | cons e run ih =>
    have hstep := bare_pass c e
    rw [through, List.foldl_cons, callbacks, List.filterMap_cons]
    cases he : e.bare?
    all_goals
      rw [he] at hstep
      exact (ih _).trans (congrArg (through · _) hstep)

/-! ### Futures in a run -/

theorem kept_pass (h : c.Kept) (e : Episode) : (c.pass e).Kept := by
  cases e with
  | move m => exact kept_move h m
  | run => exact (kept_runTaskFor _ h).1
  | drop => exact kept_dropDriver h
  | adopt number => exact kept_adopt h number

theorem kept_through (h : c.Kept) (run : List Episode) : (c.through run).Kept := by
  induction run generalizing c with
  | nil => exact h
  | cons e run ih => exact ih (kept_pass h e)

omit [Transport τ] [CipherSession σ] [Attester α] in
theorem kept_new (t : τ) (s₀ : σ) (a₀ : α) : (new ⟨t, []⟩ s₀ a₀ : Channel (Held τ) σ α).Kept where
  logged _ he := nomatch he
  backlog _ hw := nomatch hw
  futures _ hf := nomatch hf

/-- The future that an episode makes. -/
def makes (c : Channel (Held τ) σ α) : Episode → Option Nat
  | .move (.writeFuture _) => some c.submissions
  | .adopt number => if c.Adoptable number then some number else none
  | _ => none

/-- From `c` on the future is neither dropped nor asked when its write has an outcome. -/
def Unclaimed (c : Channel (Held τ) σ α) (number : Nat) (later : List Episode) : Prop :=
  ∀ before e after, later = before ++ e :: after → e ≠ .move (.dropFuture number) ∧
    (e = .move (.poll number) → ∀ x ∈ (c.through before).outcomes, x.1.number ≠ number)

theorem mem_hand_pass (h : c.Kept) {number : Nat} (hmem : number ∈ c.hand) {e : Episode}
    (hdrop : e ≠ .move (.dropFuture number))
    (hpoll : e = .move (.poll number) → c.outcomeOf number = none) :
    number ∈ (c.pass e).hand := by
  cases e with
  | move m =>
    exact mem_hand_move h hmem (fun heq => hdrop (heq ▸ rfl)) fun heq => hpoll (heq ▸ rfl)
  | run => exact (kept_runTaskFor _ h).2.hand ▸ hmem
  | drop => exact c.sameHand_dropDriver.hand ▸ hmem
  | adopt n =>
    rw [pass]
    by_cases ha : c.Adoptable n
    · rw [hand_adopt ha]
      exact List.mem_append_left _ hmem
    · rwa [adopt, if_neg ha]

theorem mem_hand_makes {number : Nat} {e : Episode} (h : c.makes e = some number) :
    number ∈ (c.pass e).hand := by
  cases e with
  | move m =>
    cases m with
    | writeFuture request =>
      obtain rfl := Option.some.inj h
      rw [pass, move, hand_writeFuture]
      exact List.mem_append_right _ List.mem_cons_self
    | _ => cases h
  | adopt n =>
    simp only [makes] at h
    split at h
    · rename_i ha
      obtain rfl := Option.some.inj h
      rw [pass, hand_adopt ha]
      exact List.mem_append_right _ List.mem_cons_self
    · cases h
  | run | drop => cases h

theorem mem_hand_through (h : c.Kept) {number : Nat} (hmem : number ∈ c.hand)
    {later : List Episode} (hunclaimed : c.Unclaimed number later) :
    number ∈ (c.through later).hand := by
  induction later generalizing c with
  | nil => exact hmem
  | cons e later ih =>
    obtain ⟨hdrop, hpoll⟩ := hunclaimed [] e later rfl
    have hstays := mem_hand_pass h hmem hdrop fun heq => outcomeOf_eq_none_iff.mpr (hpoll heq)
    refine ih (kept_pass h e) hstays fun before e' after hsplit => ?_
    exact hunclaimed (e :: before) e' after (by rw [hsplit, List.cons_append])

/-! ### Outcomes in a run -/

open scoped List in
/-- A channel with its driver, or one that has resolved every write. -/
inductive Accounted (s₀ : σ) (a₀ : α) (c : Channel (Held τ) σ α) : Prop where
  | live (d : Driver σ α) (h : Live s₀ a₀ c d)
  | closed (h : c.Closed) (once : c.outcomes.map (·.1) ~ c.submitted)
      (numbers : c.submitted.map (·.number) = List.range c.submissions)

variable {s₀ : σ} {a₀ : α}

theorem accounted_dropDriver (h : Accounted s₀ a₀ c) : Accounted s₀ a₀ c.dropDriver := by
  cases h with
  | live d h =>
    obtain ⟨served, hlawful⟩ := lawful_of_live h
    obtain ⟨hcancels, hclosed⟩ := cancels_dropDriver h.driver h.accepting
    refine .closed hclosed (outcomes_of_cancels hcancels ?_) (numbers_of_cancels hcancels h.numbers)
    rw [unresolved_of_lawful hlawful]
  | closed h once numbers =>
    rw [dropDriver_gone h.driver]
    exact .closed h once numbers

theorem cancels_pass (h : c.Closed) {e : Episode} (he : ∀ number, e ≠ .adopt number) :
    Cancels c (c.pass e) [] ∧ (c.pass e).Closed := by
  cases e with
  | move m => exact cancels_move h m
  | run =>
    have hsame : c.pass .run = c := runTaskFor_closed h _
    exact hsame.symm ▸ ⟨.rfl, h⟩
  | drop =>
    have hsame : c.pass .drop = c := dropDriver_gone h.driver
    exact hsame.symm ▸ ⟨.rfl, h⟩
  | adopt number => exact absurd rfl (he number)

theorem accounted_pass (h : Accounted s₀ a₀ c) {e : Episode} (he : ∀ number, e ≠ .adopt number) :
    Accounted s₀ a₀ (c.pass e) := by
  cases h with
  | live d h =>
    cases e with
    | move m =>
      obtain ⟨d', h'⟩ := live_move h m
      exact .live d' h'
    | run =>
      -- The task does what is done by hand, after which the driver may be dropped.
      obtain ⟨d', h', -⟩ := live_runUntilIdle h
      have hrun : c.pass .run = c.runUntilIdle.2.leave := runTask_eq h
      rw [hrun, leave]
      split
      · exact accounted_dropDriver (.live d' h')
      · exact .live d' h'
    | drop => exact accounted_dropDriver (.live d h)
    | adopt number => exact absurd rfl (he number)
  | closed h once numbers =>
    obtain ⟨hcancels, hclosed⟩ := cancels_pass h he
    refine .closed hclosed (outcomes_of_cancels hcancels ?_) (numbers_of_cancels hcancels numbers)
    rwa [List.append_nil]

theorem not_adopt_of_mem {run : List Episode} {e : Episode} (h : e ∈ callbacks run) (number : Nat) :
    e ≠ .adopt number := by
  obtain ⟨e', -, he⟩ := List.mem_filterMap.mp h
  rintro rfl
  cases e' with
  | move m =>
    obtain ⟨m', -, hm⟩ := Option.map_eq_some_iff.mp he
    cases hm
  | run | drop | adopt => cases he

theorem accounted_through (h : Accounted s₀ a₀ c) {run : List Episode}
    (hrun : ∀ e ∈ run, ∀ number, e ≠ .adopt number) : Accounted s₀ a₀ (c.through run) := by
  induction run generalizing c with
  | nil => exact h
  | cons e run ih =>
    exact ih (accounted_pass h (hrun e List.mem_cons_self))
      fun e' he' => hrun e' (List.mem_cons_of_mem _ he')

theorem nodup_of_accounted (h : Accounted s₀ a₀ c) :
    (c.outcomes.map (·.1.number)).Nodup := by
  have hsplit : c.outcomes.map (·.1.number) = (c.outcomes.map (·.1)).map (·.number) := by
    rw [List.map_map]
    rfl
  rw [hsplit]
  cases h with
  | live d h =>
    obtain ⟨served, hlawful⟩ := lawful_of_live h
    have hnumbers := h.numbers
    rw [unresolved_of_lawful hlawful, List.map_append] at hnumbers
    exact ((List.sublist_append_left _ _).nodup (hnumbers ▸ List.nodup_range))
  | closed h once numbers =>
    exact (once.map (·.number)).nodup_iff.mpr (numbers ▸ List.nodup_range)

/-! ### After the drop of the driver -/

theorem cancels_through (h : c.Closed) {run : List Episode}
    (hrun : ∀ e ∈ run, ∀ number, e ≠ .adopt number) :
    Cancels c (c.through run) [] ∧ (c.through run).Closed := by
  induction run generalizing c with
  | nil => exact ⟨.rfl, h⟩
  | cons e run ih =>
    obtain ⟨hstep, hclosed⟩ := cancels_pass h (hrun e List.mem_cons_self)
    obtain ⟨hrest, hlast⟩ := ih hclosed fun e' he' => hrun e' (List.mem_cons_of_mem _ he')
    exact ⟨hstep.trans hrest, hlast⟩

theorem exists_of_closed (h : Accounted s₀ a₀ c) (hclosed : c.Closed) {number : Nat}
    (hmade : number < c.submissions) : ∃ x ∈ c.outcomes, x.1.number = number := by
  cases h with
  | live d h => cases hclosed.driver.symm.trans h.driver
  | closed _ once numbers =>
    have hmem : number ∈ c.submitted.map (·.number) := by
      rw [numbers]
      exact List.mem_range.mpr hmade
    obtain ⟨w, hw, hnumber⟩ := List.mem_map.mp hmem
    obtain ⟨x, hx, rfl⟩ := List.mem_map.mp (once.mem_iff.mpr hw)
    exact ⟨x, hx, hnumber⟩

theorem cancelled_of_accounted (h : Accounted s₀ a₀ c) {later : List Episode}
    (hlater : ∀ e ∈ later, ∀ number, e ≠ .adopt number) {number : Nat}
    (hunresolved : ∀ x ∈ c.outcomes, x.1.number ≠ number)
    (hmade : number < (c.dropDriver.through later).submissions) :
    (c.dropDriver.through later).outcomeOf number = some (.error .cancelled) := by
  obtain ⟨ws, hcancels, hclosed⟩ : ∃ ws, Cancels c c.dropDriver ws ∧ c.dropDriver.Closed := by
    cases h with
    | live d h => exact ⟨_, cancels_dropDriver h.driver h.accepting⟩
    | closed h =>
      exact ⟨[], (dropDriver_gone h.driver).symm ▸ ⟨.rfl, h⟩⟩
  obtain ⟨hrest, hlast⟩ := cancels_through hclosed hlater
  obtain ⟨cancelled, made, hcourse, -⟩ := hcancels.trans hrest
  have hend := accounted_through (accounted_dropDriver h) hlater
  obtain ⟨x, hx, rfl⟩ := exists_of_closed hend hlast hmade
  -- All that was resolved since is what was cancelled.
  have hcancelled : x.2 = .error .cancelled := by
    have hmem := hx
    rw [outcomes_eq, hcourse, outcomesOf_append, ← outcomes_eq, outcomesOf_resolved,
      List.mem_append] at hmem
    rcases hmem with hmem | hmem
    · exact absurd rfl (hunresolved x hmem)
    · obtain ⟨_, -, rfl⟩ := List.mem_map.mp hmem
      rfl
  rw [← hcancelled]
  exact outcomeOf_of_mem (nodup_of_accounted hend) hx

/-! ## The theorem -/

/-- A moment while the driver acts on an event or is dropped. -/
inductive During (c : Channel (Held τ) σ α) : Channel (Held τ) σ α → Prop where
  | acting {d e rest actions later} (hd : c.driver = some d) (he : c.events = e :: rest)
      (h : (d.handle e).2 = actions ++ later) : During c (actions.foldl perform (c.take d e rest))
  | emptying {d front back} (hd : c.driver = some d) (h : d.queue = front ++ back) :
      During c (front.foldl (fun c w => c.resolve w (.error .cancelled)) c.release)
  | closing {d front back} (hd : c.driver = some d) (h : (c.emptied d).events = front ++ back) :
      During c (front.foldl cancelEvent (c.emptied d).close)

theorem bare_during {now : Channel (Held τ) σ α} (h : During c now) : During c.bare now.bare := by
  cases h with
  | @acting d e rest actions later hd he h =>
    have he' : c.bare.events = e.mapWrite Pending.bare :: rest.map (·.mapWrite Pending.bare) := by
      simp [bare, mapWrites, he]
    have hactions : ((d.mapWrites Pending.bare).handle (e.mapWrite Pending.bare)).2 =
        actions.map (·.mapWrite Pending.bare) ++ later.map (·.mapWrite Pending.bare) := by
      rw [Driver.handle_mapWrites Pending.bare_request]
      simp [Driver.mapStep, h]
    rw [bare_foldl bare_perform, bare_take]
    exact .acting (driver_bare hd) he' hactions
  | @emptying d front back hd h =>
    have hqueue : (d.mapWrites Pending.bare).queue =
        front.map Pending.bare ++ back.map Pending.bare := by
      simp [Driver.mapWrites, h]
    rw [bare_cancelQueue]
    exact .emptying (driver_bare hd) hqueue
  | @closing d front back hd h =>
    have hclose : (c.emptied d).close.bare = (c.bare.emptied (d.mapWrites Pending.bare)).close := by
      rw [← bare_emptied]
      rfl
    have hevents : (c.bare.emptied (d.mapWrites Pending.bare)).events =
        front.map (·.mapWrite Pending.bare) ++ back.map (·.mapWrite Pending.bare) := by
      rw [← bare_emptied]
      simp [bare, mapWrites, h]
    rw [bare_foldl bare_cancelEvent, hclose]
    exact .closing (driver_bare hd) hevents

theorem kept_during {now : Channel (Held τ) σ α} (hkept : c.Kept) (h : During c now) :
    now.Kept ∧ SameHand c now := by
  have hcancelled (queue : List Pending) : SameHand c
      (queue.foldl (fun c w => c.resolve w (.error .cancelled)) c.release) :=
    have hrelease : SameHand c c.release := ⟨rfl, Nat.le_refl _⟩
    hrelease.trans (sameHand_tolerates.foldl (fun c w => sameHand_tolerates.resolve c w _) queue _)
  cases h with
  | @acting d e rest actions later hd he h =>
    obtain ⟨htake, hsuited⟩ := kept_take hkept hd he
    have hsame : SameHand c (c.take d e rest) := ⟨rfl, Nat.le_refl _⟩
    refine ⟨kept_foldl kept_perform sameHand_perform _ htake fun a ha => hsuited a ?_,
      hsame.trans (sameHand_tolerates.foldl sameHand_perform _ _)⟩
    exact h ▸ List.mem_append_left _ ha
  | @emptying d front back hd h =>
    obtain ⟨hrelease, hqueue⟩ := kept_release hkept hd
    exact ⟨kept_cancelQueue hrelease fun w hw => hqueue w (h ▸ List.mem_append_left _ hw),
      hcancelled front⟩
  | @closing d front back hd h =>
    obtain ⟨hrelease, hqueue⟩ := kept_release hkept hd
    have hemptied : (c.emptied d).Kept := kept_cancelQueue hrelease hqueue
    obtain ⟨hclose, hevents⟩ := kept_close hemptied
    have hclosed : SameHand (c.emptied d) (c.emptied d).close := ⟨rfl, Nat.le_refl _⟩
    refine ⟨kept_foldl kept_cancelEvent sameHand_tolerates.cancelEvent _ hclose fun e he => ?_, ?_⟩
    · exact hevents e (h ▸ List.mem_append_left _ he)
    · apply (hcancelled d.queue).trans
      apply hclosed.trans
      exact sameHand_tolerates.foldl sameHand_tolerates.cancelEvent front _

/-- A future was made in the run, and nobody has dropped it or got its outcome. -/
def Awaits (c₀ : Channel (Held τ) σ α) (run : List Episode) (number : Nat) : Prop :=
  ∃ before e after, run = before ++ e :: after ∧ (c₀.through before).makes e = some number ∧
    (c₀.through (before ++ [e])).Unclaimed number after

theorem mem_hand_awaits (h : c.Kept) {run : List Episode} {number : Nat}
    (hawaits : c.Awaits run number) : number ∈ (c.through run).hand := by
  obtain ⟨before, e, after, rfl, hmakes, hunclaimed⟩ := hawaits
  have hsplit : c.through (before ++ e :: after) = (c.through (before ++ [e])).through after := by
    rw [← through_append, List.append_assoc]
    rfl
  rw [hsplit]
  refine mem_hand_through (kept_through h _) ?_ hunclaimed
  rw [through_append]
  exact mem_hand_makes hmakes

/-- What does not show whether those who wait for outcomes have callbacks or futures. -/
structure Unchanged (c c' : Channel (Held τ) σ α) : Prop where
  transport : c'.transport = c.transport
  sends : c'.sends = c.sends
  calls : calls c'.history = calls c.history
  states : statesIn c'.history = statesIn c.history
  published : c'.published = c.published
  driver : c'.driver.map (fun d => (d.state, d.outstanding)) =
    c.driver.map fun d => (d.state, d.outstanding)
  /-- Nothing leaves the queue of the driver or the event queue. -/
  queue : c'.driver.map (·.queue) = c.driver.map (·.queue.map Pending.bare)
  waiting : c'.waiting = c.waiting.map Pending.bare
  events : c'.events.length = c.events.length
  outcomes : c'.outcomes = c.outcomes.map fun x => (x.1.bare, x.2)

omit [Transport τ] [CipherSession σ] [Attester α] in
theorem unchanged_bare (c : Channel (Held τ) σ α) : Unchanged c c.bare := by
  have hhistory : c.bare.history = c.history.map (·.mapWrite Pending.bare) := by
    simp [history, bare, mapWrites]
  have hread {β : Type} {f : Entry → Option β} (hf : ∀ e, f (e.mapWrite Pending.bare) = f e) :
      c.bare.history.filterMap f = c.history.filterMap f := by
    rw [hhistory, List.filterMap_map]
    exact congrArg (List.filterMap · c.history) (funext hf)
  refine ⟨rfl, hread ?_, hread ?_, hread ?_, rfl, ?_, ?_, waiting_mapWrites _ c, ?_, ?_⟩
  · rintro (_ | (_ | _) | _ | _ | _ | _) <;> rfl
  · rintro (_ | (_ | _) | _ | _ | _ | _) <;> rfl
  · rintro (_ | (_ | _) | _ | _ | _ | _) <;> rfl
  · cases hd : c.driver <;> simp [bare, mapWrites, hd, Driver.mapWrites]
  · cases hd : c.driver <;> simp [bare, mapWrites, hd, Driver.mapWrites]
  · simp [bare, mapWrites]
  · have houtcomes (c : Channel (Held τ) σ α) :
        c.outcomes = c.history.filterMap Entry.outcome? := rfl
    have hentry (e : Entry) : (e.mapWrite Pending.bare).outcome? =
        e.outcome?.map fun x => (x.1.bare, x.2) := by
      cases e <;> rfl
    simp only [houtcomes, hhistory, List.filterMap_map, List.map_filterMap]
    exact congrArg (List.filterMap · c.history) (funext hentry)

/-- A run beside the one with callbacks that do nothing in the place of all futures. -/
structure Transparent (c₀ : Channel (Held τ) σ α) (run : List Episode) : Prop where
  /-- Nothing but the futures themselves tells the two apart. -/
  bare : (c₀.through run).bare = c₀.through (callbacks run)
  /-- Nor does anything else tell apart two runs, in one of which more callbacks are replaced by
  futures. -/
  alike : ∀ other, callbacks other = callbacks run →
    (c₀.through other).bare = (c₀.through run).bare
  unchanged : Unchanged (c₀.through run) (c₀.through (callbacks run))
  once : ((c₀.through (callbacks run)).outcomes.map (·.1.number)).Nodup
  /-- A future gives what the callback got. -/
  ready : ∀ number, c₀.Awaits run number → ∀ x ∈ (c₀.through (callbacks run)).outcomes,
    x.1.number = number → ((c₀.through run).poll number).1 = .ready x.2
  waiting : ∀ number, c₀.Awaits run number →
    (∀ x ∈ (c₀.through (callbacks run)).outcomes, x.1.number ≠ number) →
    ((c₀.through run).poll number).1 = .waiting
  /-- What is not resolved when the driver is dropped is cancelled, and so is what comes later. -/
  dropped : ∀ before later, run = before ++ .drop :: later →
    ∀ number, c₀.Awaits run number →
    (∀ x ∈ (c₀.through (callbacks before)).outcomes, x.1.number ≠ number) →
    ((c₀.through run).poll number).1 = .ready (.error .cancelled)
  orphaned : ∀ before later, run = before ++ later → (c₀.through before).driver = none →
    ∀ number, c₀.Awaits run number →
    (∀ x ∈ (c₀.through (callbacks before)).outcomes, x.1.number ≠ number) →
    ((c₀.through run).poll number).1 = .ready (.error .cancelled)
  /-- The same holds while the driver acts or is dropped. -/
  during : ∀ now, During (c₀.through run) now → During (c₀.through (callbacks run)) now.bare ∧
    ∀ number, c₀.Awaits run number → (now.poll number).1 = now.bare.answerTo number
  /-- Asking changes nothing, or takes the future away as dropping does, and when that is done does
  not matter for what the driver does. -/
  asked : ∀ (now : Channel (Held τ) σ α) number, now.Loose number ∧
    ((∃ outcome, (now.poll number).1 = .ready outcome ∧
      (now.poll number).2 = (now.dropFuture number).2) ∨ (now.poll number).2 = now)
  /-- A write with a future is one with a callback that gets a future. -/
  adopted : ∀ request, let c := c₀.through run
    (c.write request .nothing).adopt c.submissions = c.writeFuture request

omit [Transport τ] [CipherSession σ] [Attester α] in
theorem answerTo_bare (c : Channel (Held τ) σ α) (number : Nat) :
    c.bare.answerTo number = c.answerTo number := by
  have houtcome : c.bare.outcomeOf number = c.outcomeOf number :=
    outcomeOf_mapWrites Pending.bare_number c number
  rw [answerTo, houtcome, answerTo]

theorem callbacks_append (a b : List Episode) : callbacks (a ++ b) = callbacks a ++ callbacks b :=
  List.filterMap_append

section

variable {c₀ : Channel (Held τ) σ α} {run : List Episode} {number : Nat}

theorem through_callbacks (hbare : c₀.bare = c₀) (run : List Episode) :
    c₀.through (callbacks run) = (c₀.through run).bare := by
  rw [bare_through, hbare]

theorem poll_awaited (hkept : c₀.Kept) (hbare : c₀.bare = c₀) (h : c₀.Awaits run number) :
    ((c₀.through run).poll number).1 = (c₀.through (callbacks run)).answerTo number := by
  rw [poll_kept (kept_through hkept run), if_pos (mem_hand_awaits hkept h),
    through_callbacks hbare, answerTo_bare]

theorem made_awaited (hkept : c₀.Kept) (hbare : c₀.bare = c₀) (h : c₀.Awaits run number) :
    number < (c₀.through (callbacks run)).submissions := by
  obtain ⟨f, hf, rfl⟩ := List.mem_map.mp (mem_hand_awaits hkept h)
  rw [through_callbacks hbare]
  exact ((kept_through hkept run).futures f hf).1

theorem cancelled_awaited (hkept : c₀.Kept) (hbare : c₀.bare = c₀)
    (haccounted : Accounted s₀ a₀ c₀) (before later : List Episode)
    (hrun : (c₀.through (callbacks before)).dropDriver.through (callbacks later) =
      c₀.through (callbacks run)) (h : c₀.Awaits run number)
    (hunresolved : ∀ x ∈ (c₀.through (callbacks before)).outcomes, x.1.number ≠ number) :
    ((c₀.through run).poll number).1 = .ready (.error .cancelled) := by
  have hbefore : Accounted s₀ a₀ (c₀.through (callbacks before)) :=
    accounted_through haccounted fun _ => not_adopt_of_mem
  have hmade := made_awaited hkept hbare h
  rw [poll_awaited hkept hbare h, answerTo]
  rw [← hrun] at hmade ⊢
  rw [cancelled_of_accounted hbefore (fun _ => not_adopt_of_mem) hunresolved hmade]

theorem transparent_of (hkept : c₀.Kept) (hbare : c₀.bare = c₀) (haccounted : Accounted s₀ a₀ c₀)
    (run : List Episode) : Transparent c₀ run := by
  have hsame := through_callbacks hbare
  have hnodup : ((c₀.through (callbacks run)).outcomes.map (·.1.number)).Nodup :=
    nodup_of_accounted (accounted_through haccounted fun _ => not_adopt_of_mem)
  exact {
    bare := (hsame run).symm
    alike := fun other hother => by rw [← hsame other, hother, hsame]
    unchanged := hsame run ▸ unchanged_bare _
    once := hnodup
    ready := by
      rintro _ h x hx rfl
      rw [poll_awaited hkept hbare h, answerTo, outcomeOf_of_mem hnodup hx]
    waiting := fun number h hnone => by
      rw [poll_awaited hkept hbare h, answerTo, outcomeOf_eq_none_iff.mpr hnone]
    dropped := by
      rintro before later rfl number h hunresolved
      refine cancelled_awaited hkept hbare haccounted before later ?_ h hunresolved
      rw [callbacks_append, through_append]
      rfl
    orphaned := by
      rintro before later rfl hgone number h hunresolved
      refine cancelled_awaited hkept hbare haccounted before later ?_ h hunresolved
      have hgone' : (c₀.through before).bare.driver = none := by
        simp [bare, mapWrites, hgone]
      rw [callbacks_append, through_append, hsame before, dropDriver_gone hgone']
    during := fun now hnow => by
      obtain ⟨hkept', hhand⟩ := kept_during (kept_through hkept run) hnow
      refine ⟨hsame run ▸ bare_during hnow, fun number h => ?_⟩
      have hmem : number ∈ now.hand := hhand.hand ▸ mem_hand_awaits hkept h
      rw [poll_kept hkept', if_pos hmem, answerTo_bare]
    asked := fun now number => ⟨now.loose number, now.poll_cases number⟩
    adopted := adopt_write (kept_through hkept run) }

end

/-- **Whether outcomes go to callbacks or to futures makes no difference to a channel**, and a
future gives what the callback would have got. -/
theorem transparent_after (t : τ) (s₀ : σ) (a₀ : α) (run : List Episode) :
    Transparent (new ⟨t, []⟩ s₀ a₀) run :=
  transparent_of (kept_new t s₀ a₀) rfl (.live _ (live_new _ rfl s₀ a₀)) run

/-- The future of the first write is dropped before anything is sent, and that of the second one is
asked too early. The first request is sent all the same, and the second one has its answer. -/
example :
    let c : Channel (Held ScriptedTransport) ScriptedSession InsecureAttester :=
      (new ⟨⟨[.ok (.message (.attest [])), .ok (.message (.handshake ⟨[], []⟩)),
        .ok (.message (.encrypted [1])), .ok (.message (.encrypted [2]))], []⟩, []⟩ {} {}).through
        [.move (.writeFuture [1]), .move (.writeFuture [2]), .move (.dropFuture 0),
          .move (.poll 1), .run]
    c.outcomes.map (·.2) = [.ok [1], .ok [2]] ∧ (c.poll 1).1 = .ready (.ok [2]) ∧
      (c.poll 0).1 = .gone :=
  ⟨rfl, rfl, rfl⟩

end Channel

end SealedLink
