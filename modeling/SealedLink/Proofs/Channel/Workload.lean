import SealedLink.Proofs.Channel.Discipline
import SealedLink.Proofs.Channel.Protocol
import SealedLink.Proofs.Channel.Transparent

/-!
# How much a channel does for its writes

Attestation and handshake take a send each, and every write one more at most. A reply is handled
once for each send, so that the writes bound the events too. A driver that is run by hand therefore
comes to an end of every call, also when its own callbacks and other threads give it more to do
meanwhile (`frugal_of_worked`).
-/

namespace SealedLink

/-! ## Sends and replies in a log -/

theorem sentIn_served (served : List Exchange) :
    sentIn (served.flatMap Exchange.entries) = served.map (·.sequence) :=
  Reading.served ⟨rfl, sentIn_append⟩ (fun _ => rfl) served

theorem length_sentIn_story (story : Story) :
    (sentIn story.entries).length ≤
      story.served.length + story.current.toList.length + 2 := by
  match story with
  | .fresh => exact Nat.zero_le 2
  | .attesting a =>
    have hone : sentIn a.entries = [a.sequence] := rfl
    rw [Story.entries, hone]
    exact Nat.le_succ 1
  | .greeting g =>
    have htwo : sentIn g.entries = [g.sequence, g.handshake] := rfl
    rw [Story.entries, htwo]
    exact Nat.le_refl 2
  | .traffic o served current =>
    have hopening : sentIn o.entries = [o.sequence, o.handshake] := rfl
    have hcurrent : (sentIn ((current.map Sending.entries).getD [])).length =
        current.toList.length := by
      cases current <;> rfl
    rw [Story.entries, sentIn_append, sentIn_append, hopening, sentIn_served, List.length_append,
      List.length_append, List.length_map, hcurrent]
    simp only [Story.served, Story.current, List.length_cons, List.length_nil]
    omega

theorem sentIn_breaks {story : Story} {w : Pending} {cause : List Entry} {code : ChannelError}
    (h : Breaks story w cause code) : sentIn cause = [] := by
  cases h <;> rfl

theorem length_current_le {story : Story} {queue : List Pending}
    (h : ∀ x, story.current = some x → queue ≠ []) :
    story.current.toList.length ≤ queue.length := by
  cases hcurrent : story.current with
  | none => exact Nat.zero_le _
  | some x => exact List.length_pos_iff.mpr (h x hcurrent)

section

variable {σ α : Type} {d : Driver σ α} {log : List Entry}

/-- **Two sends come before those of the writes, and each write has one at most.** -/
theorem length_sentIn_told (h : Told d log) :
    (sentIn log).length ≤ (taken log).length + 2 := by
  cases h with
  | alive story h =>
    have hstory := length_sentIn_story story
    have hcurrent : story.current.toList.length ≤ d.queue.length := by
      apply length_current_le
      intro x hx hnil
      have hhead := h.current hx
      rw [hnil] at hhead
      cases hhead
    rw [← sentIn_deeds, h.deeds, h.taken, List.length_append, List.length_map]
    omega
  | @failed story code dropped late h =>
    obtain ⟨w, cause, hdeeds, htaken, hw, hbreak⟩ := h.whole
    have hstory := length_sentIn_story story
    have hcurrent : story.current.toList.length ≤ dropped.length := by
      apply length_current_le
      rintro x - rfl
      cases hw
    rw [← sentIn_deeds, hdeeds, sentIn_append, sentIn_append, sentIn_breaks hbreak,
      sentIn_aftermath, htaken, List.append_nil, List.append_nil, List.length_append,
      List.length_append, List.length_map]
    omega

theorem answeredIn_told (h : Told d log) : answeredIn log <+: sentIn log := by
  obtain ⟨t, hpass, -⟩ := Turn.foldlM_pass_told h
  exact ⟨t.awaited, (Turn.foldlM_pass_awaited hpass).symm⟩

end

/-- The events that were handled: writes and replies. -/
def handledIn (log : List Entry) : Nat := (taken log).length + (answeredIn log).length

theorem handledIn_append (a b : List Entry) : handledIn (a ++ b) = handledIn a + handledIn b := by
  unfold handledIn
  rw [taken_append, answeredIn_append, List.length_append, List.length_append]
  omega

theorem handledIn_ofAction (actions : List Action) :
    handledIn (actions.map Entry.ofAction) = 0 := by
  have hanswered : answeredIn (actions.map Entry.ofAction) = [] := by
    rw [answeredIn, List.filterMap_map, List.filterMap_eq_nil_iff]
    intro a _
    cases a <;> rfl
  rw [handledIn, taken_ofAction, hanswered]
  rfl

theorem handledIn_handled (log : List Entry) (e : Event) (actions : List Action) :
    handledIn (log ++ .handled e :: actions.map Entry.ofAction) = handledIn log + 1 := by
  have hone : handledIn [.handled e] = 1 := by
    cases e <;> rfl
  rw [List.append_cons, handledIn_append, handledIn_append, handledIn_ofAction, hone]

namespace Channel

variable {τ σ α : Type}

/-! ## What holds with a driver and without -/

/-- The log of a channel does not show more sends and replies than the writes account for. -/
structure Balanced (c : Channel τ σ α) : Prop where
  sends : (sentIn c.course).length ≤ (taken c.course).length + 2
  replies : answeredIn c.course <+: sentIn c.course
  taken : taken c.course <+: c.submitted
  writes : c.submitted.length = c.submissions

theorem Balanced.taken_le {c : Channel τ σ α} (h : Balanced c) :
    (SealedLink.taken c.course).length ≤ c.submissions :=
  h.writes ▸ h.taken.length_le

theorem Balanced.handled_le {c : Channel τ σ α} (h : Balanced c) :
    handledIn c.course ≤ 2 * c.submissions + 2 := by
  have hsends := h.sends
  have hreplies := h.replies.length_le
  have htaken := h.taken_le
  unfold handledIn
  omega

theorem Balanced.sends_le {c : Channel τ σ α} (h : Balanced c) :
    c.sends.length ≤ c.submissions + 2 := by
  have hsends := h.sends
  have htaken := h.taken_le
  rw [length_sends]
  omega

theorem balanced_of_live [Accounts τ] [CipherSession σ] [Attester α] {s₀ : σ} {a₀ : α}
    {c : Channel τ σ α} {d : Driver σ α} (h : Live s₀ a₀ c d) : Balanced c where
  sends := length_sentIn_told h.told
  replies := answeredIn_told h.told
  taken := h.fifo ▸ List.prefix_append ..
  writes := by
    rw [← List.length_map (·.number), h.numbers, List.length_range]

theorem balanced_of_cancels {c c' : Channel τ σ α} {ws : List Pending} (h : Balanced c)
    (hcancels : Cancels c c' ws) : Balanced c' ∧ handledIn c'.course = handledIn c.course := by
  obtain ⟨cancelled, made, hcourse, hsubmitted, -, -, hcount⟩ := hcancels
  have htaken : SealedLink.taken c'.course = SealedLink.taken c.course := by
    rw [hcourse, taken_append]
    simp [SealedLink.taken, Entry.taken?]
  have hsent : sentIn c'.course = sentIn c.course := by
    rw [hcourse, sentIn_append]
    simp [sentIn, Entry.sequence?]
  have hanswered : answeredIn c'.course = answeredIn c.course := by
    rw [hcourse, answeredIn_append]
    simp [answeredIn, Entry.answered?]
  refine ⟨⟨?_, ?_, ?_, ?_⟩, ?_⟩
  · rw [hsent, htaken]
    exact h.sends
  · rw [hanswered, hsent]
    exact h.replies
  · rw [htaken, hsubmitted]
    exact h.taken.trans (List.prefix_append ..)
  · rw [hsubmitted, List.length_append, h.writes, hcount]
  · unfold handledIn
    rw [htaken, hanswered]

/-! ## Calls -/

section

variable [Transport τ] [CipherSession σ] [Attester α]

/-- The channel at each look for an event in a call that handles events until it finds none, as long
as the call goes on. Before look number `n` others make the moves of `meanwhile n`. -/
def look (c : Channel (Held τ) σ α) (meanwhile : Nat → List Move) :
    Nat → Option (Channel (Held τ) σ α)
  | 0 => some (c.after (meanwhile 0))
  | n + 1 =>
    ((c.look meanwhile n).bind processNext).map fun next => next.after (meanwhile (n + 1))

/-- A call ends with the first look that finds no event, and returns how many were handled. -/
structure Returns (c : Channel (Held τ) σ α) (meanwhile : Nat → List Move) (n : Nat)
    (last : Channel (Held τ) σ α) : Prop where
  look : c.look meanwhile n = some last
  none : last.processNext = none

/-- The moves of anyone but the driver. -/
def Outside (meanwhile : Nat → List Move) : Prop := ∀ n, Move.process ∉ meanwhile n

/-- Nobody moves. -/
def still : Nat → List Move := fun _ => []

/-- Runs in which the driver is run by hand, with the numbers that its calls returned. -/
inductive Worked (c₀ : Channel (Held τ) σ α) : List Nat → Channel (Held τ) σ α → Prop where
  | start : Worked c₀ [] c₀
  | move {returned c m} (h : Worked c₀ returned c) (hm : m ≠ .process) :
      Worked c₀ returned (c.move m)
  | call {returned c meanwhile n last} (h : Worked c₀ returned c) (houtside : Outside meanwhile)
      (hreturns : c.Returns meanwhile n last) : Worked c₀ (returned ++ [n]) last
  | drop {returned c} (h : Worked c₀ returned c) : Worked c₀ returned c.dropDriver

/-! ### One look after the other -/

theorem outside_still : Outside still := fun _ => List.not_mem_nil

theorem look_still_succ {c next : Channel (Held τ) σ α} (hnext : c.processNext = some next)
    (n : Nat) : c.look still (n + 1) = next.look still n := by
  induction n with
  | zero =>
    have hfirst : c.look still 0 = some c := rfl
    have hsecond : next.look still 0 = some next := rfl
    rw [hsecond, look, hfirst, Option.bind_some, hnext]
    rfl
  | succ n ih =>
    rw [look, ih]
    rfl

theorem returns_still_zero {c : Channel (Held τ) σ α} (hnext : c.processNext = none) :
    c.Returns still 0 c :=
  ⟨rfl, hnext⟩

theorem Returns.still_succ {c next last : Channel (Held τ) σ α} {n : Nat}
    (hnext : c.processNext = some next) (h : next.Returns still n last) :
    c.Returns still (n + 1) last :=
  ⟨(look_still_succ hnext n).trans h.look, h.none⟩

theorem returns_runFor {s₀ : σ} {a₀ : α} {c : Channel (Held τ) σ α} {d : Driver σ α} (limit : Nat)
    (h : Live s₀ a₀ c d) (hlimit : c.potential ≤ limit) :
    c.Returns still (c.runFor limit).1 (c.runFor limit).2 := by
  induction limit generalizing c d with
  | zero =>
    rcases processNext_cases h with ⟨-, hnext⟩ | ⟨next, d', -, -, hless⟩
    · exact returns_still_zero hnext
    · omega
  | succ limit ih =>
    rcases processNext_cases h with ⟨-, hnext⟩ | ⟨next, d', hnext, h', hless⟩
    · simp only [runFor, hnext]
      exact returns_still_zero hnext
    · simp only [runFor, hnext]
      have hrest := ih h' (by omega)
      exact hrest.still_succ hnext

theorem runFor_closed {c : Channel (Held τ) σ α} (h : c.Closed) (limit : Nat) :
    c.runFor limit = (0, c) := by
  have hnext : c.processNext = none := by simp [processNext, h.driver]
  cases limit with
  | zero => rfl
  | succ limit => simp only [runFor, hnext]

/-! ### What the log shows of a run -/

/-- A channel in which `n` events were handled. -/
structure Tallied (s₀ : σ) (a₀ : α) (c : Channel (Held τ) σ α) (n : Nat) : Prop where
  accounted : Accounted s₀ a₀ c
  balanced : Balanced c
  handled : handledIn c.course = n

variable {s₀ : σ} {a₀ : α} {c c' : Channel (Held τ) σ α} {n : Nat}

theorem tallied_new (t : τ) (s₀ : σ) (a₀ : α) :
    Tallied s₀ a₀ (new ⟨t, []⟩ s₀ a₀ : Channel (Held τ) σ α) 0 := by
  have hlive := live_new (⟨t, []⟩ : Held τ) rfl s₀ a₀
  exact ⟨.live _ hlive, balanced_of_live hlive, rfl⟩

theorem tallied_move (h : Tallied s₀ a₀ c n) {m : Move} (hm : m ≠ .process) :
    Tallied s₀ a₀ (c.move m) n := by
  have haccounted : Accounted s₀ a₀ (c.move m) :=
    accounted_pass (e := .move m) h.accounted fun _ heq => nomatch heq
  cases h.accounted with
  | live d hlive =>
    rcases move_cases hlive m with ⟨hlive', hcourse⟩ | ⟨_, _, hprocess, -⟩
    · exact ⟨haccounted, balanced_of_live hlive', hcourse ▸ h.handled⟩
    · exact absurd hprocess hm
  | closed hclosed =>
    obtain ⟨hbalanced, hsame⟩ := balanced_of_cancels h.balanced (cancels_move hclosed m).1
    exact ⟨haccounted, hbalanced, hsame.trans h.handled⟩

theorem tallied_after (h : Tallied s₀ a₀ c n) {moves : List Move}
    (hmoves : Move.process ∉ moves) : Tallied s₀ a₀ (c.after moves) n := by
  induction moves generalizing c with
  | nil => exact h
  | cons m moves ih =>
    rw [List.mem_cons, not_or] at hmoves
    exact ih (tallied_move h (Ne.symm hmoves.1)) hmoves.2

theorem tallied_process (h : Tallied s₀ a₀ c n) (hnext : c.processNext = some c') :
    Tallied s₀ a₀ c' (n + 1) := by
  cases h.accounted with
  | live d hlive =>
    cases he : c.events with
    | nil => simp [processNext, hlive.driver, he] at hnext
    | cons e rest =>
      rw [processNext_eq hlive.driver he] at hnext
      obtain rfl := Option.some.inj hnext
      have hlive' := live_process hlive he
      refine ⟨.live _ hlive', balanced_of_live hlive', ?_⟩
      rw [course_process hlive, handledIn_handled, h.handled]
  | closed hclosed => simp [processNext, hclosed.driver] at hnext

theorem tallied_dropDriver (h : Tallied s₀ a₀ c n) : Tallied s₀ a₀ c.dropDriver n := by
  have haccounted := accounted_dropDriver h.accounted
  cases h.accounted with
  | live d hlive =>
    obtain ⟨hcancels, -⟩ := cancels_dropDriver hlive.driver hlive.accepting
    obtain ⟨hbalanced, hsame⟩ := balanced_of_cancels h.balanced hcancels
    exact ⟨haccounted, hbalanced, hsame.trans h.handled⟩
  | closed hclosed =>
    rw [dropDriver_gone hclosed.driver]
    exact h

theorem tallied_look (h : Tallied s₀ a₀ c n) {meanwhile : Nat → List Move}
    (houtside : Outside meanwhile) (k : Nat) {now : Channel (Held τ) σ α}
    (hlook : c.look meanwhile k = some now) : Tallied s₀ a₀ now (n + k) := by
  induction k generalizing now with
  | zero =>
    obtain rfl := Option.some.inj hlook
    exact tallied_after h (houtside 0)
  | succ k ih =>
    obtain ⟨next, hnext, rfl⟩ := Option.map_eq_some_iff.mp hlook
    obtain ⟨before, hbefore, hnext⟩ := Option.bind_eq_some_iff.mp hnext
    exact tallied_after (tallied_process (ih hbefore) hnext) (houtside (k + 1))

theorem tallied_worked (t : τ) {returned : List Nat} (h : Worked (new ⟨t, []⟩ s₀ a₀) returned c) :
    Tallied s₀ a₀ c (total id returned) := by
  induction h with
  | start => exact tallied_new t s₀ a₀
  | move _ hm ih => exact tallied_move ih hm
  | call _ houtside hreturns ih =>
    rw [total_append]
    exact tallied_look ih houtside _ hreturns.look
  | drop _ ih => exact tallied_dropDriver ih

/-! ### Calls come to an end -/

theorem exists_look {meanwhile : Nat → List Move}
    (hgoing : ∀ k now, c.look meanwhile k = some now → now.processNext ≠ none) (k : Nat) :
    ∃ now, c.look meanwhile k = some now := by
  induction k with
  | zero => exact ⟨_, rfl⟩
  | succ k ih =>
    obtain ⟨now, hnow⟩ := ih
    obtain ⟨next, hnext⟩ := Option.ne_none_iff_exists'.mp (hgoing k now hnow)
    refine ⟨next.after (meanwhile (k + 1)), ?_⟩
    rw [look, hnow, Option.bind_some, hnext, Option.map_some]

/-- **A call does not go on when the writes are finitely many**, whatever others do meanwhile. -/
theorem exists_returns (h : Tallied s₀ a₀ c n) {meanwhile : Nat → List Move}
    (houtside : Outside meanwhile) (writes : Nat)
    (hwrites : ∀ k now, c.look meanwhile k = some now → now.submissions ≤ writes) :
    ∃ k last, c.Returns meanwhile k last := by
  by_contra hnever
  have hgoing : ∀ k now, c.look meanwhile k = some now → now.processNext ≠ none :=
    fun k now hnow hnone => hnever ⟨k, now, hnow, hnone⟩
  -- After so many events there would be more of them than these writes account for.
  obtain ⟨now, hnow⟩ := exists_look hgoing (2 * writes + 3)
  have htallied := tallied_look h houtside _ hnow
  have hhandled := htallied.handled
  have hbound := htallied.balanced.handled_le
  have hfew := hwrites _ now hnow
  omega

theorem returns_runUntilIdle (h : Accounted s₀ a₀ c) :
    c.Returns still c.runUntilIdle.1 c.runUntilIdle.2 := by
  cases h with
  | live d hlive => exact returns_runFor c.potential hlive (Nat.le_refl _)
  | closed hclosed =>
    have hidle : c.runUntilIdle = (0, c) := runFor_closed hclosed _
    rw [hidle]
    exact returns_still_zero (by simp [processNext, hclosed.driver])

/-! ## The theorem -/

/-- How much a channel has done in a run whose calls returned these numbers. -/
structure Frugal (c : Channel (Held τ) σ α) (returned : List Nat) : Prop where
  /-- The next call ends if it is left alone, with no limit to its loop. -/
  alone : c.Returns still c.runUntilIdle.1 c.runUntilIdle.2
  /-- It ends as well if others move meanwhile, and the writes that are made are finitely many. -/
  ends : ∀ meanwhile writes, Outside meanwhile →
    (∀ n now, c.look meanwhile n = some now → now.submissions ≤ writes) →
    ∃ n last, c.Returns meanwhile n last
  sends : c.sends.length ≤ c.submissions + 2
  /-- The calls return how many writes and replies were handled. -/
  sum : total id returned = (taken c.course).length + (answeredIn c.course).length
  /-- Each of the writes was made once, and each of the replies is the only one to its send. -/
  writes : taken c.course <+: c.submitted ∧ c.submitted.length = c.submissions
  replies : answeredIn c.course <+: sentIn c.course
  /-- When no event is left for the driver, every write was handled. -/
  idle : c.driver.isSome → c.events = [] → taken c.course = c.submitted
  bound : total id returned ≤ 2 * c.submissions + 2

/-- **A driver that is run by hand comes to an end of every call**, with two sends more than there
are writes at most, and with at most two events for a write and two for the rest. -/
theorem frugal_of_worked (t : τ) (s₀ : σ) (a₀ : α) {returned : List Nat} {c : Channel (Held τ) σ α}
    (h : Worked (new ⟨t, []⟩ s₀ a₀) returned c) : Frugal c returned := by
  have htallied := tallied_worked t h
  have hbalanced := htallied.balanced
  refine ⟨?_, ?_, hbalanced.sends_le, htallied.handled.symm, ⟨hbalanced.taken, hbalanced.writes⟩,
    hbalanced.replies, ?_, ?_⟩
  · exact returns_runUntilIdle htallied.accounted
  · intro meanwhile writes houtside hwrites
    exact exists_returns htallied houtside writes hwrites
  · intro hdriver hevents
    cases htallied.accounted with
    | live d hlive =>
      have hwaiting : c.waiting = [] := by
        rw [waiting, hevents]
        rfl
      rw [hlive.fifo, hwaiting, List.append_nil]
    | closed hclosed =>
      rw [hclosed.driver] at hdriver
      cases hdriver
  · rw [← htallied.handled]
    exact hbalanced.handled_le

end

/-- Everything is answered inside the sends, and the callback of the first write makes a second one:
one call handles two writes and four replies. -/
theorem frugal_follow_up :
    let c₀ : Channel (Held ScriptedTransport) ScriptedSession InsecureAttester :=
      new ⟨⟨[.ok (.message (.attest [])), .ok (.message (.handshake ⟨[], []⟩)),
        .ok (.message (.encrypted [1])), .ok (.message (.encrypted [2]))], []⟩, []⟩ {} {}
    let c := c₀.move (.write [1] (.write [2] .nothing .nothing))
    Worked c₀ [6] c.runUntilIdle.2 ∧ Frugal c.runUntilIdle.2 [6] ∧
      c.runUntilIdle.2.submissions = 2 ∧ c.runUntilIdle.2.sends.length = 4 := by
  intro c₀ c
  have hwrite : Worked c₀ [] c := .move .start (by simp)
  have hreturns := (frugal_of_worked _ _ _ hwrite).alone
  have hnumber : c.runUntilIdle.1 = 6 := by decide
  rw [hnumber] at hreturns
  have hcall : Worked c₀ [6] c.runUntilIdle.2 := .call hwrite outside_still hreturns
  exact ⟨hcall, frugal_of_worked _ _ _ hcall, by decide, by decide⟩

end Channel

end SealedLink
