import SealedLink.Proofs.Link.Turns

/-!
# Every request is answered

A link answers every request once: the first ones in their order with the replies of the peer, and
from the first exchange that fails all with an error (`answered_in_turn`). With a time limit, or on
a wire that does not wait for ever, no request is left to wait.
-/

namespace SealedLink.Link

/-! ## Running until nothing waits -/

theorem whims_runExchange (horizon deadline : Option Nat) (d : Dialogue TransportResult)
    (w : Wire) : (runExchange horizon deadline d w).2.whims = w.whims := by
  have hwhims := Wire.run_whims (earlier deadline horizon) d w
  unfold runExchange
  generalize d.run (earlier deadline horizon) w = progress at *
  rcases progress with ⟨_ | rest, w'⟩
  · exact hwhims
  · cases deadline with
    | none => exact hwhims
    | some deadline =>
      cases horizon with
      | none => exact hwhims
      | some horizon =>
        simp only
        split <;> exact hwhims

variable {config : LinkConfig} {peer : Bytes}

theorem whims_conclude {horizon deadline : Option Nat} {sequence : UInt64}
    {queue : List (UInt64 × Bytes)} {result : Progress TransportResult × Wire}
    (hqueue : ∀ w : Wire, (runQueue horizon config queue w).2.2.whims = w.whims) :
    (conclude horizon config sequence deadline queue result).2.2.whims = result.2.whims := by
  rcases result with ⟨⟨_ | response⟩ | rest, w⟩
  · rfl
  · exact hqueue w
  · rfl

theorem whims_runQueue (horizon : Option Nat) (queue : List (UInt64 × Bytes)) (w : Wire) :
    (runQueue horizon config queue w).2.2.whims = w.whims := by
  induction queue generalizing w with
  | nil => rfl
  | cons sending queue ih =>
    obtain ⟨sequence, request⟩ := sending
    rw [runQueue_cons]
    exact (whims_conclude ih).trans (whims_runExchange ..)

theorem whims_pump (horizon : Option Nat) (l : Link) (w : Wire) :
    (l.pump horizon w).2.2.whims = w.whims := by
  obtain ⟨config, state, queue⟩ := l
  cases state with
  | idle => exact whims_runQueue horizon queue w
  | busy sequence deadline d =>
    rw [pump_busy]
    exact (whims_conclude (whims_runQueue horizon queue)).trans (whims_runExchange ..)
  | closing | draining | stopped => rfl

theorem length_waiting_runQueue (horizon : Option Nat) (queue : List (UInt64 × Bytes)) (w : Wire) :
    (runQueue horizon config queue w).2.1.waiting.length ≤ queue.length := by
  have hlength := congrArg List.length (waiting_runQueue horizon config queue w)
  simp only [List.length_append, List.length_map] at hlength
  omega

/-! ### With a time limit -/

theorem runExchange_timed (deadline : Nat) (d : Dialogue TransportResult) (w : Wire) :
    ∃ result w', runExchange none (some deadline) d w = (.finished result, w') := by
  unfold runExchange
  rcases d.run (earlier (some deadline) none) w with ⟨result | rest, w'⟩
  · exact ⟨_, _, rfl⟩
  · exact ⟨_, _, rfl⟩

/-- No request waits for an exchange. -/
def Spent (l : Link) : Prop := l.hasFailed = true ∨ l.waiting = []

theorem spent_conclude_timed {deadline : Nat} {sequence : UInt64}
    {queue : List (UInt64 × Bytes)} {d : Dialogue TransportResult} {w : Wire}
    (hqueue : ∀ w : Wire, Spent (runQueue none config queue w).2.1) :
    Spent (conclude none config sequence (some deadline) queue
      (runExchange none (some deadline) d w)).2.1 := by
  obtain ⟨result, w', hrun⟩ := runExchange_timed deadline d w
  rw [hrun]
  cases result with
  | error e => exact .inl rfl
  | ok response => exact hqueue w'

theorem spent_runQueue_timed {timeout : Nat} (h : config.responseTimeout = some timeout)
    (queue : List (UInt64 × Bytes)) (w : Wire) : Spent (runQueue none config queue w).2.1 := by
  induction queue generalizing w with
  | nil => exact .inr rfl
  | cons sending queue ih =>
    obtain ⟨sequence, request⟩ := sending
    rw [runQueue_cons, h]
    exact spent_conclude_timed ih

namespace Correspondence

variable {c : Correspondence}

theorem Serving.spent_timed (h : Serving config peer c) (htimed : config.responseTimeout ≠ none) :
    Spent (c.link.pump none c.wire).2.1 := by
  obtain ⟨timeout, hsome⟩ := Option.ne_none_iff_exists'.mp htimed
  obtain ⟨link, wire, log⟩ := c
  unfold Serving at h
  generalize verdicts config ⟨link, wire, log⟩ = results at h
  cases h with
  | idle => exact spent_runQueue_timed hsome _ _
  | @busy _ sequence request queue deadline d _ _ _ _ _ hmidway hsends hd hb hdeadline =>
    obtain ⟨instant, rfl⟩ := Option.ne_none_iff_exists'.mp (mt hdeadline.mp htimed)
    rw [pump_busy]
    exact spent_conclude_timed (spent_runQueue_timed hsome queue)
  | closing | draining | stopped => exact .inl rfl

theorem Serving.waiting_run (h : Serving config peer c)
    (hspent : Spent (c.link.pump none c.wire).2.1) : (c.act (.run none)).link.waiting = [] := by
  cases hfailed : (c.link.pump none c.wire).2.1.hasFailed with
  | true =>
    rw [h.run_failed hfailed]
    rfl
  | false =>
    rw [run_ongoing hfailed]
    exact hspent.resolve_left (by simp [hfailed])

theorem Serving.length_waiting_run (h : Serving config peer c) (horizon : Option Nat) :
    (c.act (.run horizon)).link.waiting.length ≤
      (c.link.pump horizon c.wire).2.1.waiting.length := by
  cases hfailed : (c.link.pump horizon c.wire).2.1.hasFailed with
  | true =>
    rw [h.run_failed hfailed]
    exact Nat.zero_le _
  | false =>
    rw [run_ongoing hfailed]
    exact Nat.le_refl _

/-! ### On a lively wire -/

/-- The link is run again and again, each time without a horizon. -/
def runs (n : Nat) (c : Correspondence) : Correspondence := c.after (List.replicate n (.run none))

theorem whims_act (a : Act) : (c.act a).wire.whims = c.wire.whims := by
  cases a with
  | send | close | drain | wait => rfl
  | pump horizon | run horizon => exact whims_pump horizon c.link c.wire

theorem whims_after (acts : List Act) : (c.after acts).wire.whims = c.wire.whims := by
  induction acts generalizing c with
  | nil => rfl
  | cons a acts ih => exact ih.trans (whims_act a)

theorem settles_exchange {d : Dialogue TransportResult} {w : Wire} (h : Wire.Finishes d w)
    {sequence : UInt64} {queue : List (UInt64 × Bytes)} (hc : Serving config peer c)
    (hpump : c.link.pump none c.wire =
      conclude none config sequence none queue (runExchange none none d w)) :
    ∃ n, (runs n c).link.waiting.length ≤ queue.length := by
  induction h generalizing c with
  | @now d w result w' hrun =>
    have hexchange : runExchange none none d w = (.finished result, w') := by
      unfold runExchange
      simp only [earlier, hrun]
    rw [hexchange] at hpump
    refine ⟨1, (hc.length_waiting_run none).trans ?_⟩
    rw [hpump]
    cases result with
    | error e => exact (List.length_map _).le
    | ok response => exact length_waiting_runQueue none queue w'
  | @later d w d' w' hrun _ ih =>
    have hexchange : runExchange none none d w = (.blocked d', w') := by
      unfold runExchange
      simp only [earlier, hrun]
    rw [hexchange] at hpump
    have hongoing : (c.link.pump none c.wire).2.1.hasFailed = false := by
      rw [hpump]
      rfl
    have hagain : (c.act (.run none)).link.pump none (c.act (.run none)).wire =
        conclude none config sequence none queue (runExchange none none d' w') := by
      rw [run_ongoing hongoing]
      simp only [Correspondence.act, hpump]
      exact pump_busy ..
    obtain ⟨n, hn⟩ := ih (hc.act (.run none)) hagain
    exact ⟨n + 1, hn⟩

theorem Serving.settles_lively (h : Serving config peer c)
    (huntimed : config.responseTimeout = none) (hlively : Wire.Lively c.wire.whims) :
    ∃ n, (runs n c).link.waiting = [] := by
  induction hlength : c.link.waiting.length using Nat.strongRecOn generalizing c with
  | _ k ih =>
    subst hlength
    -- It is enough that an exchange, begun or about to begin, leaves fewer waiting.
    have hfewer {sequence queue d} (hpump : c.link.pump none c.wire =
        conclude none config sequence none queue (runExchange none none d c.wire))
        (hwaiting : c.link.waiting.length = queue.length + 1) :
        ∃ n, (runs n c).link.waiting = [] := by
      obtain ⟨n, hn⟩ := settles_exchange (Wire.finishes hlively d rfl) h hpump
      have hlively' : Wire.Lively (runs n c).wire.whims := by
        rw [runs, whims_after]
        exact hlively
      obtain ⟨m, hm⟩ := ih (runs n c).link.waiting.length (by omega) (h.after _) hlively' rfl
      refine ⟨n + m, ?_⟩
      rw [runs, ← List.replicate_append_replicate, after_append]
      exact hm
    have hended (hfailed : c.link.hasFailed = true) : ∃ n, (runs n c).link.waiting = [] := by
      refine ⟨1, h.waiting_run (.inl ?_)⟩
      rw [pump_failed hfailed]
      exact hfailed
    clear ih
    obtain ⟨link, wire, log⟩ := c
    unfold Serving at h
    generalize verdicts config ⟨link, wire, log⟩ = results at h
    cases h with
    | @idle done queue _ hbetween hsends =>
      cases queue with
      | nil => exact ⟨0, rfl⟩
      | cons sending queue =>
        obtain ⟨sequence, request⟩ := sending
        have hrun := runQueue_cons none config sequence request queue wire
        rw [huntimed] at hrun
        exact hfewer hrun (by simp [waiting])
    | busy hmidway hsends hd hb hdeadline =>
      obtain rfl := hdeadline.mpr huntimed
      exact hfewer (pump_busy ..) (by simp [waiting])
    | closing | draining | stopped => exact hended rfl

theorem Serving.exists_runs (h : Serving config peer c)
    (hends : config.responseTimeout ≠ none ∨ Wire.Lively c.wire.whims) :
    ∃ n, (runs n c).link.waiting = [] := by
  by_cases htimed : config.responseTimeout = none
  · exact h.settles_lively htimed (hends.resolve_left fun hne => hne htimed)
  · exact ⟨1, h.waiting_run (h.spent_timed htimed)⟩

end Correspondence

/-! ## The law of a link -/

open Correspondence in
/-- What a link does with the requests of its callers, whatever the callers do, whatever bytes the
peer sends and whatever the wire does with each call. -/
structure InTurn (config : LinkConfig) (peer : Bytes) (whims : Nat → Whim) : Prop where
  /-- A request over the limit is refused when it is sent, and nothing else happens. -/
  refused : ∀ acts sequence request, form? config request = none →
    let c := (start config peer whims).after acts
    c.act (.send sequence request) =
      { c with log := c.log ++ [.sent sequence request (some (.error .serialization))] }
  /-- All else is as if the requests over the limit had not been sent. -/
  harmless : ∀ acts, Agrees config ((start config peer whims).after acts)
    ((start config peer whims).after (acts.filter (Act.within config)))
  account : ∀ acts, Account config peer ((start config peer whims).after acts)
  /-- Each request is answered at most once, and waits until it is. -/
  once : ∀ acts, let c := (start config peer whims).after acts
    ((c.verdicts config).map Prod.fst ++ c.link.waiting).Perm ((c.accepted config).map Prod.fst)
  /-- The requests are answered in order, if none comes between the steps of the link's end. -/
  ordered : ∀ acts, (∀ a ∈ acts, a.IsWhole) →
    let c := (start config peer whims).after acts
    (c.verdicts config).map Prod.fst ++ c.link.waiting = (c.accepted config).map Prod.fst
  /-- An answer is final. -/
  final : ∀ acts more, let c := (start config peer whims).after acts
    c.verdicts config <+: (c.after more).verdicts config
  /-- A link whose exchange has failed leaves its wire alone. -/
  silent : ∀ acts more, let c := (start config peer whims).after acts
    c.link.hasFailed = true →
      (c.after more).wire.calls = c.wire.calls ∧ (c.after more).wire.moved = c.wire.moved
  /-- Every request is answered once the link has run for long enough. -/
  settles : config.responseTimeout ≠ none ∨ Wire.Lively whims → ∀ acts, ∃ n,
    let c := (start config peer whims).after (acts ++ List.replicate n (.run none))
    c.link.waiting = [] ∧
      ((c.verdicts config).map Prod.fst).Perm ((c.accepted config).map Prod.fst) ∧
      ((∀ a ∈ acts, a.IsWhole) →
        (c.verdicts config).map Prod.fst = (c.accepted config).map Prod.fst)

open Correspondence in
/-- **A link answers every request once, and none with the reply to another.** -/
theorem answered_in_turn (config : LinkConfig) (peer : Bytes) (whims : Nat → Whim) :
    InTurn config peer whims := by
  have hstart : Serving config peer (start config peer whims) := serving_start whims
  have hserving (acts : List Act) : Serving config peer ((start config peer whims).after acts) :=
    hstart.after acts
  have hordered (acts : List Act) (hacts : ∀ a ∈ acts, a.IsWhole) :
      Sequenced config ((start config peer whims).after acts) := by
    have horderly : Orderly config (start config peer whims) := ⟨rfl, fun h => by cases h⟩
    exact (horderly.after hstart hacts).sequenced
  refine ⟨?_, ?_, ?_, ?_, hordered, ?_, ?_, ?_⟩
  · intro acts sequence request hform
    refine act_send_refused ?_
    rw [(hserving acts).config_eq]
    exact hform
  · exact fun acts => hstart.agrees ⟨rfl, rfl, rfl, rfl⟩ acts
  · exact fun acts => (hserving acts).account
  · exact fun acts => (hserving acts).account.once
  · exact fun acts more => (log_after more).filterMap _
  · intro acts more c hfailed
    have hsilent := after_failed hfailed more
    exact ⟨hsilent.calls, hsilent.moved⟩
  · rintro hends acts
    obtain ⟨n, hn⟩ := (hserving acts).exists_runs (by rw [whims_after]; exact hends)
    rw [runs, ← after_append] at hn
    have honce := (hserving (acts ++ List.replicate n (.run none))).account.once
    rw [hn, List.append_nil] at honce
    refine ⟨n, hn, honce, fun hacts => ?_⟩
    have hsequenced := hordered (acts ++ List.replicate n (.run none)) fun a ha => ?_
    · rwa [Sequenced, hn, List.append_nil] at hsequenced
    · rcases List.mem_append.mp ha with ha | ha
      · exact hacts a ha
      · rw [List.eq_of_mem_replicate ha]
        trivial

end SealedLink.Link
