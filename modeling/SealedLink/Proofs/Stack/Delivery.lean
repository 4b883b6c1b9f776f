import SealedLink.Proofs.Channel.Outcomes
import SealedLink.Proofs.Noise.Standard
import SealedLink.Proofs.Stack.Schedule
import SealedLink.Proofs.Stack.Sound

/-!
# Every write gets its answer

Along every run the outcomes are the application's answers in the order of the writes, and along a
fair run every write gets its outcome.
-/

namespace SealedLink

theorem eventually_of_help {P Q A : Nat → Prop} (hA : ∀ n, ∃ m, n ≤ m ∧ A m)
    (hstay : ∀ n, P n → P (n + 1) ∨ Q (n + 1)) (hhelp : ∀ n, P n → A n → Q (n + 1)) {n : Nat}
    (hP : P n) : ∃ m, n ≤ m ∧ Q m := by
  obtain ⟨m, hm, ha⟩ := hA n
  obtain ⟨k, rfl⟩ := Nat.exists_eq_add_of_le hm
  clear hm
  induction k generalizing n with
  | zero => exact ⟨n + 1, Nat.le_succ n, hhelp n hP ha⟩
  | succ k ih =>
    rcases hstay n hP with hP | hQ
    · obtain ⟨m, hm, hQ⟩ := ih hP (by rwa [Nat.add_right_comm n 1 k])
      exact ⟨m, by omega, hQ⟩
    · exact ⟨n + 1, Nat.le_succ n, hQ⟩

namespace Setup

variable {S : CipherSuite} {α η : Type} [Attester α] [Application η] {p : Setup S α η}
  {schedule : Nat → Loopback.Act}

/-! ## Safety -/

/-- Where a loopback stands. -/
structure Stands (p : Setup S α η) (l : Loopback S α η) (reached : Nat) (stage : Stage) : Prop where
  intro ::
  stands : ∃ d done, p.Going l d done ∧ p.Place l d done stage ∧ rank d done = reached

theorem stands_start (hp : p.Works) : p.Stands p.start 0 .resting := by
  refine ⟨{ session := { entropy := p.clientEntropy }, attester := p.attester }, [], ⟨?_, rfl, rfl⟩,
    .resting (.fresh rfl rfl rfl rfl rfl rfl rfl) (still_start hp), rfl⟩
  exact Channel.live_new _ rfl _ _

theorem stands_along (hp : p.Works) (hs : p.Smooth schedule) (n : Nat) :
    ∃ reached stage, p.Stands (p.start.along schedule n) reached stage := by
  induction n with
  | zero => exact ⟨_, _, stands_start hp⟩
  | succ n ih =>
    obtain ⟨reached, stage, d, done, hgoing, hplace, -⟩ := ih
    cases next_act hp hgoing hplace (hs.takes n) (schedule n) (hs.timely n) with
    | turned going place => exact ⟨_, _, _, _, going, place, rfl⟩
    | moved going place => exact ⟨_, _, _, _, going, place, rfl⟩
    | same going place => exact ⟨_, _, _, _, going, place, rfl⟩

/-- The outcomes are the application's answers to the first writes, in their order. Once there is
one, the client is established; when all writes have theirs, the service is too, and has counted
them. -/
structure Faithful (p : Setup S α η) (l : Loopback S α η) : Prop where
  outcomes : l.channel.outcomes <+: p.settled l.channel.submitted
  client : l.channel.outcomes ≠ [] → l.channel.published = .established ∧
    ∃ d, l.channel.driver = some d ∧ d.state = .established ∧ d.session.isEstablished
  service : l.channel.submitted ≠ [] →
    l.channel.outcomes.length = l.channel.submitted.length →
      ∃ session, l.service = .running (Service.turn p.serviceLimit session) ∧
        session.phase = .established ∧ session.served = l.channel.submitted.length ∧
        session.application = Application.after p.application (requestsOf l.channel.submitted)

variable {l : Loopback S α η} {d : Driver (ClientSession S) α} {done : List Pending} {stage : Stage}

omit [Attester α] in
theorem settled_prefix {a b : List Pending} (h : a <+: b) : p.settled a <+: p.settled b := by
  obtain ⟨more, rfl⟩ := h
  simp only [settled, requestsOf_append, Application.answers_append]
  rw [List.zip_append (by simp), List.map_append]
  exact List.prefix_append ..

omit [Attester α] in
@[simp] theorem length_settled (ws : List Pending) : (p.settled ws).length = ws.length := by
  simp [settled]

omit [Attester α] in
theorem results_settled (ws : List Pending) : (p.settled ws).map (·.2) =
    (Application.answers p.application (requestsOf ws)).map .ok := by
  rw [settled, List.map_map]
  calc (ws.zip (Application.answers p.application (requestsOf ws))).map (Except.ok ∘ Prod.snd)
    _ = ((ws.zip (Application.answers p.application (requestsOf ws))).map Prod.snd).map .ok :=
        List.map_map.symm
    _ = _ := by rw [List.map_snd_zip (by simp)]

theorem established_of_decrypt {session session' : ClientSession S} {reply opened : Bytes}
    (h : CipherSession.decrypt session reply = (.ok opened, session')) :
    session.isEstablished := by
  simp only [CipherSession.decrypt, ClientSession.decrypt, ClientSession.withCipher] at h
  split at h
  · cases h
  · cases h
  · cases h
  · rename_i hphase
    simp [ClientSession.isEstablished, hphase]

theorem Place.client (h : p.Place l d done stage) (hdone : done ≠ []) :
    d.state = .established ∧ d.session.isEstablished := by
  have engaged {e} (h : p.Engaged d e done) : d.state = .established ∧ d.session.isEstablished := by
    cases h with
    | attesting _ _ _ _ _ _ _ hfirst => exact absurd hfirst hdone
    | greeting _ _ _ _ hfirst => exact absurd hfirst hdone
    | busy hs _ _ hopens =>
      obtain ⟨_, _, -, hdecrypt, -⟩ := hopens
      exact ⟨hs, established_of_decrypt hdecrypt⟩
  cases h with
  | resting hrests =>
    cases hrests with
    | fresh _ _ _ _ _ _ hfirst => exact absurd hfirst hdone
    | idle hs _ _ hagreed =>
      obtain ⟨client, service, hphase, -⟩ := hagreed.ciphers
      exact ⟨hs, by simp [ClientSession.isEstablished, hphase]⟩
  | under h => exact engaged h
  | answered h => exact engaged h

theorem Place.service (h : p.Place l d done stage) (hdone : done ≠ []) (hq : d.queue = []) :
    ∃ session, l.service = .running (Service.turn p.serviceLimit session) ∧
      session.phase = .established ∧ session.served = done.length ∧
      session.application = Application.after p.application (requestsOf done) := by
  have engaged {e} (h : p.Engaged d e done) : d.queue ≠ [] := by
    cases h with
    | attesting _ _ hne => exact hne
    | greeting _ _ hne => exact hne
    | busy _ _ hcons => simp [hcons]
  cases h with
  | resting hrests line =>
    cases hrests with
    | fresh _ _ _ _ _ _ hfirst => exact absurd hfirst hdone
    | idle _ _ _ hagreed =>
      exact ⟨_, line.service, hagreed.established, by simpa using hagreed.served,
        hagreed.application⟩
  | under h => exact absurd hq (engaged h)
  | answered h => exact absurd hq (engaged h)

theorem faithful_of_place (h : p.Going l d done) (hplace : p.Place l d done stage) :
    p.Faithful l := by
  have houtcomes : l.channel.outcomes = p.settled done := by
    rw [Channel.outcomes_eq, h.outcomes]
  have hsubmitted := h.submitted
  rw [List.append_assoc] at hsubmitted
  refine ⟨?_, fun hne => ?_, fun hne hlength => ?_⟩
  · rw [houtcomes, hsubmitted]
    exact settled_prefix (List.prefix_append ..)
  · have hdone : done ≠ [] := by
      rintro rfl
      exact hne houtcomes
    obtain ⟨hstate, hsession⟩ := hplace.client hdone
    exact ⟨h.live.published.trans hstate, d, h.live.driver, hstate, hsession⟩
  · rw [houtcomes, length_settled, hsubmitted, List.length_append] at hlength
    have hrest : d.queue ++ l.channel.waiting = [] := List.eq_nil_of_length_eq_zero (by omega)
    rw [hrest, List.append_nil] at hsubmitted
    rw [hsubmitted] at hne ⊢
    exact hplace.service hne (List.append_eq_nil_iff.mp hrest).1

theorem faithful_along (hp : p.Works) (hs : p.Smooth schedule) (n : Nat) :
    p.Faithful (p.start.along schedule n) := by
  obtain ⟨_, _, d, done, hgoing, hplace, -⟩ := stands_along hp hs n
  exact faithful_of_place hgoing hplace

/-! ## Progress -/

theorem Stage.less_wellFounded : WellFounded Stage.Less := by
  have answered (i : Nat) : Acc Stage.Less (.answered i) := by
    induction i using Nat.strongRecOn with
    | _ i ih =>
      refine ⟨_, fun stage h => ?_⟩
      cases h with
      | nearer h => exact ih _ h
  have under (k : Nat) : ∀ side, Acc Stage.Less (.under k side) := by
    induction k using Nat.strongRecOn with
    | _ k ih =>
      refine fun side => ⟨_, fun stage h => ?_⟩
      cases h with
      | work h => exact ih _ h _
      | answer => exact answered _
  refine ⟨fun stage => ?_⟩
  cases stage with
  | resting => exact ⟨_, fun stage h => nomatch h⟩
  | under k side => exact under k side
  | answered i => exact answered i

/-- A stage with something to do: at rest there has to be an event. -/
structure Waits (p : Setup S α η) (l : Loopback S α η) (reached : Nat) (stage : Stage) : Prop where
  stands : p.Stands l reached stage
  events : stage = .resting → l.channel.events ≠ []

/-- A stage is left by a turn of the driver, or for a stage that is nearer to its end. -/
inductive Leaves (p : Setup S α η) (l : Loopback S α η) (reached : Nat) (stage : Stage) : Prop where
  | turned {reached' stage'} (h : reached < reached') (stands : p.Stands l reached' stage')
  | nearer {stage'} (h : stage'.Less stage) (stands : p.Stands l reached stage')

theorem waits_or_leaves (hp : p.Works) (hs : p.Smooth schedule) {reached : Nat} {n : Nat}
    (h : p.Waits (p.start.along schedule n) reached stage) :
    p.Waits (p.start.along schedule (n + 1)) reached stage ∧
        ¬ Helps (p.start.along schedule n) stage (schedule n) ∨
      p.Leaves (p.start.along schedule (n + 1)) reached stage := by
  obtain ⟨⟨d, done, hgoing, hplace, rfl⟩, hevents⟩ := h
  cases next_act hp hgoing hplace (hs.takes n) (schedule n) (hs.timely n) with
  | turned going place rank => exact .inr (.turned rank ⟨_, _, going, place, rfl⟩)
  | moved going place rank less => exact .inr (.nearer less ⟨_, _, going, place, rank⟩)
  | same going place rank idle events =>
    refine .inl ⟨⟨⟨_, _, going, place, rank⟩, fun hrest => ?_⟩, idle⟩
    obtain ⟨more, hmore⟩ := events hrest
    rw [Loopback.along, ← hmore]
    exact List.append_ne_nil_of_left_ne_nil (hevents hrest) more

theorem helps_of_fair (hfair : Loopback.Fair schedule) (reached : Nat) (stage : Stage) (n : Nat) :
    ∃ m, n ≤ m ∧ ∀ l, p.Waits l reached stage → Helps l stage (schedule m) := by
  cases stage with
  | resting =>
    obtain ⟨m, hm, ha⟩ := hfair.process n
    exact ⟨m, hm, fun l hl => by rw [ha]; exact hl.events rfl⟩
  | answered i =>
    obtain ⟨m, hm, ha⟩ := hfair.process n
    exact ⟨m, hm, fun l hl => by rw [ha]; trivial⟩
  | under k side =>
    cases side with
    | initiator =>
      obtain ⟨m, hm, allowances, hne, ha⟩ := hfair.carry n
      exact ⟨m, hm, fun l hl => by rw [ha]; exact hne⟩
    | responder =>
      obtain ⟨m, hm, allowances, hne, ha⟩ := hfair.serve n
      exact ⟨m, hm, fun l hl => by rw [ha]; exact hne⟩

/-- **A fair run goes on**: from a stage with something to do it comes to another turn. -/
theorem advances (hp : p.Works) (hs : p.Smooth schedule) (hfair : Loopback.Fair schedule)
    {reached n : Nat} (h : p.Waits (p.start.along schedule n) reached stage) :
    ∃ m, n ≤ m ∧ ∃ reached' stage', reached < reached' ∧
      p.Stands (p.start.along schedule m) reached' stage' := by
  -- A stage is left for a nearer one finitely often, so at last by a turn of the driver.
  induction stage using Stage.less_wellFounded.induction generalizing n with
  | _ stage ih =>
    have hleaves : ∃ m, n ≤ m ∧ p.Leaves (p.start.along schedule m) reached stage := by
      refine eventually_of_help (P := fun m => p.Waits (p.start.along schedule m) reached stage)
        (Q := fun m => p.Leaves (p.start.along schedule m) reached stage)
        (helps_of_fair (p := p) hfair reached stage)
        (fun m hm => (waits_or_leaves hp hs hm).imp_left And.left) (fun m hm hhelps => ?_) h
      rcases waits_or_leaves hp hs hm with ⟨-, hidle⟩ | hleaves
      · exact absurd (hhelps _ hm) hidle
      · exact hleaves
    obtain ⟨m, hm, hleaves⟩ := hleaves
    cases hleaves with
    | turned hrank hstands => exact ⟨m, hm, _, _, hrank, hstands⟩
    | nearer hless hstands =>
      have hwaits : p.Waits (p.start.along schedule m) reached _ :=
        ⟨hstands, fun hrest => by subst hrest; cases hless⟩
      obtain ⟨m', hm', hturned⟩ := ih _ hless hwaits
      exact ⟨m', Nat.le_trans hm hm', hturned⟩

/-! ## Delivery -/

theorem submitted_act (h : p.Going l d done) (a : Loopback.Act) :
    l.channel.submitted <+: (l.act a).channel.submitted := by
  have hlive := h.live.accepting
  cases a with
  | write request plan => exact (Channel.effect_submitPlan _ _ hlive).submitted
  | writeFuture request => exact (Channel.effect_writeFuture _ request hlive).submitted
  | poll number => exact (Channel.effect_poll _ number).submitted
  | dropFuture number => exact (Channel.effect_futures _ _).submitted
  | cloneHandle => exact (Channel.effect_handles _ _).submitted
  | dropHandle => exact (Channel.effect_handles _ _).submitted
  | serve allowances => exact List.prefix_refl _
  | wait duration => exact List.prefix_refl _
  | carry allowances =>
    have hchannel : (l.carry allowances).channel = answered l.channel _ _ := rfl
    rw [Loopback.act, hchannel, answered_eq hlive]
    exact List.prefix_refl _
  | process =>
    cases he : l.channel.events with
    | nil =>
      have hnone : l.channel.processNext = none := by simp [Channel.processNext, h.live.driver, he]
      rw [Loopback.act, hnone]
      exact List.prefix_refl _
    | cons ev rest =>
      rw [act_process h he, ← l.channel.submitted_take d ev rest]
      exact Channel.Effect.submitted (Channel.effect_performAll _ _ hlive)

theorem submitted_along (hp : p.Works) (hs : p.Smooth schedule) {n m : Nat} (hnm : n ≤ m) :
    (p.start.along schedule n).channel.submitted <+: (p.start.along schedule m).channel.submitted := by
  induction hnm with
  | refl => exact List.prefix_refl _
  | @step m _ ih =>
    obtain ⟨_, _, d, done, hgoing, -⟩ := stands_along hp hs m
    exact ih.trans (submitted_act hgoing _)

omit [Application η] [Attester α] in
theorem rank_le (d : Driver (ClientSession S) α) (done : List Pending) :
    rank d done ≤ 4 + 2 * done.length := by
  have : d.outstanding.toList.length ≤ 1 := by cases d.outstanding <;> simp
  unfold rank
  split <;> omega

theorem waits_of_unresolved {reached : Nat} (hgoing : p.Going l d done)
    (hplace : p.Place l d done stage) (hrank : rank d done = reached)
    (hless : done.length < l.channel.submitted.length) : p.Waits l reached stage := by
  refine ⟨⟨d, done, hgoing, hplace, hrank⟩, ?_⟩
  rintro rfl hnil
  cases hplace with
  | resting hrests =>
    have hq : d.queue = [] := by
      cases hrests with
      | fresh _ _ hq => exact hq
      | idle _ _ hq => exact hq
    rw [hgoing.submitted, hq, Channel.waiting, hnil] at hless
    simp at hless

theorem resolved_of_done (hp : p.Works) (hs : p.Smooth schedule) {n m : Nat} (hnm : n ≤ m)
    (hgoing : p.Going (p.start.along schedule m) d done)
    (hdone : (p.start.along schedule n).channel.submitted.length ≤ done.length) :
    p.settled (p.start.along schedule n).channel.submitted <+:
      (p.start.along schedule m).channel.outcomes := by
  have hsubmitted : done <+: (p.start.along schedule m).channel.submitted := by
    rw [hgoing.submitted, List.append_assoc]
    exact List.prefix_append ..
  rw [Channel.outcomes_eq, hgoing.outcomes]
  exact settled_prefix (List.prefix_of_prefix_length_le (submitted_along hp hs hnm) hsubmitted hdone)

theorem resolves_within (hp : p.Works) (hs : p.Smooth schedule) (hfair : Loopback.Fair schedule)
    (n fuel : Nat) : ∀ m reached stage, n ≤ m →
      p.Stands (p.start.along schedule m) reached stage →
      3 + 2 * (p.start.along schedule n).channel.submitted.length ≤ reached + fuel →
      ∃ m, n ≤ m ∧ p.settled (p.start.along schedule n).channel.submitted <+:
        (p.start.along schedule m).channel.outcomes := by
  -- The fuel counts the turns that are left: the rank grows with each, and bounds the writes done.
  induction fuel with
  | zero =>
    intro m reached stage hnm hstands hfuel
    obtain ⟨d, done, hgoing, hplace, hrank⟩ := hstands
    have := rank_le d done
    exact ⟨m, hnm, resolved_of_done hp hs hnm hgoing (by omega)⟩
  | succ fuel ih =>
    intro m reached stage hnm hstands hfuel
    obtain ⟨d, done, hgoing, hplace, hrank⟩ := hstands
    by_cases hdone : (p.start.along schedule n).channel.submitted.length ≤ done.length
    · exact ⟨m, hnm, resolved_of_done hp hs hnm hgoing hdone⟩
    · have hmore := (submitted_along hp hs hnm).length_le
      have hwaits := waits_of_unresolved hgoing hplace hrank (by omega)
      obtain ⟨m', hm', reached', stage', hturn, hstands'⟩ := advances hp hs hfair hwaits
      exact ih m' reached' stage' (Nat.le_trans hnm hm') hstands' (by omega)

/-- **Every write gets the application's answer.** Along every run in which the frames fit and no
deadline passes, the outcomes are those answers in the order of the writes; along a fair one every
write that was made gets its outcome. -/
theorem answered_along (hp : p.Works) (hs : p.Smooth schedule) :
    (∀ n, p.Faithful (p.start.along schedule n)) ∧
      (Loopback.Fair schedule → ∀ n, ∃ m, n ≤ m ∧
        p.settled (p.start.along schedule n).channel.submitted <+:
          (p.start.along schedule m).channel.outcomes) := by
  refine ⟨faithful_along hp hs, fun hfair n => ?_⟩
  obtain ⟨reached, stage, hstands⟩ := stands_along hp hs n
  exact resolves_within hp hs hfair n _ n reached stage (Nat.le_refl n) hstands
    (Nat.le_add_left ..)

/-! ### Two writes to a counter -/

/-- A client and a service with scalars 1 and 2, over narrow pipes. -/
def counting : Setup .p256AesGcmSha256 InsecureAttester StockApplication where
  config := { responseTimeout := none, maxFrameSize := 128 }
  attester := {}
  clientEntropy := .small 1
  serviceLimit := 96
  evidence := [7]
  application := .counter 0
  serviceEntropy := .small 2
  toServiceCapacity := 5
  toClientCapacity := 3

/-- Two writes, the second of them in the middle of the run, and turns in a circle. -/
def circle (n : Nat) : Loopback.Act :=
  if n = 0 then .writeFuture [1, 2] else if n = 8 then .writeFuture [3]
  else if n % 3 = 0 then .serve [0, 1] else if n % 3 = 1 then .process else .carry [2]

theorem works_counting : counting.Works where
  config := rfl
  suite := CipherSuite.reliable_p256AesGcmSha256
  agrees := by
    rw [show counting.clientEntropy = .small 1 from rfl, CipherSuite.draw_one,
      show counting.serviceEntropy = .small 2 from rfl, CipherSuite.draw_two]
    exact CipherSuite.agrees_one_two
  attests := ⟨[], {}, {}, rfl, rfl, by decide, by decide⟩
  evidence := ⟨by decide, by decide⟩
  handshake := ⟨by decide, by decide⟩
  capacities := by decide

theorem written_circle (n : Nat) : Loopback.written circle n <+: [[1, 2], [3]] := by
  have hbegin : ∀ n < 10, Loopback.written circle n <+: [[1, 2], [3]] := by decide
  by_cases hn : n ≤ 9
  · exact hbegin n (by omega)
  · obtain ⟨k, rfl⟩ := Nat.exists_eq_add_of_le (Nat.le_of_not_le hn)
    clear hn
    induction k with
    | zero => decide
    | succ k ih =>
      have hnone : (circle (9 + k)).future? = none := by
        simp only [circle]
        split
        · omega
        · split
          · omega
          · split
            · rfl
            · split <;> rfl
      rw [← Nat.add_assoc, Loopback.written_succ, hnone, Option.toList_none, List.append_nil]
      exact ih

theorem unplanned_circle (n : Nat) (request : Bytes) (plan : Plan) :
    circle n ≠ .write request plan := by
  unfold circle
  repeat' split
  all_goals exact nofun

theorem takes_circle : counting.Takes [[1, 2], [3]] where
  fits := by simp [Fits, FitsBoth, Frame.Fits, counting, Field.sizeLimit]
  answers := by
    simp [Fits, FitsBoth, Frame.Fits, counting, Field.sizeLimit, Application.answers,
      Application.answer, StockApplication.answer]
  count := by decide

theorem smooth_circle : counting.Smooth circle :=
  smooth_of_written rfl unplanned_circle takes_circle written_circle

theorem fair_circle : Loopback.Fair circle := by
  have turn (n i : Nat) (hi : i < 3) : circle (3 * (n + 3) + i) =
      if i = 0 then .serve [0, 1] else if i = 1 then .process else .carry [2] := by
    have hmod : (3 * (n + 3) + i) % 3 = i := by omega
    rw [circle, if_neg (by omega), if_neg (by omega), hmod]
  exact {
    process := fun n => ⟨_, by omega, turn n 1 (by decide)⟩
    carry := fun n => ⟨_, by omega, [2], by decide, turn n 2 (by decide)⟩
    serve := fun n => ⟨_, by omega, [0, 1], by decide, turn n 0 (by decide)⟩ }

/-- The two writes get 1 and 2. -/
theorem counting_answered : counting.Works ∧ counting.Smooth circle ∧
    (∀ n, counting.Faithful (counting.start.along circle n)) ∧
      ∃ n, [.ok [1], .ok [2]] <+: (counting.start.along circle n).channel.outcomes.map (·.2) := by
  obtain ⟨hfaithful, hdelivered⟩ := answered_along works_counting smooth_circle
  obtain ⟨n, -, hn⟩ := hdelivered fair_circle 9
  have hrequests := (Loopback.requestsOf_along (plain_start counting) unplanned_circle 9).2
  have hwritten : Loopback.written circle 9 = [[1, 2], [3]] := by decide
  refine ⟨works_counting, smooth_circle, hfaithful, n, ?_⟩
  have hmap := hn.map (·.2)
  rw [results_settled, hrequests, hwritten] at hmap
  exact hmap

end Setup

end SealedLink
