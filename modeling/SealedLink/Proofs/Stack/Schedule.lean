import SealedLink.Proofs.Stack.Run

/-!
# Schedules

A schedule says what is done when, for ever. Without a timeout no schedule comes to a deadline, and
when all writes have futures, what is written is what the schedule says.
-/

namespace SealedLink

namespace Loopback

variable {S : CipherSuite} {α η : Type} [Attester α] [Application η]

/-- The loopback after the first acts of a schedule. -/
def along (l : Loopback S α η) (schedule : Nat → Act) : Nat → Loopback S α η
  | 0 => l
  | n + 1 => (l.along schedule n).act (schedule n)

/-- The driver and either side of the line get their turns again and again, each time with leave to
move something. -/
structure Fair (schedule : Nat → Act) : Prop where
  process : ∀ n, ∃ m, n ≤ m ∧ schedule m = .process
  carry : ∀ n, ∃ m, n ≤ m ∧ ∃ allowances, allowances ≠ [] ∧ schedule m = .carry allowances
  serve : ∀ n, ∃ m, n ≤ m ∧ ∃ allowances, allowances ≠ [] ∧ schedule m = .serve allowances

end Loopback

/-- A run in which every frame fits and no deadline passes. -/
structure Setup.Smooth {S : CipherSuite} {α η : Type} [Attester α] [Application η]
    (p : Setup S α η) (schedule : Nat → Loopback.Act) : Prop where
  takes : ∀ n, p.Takes (requestsOf (p.start.along schedule n).channel.submitted)
  timely : ∀ n, (p.start.along schedule n).Timely (schedule n)

/-! ## Links without a timeout -/

namespace Link

structure Untimed (l : Link) : Prop where
  config : l.config.responseTimeout = none
  state : ∀ q deadline d, l.state ≠ .busy q (some deadline) d

theorem Untimed.send {l : Link} (h : l.Untimed) (q : UInt64) (request : Request) :
    (l.send q request).2.Untimed := by
  unfold Link.send
  split
  · exact h
  · split
    · exact h
    · split
      · exact h
      · exact ⟨h.config, h.state⟩

variable {ς : Type} [ByteStream ς] {config : LinkConfig}

theorem untimed_runQueue (hc : config.responseTimeout = none) (horizon : Option Nat)
    (queue : List (UInt64 × Bytes)) (s : ς) : (runQueue horizon config queue s).2.1.Untimed := by
  induction queue generalizing s with
  | nil => exact ⟨hc, by simp [runQueue]⟩
  | cons x queue ih =>
    simp only [runQueue, hc, Option.map_none]
    split
    · exact ih _
    · exact ⟨hc, by simp⟩
    · exact ⟨hc, by simp⟩

theorem Untimed.pump {l : Link} (h : l.Untimed) (horizon : Option Nat) (s : ς) :
    (l.pump horizon s).2.1.Untimed := by
  unfold Link.pump
  split
  · exact h
  · exact h
  · exact h
  · exact untimed_runQueue h.config ..
  · case _ q deadline d hstate =>
    have hnone : deadline = none := by
      cases deadline with
      | none => rfl
      | some instant => exact absurd hstate (h.state q instant d)
    subst hnone
    split
    · exact untimed_runQueue h.config ..
    · exact ⟨h.config, by simp⟩
    · exact ⟨h.config, by simp⟩

theorem Untimed.close {l : Link} (h : l.Untimed) : l.close.Untimed := by
  unfold Link.close
  split
  · exact ⟨h.config, by simp⟩
  · exact h

theorem Untimed.drain {l : Link} (h : l.Untimed) : l.drain.2.Untimed := by
  unfold Link.drain
  split
  · exact ⟨h.config, by simp⟩
  · exact ⟨h.config, h.state⟩
  · exact h

theorem Untimed.drainFor {l : Link} (h : l.Untimed) (steps : Nat) :
    (l.drainFor steps).2.Untimed := by
  induction steps generalizing l with
  | zero => exact h
  | succ steps ih => exact ih h.drain

theorem Untimed.advance {l : Link} (h : l.Untimed) (horizon : Option Nat) (s : ς) :
    (l.advance horizon s).2.1.Untimed := by
  unfold Link.advance windUp
  exact (h.pump horizon s).close.drainFor _

end Link

namespace Loopback

variable {S : CipherSuite} {α η : Type} {l : Loopback S α η}

theorem keeps_answered (c : Channel Link (ClientSession S) α) (link : Link)
    (answers : List (UInt64 × TransportResult)) :
    Channel.Keeps { c with transport := link } (answered c link answers) := by
  unfold answered
  induction answers using List.reverseRecOn with
  | nil => exact ⟨rfl, rfl⟩
  | append_singleton answers answer ih =>
    rw [List.foldl_concat]
    exact ih.trans (Channel.keeps_post ..)

theorem untimed_sendings {link : Link} (h : link.Untimed) (requests : List (UInt64 × Request)) :
    (requests.foldl (fun t x => (Transport.send t x.1 x.2).2) link).Untimed := by
  induction requests generalizing link with
  | nil => exact h
  | cons x requests ih => exact ih (h.send x.1 x.2)

variable [Attester α] [Application η]

theorem untimed_act (h : l.channel.transport.Untimed) (a : Act) :
    (l.act a).channel.transport.Untimed := by
  cases a with
  | write request plan => exact (Channel.keeps_submitPlan _ l.channel).transport.symm ▸ h
  | writeFuture request => exact (Channel.keeps_writeFuture l.channel request).transport.symm ▸ h
  | poll number => exact (Channel.keeps_poll l.channel number).transport.symm ▸ h
  | dropFuture | cloneHandle | dropHandle | serve | wait => exact h
  | carry allowances =>
    have hchannel : (l.carry allowances).channel = answered l.channel _ _ := rfl
    rw [act, hchannel, (keeps_answered ..).transport]
    exact h.advance ..
  | process =>
    rw [act, Channel.processNext]
    split
    · rw [Option.getD_some, (Channel.keeps_performAll _ _).1]
      exact untimed_sendings h _
    · exact h

theorem untimed_along (h : l.channel.transport.Untimed) (schedule : Nat → Act) (n : Nat) :
    (l.along schedule n).channel.transport.Untimed := by
  induction n with
  | zero => exact h
  | succ n ih => exact untimed_act ih _

omit [Attester α] [Application η] in
theorem timely_of_untimed (h : l.channel.transport.Untimed) (a : Act) : l.Timely a := by
  cases a with
  | carry => exact fun q deadline d _ _ hstate => absurd hstate (h.state q deadline d)
  | _ => trivial

end Loopback

/-! ## Writes with futures -/

namespace Channel

variable {τ σ α : Type}

/-- No write that waits leads to another one. -/
structure Plain (c : Channel τ σ α) : Prop where
  accepting : c.accepting = true
  waiting : ∀ w ∈ c.waiting, w.completion = .future
  queue : ∀ d, c.driver = some d → ∀ w ∈ d.queue, w.completion = .future

theorem submitted_post (c : Channel τ σ α) (e : Event) : (c.post e).submitted = c.submitted := by
  unfold post
  split <;> rfl

theorem submitted_perform [Transport τ] (c : Channel τ σ α) {a : Action}
    (h : ∀ w outcome, a = .resolve w outcome → w.completion = .future) :
    (c.perform a).submitted = c.submitted := by
  cases a with
  | call call => simp [perform, Entry.submission?]
  | publish state => simp [perform, submitted, history, record, Entry.submission?]
  | resolve w outcome =>
    simp [perform, resolve, h w outcome rfl, fill, submitted, history, record, Entry.submission?]
  | send q request =>
    simp only [perform]
    split
    · rw [submitted_post]
      simp [submitted, history, record, Entry.submission?]
    · simp [submitted, history, record, Entry.submission?]

theorem submitted_performAll [Transport τ] {actions : List Action} (c : Channel τ σ α)
    (h : ∀ w outcome, .resolve w outcome ∈ actions → w.completion = .future) :
    (actions.foldl perform c).submitted = c.submitted := by
  induction actions generalizing c with
  | nil => rfl
  | cons a actions ih =>
    rw [List.foldl_cons, ih _ fun w outcome ha => h w outcome (List.mem_cons_of_mem _ ha)]
    exact submitted_perform c fun w outcome ha => h w outcome (ha ▸ List.mem_cons_self)

theorem Plain.writeFuture {c : Channel τ σ α} (h : c.Plain) (request : Bytes) :
    (c.writeFuture request).Plain ∧
      (c.writeFuture request).submitted = c.submitted ++ [⟨c.submissions, request, .future⟩] := by
  have hwaiting : (c.writeFuture request).waiting =
      c.waiting ++ [⟨c.submissions, request, .future⟩] := by
    simp [Channel.writeFuture, post, record, h.accepting, Channel.waiting, Event.write?]
  refine ⟨⟨?_, fun w hw => ?_, ?_⟩, ?_⟩
  · simp [Channel.writeFuture, post, record, h.accepting]
  · rw [hwaiting, List.mem_append, List.mem_singleton] at hw
    rcases hw with hw | rfl
    · exact h.waiting w hw
    · rfl
  · simp only [Channel.writeFuture, post, record, h.accepting, if_true]
    exact h.queue
  · simp [Channel.writeFuture, post, record, h.accepting, submitted, history, Entry.submission?]

variable [Accounts τ]

theorem Plain.effect {c c' : Channel τ σ α} {actions : List Action} (h : c.Plain)
    (he : Effect c c' actions) (hs : c'.submitted = c.submitted) : c'.Plain := by
  obtain ⟨ws, hsubmitted, hwaiting, -⟩ := he.fifo
  have hnone : ws = [] := by simpa [hs] using hsubmitted
  rw [hnone, List.append_nil] at hwaiting
  exact ⟨he.accepting.trans h.accepting, hwaiting ▸ h.waiting, he.driver ▸ h.queue⟩

theorem Plain.process [CipherSession σ] [Attester α] {c : Channel τ σ α} (h : c.Plain) :
    (c.processNext.getD c).Plain ∧ (c.processNext.getD c).submitted = c.submitted := by
  cases hd : c.driver with
  | none =>
    have hnone : c.processNext = none := by simp [processNext, hd]
    rw [hnone]
    exact ⟨h, rfl⟩
  | some d =>
    cases he : c.events with
    | nil =>
      have hnone : c.processNext = none := by simp [processNext, hd, he]
      rw [hnone]
      exact ⟨h, rfl⟩
    | cons e rest =>
      rw [processNext_eq hd he, Option.getD_some]
      obtain ⟨hqueue, hresolved⟩ := Driver.step_writes (d.handle_step e)
      have hfuture {w} (hw : w ∈ d.queue ∨ e = .write w) : w.completion = .future := by
        rcases hw with hw | rfl
        · exact h.queue d hd w hw
        · exact h.waiting w (by simp [Channel.waiting, he, Event.write?])
      have htaken := c.submitted_take d e rest
      have hplain : (c.take d e rest).Plain := by
        refine ⟨h.accepting, fun w hw => h.waiting w ?_, fun d' hd' w hw => ?_⟩
        · rw [Channel.waiting, he, List.filterMap_cons]
          split
          · exact hw
          · exact List.mem_cons_of_mem _ hw
        · cases hd'
          exact hfuture (hqueue w hw)
      have hs := submitted_performAll (c.take d e rest) fun w outcome ho =>
        hfuture (hresolved w outcome ho)
      exact ⟨hplain.effect (effect_performAll _ _ h.accepting) hs, hs.trans htaken⟩

end Channel

namespace Loopback

variable {S : CipherSuite} {α η : Type} [Attester α] [Application η] {l : Loopback S α η}

def Act.future? : Act → Option Bytes
  | .writeFuture request => some request
  | _ => none

/-- The requests of the writes with futures that a schedule makes up to a moment. -/
def written (schedule : Nat → Act) (n : Nat) : List Bytes :=
  (List.range n).filterMap fun i => (schedule i).future?

theorem written_succ (schedule : Nat → Act) (n : Nat) :
    written schedule (n + 1) = written schedule n ++ (schedule n).future?.toList := by
  rw [written, written, List.range_succ, List.filterMap_append]
  cases h : (schedule n).future? <;> simp [h]

theorem plain_act (h : l.channel.Plain) {a : Act} (ha : ∀ request plan, a ≠ .write request plan) :
    (l.act a).channel.Plain ∧ requestsOf (l.act a).channel.submitted =
      requestsOf l.channel.submitted ++ a.future?.toList := by
  have quiet {c : Channel Link (ClientSession S) α} (he : Channel.Effect l.channel c [])
      (hs : c.submitted = l.channel.submitted) (hnone : a.future? = none) :
      c.Plain ∧ requestsOf c.submitted = requestsOf l.channel.submitted ++ a.future?.toList :=
    ⟨h.effect he hs, by simp [hs, hnone]⟩
  cases a with
  | write request plan => exact absurd rfl (ha request plan)
  | writeFuture request =>
    obtain ⟨hplain, hsubmitted⟩ := h.writeFuture request
    refine ⟨hplain, ?_⟩
    rw [act, hsubmitted]
    simp [Act.future?]
  | process =>
    obtain ⟨hplain, hsubmitted⟩ := h.process
    exact ⟨hplain, by simp [act, hsubmitted, Act.future?]⟩
  | carry allowances =>
    have hchannel : (l.carry allowances).channel = answered l.channel _ _ := rfl
    rw [act, hchannel, answered_eq h.accepting]
    refine ⟨⟨h.accepting, fun w hw => h.waiting w ?_, h.queue⟩, ?_⟩
    · simpa [Channel.waiting, Event.write?] using hw
    · simp [Act.future?, Channel.submitted, Channel.history]
  | poll number =>
    refine quiet (c := (l.channel.poll number).2) (Channel.effect_poll _ number) ?_ rfl
    unfold Channel.poll
    split <;> rfl
  | dropFuture number => exact quiet (Channel.effect_futures _ _) rfl rfl
  | cloneHandle => exact quiet (Channel.effect_handles _ _) rfl rfl
  | dropHandle => exact quiet (Channel.effect_handles _ _) rfl rfl
  | serve allowances => exact quiet .rfl rfl rfl
  | wait duration => exact quiet .rfl rfl rfl

theorem requestsOf_along {schedule : Nat → Act} (h : l.channel.Plain)
    (hs : ∀ n request plan, schedule n ≠ .write request plan) (n : Nat) :
    (l.along schedule n).channel.Plain ∧ requestsOf (l.along schedule n).channel.submitted =
      requestsOf l.channel.submitted ++ written schedule n := by
  induction n with
  | zero => exact ⟨h, (List.append_nil _).symm⟩
  | succ n ih =>
    obtain ⟨hplain, hrequests⟩ := ih
    obtain ⟨hplain', hrequests'⟩ := plain_act hplain (hs n)
    refine ⟨hplain', ?_⟩
    rw [along, hrequests', hrequests, List.append_assoc, written_succ]

end Loopback

namespace Setup

variable {S : CipherSuite} {α η : Type} [Attester α] [Application η] {p : Setup S α η}
  {schedule : Nat → Loopback.Act}

omit [Attester α] in
theorem Takes.of_prefix {requests more : List Bytes} (h : p.Takes more)
    (hfirst : requests <+: more) : p.Takes requests := by
  obtain ⟨rest, rfl⟩ := hfirst
  refine ⟨fun r hr => h.fits r (List.mem_append_left _ hr), fun a ha => h.answers a ?_, ?_⟩
  · rw [Application.answers_append]
    exact List.mem_append_left _ ha
  · have := h.count
    rw [List.length_append] at this
    omega

omit [Attester α] in
theorem plain_start (p : Setup S α η) : p.start.channel.Plain :=
  ⟨rfl, nofun, fun d hd => by cases hd; nofun⟩

/-- **Without a timeout a schedule of writes with futures is smooth** if what it writes fits. -/
theorem smooth_of_written (hconfig : p.config.responseTimeout = none)
    (hs : ∀ n request plan, schedule n ≠ .write request plan) {all : List Bytes}
    (htakes : p.Takes all) (hwritten : ∀ n, Loopback.written schedule n <+: all) :
    p.Smooth schedule where
  takes n := by
    rw [(Loopback.requestsOf_along p.plain_start hs n).2]
    exact htakes.of_prefix (hwritten n)
  timely n := by
    have hstart : p.start.channel.transport.Untimed := ⟨hconfig, fun _ _ _ h => by cases h⟩
    exact Loopback.timely_of_untimed (Loopback.untimed_along hstart schedule n) _

end Setup

end SealedLink
