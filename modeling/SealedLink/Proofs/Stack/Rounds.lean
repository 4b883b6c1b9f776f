import SealedLink.Proofs.Stack.Delivery

/-!
# Rounds are acts

What a loopback does in its rounds it could be told to do act by act, with allowances that hold
nothing back. So what holds along every schedule holds of a loopback that runs by itself.
-/

namespace SealedLink

variable {S : CipherSuite} {α η : Type}

/-! ## Allowances that hold nothing back -/

theorem Dialogue.run_metered {β : Type} (d : Dialogue β) (horizon : Option Nat) (e : PipeEnd) :
    ∃ used, ∀ rest, d.run horizon (⟨e, used ++ rest⟩ : Metered) =
      ((d.run horizon e).1, ⟨(d.run horizon e).2, rest⟩) := by
  induction d generalizing e with
  | done a => exact ⟨[], fun rest => rfl⟩
  | flush next ih =>
    obtain ⟨used, hused⟩ := ih (.ok ()) e
    exact ⟨used, hused⟩
  | read limit next ih =>
    have hread (rest : List Nat) : ByteStream.read (⟨e, limit :: rest⟩ : Metered) limit horizon =
        ((ByteStream.read e limit horizon).1, ⟨(ByteStream.read e limit horizon).2, rest⟩) := by
      simp [ByteStream.read, Metered.read]
    rcases hanswer : ByteStream.read e limit horizon with ⟨answer | -, e'⟩
    · obtain ⟨used, hused⟩ := ih answer e'
      refine ⟨limit :: used, fun rest => ?_⟩
      rw [List.cons_append, Dialogue.run, hread, hanswer]
      simp only [Dialogue.run, hanswer]
      exact hused rest
    · refine ⟨[limit], fun rest => ?_⟩
      rw [List.singleton_append, Dialogue.run, hread, hanswer]
      simp only [Dialogue.run, hanswer]
  | write bytes next ih =>
    have hwrite (rest : List Nat) : ByteStream.write (⟨e, bytes.length :: rest⟩ : Metered) bytes =
        ((ByteStream.write e bytes).1, ⟨(ByteStream.write e bytes).2, rest⟩) := by
      simp [ByteStream.write, Metered.write, List.take_of_length_le]
    rcases hanswer : ByteStream.write e bytes with ⟨answer | -, e'⟩
    · obtain ⟨used, hused⟩ := ih answer e'
      refine ⟨bytes.length :: used, fun rest => ?_⟩
      rw [List.cons_append, Dialogue.run, hwrite, hanswer]
      simp only [Dialogue.run, hanswer]
      exact hused rest
    · refine ⟨[bytes.length], fun rest => ?_⟩
      rw [List.singleton_append, Dialogue.run, hwrite, hanswer]
      simp only [Dialogue.run, hanswer]

theorem Link.runExchange_metered (horizon deadline : Option Nat) (d : Dialogue TransportResult)
    (e : PipeEnd) : ∃ used, ∀ rest,
      runExchange horizon deadline d (⟨e, used ++ rest⟩ : Metered) =
        ((runExchange horizon deadline d e).1, ⟨(runExchange horizon deadline d e).2, rest⟩) := by
  obtain ⟨used, hused⟩ := d.run_metered (earlier deadline horizon) e
  refine ⟨used, fun rest => ?_⟩
  unfold runExchange
  rw [hused]
  generalize d.run (earlier deadline horizon) e = step
  obtain ⟨progress | progress, e'⟩ := step
  · rfl
  · cases deadline with
    | none => rfl
    | some deadline =>
      cases horizon with
      | none => rfl
      | some horizon =>
        dsimp only
        split <;> rfl

theorem Link.runQueue_metered (horizon : Option Nat) (config : LinkConfig)
    (queue : List (UInt64 × Bytes)) (e : PipeEnd) : ∃ used, ∀ rest,
      runQueue horizon config queue (⟨e, used ++ rest⟩ : Metered) =
        ((runQueue horizon config queue e).1, (runQueue horizon config queue e).2.1,
          ⟨(runQueue horizon config queue e).2.2, rest⟩) := by
  induction queue generalizing e with
  | nil => exact ⟨[], fun rest => rfl⟩
  | cons x queue ih =>
    obtain ⟨q, request⟩ := x
    obtain ⟨used, hused⟩ := runExchange_metered horizon
      (config.responseTimeout.map (ByteStream.clock e + ·)) (exchange config.maxFrameSize request) e
    have hclock (allowances : List Nat) :
        ByteStream.clock (⟨e, allowances⟩ : Metered) = ByteStream.clock e := rfl
    rcases hrun : runExchange horizon (config.responseTimeout.map (ByteStream.clock e + ·))
      (exchange config.maxFrameSize request) e with ⟨⟨error | response⟩ | blocked, e'⟩
    · refine ⟨used, fun rest => ?_⟩
      simp only [runQueue, hclock, hused, hrun]
    · obtain ⟨used', hused'⟩ := ih e'
      refine ⟨used ++ used', fun rest => ?_⟩
      simp only [runQueue, hclock, List.append_assoc, hused, hrun, hused']
    · refine ⟨used, fun rest => ?_⟩
      simp only [runQueue, hclock, hused, hrun]

theorem Link.pump_metered (horizon : Option Nat) (l : Link) (e : PipeEnd) : ∃ used, ∀ rest,
    l.pump horizon (⟨e, used ++ rest⟩ : Metered) =
      ((l.pump horizon e).1, (l.pump horizon e).2.1, ⟨(l.pump horizon e).2.2, rest⟩) := by
  unfold pump
  split
  · exact ⟨[], fun rest => rfl⟩
  · exact ⟨[], fun rest => rfl⟩
  · exact ⟨[], fun rest => rfl⟩
  · exact runQueue_metered horizon l.config l.queue e
  · case _ q deadline d _ =>
    obtain ⟨used, hused⟩ := runExchange_metered horizon deadline d e
    rcases hrun : runExchange horizon deadline d e with ⟨⟨error | response⟩ | blocked, e'⟩
    · refine ⟨used, fun rest => ?_⟩
      simp only [hused, hrun]
    · obtain ⟨used', hused'⟩ := runQueue_metered horizon l.config l.queue e'
      refine ⟨used ++ used', fun rest => ?_⟩
      simp only [List.append_assoc, hused, hrun, hused']
    · refine ⟨used, fun rest => ?_⟩
      simp only [hused, hrun]

theorem Link.advance_metered (horizon : Option Nat) (l : Link) (e : PipeEnd) : ∃ used, ∀ rest,
    l.advance horizon (⟨e, used ++ rest⟩ : Metered) =
      ((l.advance horizon e).1, (l.advance horizon e).2.1, ⟨(l.advance horizon e).2.2, rest⟩) := by
  obtain ⟨used, hused⟩ := pump_metered horizon l e
  refine ⟨used, fun rest => ?_⟩
  simp only [advance, hused]

variable [Application η]

theorem Service.advance_metered (limit turns : Nat) (task : Service.Task S η) (e : PipeEnd) :
    ∃ used, ∀ rest, Service.advance limit turns task (⟨e, used ++ rest⟩ : Metered) =
      ((Service.advance limit turns task e).1, ⟨(Service.advance limit turns task e).2, rest⟩) := by
  induction turns generalizing task e with
  | zero => exact ⟨[], fun rest => by simp [Service.advance]⟩
  | succ turns ih =>
    cases task with
    | ended result => exact ⟨[], fun rest => by simp [Service.advance]⟩
    | running d =>
      obtain ⟨used, hused⟩ := d.run_metered none e
      rcases hrun : d.run none e with ⟨⟨session | result⟩ | blocked, e'⟩
      · obtain ⟨used', hused'⟩ := ih (.running (Service.turn limit session)) e'
        refine ⟨used ++ used', fun rest => ?_⟩
        simp only [Service.advance, List.append_assoc, hused, hrun, hused']
      · refine ⟨used, fun rest => ?_⟩
        simp only [Service.advance, hused, hrun]
      · refine ⟨used, fun rest => ?_⟩
        simp only [Service.advance, hused, hrun]

/-! ## Turns are acts -/

namespace Loopback

theorem exists_serve (l : Loopback S α η) : ∃ allowances, l.serviceTurn = l.serve allowances := by
  obtain ⟨used, hused⟩ := Service.advance_metered l.serviceLimit (l.toService.buffer.length + 2)
    l.service l.serviceEnd
  have hserve := hused []
  rw [List.append_nil] at hserve
  rcases hrun : Service.advance l.serviceLimit (l.toService.buffer.length + 2) l.service
    l.serviceEnd with ⟨service, e⟩
  rw [hrun] at hserve
  refine ⟨used, ?_⟩
  cases service <;> simp only [serviceTurn, serve, hserve, hrun]

variable [Attester α]

omit [Application η] in
theorem exists_carry (l : Loopback S α η) : ∃ allowances,
    l.clientTurn = { l with channel := l.channel.runTask }.carry allowances := by
  obtain ⟨used, hused⟩ := l.channel.runTask.transport.advance_metered (some l.now) l.clientEnd
  have hcarry := hused []
  rw [List.append_nil] at hcarry
  refine ⟨used, ?_⟩
  have hclient : ({ l with channel := l.channel.runTask } : Loopback S α η).clientEnd = l.clientEnd :=
    rfl
  simp only [clientTurn, carry, hclient, hcarry]

/-- An act that leaves the handles alone and makes no write with a callback. -/
def Act.IsTame : Act → Prop
  | .write .. | .cloneHandle | .dropHandle => False
  | _ => True

/-- Tame acts lead from one loopback to the other, and make writes with futures on the way. -/
inductive Leads : Loopback S α η → List Bytes → Loopback S α η → Prop where
  | refl {l} : Leads l [] l
  | step {l requests l'} (a : Act) (ha : a.IsTame) (h : Leads (l.act a) requests l') :
      Leads l (a.future?.toList ++ requests) l'

variable {l l' l'' : Loopback S α η}

theorem Leads.trans {requests more : List Bytes} (h : Leads l requests l')
    (h' : Leads l' more l'') : Leads l (requests ++ more) l'' := by
  induction h with
  | refl => exact h'
  | step a ha _ ih =>
    rw [List.append_assoc]
    exact .step a ha (ih h')

theorem Leads.act (l : Loopback S α η) (a : Act) (ha : a.IsTame) (hnone : a.future? = none) :
    Leads l [] (l.act a) := by
  simpa [hnone] using Leads.step a ha .refl

theorem handles_act (l : Loopback S α η) {a : Act} (ha : a.IsTame) :
    (l.act a).channel.handles = l.channel.handles := by
  cases a with
  | write | cloneHandle | dropHandle => exact ha.elim
  | writeFuture request => exact (Channel.keeps_writeFuture ..).handles
  | poll number => exact (Channel.keeps_poll ..).handles
  | dropFuture | serve | wait => rfl
  | carry allowances =>
    have hchannel : (l.carry allowances).channel = answered l.channel _ _ := rfl
    rw [Loopback.act, hchannel, (keeps_answered ..).handles]
  | process =>
    rw [Loopback.act, Channel.processNext]
    split
    · exact (Channel.keeps_performAll ..).2
    · rfl

theorem Leads.handles {requests : List Bytes} (h : Leads l requests l') :
    l'.channel.handles = l.channel.handles := by
  induction h with
  | refl => rfl
  | step a ha _ ih => rw [ih, handles_act _ ha]

theorem leads_task (l : Loopback S α η) (limit : Nat) (h : 0 < l.channel.handles) :
    Leads l [] { l with channel := l.channel.runTaskFor limit } := by
  induction limit generalizing l with
  | zero => exact .refl
  | succ limit ih =>
    cases hnext : l.channel.processNext with
    | none =>
      -- Only a driver that nobody can write to any more is dropped.
      have hstep : l.channel.taskStep = none := by
        have hhandle : l.channel.hasHandle = true := by simp [Channel.hasHandle, h]
        have hkept : l.channel.isAbandoned = false := by
          unfold Channel.isAbandoned
          split <;> simp [hhandle]
        simp [Channel.taskStep, hnext, hkept]
      simp only [Channel.runTaskFor, hstep]
      exact .refl
    | some next =>
      have hact : l.act .process = { l with channel := next } := by
        rw [Loopback.act, hnext]
        rfl
      have hhandles : 0 < (l.act .process).channel.handles := by
        rwa [handles_act l (a := .process) trivial]
      have hrest := ih (l.act .process) hhandles
      rw [hact] at hrest
      simp only [Channel.runTaskFor, Channel.taskStep, hnext]
      exact .step .process trivial (hact ▸ hrest)

theorem leads_round (l : Loopback S α η) (h : 0 < l.channel.handles) : Leads l [] l.round := by
  obtain ⟨allowances, hcarry⟩ := l.exists_carry
  obtain ⟨allowances', hserve⟩ := l.clientTurn.exists_serve
  rw [round, hserve, hcarry]
  exact (leads_task l _ h).trans ((Leads.act _ (.carry allowances) trivial rfl).trans
    (.act _ (.serve allowances') trivial rfl))

theorem leads_run (rounds : Nat) (l : Loopback S α η) (h : 0 < l.channel.handles) :
    Leads l [] (l.run rounds) := by
  induction rounds generalizing l with
  | zero => exact .refl
  | succ rounds ih =>
    have hround := leads_round l h
    have hhandles : 0 < l.round.channel.handles := by rwa [hround.handles]
    simp only [run]
    split
    · split
      · exact hround
      · rename_i instant _
        have hjump : { l.round with now := max l.round.now instant } =
            l.round.act (.wait (instant - l.round.now)) := by
          simp only [Loopback.act]
          congr 1
          omega
        rw [hjump]
        exact hround.trans ((Leads.act _ (.wait _) trivial rfl).trans (ih _ hhandles))
    · exact hround.trans (ih _ hhandles)

theorem leads_writes (l : Loopback S α η) (requests : List Bytes) :
    Leads l requests { l with channel := requests.foldl Channel.writeFuture l.channel } := by
  induction requests generalizing l with
  | nil => exact .refl
  | cons request requests ih => exact .step (.writeFuture request) trivial (ih _)

theorem leads_polls (l : Loopback S α η) (numbers : List Nat) (polled : List Polled) :
    Leads l [] { l with channel := (numbers.foldl
      (fun (polled, c) number => let (p, c) := c.poll number; (p :: polled, c))
        (polled, l.channel)).2 } := by
  induction numbers generalizing l polled with
  | nil => exact .refl
  | cons number numbers ih => exact .step (.poll number) trivial (ih _ _)

/-- **An exchange is a run of acts** that makes the writes of its requests. -/
theorem leads_exchange (l : Loopback S α η) (requests : List Bytes) (h : 0 < l.channel.handles) :
    Leads l requests (l.exchange requests).2 := by
  have hwrites := leads_writes l requests
  have hrun := hwrites.trans (leads_run patience _ (by rwa [hwrites.handles]))
  have hpolls := hrun.trans (leads_polls _ (List.range' l.channel.submissions requests.length) [])
  rw [List.append_nil, List.append_nil] at hpolls
  exact hpolls

/-! ## Schedules of exchanges -/

def starting (a : Act) (schedule : Nat → Act) : Nat → Act
  | 0 => a
  | n + 1 => schedule n

theorem along_starting (l : Loopback S α η) (a : Act) (schedule : Nat → Act) (n : Nat) :
    l.along (starting a schedule) (n + 1) = (l.act a).along schedule n := by
  induction n with
  | zero => rfl
  | succ n ih =>
    rw [along, ih]
    rfl

theorem written_starting (a : Act) (schedule : Nat → Act) (n : Nat) :
    written (starting a schedule) (n + 1) = a.future?.toList ++ written schedule n := by
  induction n with
  | zero =>
    rw [written_succ]
    exact (List.append_nil _).symm
  | succ n ih =>
    rw [written_succ, ih, List.append_assoc, written_succ]
    rfl

theorem Leads.exists_schedule {requests : List Bytes} (h : Leads l requests l') :
    ∃ schedule n, l.along schedule n = l' ∧ (∀ m, (schedule m).IsTame) ∧
      ∀ m, written schedule m <+: requests := by
  induction h with
  | refl =>
    refine ⟨fun _ => .wait 0, 0, rfl, fun m => trivial, fun m => ?_⟩
    have hnone : written (fun _ => .wait 0) m = [] := by simp [written, Act.future?]
    exact hnone ▸ List.prefix_refl _
  | step a ha _ ih =>
    obtain ⟨schedule, n, halong, htame, hwritten⟩ := ih
    refine ⟨starting a schedule, n + 1, (along_starting ..).trans halong, fun m => ?_, fun m => ?_⟩
    · cases m with
      | zero => exact ha
      | succ m => exact htame m
    · cases m with
      | zero => exact List.nil_prefix
      | succ m =>
        rw [written_starting]
        exact (List.prefix_append_right_inj _).mpr (hwritten m)

end Loopback

namespace Setup

variable [Attester α] {p : Setup S α η}

/-- **A loopback that runs by itself is faithful**, one batch of writes after another. -/
theorem faithful_exchanges (hp : p.Works) (hconfig : p.config.responseTimeout = none)
    (batches : List (List Bytes)) (h : p.Takes batches.flatten) :
    p.Faithful (batches.foldl (fun l requests => (l.exchange requests).2) p.start) := by
  have hleads (batches : List (List Bytes)) (l : Loopback S α η) (hl : 0 < l.channel.handles) :
      Loopback.Leads l batches.flatten
        (batches.foldl (fun l requests => (l.exchange requests).2) l) := by
    induction batches generalizing l with
    | nil => exact .refl
    | cons requests batches ih =>
      have hfirst := Loopback.leads_exchange l requests hl
      exact hfirst.trans (ih _ (by rwa [hfirst.handles]))
  obtain ⟨schedule, n, halong, htame, hwritten⟩ := (hleads batches p.start Nat.one_pos).exists_schedule
  have hsmooth : p.Smooth schedule := by
    refine smooth_of_written hconfig (fun m request plan hm => ?_) h hwritten
    have := htame m
    rw [hm] at this
    exact this
  rw [← halong]
  exact faithful_along hp hsmooth n

end Setup

end SealedLink
