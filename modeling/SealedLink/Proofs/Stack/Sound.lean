import SealedLink.Proofs.Stack.Run

/-!
# What holds all through a run

`Going` ties the driver and its log to the application's answers, and `Place` says where the one
errand is that may be under way. Every act keeps both, and some acts take the errand on.
-/

namespace SealedLink

variable {S : CipherSuite} {α η : Type} [Application η]

/-! ## The line does not depend on the rest of the channel -/

theorem Still.channel {config : LinkConfig} {serviceLimit : Nat} {l : Loopback S α η}
    {s : ServiceSession S η}
    (h : Still config serviceLimit l s) {c : Channel Link (ClientSession S) α}
    (hc : c.transport = l.channel.transport) :
    Still config serviceLimit { l with channel := c } s :=
  ⟨h.limit, hc.trans h.link, h.service, h.joined⟩

theorem Underway.channel {config : LinkConfig} {serviceLimit : Nat} {l : Loopback S α η}
    {e : Errand S η config.maxFrameSize serviceLimit} {t peer : List Octet}
    (h : Underway e l t peer) {c : Channel Link (ClientSession S) α}
    (hc : c.transport = l.channel.transport) : Underway e { l with channel := c } t peer :=
  ⟨h.limit, hc ▸ h.link, h.more, h.service, h.asks, h.replies, h.joined⟩

variable [Attester α]

namespace Setup

structure Going (p : Setup S α η) (l : Loopback S α η) (d : Driver (ClientSession S) α)
    (done : List Pending) : Prop where
  live : Channel.Live { entropy := p.clientEntropy } p.attester l.channel d
  taken : taken l.channel.course = done ++ d.queue
  outcomes : outcomesOf l.channel.course = p.settled done

/-- How far an errand is: no errand, one with a number of octets left to move and a side that can
move, or one whose answer stands behind a number of writes in the event queue. -/
inductive Stage where
  | resting
  | under (work : Nat) (side : Role)
  | answered (position : Nat)

/-- A side of an errand can go on. -/
def CanMove (l : Loopback S α η) (t peer : List Octet) : Role → Prop
  | .initiator => Able l.clientEnd t
  | .responder => Able l.serviceEnd peer

inductive Place (p : Setup S α η) (l : Loopback S α η) (d : Driver (ClientSession S) α)
    (done : List Pending) : Stage → Prop where
  | resting {s} (h : p.Resting d s done) (line : Still p.config p.serviceLimit l s) :
      Place p l d done .resting
  | under {e t peer side} (h : p.Engaged d e done) (line : Underway e l t peer)
      (moves : CanMove l t peer side) : Place p l d done (.under (t.length + peer.length) side)
  | answered {e rest} {ws : List Pending} (h : p.Engaged d e done)
      (line : Still p.config p.serviceLimit l e.after)
      (events : l.channel.events = ws.map .write ++ .reply e.sequence (.ok e.response) :: rest) :
      Place p l d done (.answered ws.length)

variable {p : Setup S α η} {l : Loopback S α η} {d : Driver (ClientSession S) α}
  {done : List Pending} {e : Errand S η p.config.maxFrameSize p.serviceLimit} {t peer : List Octet}

theorem Going.submitted (h : p.Going l d done) :
    l.channel.submitted = done ++ d.queue ++ l.channel.waiting := by
  rw [h.live.fifo, h.taken]

theorem exists_place (h : p.Engaged d e done) (line : Underway e l t peer) :
    ∃ side, p.Place l d done (.under (t.length + peer.length) side) := by
  rcases line.joined.able line.asks line.replies line.more with hable | hable
  · exact ⟨.initiator, .under h line hable⟩
  · exact ⟨.responder, .under h line hable⟩

/-! ## Acts that reach neither the driver nor the line -/

theorem Going.quiet {l' : Loopback S α η} (h : p.Going l d done)
    (he : Channel.Effect l.channel l'.channel []) : p.Going l' d done := by
  have hcourse : l'.channel.course = l.channel.course := by simpa using he.course
  exact ⟨Channel.live_quiet h.live he, hcourse ▸ h.taken, hcourse ▸ h.outcomes⟩

theorem Place.quiet {stage : Stage} {c : Channel Link (ClientSession S) α}
    (h : p.Place l d done stage) (hc : c.transport = l.channel.transport)
    (he : l.channel.events <+: c.events) : p.Place { l with channel := c } d done stage := by
  cases h with
  | resting h line => exact .resting h (line.channel hc)
  | @under e t peer side h line moves =>
    refine .under h (line.channel hc) ?_
    cases side <;> exact moves
  | @answered e rest ws h line events =>
    obtain ⟨more, hmore⟩ := he
    have hevents : c.events = ws.map .write ++ .reply e.sequence (.ok e.response) :: (rest ++ more) := by
      rw [← hmore, events, List.append_assoc]
      rfl
    exact .answered h (line.channel hc) hevents

/-! ## The driver takes an event -/

theorem act_process {ev : Event} {rest : List Event} (h : p.Going l d done)
    (he : l.channel.events = ev :: rest) :
    l.act .process = { l with
      channel := (d.handle ev).2.foldl Channel.perform (l.channel.take d ev rest) } := by
  have hnext := Channel.processNext_eq h.live.driver he
  rw [Loopback.act, hnext]
  rfl

theorem transport_process {ev : Event} {rest : List Event} (h : p.Going l d done)
    (he : l.channel.events = ev :: rest) :
    (l.act .process).channel.transport =
      (sendings (d.handle ev).2).foldl (fun t x => (Transport.send t x.1 x.2).2)
        l.channel.transport := by
  rw [act_process h he]
  exact (Channel.keeps_performAll _ _).1

theorem Going.process {ev : Event} {rest : List Event} {done' : List Pending}
    (h : p.Going l d done) (he : l.channel.events = ev :: rest)
    (hq : done' ++ (d.handle ev).1.queue = done ++ d.queue ++ SealedLink.taken [.handled ev])
    (hs : p.settled done' = p.settled done ++ resolved (d.handle ev).2) :
    p.Going (l.act .process) (d.handle ev).1 done' := by
  have hcourse : ((d.handle ev).2.foldl Channel.perform (l.channel.take d ev rest)).course = _ :=
    Channel.course_process h.live
  rw [act_process h he]
  refine ⟨Channel.live_process h.live he, ?_, ?_⟩
  · rw [hcourse, taken_handled, h.taken, hq]
  · have hevent : outcomesOf [.handled ev] = [] := rfl
    rw [hcourse, List.append_cons, outcomesOf_append, outcomesOf_append, h.outcomes, hevent,
      List.append_nil, hs]
    rfl

theorem place_process {ev : Event} {rest : List Event} {done' : List Pending}
    {s : ServiceSession S η} (h : p.Going l d done) (he : l.channel.events = ev :: rest)
    (line : Still p.config p.serviceLimit l s) (hturn : p.Turned s done' (d.handle ev)) :
    ∃ stage, p.Place (l.act .process) (d.handle ev).1 done' stage := by
  have htransport := transport_process h he
  rw [line.link] at htransport
  have hact := act_process h he
  generalize d.handle ev = step at hturn htransport hact
  cases hturn with
  | rests hrests silent =>
    rw [silent] at htransport
    rw [hact] at htransport ⊢
    exact ⟨_, .resting hrests (line.channel (htransport.trans line.link.symm))⟩
  | @sends d' actions r e hengaged before written sent =>
    subst before
    rw [sent] at htransport
    have hsend : (Transport.send ({ config := p.config } : Link) e.sequence r).2 = _ :=
      congrArg Prod.snd (Errand.send_eq written)
    obtain ⟨side, hplace⟩ := exists_place hengaged
      (underway_of_still line (htransport.trans hsend) (by rw [hact]) (by rw [hact]) (by rw [hact])
        (by rw [hact]))
    exact ⟨_, hplace⟩

/-! ## What an act does to a stage -/

/-- An errand comes nearer to its end. -/
inductive Stage.Less : Stage → Stage → Prop where
  | work {k k' side side'} (h : k' < k) : Less (.under k' side') (.under k side)
  | answer {k side i} : Less (.answered i) (.under k side)
  | nearer {i i'} (h : i' < i) : Less (.answered i') (.answered i)

/-- The acts that a stage waits for. -/
def Helps (l : Loopback S α η) : Stage → Loopback.Act → Prop
  | .resting, .process => l.channel.events ≠ []
  | .under _ .initiator, .carry allowances => allowances ≠ []
  | .under _ .responder, .serve allowances => allowances ≠ []
  | .answered _, .process => True
  | _, _ => False

/-- What comes of an act: a turn of the driver, an errand that is nearer to its end, or the same
stage, unless that has waited for the act. -/
inductive Next (p : Setup S α η) (l : Loopback S α η) (d : Driver (ClientSession S) α)
    (done : List Pending) (stage : Stage) (a : Loopback.Act) (l' : Loopback S α η) : Prop where
  | turned {d' done' stage'} (going : p.Going l' d' done') (place : p.Place l' d' done' stage')
      (rank : rank d done < rank d' done')
  | moved {d' stage'} (going : p.Going l' d' done) (place : p.Place l' d' done stage')
      (rank : Setup.rank d' done = Setup.rank d done) (less : stage'.Less stage)
  | same {d'} (going : p.Going l' d' done) (place : p.Place l' d' done stage)
      (rank : Setup.rank d' done = Setup.rank d done) (idle : ¬ Helps l stage a)
      (events : stage = .resting → l.channel.events <+: l'.channel.events)

theorem next_quiet {stage : Stage} {a : Loopback.Act} {c : Channel Link (ClientSession S) α}
    (h : p.Going l d done) (hplace : p.Place l d done stage) (he : Channel.Effect l.channel c [])
    (hc : c.transport = l.channel.transport) (ha : ¬ Helps l stage a) :
    p.Next l d done stage a { l with channel := c } :=
  .same (h.quiet he) (hplace.quiet hc he.events) rfl ha fun _ => he.events

theorem events_of_held {q : UInt64} (h : p.Going l d done)
    (ho : d.outstanding = some q) (hheld : l.channel.transport.held = [q]) :
    ∃ ws : List Pending, l.channel.events = ws.map .write := by
  have hdue := h.live.due
  rw [ho, Channel.due, show Accounts.held l.channel.transport = [q] from hheld] at hdue
  have hnone : l.channel.events.filterMap Event.reply? = [] := by
    have hle := hdue.length_le
    simp only [List.length_append, List.length_singleton, Option.toList_some] at hle
    exact List.eq_nil_of_length_eq_zero (by omega)
  generalize l.channel.events = events at hnone
  induction events with
  | nil => exact ⟨[], rfl⟩
  | cons ev events ih =>
    cases ev with
    | write w =>
      obtain ⟨ws, rfl⟩ := ih hnone
      exact ⟨w :: ws, rfl⟩
    | reply q r => cases hnone

omit [Attester α] in
theorem held_of_bearing {link : Link} (h : Bearing e link t) : link.held = [e.sequence] := by
  cases h <;> rfl

theorem going_queued {w : Pending} {rest : List Event} (h : p.Going l d done)
    (hengaged : p.Engaged d e done) (he : l.channel.events = .write w :: rest) :
    p.Going (l.act .process) { d with queue := d.queue ++ [w] } done ∧
      (l.act .process).channel.transport = l.channel.transport ∧
      rest <+: (l.act .process).channel.events := by
  obtain ⟨hhandle, -⟩ := hengaged.write w
  have hgoing : p.Going (l.act .process) (d.handle (.write w)).1 done :=
    h.process he (by rw [hhandle, List.append_assoc]; rfl)
      (by rw [hhandle]; exact (List.append_nil _).symm)
  have htransport := transport_process h he
  have hact := act_process h he
  rw [hhandle] at hgoing htransport hact
  refine ⟨hgoing, htransport, ?_⟩
  rw [hact]
  exact List.prefix_refl _

theorem process_resting {s : ServiceSession S η} {ev : Event} {rest : List Event} (hp : p.Works)
    (h : p.Going l d done) (hrests : p.Resting d s done)
    (line : Still p.config p.serviceLimit l s)
    (htakes : p.Takes (requestsOf done ++ requestsOf d.queue ++ requestsOf l.channel.waiting))
    (he : l.channel.events = ev :: rest) :
    p.Next l d done .resting .process (l.act .process) := by
  cases ev with
  | reply q r =>
    have hdue := (Channel.due_of_reply h.live he).1
    cases hrests with
    | fresh _ ho => rw [ho] at hdue; cases hdue
    | idle _ ho => rw [ho] at hdue; cases hdue
  | write w =>
    have hwaiting : l.channel.waiting = w :: rest.filterMap Event.write? := by
      rw [Channel.waiting, he]
      rfl
    rw [hwaiting] at htakes
    have hnext : p.Takes (requestsOf done ++ requestsOf (d.queue ++ [w]) ++
        requestsOf (rest.filterMap Event.write?)) := by
      simpa using htakes
    obtain ⟨hturned, hresolved, hqueue, hrank⟩ := hrests.write hp w hnext
    have hgoing : p.Going (l.act .process) (d.handle (.write w)).1 done :=
      h.process he (by rw [hqueue, List.append_assoc]; rfl) (by rw [hresolved, List.append_nil])
    obtain ⟨stage, hplace⟩ := place_process h he line hturned
    exact .turned hgoing hplace hrank

theorem process_under {side : Role} {ev : Event} {rest : List Event} (h : p.Going l d done)
    (hengaged : p.Engaged d e done) (line : Underway e l t peer) (moves : CanMove l t peer side)
    (he : l.channel.events = ev :: rest) :
    p.Next l d done (.under (t.length + peer.length) side) .process (l.act .process) := by
  cases ev with
  | reply q r =>
    have hheld := (Channel.due_of_reply h.live he).2
    rw [show Accounts.held l.channel.transport = [e.sequence] from held_of_bearing line.link] at hheld
    cases hheld
  | write w =>
    obtain ⟨hgoing, htransport, -⟩ := going_queued h hengaged he
    have hline : Underway e (l.act .process) t peer := by
      rw [act_process h he] at htransport ⊢
      exact line.channel htransport
    have hmoves : CanMove (l.act .process) t peer side := by
      rw [act_process h he]
      cases side <;> exact moves
    refine .same hgoing (.under (hengaged.write w).2 hline hmoves) rfl ?_ nofun
    cases side <;> simp [Helps]

theorem process_answered {ws : List Pending} {rest : List Event} (hp : p.Works)
    (h : p.Going l d done) (hengaged : p.Engaged d e done)
    (line : Still p.config p.serviceLimit l e.after)
    (htakes : p.Takes (requestsOf done ++ requestsOf d.queue ++ requestsOf l.channel.waiting))
    (he : l.channel.events = ws.map .write ++ .reply e.sequence (.ok e.response) :: rest) :
    p.Next l d done (.answered ws.length) .process (l.act .process) := by
  cases ws with
  | nil =>
    obtain ⟨done', hturned, hqueue, hsettled, hrank⟩ := hengaged.reply hp htakes
    have hgoing := h.process he (by rw [hqueue]; exact (List.append_nil _).symm) hsettled
    obtain ⟨stage, hplace⟩ := place_process h he line hturned
    exact .turned hgoing hplace hrank
  | cons w ws =>
    obtain ⟨hgoing, htransport, more, hmore⟩ := going_queued h hengaged he
    have hline : Still p.config p.serviceLimit (l.act .process) e.after := by
      rw [act_process h he] at htransport ⊢
      exact line.channel htransport
    have hevents : (l.act .process).channel.events =
        ws.map .write ++ .reply e.sequence (.ok e.response) :: (rest ++ more) := by
      rw [← hmore]
      exact List.append_assoc ..
    exact .moved hgoing (.answered (hengaged.write w).2 hline hevents) rfl
      (.nearer (Nat.lt_succ_self _))

theorem next_process {stage : Stage} (hp : p.Works) (h : p.Going l d done)
    (hplace : p.Place l d done stage) (htakes : p.Takes (requestsOf l.channel.submitted)) :
    p.Next l d done stage .process (l.act .process) := by
  rw [h.submitted, requestsOf_append, requestsOf_append] at htakes
  cases he : l.channel.events with
  | nil =>
    have hnone : l.channel.processNext = none := by simp [Channel.processNext, h.live.driver, he]
    have hact : l.act .process = l := by rw [Loopback.act, hnone]; rfl
    rw [hact]
    refine .same h hplace rfl ?_ fun _ => List.prefix_refl _
    cases hplace with
    | resting => simp [Helps, he]
    | @under _ _ _ side => cases side <;> simp [Helps]
    | answered _ _ events => simp [he] at events
  | cons ev rest =>
    cases hplace with
    | resting hrests line => exact process_resting hp h hrests line htakes he
    | under hengaged line moves => exact process_under h hengaged line moves he
    | answered hengaged line events => exact process_answered hp h hengaged line htakes events

/-! ## Either side of the line goes on -/

theorem next_onward {l' : Loopback S α η} {a : Loopback.Act} {t' peer' : List Octet} {side : Role}
    (hgoing : p.Going l' d done) (hengaged : p.Engaged d e done) (line : Underway e l' t' peer')
    (moves : CanMove l t peer side) (honward : Onward l l' t peer t' peer')
    (ha : Helps l (.under (t.length + peer.length) side) a →
      t'.length + peer'.length < t.length + peer.length) :
    p.Next l d done (.under (t.length + peer.length) side) a l' := by
  rcases honward with hless | ⟨rfl, rfl, hclient, hservice⟩
  · obtain ⟨side', hplace⟩ := exists_place hengaged line
    exact .moved hgoing hplace rfl (.work hless)
  · refine .same hgoing (.under hengaged line ?_) rfl (fun hhelps => ?_) nofun
    · cases side with
      | initiator => exact hclient moves
      | responder => exact hservice moves
    · exact absurd (ha hhelps) (Nat.lt_irrefl _)

theorem next_carry {stage : Stage} {allowances : List Nat} (hp : p.Works) (h : p.Going l d done)
    (hplace : p.Place l d done stage) (htime : l.InTime allowances) :
    p.Next l d done stage (.carry allowances) (l.carry allowances) := by
  have hdriver : l.channel.driver.isSome := by rw [h.live.driver]; rfl
  cases hplace with
  | resting hrests line =>
    rw [line.carry hdriver]
    exact .same h (.resting hrests line) rfl id fun _ => List.prefix_refl _
  | answered hengaged line events =>
    rw [line.carry hdriver]
    exact .same h (.answered hengaged line events) rfl id nofun
  | @under e t peer side hengaged line moves =>
    have hheld := held_of_bearing line.link
    have hcarried := line.carry hp.timeout hdriver h.live.accepting htime
    generalize l.carry allowances = l' at hcarried
    cases hcarried with
    | answers still channel now =>
      have heffect : Channel.Effect l.channel
          (answered l.channel { config := p.config } [(e.sequence, .ok e.response)]) [] :=
        effect_answered h.live.accepting hheld.symm
      rw [← channel] at heffect
      obtain ⟨ws, hws⟩ := events_of_held h hengaged.outstanding hheld
      have hevents : l'.channel.events =
          ws.map .write ++ .reply e.sequence (.ok e.response) :: [] := by
        rw [channel, answered_eq h.live.accepting, ← hws]
        rfl
      exact .moved (h.quiet heffect) (.answered hengaged still hevents) rfl .answer
    | @moves left link _ underway channel now onward able =>
      have hlink : link.held = l.channel.transport.held := by
        have := held_of_bearing underway.link
        rw [channel] at this
        exact this.trans hheld.symm
      have heffect : Channel.Effect l.channel (answered l.channel link []) [] :=
        effect_answered h.live.accepting ((List.append_nil _).trans hlink)
      rw [← channel] at heffect
      refine next_onward (h.quiet heffect) hengaged underway moves onward fun hhelps => ?_
      cases side with
      | initiator => exact Nat.add_lt_add_right (able moves hhelps) _
      | responder => exact absurd hhelps id

theorem next_serve {stage : Stage} {allowances : List Nat} (h : p.Going l d done)
    (hplace : p.Place l d done stage) :
    p.Next l d done stage (.serve allowances) (l.serve allowances) := by
  cases hplace with
  | resting hrests line =>
    rw [line.serve]
    exact .same h (.resting hrests line) rfl id fun _ => List.prefix_refl _
  | answered hengaged line events =>
    rw [line.serve]
    exact .same h (.answered hengaged line events) rfl id nofun
  | @under e t peer side hengaged line moves =>
    obtain ⟨left, underway, channel, now, onward, able⟩ := line.serve allowances
    have hgoing : p.Going (l.serve allowances) d done := by
      refine h.quiet ?_
      rw [channel]
      exact .rfl
    refine next_onward hgoing hengaged underway moves onward fun hhelps => ?_
    cases side with
    | initiator => exact absurd hhelps id
    | responder => exact Nat.add_lt_add_left (able moves hhelps) _

theorem next_wait {stage : Stage} (h : p.Going l d done) (hplace : p.Place l d done stage)
    (duration : Nat) :
    p.Next l d done stage (.wait duration) (l.act (.wait duration)) := by
  have hgoing : p.Going (l.act (.wait duration)) d done := h.quiet .rfl
  have hhelps : ¬ Helps l stage (.wait duration) := by
    cases stage with
    | under _ side => cases side <;> exact id
    | _ => exact id
  refine .same hgoing ?_ rfl hhelps fun _ => List.prefix_refl _
  cases hplace with
  | resting hrests line =>
    exact .resting hrests ⟨line.limit, line.link, line.service, line.joined.instant _⟩
  | answered hengaged line events =>
    exact .answered hengaged ⟨line.limit, line.link, line.service, line.joined.instant _⟩ events
  | @under e t peer side hengaged line moves =>
    refine .under hengaged ⟨line.limit, line.link, line.more, line.service, line.asks, line.replies,
      line.joined.instant _⟩ ?_
    cases side with
    | initiator => exact Able.instant moves _
    | responder => exact Able.instant moves _

omit [Attester α] [Application η] in
theorem helps_cases {stage : Stage} {a : Loopback.Act} (h : Helps l stage a) :
    a = .process ∨ (∃ allowances, a = .carry allowances) ∨ ∃ allowances, a = .serve allowances := by
  cases a <;> cases stage <;> simp [Helps] at h ⊢

/-- **Every act goes on with the run**, and one that a stage waits for takes it on. -/
theorem next_act {stage : Stage} (hp : p.Works) (h : p.Going l d done)
    (hplace : p.Place l d done stage) (htakes : p.Takes (requestsOf l.channel.submitted))
    (a : Loopback.Act) (htime : l.Timely a) : p.Next l d done stage a (l.act a) := by
  have hlive := h.live.accepting
  cases a with
  | process => exact next_process hp h hplace htakes
  | carry allowances => exact next_carry hp h hplace htime
  | serve allowances => exact next_serve h hplace
  | wait duration => exact next_wait h hplace duration
  | write request plan =>
    exact next_quiet h hplace (Channel.effect_submitPlan _ _ hlive)
      (Channel.keeps_submitPlan ..).transport
      fun hb => by simpa using helps_cases hb
  | writeFuture request =>
    exact next_quiet h hplace (Channel.effect_writeFuture _ request hlive)
      (Channel.keeps_writeFuture _ request).transport fun hb => by simpa using helps_cases hb
  | poll number =>
    exact next_quiet h hplace (Channel.effect_poll _ number) (Channel.keeps_poll _ number).transport
      fun hb => by simpa using helps_cases hb
  | dropFuture number =>
    exact next_quiet h hplace (Channel.effect_futures _ _) rfl fun hb => by simpa using helps_cases hb
  | cloneHandle =>
    exact next_quiet h hplace (Channel.effect_handles _ _) rfl fun hb => by simpa using helps_cases hb
  | dropHandle =>
    exact next_quiet h hplace (Channel.effect_handles _ _) rfl fun hb => by simpa using helps_cases hb

end Setup

end SealedLink
