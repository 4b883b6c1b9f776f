import SealedLink.Loopback
import SealedLink.Proofs.Link.Steps
import SealedLink.Proofs.Stack.Errand

/-!
# The line between a channel and a service

The link of the channel, the pipes and the service carry one errand at a time. Either side goes on
when it is told to and moves as many bytes with each call as it is allowed to.
-/

namespace SealedLink

/-! ## The two sides go on -/

namespace Loopback

variable {S : CipherSuite} {α η : Type}

/-- The link goes on, with an allowance for each call to the stream, and its answers go to the
channel. -/
def carry (l : Loopback S α η) (allowances : List Nat) : Loopback S α η :=
  let (answers, link, m) :=
    l.channel.transport.advance (some l.now) (⟨l.clientEnd, allowances⟩ : Metered)
  let channel := answers.foldl (fun c answer => c.deliver answer.1 answer.2)
    { l.channel with transport := link }
  let e := if clientHoldsEnd channel then m.pipes else m.pipes.close
  { l with channel := channel, toService := e.outbound, toClient := e.inbound }

/-- The service goes on, with an allowance for each call to the stream. -/
def serve [Application η] (l : Loopback S α η) (allowances : List Nat) : Loopback S α η :=
  let (service, m) := Service.advance l.serviceLimit (l.toService.buffer.length + 2) l.service
    (⟨l.serviceEnd, allowances⟩ : Metered)
  let e := match service with
    | .running _ => m.pipes
    | .ended _ => m.pipes.close
  { l with service := service, toService := e.inbound, toClient := e.outbound }

/-- The link does not come to the deadline of an exchange when it goes on. -/
def InTime (l : Loopback S α η) (allowances : List Nat) : Prop :=
  ∀ q deadline d rest m, l.channel.transport.state = .busy q (some deadline) d →
    d.run (Link.earlier (some deadline) (some l.now)) (⟨l.clientEnd, allowances⟩ : Metered) =
      (.blocked rest, m) → l.now < deadline

end Loopback

variable {S : CipherSuite} {α η : Type} [Application η]

/-! ## A service between two turns -/

theorem Service.turn_eq (limit : Nat) (s : ServiceSession S η) :
    ∃ next, Service.turn limit s = .read Field.prefixSize next := by
  unfold Service.turn Frame.read Dialogue.fill
  rw [if_neg (by decide)]
  exact ⟨_, rfl⟩

theorem Service.advance_waiting (limit turns : Nat) (s : ServiceSession S η) {m : Metered}
    (hopen : m.pipes.Open) (hempty : m.pipes.inbound.buffer = []) :
    ∃ m', Service.advance limit turns (.running (Service.turn limit s)) m =
      (.running (Service.turn limit s), m') ∧ m'.pipes = m.pipes := by
  cases turns with
  | zero => exact ⟨m, rfl, rfl⟩
  | succ turns =>
    obtain ⟨next, hturn⟩ := Service.turn_eq limit s
    rw [Service.advance, hturn, Dialogue.run]
    cases ha : m.allowances with
    | nil =>
      have hr : ByteStream.read m Field.prefixSize none = (.pending, m) := by
        simp [ByteStream.read, Metered.read, ha]
      rw [hr]
      exact ⟨m, rfl, rfl⟩
    | cons a rest =>
      have hr : ByteStream.read m Field.prefixSize none = (.pending, ⟨m.pipes, rest⟩) := by
        simp [ByteStream.read, Metered.read, ha, Pipe.read, hempty, hopen.inbound]
      rw [hr]
      exact ⟨_, rfl, rfl⟩

/-! ## Where an errand is -/

/-- Nothing is under way: the service waits in a session. -/
structure Still (config : LinkConfig) (serviceLimit : Nat) (l : Loopback S α η)
    (s : ServiceSession S η) : Prop where
  limit : l.serviceLimit = serviceLimit
  link : l.channel.transport = { config := config }
  service : l.service = .running (Service.turn serviceLimit s)
  joined : Joined l.clientEnd [] []

variable {config : LinkConfig} {serviceLimit : Nat}

/-- The link has an errand to carry, or is carrying it, with a trace left to move. -/
inductive Bearing (e : Errand S η config.maxFrameSize serviceLimit) : Link → List Octet → Prop where
  | queued : Bearing e { config := config, queue := [(e.sequence, e.request)] }
      (outs e.forth ++ inns e.back)
  | busy {deadline d t} (h : d.Follows t (.ok e.response)) :
      Bearing e { config := config, state := .busy e.sequence deadline d } t

/-- The service works at an errand, or has just finished it. -/
inductive Attending (e : Errand S η config.maxFrameSize serviceLimit) :
    Service.Task S η → List Octet → Prop where
  | working {d t} (h : d.Follows t (.next e.after)) (more : t ≠ []) : Attending e (.running d) t
  | finished : Attending e (.running (Service.turn serviceLimit e.after)) []

/-- An errand on the line, with what the client and the service have left to move. -/
structure Underway (e : Errand S η config.maxFrameSize serviceLimit) (l : Loopback S α η)
    (t peer : List Octet) : Prop where
  limit : l.serviceLimit = serviceLimit
  link : Bearing e l.channel.transport t
  more : t ≠ []
  service : Attending e l.service peer
  asks : Asks t
  replies : Replies peer
  joined : Joined l.clientEnd t peer

/-- Nothing that an errand has left to move becomes more: it becomes less, or stays, and then a side
that could go on still can. -/
inductive Onward (l l' : Loopback S α η) (t peer t' peer' : List Octet) : Prop where
  | less (h : t'.length + peer'.length < t.length + peer.length)
  | same (ht : t' = t) (hp : peer' = peer) (client : Able l.clientEnd t → Able l'.clientEnd t)
      (service : Able l.serviceEnd peer → Able l'.serviceEnd peer)

variable {l : Loopback S α η} {e : Errand S η config.maxFrameSize serviceLimit}
  {t peer : List Octet} {s : ServiceSession S η}

theorem underway_of_still {l' : Loopback S α η} (h : Still config serviceLimit l e.before)
    (hlink : l'.channel.transport = { config := config, queue := [(e.sequence, e.request)] })
    (hlimit : l'.serviceLimit = l.serviceLimit) (hservice : l'.service = l.service)
    (htoService : l'.toService = l.toService) (htoClient : l'.toClient = l.toClient) :
    Underway e l' (outs e.forth ++ inns e.back) (inns e.forth ++ outs e.back) where
  limit := hlimit.trans h.limit
  link := hlink ▸ .queued
  more := by simp [e.back_ne]
  service := by
    rw [hservice, h.service]
    exact .working e.answers (by simp [e.back_ne])
  asks := ⟨e.forth, e.back, rfl, fun hnil => absurd hnil e.back_ne⟩
  replies := ⟨e.forth, e.back, rfl, fun hnil => absurd hnil e.back_ne⟩
  joined := by
    have hj := h.joined
    have hforth : l.toService.buffer = [] := by simpa [Loopback.clientEnd] using hj.forth
    have hback : l.toClient.buffer = [] := by simpa [Loopback.clientEnd] using hj.back
    refine ⟨⟨?_, ?_⟩, ?_, ?_, ?_⟩ <;> simp only [Loopback.clientEnd, htoService, htoClient]
    · exact hj.isOpen.inbound
    · exact hj.isOpen.outbound
    · exact hj.room
    · simp [hforth]
    · simp [hback]

/-! ## The service goes on -/

theorem serve_eq {l : Loopback S α η} {allowances : List Nat} {d : Dialogue (Service.Turn S η)}
    {m : Metered} (h : Service.advance l.serviceLimit (l.toService.buffer.length + 2) l.service
      (⟨l.serviceEnd, allowances⟩ : Metered) = (.running d, m)) :
    l.serve allowances = { l with
      service := .running d, toService := m.pipes.inbound, toClient := m.pipes.outbound } := by
  simp only [Loopback.serve, h]

theorem Still.serve (h : Still config serviceLimit l s) (allowances : List Nat) :
    l.serve allowances = l := by
  obtain ⟨rfl, -, hservice, hjoined⟩ := h
  have hempty : l.serviceEnd.inbound.buffer = [] := hjoined.flip.inbound_nil
  obtain ⟨m, hm, hpipes⟩ := Service.advance_waiting l.serviceLimit (l.toService.buffer.length + 2) s
    (m := ⟨l.serviceEnd, allowances⟩) hjoined.isOpen.flip hempty
  rw [serve_eq (by rw [hservice]; exact hm), hpipes, ← hservice]
  rfl

/-- What is left of an errand when the service has gone on. -/
structure Served (e : Errand S η config.maxFrameSize serviceLimit) (l : Loopback S α η)
    (allowances : List Nat) (t peer left : List Octet) (l' : Loopback S α η) : Prop where
  underway : Underway e l' t left
  channel : l'.channel = l.channel
  now : l'.now = l.now
  onward : Onward l l' t peer t left
  able : Able l.serviceEnd peer → allowances ≠ [] → left.length < peer.length

/-- **The service goes on with its errand.** -/
theorem Underway.serve (h : Underway e l t peer) (allowances : List Nat) :
    ∃ left, Served e l allowances t peer left (l.serve allowances) := by
  obtain ⟨rfl, hlink, hmore, hservice, hasks, hreplies, hjoined⟩ := h
  generalize htask : l.service = task at hservice
  cases hservice with
  | finished =>
    have hempty : l.serviceEnd.inbound.buffer = [] := hjoined.flip.inbound_nil
    obtain ⟨m, hm, hpipes⟩ := Service.advance_waiting l.serviceLimit
      (l.toService.buffer.length + 2) e.after (m := ⟨l.serviceEnd, allowances⟩)
      hjoined.isOpen.flip hempty
    rw [serve_eq (by rw [htask]; exact hm), hpipes, ← htask]
    exact ⟨[], ⟨rfl, hlink, hmore, htask ▸ .finished, hasks, hreplies, hjoined⟩, rfl, rfl,
      .same rfl rfl id id, fun hable => absurd hable id⟩
  | @working d _ hd hne =>
    have hwent := hjoined.flip.went (m := ⟨l.serviceEnd, allowances⟩) hd none
    generalize hrun : d.run none (⟨l.serviceEnd, allowances⟩ : Metered) = result at hwent
    cases hwent with
    | @finished m' hj hkept =>
      obtain ⟨m, hm, hpipes⟩ := Service.advance_waiting l.serviceLimit
        (l.toService.buffer.length + 1) e.after hj.isOpen hj.inbound_nil
      have hadvance : Service.advance l.serviceLimit (l.toService.buffer.length + 2) l.service
          (⟨l.serviceEnd, allowances⟩ : Metered) =
            (.running (Service.turn l.serviceLimit e.after), m) := by
        rw [htask, Service.advance, hrun]
        exact hm
      rw [serve_eq hadvance, hpipes]
      have hless : ([] : List Octet).length < peer.length := List.length_pos_iff.mpr hne
      exact ⟨[], ⟨rfl, hlink, hmore, .finished, hasks, ⟨[], [], rfl, id⟩, hj.flip.instant l.now⟩,
        rfl, rfl, .less (by simpa using hless), fun _ _ => hless⟩
    | @blocked rest left m' hsuffix hf hleft hj hkept honward =>
      have hadvance : Service.advance l.serviceLimit (l.toService.buffer.length + 2) l.service
          (⟨l.serviceEnd, allowances⟩ : Metered) = (.running rest, m') := by
        rw [htask, Service.advance, hrun]
      rw [serve_eq hadvance]
      refine ⟨left, ⟨rfl, hlink, hmore, .working hf hleft, hasks, hreplies.suffix hsuffix,
        hj.flip.instant l.now⟩, rfl, rfl, ?_, ?_⟩
      · rcases honward with hless | ⟨rfl, hkeeps⟩
        · exact .less (by omega)
        · exact .same rfl rfl (fun h => Able.instant (hkept h) l.now)
            (fun h => Able.instant (hkeeps h).1 l.now)
      · intro hable hallow
        rcases honward with hless | ⟨rfl, hkeeps⟩
        · exact hless
        · exact absurd (hkeeps hable).2 hallow

/-! ## The link goes on -/

theorem Link.runExchange_blocked {now : Nat} {deadline : Option Nat}
    {d rest : Dialogue TransportResult} {m m' : Metered}
    (hrun : d.run (Link.earlier deadline (some now)) m = (.blocked rest, m'))
    (htime : ∀ instant, deadline = some instant → now < instant) :
    Link.runExchange (some now) deadline d m = (.blocked rest, m') := by
  unfold Link.runExchange
  rw [hrun]
  cases deadline with
  | none => rfl
  | some instant => exact if_neg (Nat.not_le.mpr (htime instant rfl))

theorem Bearing.advance {link : Link} {m : Metered} (h : Bearing e link t)
    (hconfig : config.responseTimeout ≠ some 0)
    (htime : ∀ q deadline d rest m', link.state = .busy q (some deadline) d →
      d.run (Link.earlier (some deadline) (some m.pipes.now)) m = (.blocked rest, m') →
        m.pipes.now < deadline) :
    ∃ (horizon : Option Nat) (d : Dialogue TransportResult), d.Follows t (.ok e.response) ∧
      (∀ m', d.run horizon m = (.finished (.ok e.response), m') →
        link.advance (some m.pipes.now) m =
          ([(e.sequence, .ok e.response)], { config := config }, m')) ∧
      (∀ rest m', d.run horizon m = (.blocked rest, m') → ∃ deadline,
        link.advance (some m.pipes.now) m =
          ([], { config := config, state := .busy e.sequence deadline rest }, m')) := by
  cases h with
  | queued =>
    let deadline := config.responseTimeout.map (m.pipes.now + ·)
    refine ⟨Link.earlier deadline (some m.pipes.now), _, e.asks, fun m' hrun => ?_,
      fun rest m' hrun => ⟨deadline, ?_⟩⟩
    · refine Link.advance_of_pump ?_ rfl
      simp only [Link.pump, Link.runQueue, Link.runExchange, ByteStream.clock]
      rw [hrun]
    · have hblocked := Link.runExchange_blocked hrun fun instant hinstant => by
        obtain ⟨duration, hduration, rfl⟩ := Option.map_eq_some_iff.mp hinstant
        have : duration ≠ 0 := by
          rintro rfl
          exact hconfig hduration
        omega
      refine Link.advance_of_pump ?_ rfl
      simp only [Link.pump, Link.runQueue, ByteStream.clock]
      rw [hblocked]
  | @busy deadline d _ hd =>
    refine ⟨Link.earlier deadline (some m.pipes.now), d, hd, fun m' hrun => ?_,
      fun rest m' hrun => ⟨deadline, ?_⟩⟩
    · refine Link.advance_of_pump ?_ rfl
      simp only [Link.pump, Link.runExchange]
      rw [hrun]
      rfl
    · have hblocked := Link.runExchange_blocked hrun fun instant hinstant => by
        subst hinstant
        exact htime _ _ _ _ _ rfl hrun
      refine Link.advance_of_pump ?_ rfl
      simp only [Link.pump]
      rw [hblocked]

def answered (c : Channel Link (ClientSession S) α) (link : Link)
    (answers : List (UInt64 × TransportResult)) : Channel Link (ClientSession S) α :=
  answers.foldl (fun c answer => c.deliver answer.1 answer.2) { c with transport := link }

omit [Application η] in
theorem carry_eq {allowances : List Nat} {answers : List (UInt64 × TransportResult)} {link : Link}
    {m : Metered}
    (h : l.channel.transport.advance (some l.now) (⟨l.clientEnd, allowances⟩ : Metered) =
      (answers, link, m))
    (hholds : Loopback.clientHoldsEnd (answered l.channel link answers) = true) :
    l.carry allowances = { l with
      channel := answered l.channel link answers
      toService := m.pipes.outbound
      toClient := m.pipes.inbound } := by
  simp only [Loopback.carry, h]
  unfold answered at hholds ⊢
  rw [if_pos hholds]

theorem Still.carry (h : Still config serviceLimit l s) (hdriver : l.channel.driver.isSome)
    (allowances : List Nat) : l.carry allowances = l := by
  have hadvance : l.channel.transport.advance (some l.now) (⟨l.clientEnd, allowances⟩ : Metered) =
      ([], l.channel.transport, ⟨l.clientEnd, allowances⟩) := by
    rw [h.link]
    rfl
  rw [carry_eq hadvance]
  · rfl
  · simp [Loopback.clientHoldsEnd, answered, h.link, Link.isClosed, hdriver]

/-- What is left of an errand when the link has gone on: the answer has come, or there is more to
do. -/
inductive Carried (e : Errand S η config.maxFrameSize serviceLimit) (l : Loopback S α η)
    (allowances : List Nat) (t peer : List Octet) : Loopback S α η → Prop where
  | answers {l'} (still : Still config serviceLimit l' e.after)
      (channel : l'.channel =
        answered l.channel { config := config } [(e.sequence, .ok e.response)])
      (now : l'.now = l.now) : Carried e l allowances t peer l'
  | moves {left link l'} (underway : Underway e l' left peer)
      (channel : l'.channel = answered l.channel link []) (now : l'.now = l.now)
      (onward : Onward l l' t peer left peer)
      (able : Able l.clientEnd t → allowances ≠ [] → left.length < t.length) :
      Carried e l allowances t peer l'

/-- **The link goes on with its errand.** -/
theorem Underway.carry (h : Underway e l t peer) (hconfig : config.responseTimeout ≠ some 0)
    (hdriver : l.channel.driver.isSome) (haccepting : l.channel.accepting = true)
    {allowances : List Nat} (htime : l.InTime allowances) :
    Carried e l allowances t peer (l.carry allowances) := by
  obtain ⟨hlimit, hlink, hmore, hservice, hasks, hreplies, hjoined⟩ := h
  obtain ⟨horizon, d, hd, hanswers, hmoves⟩ :=
    hlink.advance (m := ⟨l.clientEnd, allowances⟩) hconfig htime
  have hwent := hjoined.went (m := ⟨l.clientEnd, allowances⟩) hd horizon
  generalize hrun : d.run horizon (⟨l.clientEnd, allowances⟩ : Metered) = result at hwent
  cases hwent with
  | @finished m' hj hkept =>
    -- The link is done only if the service is, which has been waiting for the next frame since.
    obtain ⟨rfl, -, -⟩ := hj.done hreplies
    have hafter : l.service = .running (Service.turn serviceLimit e.after) := by
      generalize l.service = task at hservice
      cases hservice with
      | working _ hne => exact absurd rfl hne
      | finished => rfl
    rw [carry_eq (hanswers m' hrun)]
    · exact .answers ⟨hlimit, by simp [answered, Channel.deliver, Channel.post, haccepting], hafter,
        hj.instant l.now⟩ rfl rfl
    · simp [Loopback.clientHoldsEnd, answered, Link.isClosed, Channel.deliver, Channel.post,
        haccepting, hdriver]
  | @blocked rest left m' hsuffix hf hleft hj hkept honward =>
    obtain ⟨deadline, hadvance⟩ := hmoves rest m' hrun
    rw [carry_eq hadvance]
    · refine .moves ⟨hlimit, .busy hf, hleft, hservice, hasks.suffix hsuffix, hreplies,
        hj.instant l.now⟩ rfl rfl ?_ ?_
      · rcases honward with hless | ⟨rfl, hkeeps⟩
        · exact .less (by omega)
        · exact .same rfl rfl (fun h => Able.instant (hkeeps h).1 l.now)
            (fun h => Able.instant (hkept h) l.now)
      · intro hable hallow
        rcases honward with hless | ⟨rfl, hkeeps⟩
        · exact hless
        · exact absurd (hkeeps hable).2 hallow
    · simp [Loopback.clientHoldsEnd, answered, Link.isClosed, hdriver]

end SealedLink
