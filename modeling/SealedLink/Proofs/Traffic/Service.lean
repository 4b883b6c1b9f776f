import SealedLink.Proofs.Noise.Payload
import SealedLink.Proofs.Service.SessionStep

/-!
# What a service opens and seals

A service that is given one message after another, with the keys and counters that its session used
and what its application was asked and answered.
-/

namespace SealedLink

/-- An application with its requests and answers so far, the oldest first. -/
structure Witnessed (η : Type) where
  application : η
  seen : List (Bytes × Bytes) := []

instance {η : Type} [Application η] : Application (Witnessed η) where
  answer w request :=
    let (answer, application) := Application.answer w.application request
    (answer, ⟨application, w.seen ++ [(request, answer)]⟩)

theorem Witnessed.seen_answer {η : Type} [Application η] {w w' : Witnessed η}
    {request answer : Bytes} (h : Application.answer w request = (answer, w')) :
    w'.seen = w.seen ++ [(request, answer)] := by
  cases h
  rfl

variable {S : CipherSuite} {η : Type}

/-- A session with the keys that it agreed on, and its uses of them. -/
structure Visit (S : CipherSuite) (η : Type) where
  session : ServiceSession S (Witnessed η)
  keys : Option TrafficKeys := none
  opened : List Use := []
  sealed : List Use := []

namespace Visit

def seen (v : Visit S η) : List (Bytes × Bytes) := v.session.application.seen

def agreed (s : ServiceSession S (Witnessed η)) : Option TrafficKeys :=
  s.cipher.map fun c => ⟨c.receiveKey, c.sendKey⟩

/-- The use of a key when a message is opened. -/
def opening (s : ServiceSession S (Witnessed η)) : Request → List Use
  | .encrypted sealed =>
    match s.phase, s.cipher with
    | .established, some c =>
      match c.decrypt sealed with
      | (.ok _, _) => [⟨c.receiveKey, c.received, sealed⟩]
      | (.error _, _) => []
    | _, _ => []
  | _ => []

/-- The use of a key when an answer is sealed. -/
def sealing (s : ServiceSession S (Witnessed η)) : Except Error Response → List Use
  | .ok (.message (.encrypted sealed)) => s.cipher.toList.map fun c => ⟨c.sendKey, c.sent, sealed⟩
  | _ => []

theorem opening_unexpected {s : ServiceSession S (Witnessed η)} {r : Request}
    (h : ¬ ServiceSession.Expected s.phase r) : opening s r = [] := by
  unfold opening
  split
  · split
    · rename_i hs _
      rw [hs] at h
      exact absurd trivial h
    · rfl
  · rfl

structure Stands (c : TrafficCipher S) (keys : TrafficKeys) (inbound outbound : List Packet) :
    Prop where
  sendKey : c.sendKey = keys.responderToInitiator
  receiveKey : c.receiveKey = keys.initiatorToResponder
  sent : c.sent.toNat = outbound.length
  received : c.received.toNat = inbound.length
  even : outbound.length = inbound.length

theorem Stands.opens_next {c : TrafficCipher S} {keys : TrafficKeys}
    {inbound outbound : List Packet} {p : Packet} (h : Stands c keys inbound outbound)
    (hp : Opens S keys.initiatorToResponder (.ofNat inbound.length) p)
    (hbound : inbound.length + 1 < 2 ^ 64) : (c.decrypt p.sealed).1 = .ok p.plain := by
  obtain ⟨hlast, hplace⟩ := counter_lt h.received hbound
  rw [hplace, ← h.receiveKey] at hp
  rw [TrafficCipher.decrypt_opens hlast hp]

theorem Stands.seals_next {limit : Nat} (hlimit : S.SealsUpTo limit) {c c' : TrafficCipher S}
    {keys : TrafficKeys} {inbound outbound : List Packet} {sealed request answer : Bytes}
    (h : Stands c keys inbound outbound) (hd : c.decrypt sealed = (.ok request, c'))
    (ha : answer.length ≤ limit) : ∃ reply, (c'.encrypt answer).1 = .ok reply := by
  obtain ⟨hlast, -, hc'⟩ := TrafficCipher.decrypt_ok hd
  have heven : c'.sent = c.received := by
    rw [hc', ← UInt64.toNat_inj, h.received, ← h.even]
    exact h.sent
  obtain ⟨reply, hreply⟩ := hlimit.seals c'.sendKey (nonceOf c'.sent) [] answer ha (Nat.zero_le _)
  rw [TrafficCipher.encrypt_seals (heven ▸ hlast) hreply]
  exact ⟨reply, rfl⟩

theorem Stands.turn {c c' c'' : TrafficCipher S} {keys : TrafficKeys}
    {inbound outbound : List Packet} {request sealed answer reply : Bytes}
    (h : Stands c keys inbound outbound) (hopens : Lane (Opens S keys.initiatorToResponder) inbound)
    (hseals : Lane (Seals S keys.responderToInitiator) outbound)
    (hd : c.decrypt sealed = (.ok request, c')) (he : c'.encrypt answer = (.ok reply, c'')) :
    Stands c'' keys (inbound ++ [⟨request, sealed⟩]) (outbound ++ [⟨answer, reply⟩]) ∧
      Lane (Opens S keys.initiatorToResponder) (inbound ++ [⟨request, sealed⟩]) ∧
      Lane (Seals S keys.responderToInitiator) (outbound ++ [⟨answer, reply⟩]) ∧
      uses keys.initiatorToResponder inbound ++ [⟨c.receiveKey, c.received, sealed⟩] =
        uses keys.initiatorToResponder (inbound ++ [⟨request, sealed⟩]) ∧
      uses keys.responderToInitiator outbound ++ [⟨c.sendKey, c.sent, reply⟩] =
        uses keys.responderToInitiator (outbound ++ [⟨answer, reply⟩]) := by
  obtain ⟨hinbound, hreceived, hopened, hc'⟩ := hopens.open h.receiveKey h.received hd
  have hkey : c'.sendKey = keys.responderToInitiator := by rw [hc', ← h.sendKey]
  have hcount : c'.sent.toNat = outbound.length := by rw [hc', ← h.sent]
  obtain ⟨houtbound, hsent, hsealed, rfl⟩ := hseals.seal hkey hcount he
  subst hc'
  refine ⟨⟨h.sendKey, h.receiveKey, hsent, hreceived, ?_⟩, hinbound, houtbound, hopened, hsealed⟩
  rw [List.length_append, List.length_append, h.even]
  rfl

/-- A visit under some keys, with the packets of both directions. -/
structure Keyed (v : Visit S η) (keys : TrafficKeys) (inbound outbound : List Packet) : Prop where
  agreed : v.keys = some keys
  opened : v.opened = uses keys.initiatorToResponder inbound
  sealed : v.sealed = uses keys.responderToInitiator outbound
  opens : Lane (Opens S keys.initiatorToResponder) inbound
  seals : Lane (Seals S keys.responderToInitiator) outbound
  asked : inbound.map (·.plain) = v.seen.map (·.1)
  answered : outbound.map (·.plain) <+: v.seen.map (·.2)
  state : v.session.phase = .closed ∨ v.session.phase = .established ∧
    ∃ c, v.session.cipher = some c ∧ Stands c keys inbound outbound

structure Silent (v : Visit S η) : Prop where
  agreed : v.keys = none
  opened : v.opened = []
  sealed : v.sealed = []
  seen : v.seen = []
  waits : v.session.phase ≠ .established
  cipher : v.session.cipher = none

inductive Sound (v : Visit S η) : Prop where
  | silent (h : Silent v)
  | keyed (keys : TrafficKeys) (inbound outbound : List Packet) (h : Keyed v keys inbound outbound)

variable {v : Visit S η} {keys : TrafficKeys} {inbound outbound : List Packet}

theorem Sound.established (h : Sound v) (hs : v.session.phase = .established) :
    ∃ c keys inbound outbound, v.session.cipher = some c ∧ Keyed v keys inbound outbound ∧
      Stands c keys inbound outbound := by
  cases h with
  | silent h => exact absurd hs h.waits
  | keyed keys inbound outbound h =>
    rcases h.state with hclosed | ⟨-, c, hc, hst⟩
    · cases hs.symm.trans hclosed
    · exact ⟨c, keys, inbound, outbound, hc, h, hst⟩

theorem Sound.stands (h : Sound v) (hs : v.session.phase = .established) {c : TrafficCipher S}
    (hc : v.session.cipher = some c) :
    ∃ keys inbound outbound, Keyed v keys inbound outbound ∧ Stands c keys inbound outbound := by
  obtain ⟨c', keys, inbound, outbound, hc', h⟩ := h.established hs
  obtain rfl := Option.some.inj (hc.symm.trans hc')
  exact ⟨keys, inbound, outbound, h⟩

theorem Sound.silent_of_phase (h : Sound v) (hclosed : v.session.phase ≠ .closed)
    (hwaits : v.session.phase ≠ .established) : Silent v := by
  cases h with
  | silent h => exact h
  | keyed keys inbound outbound h =>
    rcases h.state with hs | ⟨hs, -⟩
    · exact absurd hs hclosed
    · exact absurd hs hwaits

theorem Sound.closed (h : Sound v) {v' : Visit S η} (hk : v'.keys = v.keys)
    (ho : v'.opened = v.opened) (hs : v'.sealed = v.sealed) (hseen : v'.seen = v.seen)
    {s : ServiceSession S (Witnessed η)} (hc : v'.session = s.close) : Sound v' := by
  cases h with
  | silent h =>
    exact .silent ⟨hk.trans h.agreed, ho.trans h.opened, hs.trans h.sealed, hseen.trans h.seen,
      by simp [hc, ServiceSession.close], by simp [hc, ServiceSession.close]⟩
  | keyed keys inbound outbound h =>
    exact .keyed keys inbound outbound ⟨hk.trans h.agreed, ho.trans h.opened, hs.trans h.sealed,
      h.opens, h.seals, by rw [hseen, h.asked], by rw [hseen]; exact h.answered,
      .inl (by rw [hc]; rfl)⟩

theorem Keyed.answered_all {c : TrafficCipher S} (h : Keyed v keys inbound outbound)
    (hst : Stands c keys inbound outbound) : outbound.map (·.plain) = v.seen.map (·.2) := by
  apply h.answered.eq_of_length
  have hlength := congrArg List.length h.asked
  simp only [List.length_map] at hlength ⊢
  rw [hst.even, hlength]

/-! ## Messages -/

variable [Application η]

/-- Gives a message to the session. The keys and counters are those that it has before. -/
def deliver (v : Visit S η) (r : Request) : Visit S η :=
  let (result, session) := v.session.handle r
  { session := session
    keys := (agreed session).or v.keys
    opened := v.opened ++ opening v.session r
    sealed := v.sealed ++ sealing v.session result }

/-- **A visit stays sound with every message.** -/
theorem sound_deliver (h : Sound v) (r : Request) : Sound (v.deliver r) := by
  have hh := v.session.handle_handled r
  unfold deliver
  generalize v.session.handle r = step at hh ⊢
  obtain ⟨result, session⟩ := step
  dsimp only at hh ⊢
  cases hh with
  | attests hs =>
    have hw := h.silent_of_phase (by simp [hs]) (by simp [hs])
    refine .silent ⟨?_, ?_, ?_, hw.seen, by simp, hw.cipher⟩
    · simp [agreed, hw.cipher, hw.agreed]
    · simp [hw.opened, opening]
    · simp [hw.sealed, sealing]
  | @greets message answer keys entropy hs hr =>
    have hw := h.silent_of_phase (by simp [hs]) (by simp [hs])
    have hseen : v.session.application.seen = [] := hw.seen
    refine .keyed keys [] [] ⟨?_, ?_, ?_, lane_nil _, lane_nil _, ?_, ?_,
      .inr ⟨rfl, _, rfl, rfl, rfl, rfl, rfl, rfl⟩⟩
    · simp [agreed, TrafficCipher.ofKeys, TrafficKeys.sendKey, TrafficKeys.receiveKey]
    · simp [hw.opened, opening, uses]
    · simp [hw.sealed, sealing, uses]
    · simp [seen, hseen]
    · simp [seen, hseen]
  | noHandshake hs =>
    exact h.closed (by simp [agreed, ServiceSession.close]) (by simp [opening])
      (by simp [sealing]) rfl rfl
  | noCipher hs hc =>
    exact h.closed (by simp [agreed, ServiceSession.close]) (by simp [opening, hc])
      (by simp [sealing]) rfl rfl
  | notOpened hs hc hd =>
    exact h.closed (by simp [agreed, ServiceSession.close]) (by simp [opening, hs, hc, hd])
      (by simp [sealing]) rfl rfl
  | unexpected hr =>
    exact h.closed (by simp [agreed, ServiceSession.close]) (by simp [opening_unexpected hr])
      (by simp [sealing]) rfl rfl
  | @notSealed c c' c'' sealed request answer application e hs hc hd ha he =>
    obtain ⟨keys, inbound, outbound, hk, hst⟩ := h.stands hs hc
    obtain ⟨hlane, -, huses, -⟩ := hk.opens.open hst.receiveKey hst.received hd
    have hseen : application.seen = v.seen ++ [(request, answer)] := Witnessed.seen_answer ha
    refine .keyed keys (inbound ++ [⟨request, sealed⟩]) outbound
      ⟨?_, ?_, ?_, hlane, hk.seals, ?_, ?_, .inl rfl⟩
    · simp [agreed, ServiceSession.close, hk.agreed]
    · simpa [opening, hs, hc, hd, hk.opened] using huses
    · simp [sealing, hk.sealed]
    · simp [seen, ServiceSession.close, hseen, hk.asked]
    · simp only [seen, ServiceSession.close, hseen, List.map_append]
      exact hk.answered.trans (List.prefix_append ..)
  | @serves c c' c'' sealed request answer application reply hs hc hd ha he =>
    obtain ⟨keys, inbound, outbound, hk, hst⟩ := h.stands hs hc
    obtain ⟨hturn, hlane, hout, hopened, hsealed⟩ := hst.turn hk.opens hk.seals hd he
    have hseen : application.seen = v.seen ++ [(request, answer)] := Witnessed.seen_answer ha
    refine .keyed keys (inbound ++ [⟨request, sealed⟩]) (outbound ++ [⟨answer, reply⟩])
      ⟨?_, ?_, ?_, hlane, hout, ?_, ?_, .inr ⟨hs, c'', rfl, hturn⟩⟩
    · simp [agreed, hturn.sendKey, hturn.receiveKey]
    · simpa [opening, hs, hc, hd, hk.opened] using hopened
    · simpa [sealing, hc, hk.sealed] using hsealed
    · simp [seen, hseen, hk.asked]
    · simp only [seen, hseen, List.map_append, hk.answered_all hst]
      exact List.prefix_refl _

end Visit

end SealedLink
