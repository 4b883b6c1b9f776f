import SealedLink.Proofs.Noise.Agreement
import SealedLink.Proofs.Stack.Line

/-!
# A client and a service that fit together

What both sides start from, when it is good, and the three kinds of errand that follow from it: the
attestation, the handshake, and one encrypted request after another.
-/

namespace SealedLink

/-! ## Applications along requests -/

namespace Application

variable {η : Type} [Application η]

def after (a : η) (requests : List Bytes) : η := requests.foldl (fun a r => (answer a r).2) a

theorem answers_append (a : η) (xs ys : List Bytes) :
    answers a (xs ++ ys) = answers a xs ++ answers (after a xs) ys := by
  induction xs generalizing a with
  | nil => rfl
  | cons x xs ih => exact congrArg (_ :: ·) (ih _)

theorem after_concat (a : η) (xs : List Bytes) (x : Bytes) :
    after a (xs ++ [x]) = (answer (after a xs) x).2 := by
  simp [after]

@[simp] theorem length_answers (a : η) (xs : List Bytes) : (answers a xs).length = xs.length := by
  induction xs generalizing a with
  | nil => rfl
  | cons x xs ih => exact congrArg (· + 1) (ih _)

end Application

/-! ## The start -/

/-- What a channel and a service start from, each with random bytes of its own, and the pipes
between them. -/
structure Setup (S : CipherSuite) (α η : Type) where
  config : LinkConfig
  attester : α
  clientEntropy : Entropy
  serviceLimit : Nat
  evidence : Bytes
  application : η
  serviceEntropy : Entropy
  toServiceCapacity : Nat
  toClientCapacity : Nat

namespace Setup

variable {S : CipherSuite} {α η : Type}

def reception (p : Setup S α η) : ServiceSession S η :=
  { evidence := p.evidence, application := p.application, entropy := p.serviceEntropy }

def start [Application η] (p : Setup S α η) : Loopback S α η where
  channel := .new { config := p.config } { entropy := p.clientEntropy } p.attester
  service := Service.start p.serviceLimit p.reception
  serviceLimit := p.serviceLimit
  toService := { capacity := p.toServiceCapacity }
  toClient := { capacity := p.toClientCapacity }

/-- A frame of this size is within the limits of both sides. -/
def Fits (p : Setup S α η) (size : Nat) : Prop := FitsBoth p.config.maxFrameSize p.serviceLimit size

/-- The two sides fit together: the attester has evidence and accepts that of the service, and what
comes before the first request fits into frames. -/
structure Works [Attester α] (p : Setup S α η) : Prop where
  config : p.config.validate = .ok ()
  suite : S.Reliable
  agrees : S.Agrees (S.draw p.clientEntropy).1 (S.draw p.serviceEntropy).1
  attests : ∃ own a a', Attester.request p.attester = (some own, a) ∧
    Attester.verify a p.evidence = (true, a') ∧ p.Fits (own.length + 5)
  evidence : p.Fits (p.evidence.length + 5)
  handshake : p.Fits 90
  capacities : 0 < p.toServiceCapacity ∧ 0 < p.toClientCapacity

variable {p : Setup S α η}

theorem Works.timeout [Attester α] (h : p.Works) : p.config.responseTimeout ≠ some 0 := by
  intro htimeout
  have hvalid := h.config
  simp only [LinkConfig.validate, htimeout, if_true] at hvalid
  split at hvalid <;> cases hvalid

variable [Application η]

theorem still_start [Attester α] (h : p.Works) :
    Still p.config p.serviceLimit p.start p.reception where
  limit := rfl
  link := rfl
  service := by
    have hlimit : p.serviceLimit ≠ 0 := by
      intro hzero
      have := h.handshake.2.1
      omega
    simp [start, Service.start, hlimit]
  joined := ⟨⟨rfl, rfl⟩, h.capacities.symm, rfl, rfl⟩

/-- The requests that are made of it, with their answers, fit into frames, and there are not more of
them than a counter can number. -/
structure Takes (p : Setup S α η) (requests : List Bytes) : Prop where
  fits : ∀ r ∈ requests, p.Fits (r.length + 21)
  answers : ∀ a ∈ Application.answers p.application requests, p.Fits (a.length + 21)
  count : requests.length < 2 ^ 64

theorem Takes.next {before rest : List Bytes} {r : Bytes} (h : p.Takes (before ++ r :: rest)) :
    p.Fits (r.length + 21) ∧
      p.Fits ((Application.answer (Application.after p.application before) r).1.length + 21) ∧
      before.length + 1 < 2 ^ 64 := by
  refine ⟨h.fits r (by simp), h.answers _ ?_, ?_⟩
  · rw [Application.answers_append]
    exact List.mem_append_right _ List.mem_cons_self
  · have := h.count
    simp only [List.length_append, List.length_cons] at this
    omega

/-! ## The errands before the first request -/

theorem exists_attesting [Attester α] (h : p.Works) (q : UInt64) {own : Bytes}
    (hown : p.Fits (own.length + 5)) :
    ∃ e : Errand S η p.config.maxFrameSize p.serviceLimit, e.sequence = q ∧
      e.response = .message (.attest p.evidence) ∧ e.before = p.reception ∧
      e.after = { p.reception with phase := .awaitingHandshake } ∧ e.For (.attest own) :=
  exists_errand q hown h.evidence rfl

/-! ## The traffic -/

/-- Both sides are established and have dealt with the same requests. -/
structure Agreed (p : Setup S α η) (session : ClientSession S) (s : ServiceSession S η)
    (requests : List Bytes) : Prop where
  established : s.phase = .established
  ciphers : ∃ client service, session.phase = .established client ∧ s.cipher = some service ∧
    Mirrored client service requests.length
  served : s.served = requests.length
  application : s.application = Application.after p.application requests

/-- The client finishes the handshake with the answer to an errand. -/
structure Finishes (p : Setup S α η) (session : ClientSession S)
    (e : Errand S η p.config.maxFrameSize p.serviceLimit) : Prop where
  intro ::
  finishes : ∃ answer session', e.response = .message (.handshake answer) ∧
    CipherSession.finish session answer = (.ok (), session') ∧ p.Agreed session' e.after []

/-- The client opens the answer to an errand, which is the application's answer to the request. -/
structure Opens (p : Setup S α η) (session : ClientSession S)
    (e : Errand S η p.config.maxFrameSize p.serviceLimit) (requests : List Bytes)
    (request : Bytes) : Prop where
  intro ::
  opens : ∃ reply session', e.response = .message (.encrypted reply) ∧
    CipherSession.decrypt session reply =
      (.ok (Application.answer (Application.after p.application requests) request).1, session') ∧
    p.Agreed session' e.after (requests ++ [request])

/-- **The handshake is an errand that establishes both sides.** -/
theorem exists_greeting [Attester α] (h : p.Works) (q : UInt64) :
    ∃ message session, ∃ e : Errand S η p.config.maxFrameSize p.serviceLimit,
      CipherSession.start ({ entropy := p.clientEntropy } : ClientSession S) = (.ok message, session) ∧
      e.sequence = q ∧ e.before = { p.reception with phase := .awaitingHandshake } ∧
      e.For (.handshake message) ∧ p.Finishes session e := by
  obtain ⟨initiator, message, answer, keys, hstart, hrespond, hfinish, hmessage, hanswer, -⟩ :=
    handshake_agrees h.suite h.agrees (e := p.serviceEntropy) rfl
  have hsize {m : HandshakeMessage} (hm : m.Sized) : p.Fits (Message.handshake m).size := by
    simp only [Message.size, hm.1, hm.2]
    exact h.handshake
  let s : ServiceSession S η := { p.reception with phase := .awaitingHandshake }
  have hhandle : s.handle (.handshake message) = (.ok (.message (.handshake answer)),
      { s with
        entropy := (S.draw p.serviceEntropy).2
        phase := .established
        cipher := some (.ofKeys S keys .responder) }) := by
    have hrespond : Responder.respond S message s.entropy = _ := hrespond
    simp [ServiceSession.handle, ServiceSession.dispatch, s, ServiceSession.respond, hrespond,
      ServiceSession.closeOnError]
  obtain ⟨e, hq, hresponse, hbefore, hafter, hfor⟩ :=
    exists_errand q (hsize hmessage) (hsize hanswer) hhandle
  refine ⟨message, ⟨(S.draw p.clientEntropy).2, .inProgress initiator⟩, e, ?_, hq, hbefore, hfor,
    ⟨answer, ⟨(S.draw p.clientEntropy).2, .established (.ofKeys S keys .initiator)⟩, hresponse, ?_, ?_⟩⟩
  · simp [CipherSession.start, ClientSession.start, hstart]
  · simp [CipherSession.finish, ClientSession.finish, hfinish]
  · rw [hafter]
    exact ⟨rfl, ⟨_, _, rfl, rfl, mirrored_ofKeys keys⟩, rfl, rfl⟩

/-- **An encrypted request is an errand** that takes both sides one request further. -/
theorem Agreed.exists_exchange [Attester α] (hp : p.Works) {session : ClientSession S}
    {s : ServiceSession S η} {requests : List Bytes} (h : p.Agreed session s requests) (q : UInt64)
    {request : Bytes} (hrequest : p.Fits (request.length + 21))
    (hanswer : p.Fits
      ((Application.answer (Application.after p.application requests) request).1.length + 21))
    (hcount : requests.length + 1 < 2 ^ 64) :
    ∃ sealed session', ∃ e : Errand S η p.config.maxFrameSize p.serviceLimit,
      CipherSession.encrypt session request = (.ok sealed, session') ∧ e.sequence = q ∧
      e.before = s ∧ e.For (.encrypted sealed) ∧ p.Opens session' e requests request := by
  obtain ⟨client, service, hclient, hservice, hmirrored⟩ := h.ciphers
  have hlimit {size : Nat} (hfits : p.Fits (size + 21)) : size < Field.sizeLimit := by
    have := hfits.1.2
    omega
  obtain ⟨x, hafter⟩ := hmirrored.crossing hp.suite hcount (hlimit hrequest) (hlimit hanswer)
  have hhandle : s.handle (.encrypted x.sealed) = (.ok (.message (.encrypted x.reply)),
      { s with
        application := (Application.answer s.application request).2
        cipher := some x.serviceAfter
        served := s.served + 1 }) := by
    simp [ServiceSession.handle, ServiceSession.dispatch, h.established, ServiceSession.serve,
      hservice, x.opens, h.application, x.answers, ServiceSession.closeOnError]
  have hsealed : p.Fits (Message.encrypted x.sealed).size := by
    rw [Message.size, x.sealed_length]
    exact hrequest
  have hreply : p.Fits (Message.encrypted x.reply).size := by
    rw [Message.size, x.reply_length]
    exact hanswer
  obtain ⟨e, hq, hresponse, hbefore, he, hfor⟩ := exists_errand q hsealed hreply hhandle
  refine ⟨x.sealed, { session with phase := .established x.clientSent }, e, ?_, hq, hbefore, hfor,
    ⟨x.reply, { session with phase := .established x.clientAfter }, hresponse, ?_, ?_⟩⟩
  · simp [CipherSession.encrypt, ClientSession.encrypt, ClientSession.withCipher, hclient, x.sends]
  · simp [CipherSession.decrypt, ClientSession.decrypt, ClientSession.withCipher, x.reads]
  · rw [he]
    refine ⟨h.established, ⟨_, _, rfl, rfl, by simpa using hafter⟩, by simp [h.served], ?_⟩
    simp only [Application.after_concat, h.application]

end Setup

end SealedLink
