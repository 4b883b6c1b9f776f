import SealedLink.Channel.Scripted
import SealedLink.Proofs.Channel.Discipline
import SealedLink.Proofs.Noise.Standard
import SealedLink.Proofs.Traffic.Network

/-!
# A network that passes messages on

A client and a service that agree come to the same keys and deal with a request when the network
between them passes on what it gets.
-/

namespace SealedLink

variable {S : CipherSuite}

/-! ## A client whose transport answers later -/

/-- A client with its events and callbacks, and with the calls and the sends that it made. -/
structure Channel.Shows {α : Type} (c : Channel (Held ScriptedTransport) (ClientSession S) α)
    (d : Driver (ClientSession S) α) (events : List Event) (callbacks : List UInt64)
    (cs : List Call) (rs : List Request) : Prop where
  driver : c.driver = some d
  events : c.events = events
  accepting : c.accepting = true
  script : c.transport.transport.script = []
  callbacks : c.transport.callbacks = callbacks
  calls : calls c.course = cs
  sends : c.sends = rs

namespace Channel

variable {α : Type} {c : Channel (Held ScriptedTransport) (ClientSession S) α}

theorem silent_perform {a : Action} (hscript : c.transport.transport.script = [])
    (h : ∀ w outcome, a = .resolve w outcome → w.completion = .future) :
    (c.perform a).events = c.events ∧ (c.perform a).transport.transport.script = [] ∧
      (c.perform a).transport.callbacks = c.transport.callbacks ++ a.sequence?.toList := by
  cases a with
  | call call => exact ⟨rfl, hscript, (List.append_nil _).symm⟩
  | publish state => exact ⟨rfl, hscript, (List.append_nil _).symm⟩
  | resolve w outcome => simp [perform, resolve, h w outcome rfl, fill, record, hscript, Action.sequence?]
  | send q request =>
    simp [perform, Transport.send, Held.send, ScriptedTransport.send, hscript, record,
      Action.sequence?]

theorem silent_performAll {actions : List Action} (hscript : c.transport.transport.script = [])
    (h : ∀ w outcome, .resolve w outcome ∈ actions → w.completion = .future) :
    (actions.foldl perform c).events = c.events ∧
      (actions.foldl perform c).transport.transport.script = [] ∧
      (actions.foldl perform c).transport.callbacks =
        c.transport.callbacks ++ sequences actions := by
  induction actions generalizing c with
  | nil => exact ⟨rfl, hscript, (List.append_nil _).symm⟩
  | cons a actions ih =>
    obtain ⟨hevents, hscript', hcallbacks⟩ := silent_perform (c := c) hscript fun w outcome ha =>
      h w outcome (ha ▸ List.mem_cons_self)
    obtain ⟨hevents', hscript'', hcallbacks'⟩ := ih hscript' fun w outcome ha =>
      h w outcome (List.mem_cons_of_mem _ ha)
    refine ⟨hevents'.trans hevents, hscript'', ?_⟩
    rw [List.foldl_cons, hcallbacks', hcallbacks, List.append_assoc]
    cases hq : a.sequence? <;> simp [sequences, hq]

variable {d : Driver (ClientSession S) α} {events : List Event} {callbacks : List UInt64}
  {cs : List Call} {rs : List Request}

theorem Shows.answer {q : UInt64} (h : c.Shows d events [q] cs rs) (result : TransportResult) :
    (c.answer 0 result).Shows d (events ++ [.reply q result]) [] cs rs := by
  have hanswer : c.answer 0 result = { c with
      transport := ⟨c.transport.transport, []⟩
      events := events ++ [.reply q result] } := by
    simp [Channel.answer, h.callbacks, forget, deliver, post, h.accepting, h.events]
  rw [hanswer]
  exact ⟨h.driver, rfl, h.accepting, h.script, rfl, h.calls, h.sends⟩

theorem Shows.process [Attester α] {e : Event} (h : c.Shows d (e :: events) callbacks cs rs)
    {d' : Driver (ClientSession S) α} {actions : List Action} (hstep : d.handle e = (d', actions))
    (hfuture : ∀ w outcome, .resolve w outcome ∈ actions → w.completion = .future) :
    (c.move .process).Shows d' events (callbacks ++ sequences actions)
      (cs ++ SealedLink.calls (actions.map .ofAction)) (rs ++ requestsIn (actions.map .ofAction)) := by
  have hprocess : c.move .process = actions.foldl perform (c.take d e events) := by
    rw [move, processNext_eq h.driver h.events, hstep]
    rfl
  obtain ⟨hevents, hscript, hcallbacks⟩ :=
    silent_performAll (c := c.take d e events) h.script hfuture
  have heffect := effect_performAll actions (c.take d e events) h.accepting
  have hcourse := heffect.course
  rw [course_take] at hcourse
  have hdriver : (c.take d e events).driver = some d' := by
    rw [take, hstep]
    rfl
  rw [hprocess]
  refine ⟨heffect.driver.trans hdriver, hevents, heffect.accepting.trans h.accepting, hscript,
    hcallbacks.trans (congrArg (· ++ _) h.callbacks), ?_, ?_⟩
  · rw [hcourse, calls_append, calls_append, h.calls]
    simp [SealedLink.calls, Entry.call?]
  · have hsends := h.sends
    rw [sends_eq] at hsends ⊢
    rw [hcourse, requestsIn_append, requestsIn_append, hsends]
    simp [requestsIn, Entry.request?]

end Channel

/-! ## Passing on -/

namespace Network

variable {α η : Type} [Attester α] [Application η]

def reaction (n : Network S ScriptedTransport α η) (r : Request) : TransportResult :=
  match (n.service.session.handle r).1 with
  | .ok response => .ok response
  | .error _ => .error .other

/-- The client's last message goes to the service, and the answer to it to the client. -/
def passOn (n : Network S ScriptedTransport α η) : List Act :=
  match n.client.sends.getLast? with
  | some r => [.deliver r, .client (.answer 0 (n.reaction r)), .client .process]
  | none => []

def relay (n : Network S ScriptedTransport α η) : (rounds : Nat) → List Act
  | 0 => []
  | rounds + 1 => n.passOn ++ (n.after n.passOn).relay rounds

variable {n : Network S ScriptedTransport α η} {d d' : Driver (ClientSession S) α} {q : UInt64}
  {cs : List Call} {rs : List Request}

theorem after_passOn {r : Request} {response : Response} {actions : List Action}
    (h : n.client.Shows d [] [q] cs (rs ++ [r])) (hr : (n.service.session.handle r).1 = .ok response)
    (hstep : d.handle (.reply q (.ok response)) = (d', actions))
    (hfuture : ∀ w outcome, .resolve w outcome ∈ actions → w.completion = .future) :
    (n.after n.passOn).client.Shows d' [] (sequences actions)
        (cs ++ calls (actions.map .ofAction)) (rs ++ [r] ++ requestsIn (actions.map .ofAction)) ∧
      (n.after n.passOn).service = n.service.deliver r ∧ (n.after n.passOn).origin = n.origin := by
  have hpass : n.passOn = [.deliver r, .client (.answer 0 (.ok response)), .client .process] := by
    simp [passOn, h.sends, reaction, hr]
  rw [hpass]
  exact ⟨(h.answer (.ok response)).process hstep hfuture, rfl, rfl⟩

end Network

/-! ## A meeting -/

/-- A handshake, and one request under the keys that both sides come to. -/
structure Meeting (S : CipherSuite) (e e' : Entropy) (keys : TrafficKeys) where
  initiator : Initiator S
  message : HandshakeMessage
  answer : HandshakeMessage
  starts : Initiator.start (S.draw e).1 = .ok (initiator, message)
  responds : Responder.respond S message e' = (.ok (answer, keys), (S.draw e').2)
  finishes : initiator.finish answer = .ok keys
  traffic : Crossing (.ofKeys S keys .initiator) (.ofKeys S keys .responder) [1, 2] [1]

namespace Meeting

variable {e e' : Entropy} {keys : TrafficKeys}

theorem exists_meeting (hS : S.Reliable) {a b : S.Secret} (h : S.Agrees a b)
    (ha : (S.draw e).1 = a) (hb : (S.draw e').1 = b) {publicB : S.PublicKey}
    (hparse : S.parse (S.publicKey b) = some publicB) :
    Nonempty (Meeting S e e'
      (S.trafficKeys [S.publicKey a, S.publicKey b, S.agree a publicB])) := by
  subst ha hb
  obtain ⟨initiator, message, answer, keys, hstart, hrespond, hfinish, -, -, hkeys⟩ :=
    handshake_agrees hS h (e := e') rfl
  rw [← hkeys publicB hparse]
  have hrequest : ([1, 2] : Bytes).length < Field.sizeLimit := by decide
  have hanswer : ([1] : Bytes).length < Field.sizeLimit := by decide
  obtain ⟨x, -⟩ := (mirrored_ofKeys (S := S) keys).crossing hS (by decide) hrequest hanswer
  exact ⟨⟨initiator, message, answer, hstart, hrespond, hfinish, x⟩⟩

theorem of_scalars {a b : Nat}
    (h : CipherSuite.p256AesGcmSha256.Agrees a b)
    (ha : (CipherSuite.p256AesGcmSha256.draw e).1 = a)
    (hb : (CipherSuite.p256AesGcmSha256.draw e').1 = b) :
    Nonempty (Meeting .p256AesGcmSha256 e e' (CipherSuite.scalarKeys a b)) := by
  obtain ⟨-, publicB, -, hparse, -⟩ := h.shared
  have hkeys : CipherSuite.scalarKeys a b = CipherSuite.trafficKeys .p256AesGcmSha256
      [P256.publicKey a, P256.publicKey b, P256.sharedSecret a publicB] := by
    have hparse : P256.PublicKey.parse? (P256.publicKey b) = some publicB := hparse
    rw [CipherSuite.scalarKeys, hparse]
  rw [hkeys]
  exact exists_meeting CipherSuite.reliable_p256AesGcmSha256 h ha hb hparse

variable (m : Meeting S e e' keys)

/-! ### The client -/

def session (e : Entropy) (phase : ClientPhase S) : ClientSession S := ⟨(S.draw e).2, phase⟩

theorem start_eq : CipherSession.start ({ entropy := e } : ClientSession S) =
    (.ok m.message, session e (.inProgress m.initiator)) := by
  simp [CipherSession.start, ClientSession.start, m.starts, session]

theorem finish_eq : CipherSession.finish (session e (.inProgress m.initiator)) m.answer =
    (.ok (), session e (.established (.ofKeys S keys .initiator))) := by
  simp [CipherSession.finish, ClientSession.finish, m.finishes, session]

theorem encrypt_eq :
    CipherSession.encrypt (session e (.established (.ofKeys S keys .initiator))) [1, 2] =
      (.ok m.traffic.sealed, session e (.established m.traffic.clientSent)) := by
  simp [CipherSession.encrypt, ClientSession.encrypt, ClientSession.withCipher, m.traffic.sends,
    session]

theorem decrypt_eq :
    CipherSession.decrypt (session e (.established m.traffic.clientSent)) m.traffic.reply =
      (.ok [1], session e (.established m.traffic.clientAfter)) := by
  simp [CipherSession.decrypt, ClientSession.decrypt, ClientSession.withCipher, m.traffic.reads,
    session]

def calls : List Call :=
  [.attestationRequest (some []), .verify [7] true, .start (.ok m.message),
    .finish m.answer (.ok ()), .encrypt [1, 2] (.ok m.traffic.sealed),
    .decrypt m.traffic.reply (.ok [1])]

theorem notes_calls : Notes.of { entropy := e } m.calls =
    { session := session e (.established m.traffic.clientAfter), keys := some keys
      sealed := [⟨keys.initiatorToResponder, 0, m.traffic.sealed⟩]
      opened := [⟨keys.responderToInitiator, 0, m.traffic.reply⟩] } := by
  have hstart : ClientSession.start { entropy := e } = _ := m.start_eq
  have hfinish : ClientSession.finish _ m.answer = _ := m.finish_eq
  have hencrypt : ClientSession.encrypt _ [1, 2] = _ := m.encrypt_eq
  have hdecrypt : ClientSession.decrypt _ m.traffic.reply = _ := m.decrypt_eq
  obtain ⟨-, -, hsent⟩ := TrafficCipher.encrypt_ok m.traffic.sends
  simp only [Notes.of, calls, List.foldl_cons, List.foldl_nil, Notes.note, hstart, hfinish, hencrypt,
    hdecrypt]
  simp [Notes.agreed, ClientSession.cipher?, session, hsent, TrafficCipher.ofKeys,
    TrafficKeys.sendKey, TrafficKeys.receiveKey]

def write : Pending := ⟨0, [1, 2], .future⟩

def driver (session : ClientSession S) (state : ChannelState) (sequence : UInt64) :
    Driver (ClientSession S) InsecureAttester where
  session := session
  attester := {}
  state := state
  queue := [write]
  outstanding := some sequence
  nextSequence := sequence + 1

theorem attested :
    (driver { entropy := e } .performingAttestation 0).handle
      (.reply 0 (.ok (.message (.attest [7])))) =
    (driver (session e (.inProgress m.initiator)) .performingHandshake 1,
      [.call (.verify [7] true), .call (.start (.ok m.message)), .publish .performingHandshake,
        .send 1 (.handshake m.message)]) := by
  simp [driver, Driver.handle, Driver.onReply, Driver.onAttestation, Attester.verify, m.start_eq,
    Driver.after, Driver.advance, Driver.send]

theorem greeted :
    (driver (session e (.inProgress m.initiator)) .performingHandshake 1).handle
      (.reply 1 (.ok (.message (.handshake m.answer)))) =
    (driver (session e (.established m.traffic.clientSent)) .established 2,
      [.call (.finish m.answer (.ok ())), .publish .established,
        .call (.encrypt [1, 2] (.ok m.traffic.sealed)), .send 2 (.encrypted m.traffic.sealed)]) := by
  simp [driver, write, Driver.handle, Driver.onReply, Driver.onHandshake, Driver.dispatchNext,
    m.finish_eq, m.encrypt_eq, Driver.after, Driver.send]

theorem answered :
    (driver (session e (.established m.traffic.clientSent)) .established 2).handle
      (.reply 2 (.ok (.message (.encrypted m.traffic.reply)))) =
    ({ driver (session e (.established m.traffic.clientAfter)) .established 2 with
        queue := [], outstanding := none },
      [.call (.decrypt m.traffic.reply (.ok [1])), .resolve write (.ok [1])]) := by
  simp [driver, Driver.handle, Driver.onReply, Driver.onEncrypted, Driver.dispatchNext,
    m.decrypt_eq, Driver.after]

/-! ### The service -/

def reception (S : CipherSuite) (e : Entropy) (phase : ServicePhase) :
    ServiceSession S (Witnessed StockApplication) :=
  { evidence := [7], application := ⟨.counter 0, []⟩, entropy := e, phase := phase }

def welcome (S : CipherSuite) (e : Entropy) (keys : TrafficKeys) :
    ServiceSession S (Witnessed StockApplication) :=
  { reception S e .established with cipher := some (.ofKeys S keys .responder) }

def farewell : ServiceSession S (Witnessed StockApplication) where
  evidence := [7]
  application := ⟨.counter 1, [([1, 2], [1])]⟩
  entropy := (S.draw e').2
  phase := .established
  cipher := some m.traffic.serviceAfter
  served := 1

theorem handle_message : (reception S e' .awaitingHandshake).handle (.handshake m.message) =
    (.ok (.message (.handshake m.answer)), welcome S (S.draw e').2 keys) := by
  simp [ServiceSession.handle, ServiceSession.dispatch, reception, welcome, ServiceSession.respond,
    m.responds, ServiceSession.closeOnError]

theorem handle_sealed : (welcome S (S.draw e').2 keys).handle (.encrypted m.traffic.sealed) =
    (.ok (.message (.encrypted m.traffic.reply)), m.farewell) := by
  simp [ServiceSession.handle, ServiceSession.dispatch, reception, welcome, farewell,
    ServiceSession.serve, m.traffic.opens, Application.answer, StockApplication.answer,
    m.traffic.answers, ServiceSession.closeOnError]

theorem deliver_message :
    ({ session := reception S e' .awaitingHandshake } : Visit S _).deliver (.handshake m.message) =
      { session := welcome S (S.draw e').2 keys, keys := some keys } := by
  rw [Visit.deliver, m.handle_message]
  rfl

theorem deliver_sealed :
    ({ session := welcome S (S.draw e').2 keys, keys := some keys } : Visit S _).deliver
        (.encrypted m.traffic.sealed) =
      { session := m.farewell, keys := some keys
        opened := [⟨keys.initiatorToResponder, 0, m.traffic.sealed⟩]
        sealed := [⟨keys.responderToInitiator, 0, m.traffic.reply⟩] } := by
  obtain ⟨-, -, hopened⟩ := TrafficCipher.decrypt_ok m.traffic.opens
  obtain ⟨-, -, hafter⟩ := TrafficCipher.encrypt_ok m.traffic.answers
  rw [Visit.deliver, m.handle_sealed]
  simp only [Visit.opening, reception, welcome, m.traffic.opens]
  simp [Visit.agreed, Visit.sealing, farewell, hafter, hopened,
    TrafficCipher.ofKeys, TrafficKeys.sendKey, TrafficKeys.receiveKey]

end Meeting

theorem Visit.deliver_refused {η : Type} [Application η] {v : Visit S η} {c : TrafficCipher S}
    {sealed : Bytes} (hs : v.session.phase = .established) (hc : v.session.cipher = some c)
    (hd : S.decrypt c.receiveKey (nonceOf c.received) [] sealed = none) :
    v.deliver (.encrypted sealed) =
      { v with session := v.session.close } := by
  obtain ⟨e, he⟩ : ∃ e, c.decrypt sealed = (.error e, c) := by
    unfold TrafficCipher.decrypt
    split
    · exact ⟨_, rfl⟩
    · rw [CipherSuite.decryptAt, hd]
      exact ⟨_, rfl⟩
  have hhandle : v.session.handle (.encrypted sealed) = (.error (.crypto e), v.session.close) := by
    simp [ServiceSession.handle, ServiceSession.dispatch, hs, ServiceSession.serve, hc, he,
      ServiceSession.closeOnError, ServiceSession.close]
  rw [Visit.deliver, hhandle]
  simp [Visit.agreed, Visit.opening, Visit.sealing, ServiceSession.close, hs, hc, he]

/-! ## Both sides meet -/

namespace Network

def begin : List Act := [.client (.writeFuture [1, 2]), .client .process]

def meeting (S : CipherSuite) (e e' : Entropy) :
    Network S ScriptedTransport InsecureAttester StockApplication :=
  fresh {} e {} [7] (.counter 0) e'

variable {e e' : Entropy} {keys : TrafficKeys}

theorem relay_meeting (m : Meeting S e e' keys) {n : Network S ScriptedTransport _ _}
    (hn : n = (meeting S e e').after begin) :
    (n.after (n.relay 3)).notes = .of { entropy := e } m.calls ∧
      (n.after (n.relay 3)).service =
        { session := m.farewell, keys := some keys
          opened := [⟨keys.initiatorToResponder, 0, m.traffic.sealed⟩]
          sealed := [⟨keys.responderToInitiator, 0, m.traffic.reply⟩] } := by
  have hclient : n.client.Shows (Meeting.driver { entropy := e } .performingAttestation 0) [] [0]
      [.attestationRequest (some [])] ([] ++ [.attest []]) := by
    rw [hn]
    exact ⟨rfl, rfl, rfl, rfl, rfl, rfl, rfl⟩
  have hservice : n.service = { session := Meeting.reception S e' .awaitingAttestation } := by
    rw [hn]
    rfl
  have horigin : n.origin = { entropy := e } := by
    rw [hn]
    rfl
  obtain ⟨hclient₁, hservice₁, horigin₁⟩ :=
    after_passOn hclient (by rw [hservice]; rfl) m.attested (by simp)
  simp only [relay, after_append]
  rw [hservice] at hservice₁
  generalize n.after n.passOn = n₁ at *
  obtain ⟨hclient₂, hservice₂, horigin₂⟩ := after_passOn hclient₁
    (by rw [hservice₁]; exact congrArg Prod.fst m.handle_message) m.greeted (by simp)
  rw [hservice₁] at hservice₂
  have hservice₂ := hservice₂.trans m.deliver_message
  generalize n₁.after n₁.passOn = n₂ at *
  obtain ⟨hclient₃, hservice₃, horigin₃⟩ := after_passOn hclient₂
    (by rw [hservice₂]; exact congrArg Prod.fst m.handle_sealed) m.answered (by simp [Meeting.write])
  rw [hservice₂, m.deliver_sealed] at hservice₃
  refine ⟨?_, hservice₃⟩
  show (n₂.after n₂.passOn).notes = _
  rw [notes, hclient₃.calls, horigin₃, horigin₂, horigin₁, horigin]
  rfl

variable (S e e') in
/-- After a meeting the network tries a message of its own. -/
def forgery : List Act :=
  let n := (meeting S e e').after begin
  begin ++ n.relay 3 ++ [.deliver (.encrypted [])]

theorem trusted_forgery (m : Meeting S e e' keys)
    (hshort : ∀ key nonce aad, S.decrypt key nonce aad [] = none) :
    Trusted keys ((meeting S e e').after (forgery S e e')) ∧
      ((meeting S e e').after (forgery S e e')).service.seen = [([1, 2], [1])] := by
  obtain ⟨hnotes, hservice⟩ := relay_meeting m rfl
  rw [m.notes_calls] at hnotes
  rw [forgery, after_append, after_append]
  generalize ((meeting S e e').after begin).after (((meeting S e e').after begin).relay 3) = n' at *
  have hrefused : (n'.after [.deliver (.encrypted [])]).service =
      { n'.service with session := n'.service.session.close } := by
    refine Visit.deliver_refused (c := m.traffic.serviceAfter) ?_ ?_ (hshort _ _ _)
    all_goals
      rw [hservice]
      rfl
  have hnotes' : (n'.after [.deliver (.encrypted [])]).notes = _ := hnotes
  refine ⟨⟨fun k hk => ?_, fun k hk => ?_, ?_⟩, ?_⟩
  · rw [hnotes'] at hk
    exact (Option.some.inj hk).symm
  · rw [hrefused, hservice] at hk
    exact (Option.some.inj hk).symm
  · rw [hnotes', hrefused, hservice]
    simp
  · rw [hrefused, hservice]
    rfl

end Network

end SealedLink
