import SealedLink.Message.Codec
import SealedLink.Noise.ClientSession
import SealedLink.Proofs.Noise.Messages

/-!
# Two sides that agree

The two sides of a handshake come to the same keys, and what one side of the traffic encrypts is
what the other one decrypts, as long as their counters go on together.
-/

namespace SealedLink

/-! ## What is asked of a suite -/

/-- A suite whose encryption can be undone, takes every text that fits in a field, and makes it
longer by a tag of sixteen bytes. It derives keys from anything. -/
structure CipherSuite.Reliable (S : CipherSuite) : Prop where
  inverts : S.Inverts
  derives : S.Derives
  seals : ∀ key nonce aad plain, plain.length < Field.sizeLimit → aad.length < Field.sizeLimit →
    ∃ sealed, S.encrypt key nonce aad plain = some sealed ∧ sealed.length = plain.length + 16
  hashes : ∀ data, (S.hash data).length < Field.sizeLimit

/-- Two secret keys that come to one shared secret by way of their public keys. -/
structure CipherSuite.Agrees (S : CipherSuite) (a b : S.Secret) : Prop where
  lengths : (S.publicKey a).length = 65 ∧ (S.publicKey b).length = 65
  shared : ∃ publicA publicB, S.parse (S.publicKey a) = some publicA ∧
    S.parse (S.publicKey b) = some publicB ∧ S.agree a publicB = S.agree b publicA

variable {S : CipherSuite}

theorem CipherSuite.Reliable.sealsUpTo (hS : S.Reliable) : S.SealsUpTo (Field.sizeLimit - 1) where
  seals key nonce aad plain hplain haad := by
    have hpositive : 0 < Field.sizeLimit := by decide
    obtain ⟨sealed, hsealed, -⟩ := hS.seals key nonce aad plain (by omega) (by omega)
    exact ⟨sealed, hsealed⟩
  hashes data := by
    have := hS.hashes data
    omega

theorem CipherSuite.Reliable.length (hS : S.Reliable) {s : SymmetricState S}
    (hhash : s.hash.length < Field.sizeLimit) {ciphertext : Bytes} (hc : s.Carries [] ciphertext) :
    ciphertext.length = 16 := by
  obtain ⟨key, -, he⟩ := hc
  obtain ⟨sealed, hsealed, hlength⟩ := hS.seals key (nonceOf 0) s.hash [] (by decide) hhash
  obtain rfl : sealed = ciphertext := Option.some.inj (hsealed.symm.trans he)
  exact hlength

/-! ## The handshake -/

/-- A handshake message of the usual size. -/
def HandshakeMessage.Sized (m : HandshakeMessage) : Prop :=
  m.publicKey.length = 65 ∧ m.ciphertext.length = 16

/-- The keys that the ephemeral keys and the shared secret lead to. -/
def CipherSuite.trafficKeys (S : CipherSuite) (materials : List Bytes) : TrafficKeys :=
  let chainingKey := materials.foldl (fun key material => (S.derived key material).1)
    (SymmetricState.initial S).chainingKey
  ⟨(S.derived chainingKey []).1, (S.derived chainingKey []).2⟩

theorem exchange_eq {limit : Nat} (hS : S.Inverts) (hlimit : S.SealsUpTo limit) (hK : S.Derives)
    {a b : S.Secret} {publicA publicB : S.PublicKey} (hparseA : S.parse (S.publicKey a) = some publicA)
    (hparseB : S.parse (S.publicKey b) = some publicB)
    (hshared : S.agree a publicB = S.agree b publicA) {payload : Bytes} (hp : payload.length ≤ limit)
    {e e' : Entropy} (hdraw : S.draw e = (b, e')) :
    ∃ greeting reply, ∃ i : Initiator S,
      i = ⟨(Responder.transcript S (S.publicKey a)).taken greeting, a⟩ ∧
      (Responder.transcript S (S.publicKey a)).Carries [] greeting ∧
      (i.transcript (S.publicKey b) publicB).Carries payload reply ∧
      Initiator.start a = .ok (i, ⟨S.publicKey a, greeting⟩) ∧
      Responder.respondWithPayload S ⟨S.publicKey a, greeting⟩ payload e =
        (.ok (⟨S.publicKey b, reply⟩, ((i.transcript (S.publicKey b) publicB).taken reply).keys),
          e') ∧
      i.finish ⟨S.publicKey b, reply⟩ =
        if payload = [] then .ok ((i.transcript (S.publicKey b) publicB).taken reply).keys
        else .error (.unexpectedPayload payload.length) := by
  obtain ⟨greeting, hgreeting, hstart⟩ := Initiator.start_eq hlimit hK a
  have hfirst := Responder.fresh_transcript S (S.publicKey a)
  have hgreeted := hfirst.decryptEmpty_of_carries hS hgreeting
  rw [if_pos rfl] at hgreeted
  have haccept := Responder.accept_readable hK (m := ⟨S.publicKey a, greeting⟩) hgreeted hparseA
  let i : Initiator S := ⟨(Responder.transcript S (S.publicKey a)).taken greeting, a⟩
  -- The answer is encrypted at the transcript at which the initiator judges it.
  have hsame : Responder.answering i.state publicA b = i.transcript (S.publicKey b) publicB := by
    rw [Responder.answering, ← hshared, Initiator.transcript]
  obtain ⟨reply, hreply, hanswer⟩ := Responder.answer_eq hlimit hK i.state publicA b hp
  rw [hsame] at hreply hanswer
  refine ⟨greeting, reply, i, rfl, hgreeting, hreply, hstart, ?_, ?_⟩
  · rw [Responder.respondWithPayload, haccept]
    simp only [hdraw]
    rw [hanswer]
  · obtain ⟨_, hsecond⟩ := i.fresh_transcript (S.publicKey b) publicB
    rw [Initiator.finish_readable hK hparseB, hsecond.decryptEmpty_of_carries hS hreply]
    split <;> rfl

/-- **Both sides of a handshake come to the same keys.** -/
theorem handshake_agrees (hS : S.Reliable) {a b : S.Secret} (h : S.Agrees a b) {e e' : Entropy}
    (hdraw : S.draw e = (b, e')) :
    ∃ initiator message answer keys, Initiator.start a = .ok (initiator, message) ∧
      Responder.respond S message e = (.ok (answer, keys), e') ∧
      initiator.finish answer = .ok keys ∧ message.Sized ∧ answer.Sized ∧
      ∀ publicB, S.parse (S.publicKey b) = some publicB →
        keys = S.trafficKeys [S.publicKey a, S.publicKey b, S.agree a publicB] := by
  obtain ⟨publicA, publicB, hparseA, hparseB, hshared⟩ := h.shared
  have hempty : ([] : Bytes).length ≤ Field.sizeLimit - 1 := Nat.zero_le _
  obtain ⟨greeting, reply, i, hi, hgreeting, hreply, hstart, hrespond, hfinish⟩ :=
    exchange_eq hS.inverts hS.sealsUpTo hS.derives hparseA hparseB hshared hempty hdraw
  rw [if_pos rfl] at hfinish
  refine ⟨i, _, _, _, hstart, hrespond, hfinish, ⟨h.lengths.1, hS.length (hS.hashes _) hgreeting⟩,
    ⟨h.lengths.2, hS.length (hS.hashes _) hreply⟩, fun publicB' hparse => ?_⟩
  obtain rfl : publicB = publicB' := Option.some.inj (hparseB.symm.trans hparse)
  rw [hi]
  rfl

/-! ## The traffic -/

/-- The ciphers of the two sides after a number of exchanges. -/
structure Mirrored (client service : TrafficCipher S) (count : Nat) : Prop where
  forth : client.sendKey = service.receiveKey
  back : client.receiveKey = service.sendKey
  client : client.sent = .ofNat count ∧ client.received = .ofNat count
  service : service.sent = .ofNat count ∧ service.received = .ofNat count

theorem mirrored_ofKeys (keys : TrafficKeys) :
    Mirrored (.ofKeys S keys .initiator) (.ofKeys S keys .responder) 0 :=
  ⟨rfl, rfl, ⟨rfl, rfl⟩, ⟨rfl, rfl⟩⟩

theorem nextCounter_ofNat {count : Nat} (h : count + 1 < 2 ^ 64) :
    nextCounter (.ofNat count) = .ok (.ofNat (count + 1)) := by
  have hne : UInt64.ofNat count ≠ lastCounter := by
    intro he
    have hnat := congrArg UInt64.toNat he
    rw [UInt64.toNat_ofNat', Nat.mod_eq_of_lt (by omega), show lastCounter.toNat = 2 ^ 64 - 1 from rfl]
      at hnat
    omega
  rw [nextCounter, if_neg hne, UInt64.ofNat_add]
  rfl

theorem crosses (hS : S.Reliable) {c c' : TrafficCipher S} {count : Nat} {plain : Bytes}
    (hkey : c.sendKey = c'.receiveKey) (hsent : c.sent = .ofNat count)
    (hreceived : c'.received = .ofNat count) (hcount : count + 1 < 2 ^ 64)
    (hplain : plain.length < Field.sizeLimit) :
    ∃ sealed, c.encrypt plain = (.ok sealed, { c with sent := .ofNat (count + 1) }) ∧
      c'.decrypt sealed = (.ok plain, { c' with received := .ofNat (count + 1) }) ∧
      sealed.length = plain.length + 16 := by
  have hnext := nextCounter_ofNat hcount
  obtain ⟨sealed, hseal, hlength⟩ :=
    hS.seals c.sendKey (nonceOf (.ofNat count)) [] plain hplain (by decide)
  have hopen := hS.inverts _ _ _ _ _ hseal
  rw [hkey] at hopen
  refine ⟨sealed, ?_, ?_, hlength⟩
  · simp [TrafficCipher.encrypt, hsent, hnext, CipherSuite.encryptAt, hseal]
  · simp [TrafficCipher.decrypt, hreceived, hnext, CipherSuite.decryptAt, hopen]

/-- A request and its answer under the keys of the traffic: what was sealed, and the ciphers
before and after it. -/
structure Crossing (client service : TrafficCipher S) (request answer : Bytes) where
  sealed : Bytes
  reply : Bytes
  clientSent : TrafficCipher S
  serviceOpened : TrafficCipher S
  serviceAfter : TrafficCipher S
  clientAfter : TrafficCipher S
  sends : client.encrypt request = (.ok sealed, clientSent)
  opens : service.decrypt sealed = (.ok request, serviceOpened)
  answers : serviceOpened.encrypt answer = (.ok reply, serviceAfter)
  reads : clientSent.decrypt reply = (.ok answer, clientAfter)
  sealed_length : sealed.length = request.length + 16
  reply_length : reply.length = answer.length + 16

/-- **A request and its answer cross**, and the two ciphers go on together. -/
theorem Mirrored.crossing (hS : S.Reliable) {client service : TrafficCipher S} {count : Nat}
    (h : Mirrored client service count) (hcount : count + 1 < 2 ^ 64) {request answer : Bytes}
    (hrequest : request.length < Field.sizeLimit) (hanswer : answer.length < Field.sizeLimit) :
    ∃ x : Crossing client service request answer,
      Mirrored x.clientAfter x.serviceAfter (count + 1) := by
  obtain ⟨sealed, hsend, hopen, hsealed⟩ :=
    crosses hS h.forth h.client.1 h.service.2 hcount hrequest
  let opened : TrafficCipher S := { service with received := .ofNat (count + 1) }
  let sent : TrafficCipher S := { client with sent := .ofNat (count + 1) }
  have hback : opened.sendKey = sent.receiveKey := h.back.symm
  obtain ⟨reply, hreply, hread, hlength⟩ := crosses hS hback h.service.1 h.client.2 hcount hanswer
  exact ⟨⟨sealed, reply, _, _, _, _, hsend, hopen, hreply, hread, hsealed, hlength⟩,
    ⟨h.forth, h.back, ⟨rfl, rfl⟩, ⟨rfl, rfl⟩⟩⟩

end SealedLink
