import SealedLink.Proofs.Noise.Standard

/-!
# What a handshake accepts

Both sides come to the same keys if the answer carries nothing, and the initiator refuses it
otherwise. Each side judges a message by its key and its ciphertext, and accepts one ciphertext for
a key.
-/

namespace SealedLink

variable {S : CipherSuite}

/-! ## Agreement -/

/-- **Both sides come to the same keys if the answer carries nothing**, and the initiator refuses
an answer that carries something. -/
theorem handshake_carries {limit : Nat} (hS : S.Inverts) (hlimit : S.SealsUpTo limit)
    (hK : S.Derives) {a b : S.Secret} (h : S.Agrees a b) {e e' : Entropy} (hdraw : S.draw e = (b, e'))
    {payload : Bytes} (hp : payload.length ≤ limit) :
    ∃ initiator message answer keys, Initiator.start a = .ok (initiator, message) ∧
      Responder.respondWithPayload S message payload e = (.ok (answer, keys), e') ∧
      (payload = [] → initiator.finish answer = .ok keys) ∧
      (payload ≠ [] → initiator.finish answer = .error (.unexpectedPayload payload.length)) ∧
      keys.sendKey .initiator = keys.receiveKey .responder ∧
      keys.receiveKey .initiator = keys.sendKey .responder := by
  obtain ⟨publicA, publicB, hparseA, hparseB, hshared⟩ := h.shared
  obtain ⟨greeting, reply, i, -, -, -, hstart, hrespond, hfinish⟩ :=
    exchange_eq hS hlimit hK hparseA hparseB hshared hp hdraw
  refine ⟨i, _, _, _, hstart, hrespond, fun hempty => ?_, fun hne => ?_, rfl, rfl⟩
  · rw [hfinish, if_pos hempty]
  · rw [hfinish, if_neg hne]

open CipherSuite in
/-- The scalars 1 and 2, and an answer that carries one byte. -/
theorem handshake_burdened : p256AesGcmSha256.Inverts ∧ p256AesGcmSha256.SealsUpTo Gcm.sizeLimit ∧
    p256AesGcmSha256.Derives ∧ p256AesGcmSha256.Agrees (1 : Nat) (2 : Nat) ∧
    p256AesGcmSha256.draw (.small 2) = ((2 : Nat), (p256AesGcmSha256.draw (.small 2)).2) ∧
    ([0x41] : Bytes).length ≤ Gcm.sizeLimit ∧
    ∃ initiator message answer keys,
      Initiator.start (S := p256AesGcmSha256) (1 : Nat) = .ok (initiator, message) ∧
      Responder.respondWithPayload p256AesGcmSha256 message [0x41] (.small 2) =
        (.ok (answer, keys), (p256AesGcmSha256.draw (.small 2)).2) ∧
      initiator.finish answer = .error (.unexpectedPayload 1) := by
  have hdraw : p256AesGcmSha256.draw (.small 2) =
      ((2 : Nat), (p256AesGcmSha256.draw (.small 2)).2) := Prod.ext draw_two rfl
  have hp : ([0x41] : Bytes).length ≤ Gcm.sizeLimit := by decide
  obtain ⟨initiator, message, answer, keys, hstart, hrespond, -, hfinish, -⟩ :=
    handshake_carries inverts_p256AesGcmSha256 sealsUpTo_p256AesGcmSha256 derives_p256AesGcmSha256
      agrees_one_two hdraw hp
  exact ⟨inverts_p256AesGcmSha256, sealsUpTo_p256AesGcmSha256, derives_p256AesGcmSha256,
    agrees_one_two, hdraw, hp, initiator, message, answer, keys, hstart, hrespond,
    hfinish (by decide)⟩

/-! ## Acceptance -/

/-- The hash of what was said, one thing after another, after a first hash. -/
def CipherSuite.hashOf (S : CipherSuite) (start : Bytes) (said : List Bytes) : Bytes :=
  said.foldl (fun hash data => S.hash (hash ++ data)) start

/-- The hash that a protocol starts from: its name filled up, or the hash of a long name. -/
def CipherSuite.nameHash (S : CipherSuite) : Bytes :=
  if S.protocolName.length ≤ 32 then Bytes.padTo 32 S.protocolName else S.hash S.protocolName

/-- How a side judges messages: what it refuses, and for what, and what it takes. Before a message
with a public key the hash was `start`, and then was said what `said` tells. -/
structure Judges {α : Type} (judge : HandshakeMessage → Except CryptoError α)
    (transcript : Bytes → S.PublicKey → SymmetricState S) (start : Bytes)
    (said : Bytes → List Bytes) (Refuses : HandshakeMessage → CryptoError → Prop) : Prop where
  /-- A ciphertext is bound to all that was said before it. -/
  binds : ∀ publicKey peer, (transcript publicKey peer).hash = S.hashOf start (said publicKey)
  refuses : ∀ m e, judge m = .error e ↔ Refuses m e
  accepts : ∀ m, (∃ x, judge m = .ok x) ↔ ∃ peer, S.parse m.publicKey = some peer ∧
    (transcript m.publicKey peer).Carries [] m.ciphertext
  errors : ∀ m e, judge m = .error e → e = .invalidPublicKey ∨ e = .decryptionFailed ∨
    e = .unexpectedPayload (m.ciphertext.length - 16)
  /-- One ciphertext at most is taken with a key, and it has the length of a tag. -/
  sole : ∀ publicKey ciphertext x, judge ⟨publicKey, ciphertext⟩ = .ok x →
    ciphertext.length = 16 ∧
      ∀ other, other ≠ ciphertext → ∃ e, judge ⟨publicKey, other⟩ = .error e

theorem SymmetricState.Flaw.cases {s : SymmetricState S} {ciphertext : Bytes} {e : CryptoError}
    (h : s.Flaw ciphertext e) :
    e = .decryptionFailed ∨ e = .unexpectedPayload (ciphertext.length - 16) := by
  cases h with
  | forged => exact .inl rfl
  | burdened => exact .inr rfl

theorem SymmetricState.Flaw.forged_of_short (hS : S.Exact) {s : SymmetricState S}
    {ciphertext : Bytes} (h : ciphertext.length < 16) : s.Flaw ciphertext .decryptionFailed := by
  refine .forged fun payload hc => ?_
  have := hc.length hS
  omega

theorem sole_of_accepts (hS : S.Exact) {α : Type} (judge : HandshakeMessage → Except CryptoError α)
    (transcript : Bytes → S.PublicKey → SymmetricState S)
    (h : ∀ m, (∃ x, judge m = .ok x) ↔ ∃ peer, S.parse m.publicKey = some peer ∧
      (transcript m.publicKey peer).Carries [] m.ciphertext)
    {publicKey ciphertext : Bytes} {x : α} (hx : judge ⟨publicKey, ciphertext⟩ = .ok x) :
    ciphertext.length = 16 ∧
      ∀ other, other ≠ ciphertext → ∃ e, judge ⟨publicKey, other⟩ = .error e := by
  obtain ⟨peer, hpeer, hc⟩ := (h _).mp ⟨x, hx⟩
  refine ⟨hc.length hS, fun other hother => ?_⟩
  cases hjudge : judge ⟨publicKey, other⟩ with
  | error e => exact ⟨e, rfl⟩
  | ok y =>
    obtain ⟨peer', hpeer', hc'⟩ := (h _).mp ⟨y, hjudge⟩
    -- Both carry nothing at one transcript, where a payload has one ciphertext.
    obtain rfl : peer = peer' := Option.some.inj (hpeer.symm.trans hpeer')
    exact absurd (hc.unique hc') hother

theorem Initiator.judges (hS : S.Exact) (hK : S.Derives) (i : Initiator S) :
    Judges i.finish i.transcript i.state.hash (fun publicKey => [publicKey]) i.Refuses := by
  have haccepts (m : HandshakeMessage) : (∃ keys, i.finish m = .ok keys) ↔
      ∃ peer, S.parse m.publicKey = some peer ∧
        (i.transcript m.publicKey peer).Carries [] m.ciphertext :=
    i.finish_ok_iff hS hK
  refine ⟨fun _ _ => rfl, fun m e => i.finish_error_iff hS hK, haccepts, fun m e he => ?_,
    fun _ _ _ hx => sole_of_accepts hS i.finish i.transcript haccepts hx⟩
  cases (i.finish_error_iff hS hK).mp he with
  | unreadable => exact .inl rfl
  | flawed _ hc => exact .inr hc.cases

theorem Responder.judges {limit : Nat} (hS : S.Exact) (hlimit : S.SealsUpTo limit)
    (hK : S.Derives) (entropy : Entropy) : Judges (fun m => (Responder.respond S m entropy).1)
      (fun publicKey _ => Responder.transcript S publicKey) S.nameHash
      (fun publicKey => [prologue, publicKey]) (Responder.Refuses S) := by
  have hrefuses (m : HandshakeMessage) (e : CryptoError) :
      (Responder.respond S m entropy).1 = .error e ↔ Responder.Refuses S m e := by
    rw [← accept_error_iff hS hK]
    rcases respond_cases hlimit hK m entropy with
      ⟨e', haccept, hrespond⟩ | ⟨state, peer, answer, keys, haccept, hrespond⟩
    · simp [haccept, hrespond]
    · simp [haccept, hrespond]
  have haccepts (m : HandshakeMessage) : (∃ x, (Responder.respond S m entropy).1 = .ok x) ↔
      ∃ peer, S.parse m.publicKey = some peer ∧
        (Responder.transcript S m.publicKey).Carries [] m.ciphertext := by
    rcases respond_cases hlimit hK m entropy with
      ⟨e, haccept, hrespond⟩ | ⟨state, peer, answer, keys, haccept, hrespond⟩
    · simp only [hrespond, reduceCtorEq, exists_false, false_iff]
      rintro ⟨peer, hk, hc⟩
      rw [(accept_ok_iff hS hK).mpr ⟨hk, hc, rfl⟩] at haccept
      cases haccept
    · obtain ⟨hk, hc, -⟩ := (accept_ok_iff hS hK).mp haccept
      simp only [hrespond]
      exact ⟨fun _ => ⟨peer, hk, hc⟩, fun _ => ⟨_, rfl⟩⟩
  refine ⟨fun _ _ => rfl, hrefuses, haccepts, fun m e he => ?_, fun _ _ _ hx =>
    sole_of_accepts hS (fun m => (Responder.respond S m entropy).1)
      (fun publicKey _ => Responder.transcript S publicKey) haccepts hx⟩
  cases (hrefuses m e).mp he with
  | flawed hc => exact .inr hc.cases
  | unreadable => exact .inl rfl

/-- **Each side takes one ciphertext for a key, and names what is wrong with any other**: the
initiator judges the key first, and the responder the ciphertext. -/
theorem judges_exactly {limit : Nat} (hS : S.Exact) (hlimit : S.SealsUpTo limit)
    (hK : S.Derives) :
    (∀ i : Initiator S, Judges i.finish i.transcript i.state.hash (fun publicKey => [publicKey])
      i.Refuses) ∧
    (∀ secret (i : Initiator S) m, Initiator.start secret = .ok (i, m) →
      i.state.hash = S.hashOf S.nameHash [prologue, m.publicKey, m.ciphertext]) ∧
    ∀ entropy, Judges (fun m => (Responder.respond S m entropy).1)
        (fun publicKey _ => Responder.transcript S publicKey) S.nameHash
        (fun publicKey => [prologue, publicKey]) (Responder.Refuses S) ∧
      ∀ m e, (Responder.respond S m entropy).1 = .error e →
        (Responder.respond S m entropy).2 = entropy := by
  refine ⟨fun i => i.judges hS hK, fun secret i m h => ?_,
    fun entropy => ⟨Responder.judges hS hlimit hK entropy, ?_⟩⟩
  · obtain ⟨ciphertext, -, hstart⟩ := Initiator.start_eq hlimit hK secret
    cases h.symm.trans hstart
    rfl
  intro m e he
  rcases Responder.respond_cases hlimit hK m entropy with
    ⟨_, -, hrespond⟩ | ⟨_, _, _, _, -, hrespond⟩
  · rw [hrespond]
  · rw [hrespond] at he
    cases he

open CipherSuite in
/-- An answer without a key, and a first message whose ciphertext was cut off. -/
theorem judges_truncated : p256AesGcmSha256.Exact ∧ p256AesGcmSha256.SealsUpTo Gcm.sizeLimit ∧
    p256AesGcmSha256.Derives ∧
    Initiator.finish (S := p256AesGcmSha256) ⟨.initial _, (1 : Nat)⟩ ⟨[], []⟩ =
      .error .invalidPublicKey ∧
    Responder.respond p256AesGcmSha256 ⟨P256.publicKey 1, []⟩ (.small 2) =
      (.error .decryptionFailed, .small 2) := by
  obtain ⟨hinitiator, -, hresponder⟩ := judges_exactly exact_p256AesGcmSha256
    sealsUpTo_p256AesGcmSha256 derives_p256AesGcmSha256
  obtain ⟨hjudges, hentropy⟩ := hresponder (.small 2)
  have hshort : Responder.Refuses p256AesGcmSha256 ⟨P256.publicKey 1, []⟩ .decryptionFailed :=
    .flawed (.forged_of_short exact_p256AesGcmSha256 (Nat.zero_lt_succ _))
  have herror := (hjudges.refuses _ _).mpr hshort
  refine ⟨exact_p256AesGcmSha256, sealsUpTo_p256AesGcmSha256, derives_p256AesGcmSha256, ?_,
    Prod.ext herror ?_⟩
  · exact ((hinitiator _).refuses _ _).mpr (.unreadable rfl)
  · exact hentropy _ _ herror

end SealedLink
