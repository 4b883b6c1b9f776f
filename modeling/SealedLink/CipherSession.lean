import SealedLink.Error

/-!
# Secure sessions

The cryptographic half of a channel: one handshake, then encryption in both directions. Every call
gives its result and the session afterwards.
-/

namespace SealedLink

class CipherSession (σ : Type) where
  start : σ → Except CryptoError HandshakeMessage × σ
  finish : σ → HandshakeMessage → Except CryptoError Unit × σ
  encrypt : σ → (plaintext : Bytes) → Except CryptoError Bytes × σ
  decrypt : σ → (ciphertext : Bytes) → Except CryptoError Bytes × σ

end SealedLink
