import SealedLink.Crypto.Gcm
import SealedLink.Crypto.Hkdf
import SealedLink.Crypto.P256
import SealedLink.Noise.CipherSuite

/-!
# The suite of P-256, AES-256-GCM and SHA-256

The suite that the library's own links use.
-/

namespace SealedLink.CipherSuite

/-- P-256 key agreement, AES-256-GCM and SHA-256. -/
def p256AesGcmSha256 : CipherSuite where
  Secret := Nat
  PublicKey := P256.PublicKey
  protocolName := "Noise_NN_P256_AESGCM_SHA256".toList.map fun c => UInt8.ofNat c.toNat
  hash := Sha256.digest
  expand chainingKey material := Hkdf.expand (Hkdf.extract chainingKey material) []
  encrypt := Gcm.encrypt
  decrypt := Gcm.decrypt
  draw := P256.drawScalar
  publicKey := P256.publicKey
  parse := P256.PublicKey.parse?
  agree := P256.sharedSecret

end SealedLink.CipherSuite
