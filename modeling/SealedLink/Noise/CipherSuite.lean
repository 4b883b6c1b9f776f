import SealedLink.Entropy
import SealedLink.Error

/-!
# Cipher suites

The functions that a Noise handshake is built from: a hash with its key derivation, authenticated
encryption, and key agreement. The handshake and everything above it are written for any suite.
-/

namespace SealedLink

structure CipherSuite where
  Secret : Type
  /-- Public keys of a peer that passed every check. -/
  PublicKey : Type
  /-- The name of the protocol, which starts every transcript. -/
  protocolName : Bytes
  hash : Bytes → Bytes
  /-- As many bytes of key material as are asked for; refused for more than there are. -/
  expand : (chainingKey material : Bytes) → (size : Nat) → Option Bytes
  /-- Authenticated encryption; refused for a text over the size limit. -/
  encrypt : (key nonce aad plaintext : Bytes) → Option Bytes
  /-- Decryption; refused for a text that is not authentic. -/
  decrypt : (key nonce aad ciphertext : Bytes) → Option Bytes
  draw : Entropy → Secret × Entropy
  /-- The public key in full. It always has this form: a drawn secret key is not zero, so that its
  point is not the neutral one, whose form is shorter. -/
  publicKey : Secret → Bytes
  parse : Bytes → Option PublicKey
  agree : Secret → PublicKey → Bytes

/-! ## Keys -/

/-- Hashes and keys have this many bytes. -/
def hashSize : Nat := 32

/-- The next chaining key and a key. -/
def CipherSuite.derive (S : CipherSuite) (chainingKey material : Bytes) : Option (Bytes × Bytes) :=
  (S.expand chainingKey material (2 * hashSize)).map fun keys =>
    (keys.take hashSize, keys.drop hashSize)

/-! ## Nonces and counters -/

/-- The nonce of a counter: four zero bytes and the counter in eight bytes. -/
def nonceOf (counter : UInt64) : Bytes := [0, 0, 0, 0] ++ Bytes.ofNat 8 counter.toNat

@[simp] theorem length_nonceOf (counter : UInt64) : (nonceOf counter).length = 12 := by
  simp [nonceOf]

/-- The last counter. It is never used, so that a counter never wraps. -/
def lastCounter : UInt64 := 0xffffffffffffffff

def nextCounter (counter : UInt64) : Except CryptoError UInt64 :=
  if counter = lastCounter then .error .counterExhaustion else .ok (counter + 1)

/-! ## Encryption under a counter -/

namespace CipherSuite

def encryptAt (S : CipherSuite) (key : Bytes) (counter : UInt64) (aad plaintext : Bytes) :
    Except CryptoError Bytes :=
  match S.encrypt key (nonceOf counter) aad plaintext with
  | some ciphertext => .ok ciphertext
  | none => .error .encryptionFailed

def decryptAt (S : CipherSuite) (key : Bytes) (counter : UInt64) (aad ciphertext : Bytes) :
    Except CryptoError Bytes :=
  match S.decrypt key (nonceOf counter) aad ciphertext with
  | some plaintext => .ok plaintext
  | none => .error .decryptionFailed

end CipherSuite

end SealedLink
