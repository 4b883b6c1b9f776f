import SealedLink.Noise.CipherSuite

/-!
# The transcript of a handshake

A handshake keeps a chaining key, a hash of all that was said, and, after the first key was mixed
in, a key with a counter for the payloads. Each payload is bound to the transcript so far, and its
ciphertext becomes part of the transcript.
-/

namespace SealedLink

structure SymmetricState (S : CipherSuite) where
  chainingKey : Bytes
  hash : Bytes
  key : Option Bytes := none
  nonce : UInt64 := 0
  deriving DecidableEq, Repr

/-- The side that speaks first, and the side that answers. -/
inductive Role where
  | initiator
  | responder
  deriving DecidableEq, Repr

/-- The keys of the two directions. -/
structure TrafficKeys where
  initiatorToResponder : Bytes
  responderToInitiator : Bytes
  deriving DecidableEq, Repr

namespace TrafficKeys

def sendKey (keys : TrafficKeys) : Role → Bytes
  | .initiator => keys.initiatorToResponder
  | .responder => keys.responderToInitiator

def receiveKey (keys : TrafficKeys) : Role → Bytes
  | .initiator => keys.responderToInitiator
  | .responder => keys.initiatorToResponder

end TrafficKeys

namespace SymmetricState

variable {S : CipherSuite}

/-- A protocol name starts the transcript as it is, filled up with zeros; one that is longer than a
hash is hashed. -/
def ofName (S : CipherSuite) (name : Bytes) : SymmetricState S :=
  let hash := if name.length ≤ hashSize then Bytes.padTo hashSize name else S.hash name
  { chainingKey := hash, hash := hash }

def mixHash (s : SymmetricState S) (data : Bytes) : SymmetricState S :=
  { s with hash := S.hash (s.hash ++ data) }

/-- Takes key material into the keys, and starts the counter of the new key. -/
def mixKey (s : SymmetricState S) (material : Bytes) : Except CryptoError (SymmetricState S) :=
  match S.derive s.chainingKey material with
  | none => .error .keyDerivationFailed
  | some (chainingKey, key) =>
    .ok { s with chainingKey := chainingKey, key := some key, nonce := 0 }

/-- Encrypts a payload. The counter is used up even if the encryption is refused; before the first
key the payload stays as it is. -/
def encryptAndHash (s : SymmetricState S) (plaintext : Bytes) :
    Except CryptoError Bytes × SymmetricState S :=
  match s.key with
  | none => (.ok plaintext, s.mixHash plaintext)
  | some key =>
    match nextCounter s.nonce with
    | .error e => (.error e, s)
    | .ok next =>
      match S.encryptAt key s.nonce s.hash plaintext with
      | .error e => (.error e, { s with nonce := next })
      | .ok ciphertext => (.ok ciphertext, { s with nonce := next }.mixHash ciphertext)

/-- Decrypts a payload, in step with `encryptAndHash` on the other side. A ciphertext that is not
authentic uses up the counter and changes nothing else. -/
def decryptAndHash (s : SymmetricState S) (ciphertext : Bytes) :
    Except CryptoError Bytes × SymmetricState S :=
  match s.key with
  | none => (.ok ciphertext, s.mixHash ciphertext)
  | some key =>
    match nextCounter s.nonce with
    | .error e => (.error e, s)
    | .ok next =>
      match S.decryptAt key s.nonce s.hash ciphertext with
      | .error e => (.error e, { s with nonce := next })
      | .ok plaintext => (.ok plaintext, { s with nonce := next }.mixHash ciphertext)

def split (s : SymmetricState S) : Except CryptoError TrafficKeys :=
  match S.derive s.chainingKey [] with
  | none => .error .keyDerivationFailed
  | some (first, second) => .ok ⟨first, second⟩

end SymmetricState

end SealedLink
