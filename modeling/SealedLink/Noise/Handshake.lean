import SealedLink.Noise.SymmetricState

/-!
# The two-message handshake

The initiator sends an ephemeral key, the responder answers with its own. Both keys are mixed into
the keys of the transcript before each payload, and the shared secret before the second one. Both
payloads are empty; a handshake that carries one is refused.
-/

namespace SealedLink

/-- The one byte that both sides take into the transcript before the first message. -/
def prologue : Bytes := [0]

namespace SymmetricState

variable {S : CipherSuite}

def initial (S : CipherSuite) : SymmetricState S :=
  (ofName S S.protocolName).mixHash prologue

/-- Takes an ephemeral public key into the transcript and the keys. -/
def mixPublicKey (s : SymmetricState S) (publicKey : Bytes) :
    Except CryptoError (SymmetricState S) :=
  (s.mixHash publicKey).mixKey publicKey

/-- Decrypts a payload that has to be empty. -/
def decryptEmpty (s : SymmetricState S) (ciphertext : Bytes) :
    Except CryptoError (SymmetricState S) :=
  match s.decryptAndHash ciphertext with
  | (.error e, _) => .error e
  | (.ok payload, s) =>
    if payload.isEmpty then .ok s else .error (.unexpectedPayload payload.length)

end SymmetricState

/-! ## The initiator -/

structure Initiator (S : CipherSuite) where
  state : SymmetricState S
  secret : S.Secret

namespace Initiator

variable {S : CipherSuite}

def start (secret : S.Secret) : Except CryptoError (Initiator S × HandshakeMessage) := do
  let publicKey := S.publicKey secret
  let keyed ← (SymmetricState.initial S).mixPublicKey publicKey
  match keyed.encryptAndHash [] with
  | (.error e, _) => throw e
  | (.ok ciphertext, state) => return (⟨state, secret⟩, ⟨publicKey, ciphertext⟩)

def finish (i : Initiator S) (response : HandshakeMessage) : Except CryptoError TrafficKeys :=
  match S.parse response.publicKey with
  | none => .error .invalidPublicKey
  | some peer => do
    let keyed ← i.state.mixPublicKey response.publicKey
    let shared ← keyed.mixKey (S.agree i.secret peer)
    let final ← shared.decryptEmpty response.ciphertext
    final.split

end Initiator

/-! ## The responder -/

namespace Responder

variable {S : CipherSuite}

/-- The checks on the first message: its payload first, then its key. -/
def accept (request : HandshakeMessage) : Except CryptoError (SymmetricState S × S.PublicKey) := do
  let keyed ← (SymmetricState.initial S).mixPublicKey request.publicKey
  let state ← keyed.decryptEmpty request.ciphertext
  match S.parse request.publicKey with
  | none => throw .invalidPublicKey
  | some peer => return (state, peer)

/-- The answer to an accepted message, under a secret key, and the traffic keys. -/
def answer (state : SymmetricState S) (peer : S.PublicKey) (secret : S.Secret) (payload : Bytes) :
    Except CryptoError (HandshakeMessage × TrafficKeys) := do
  let publicKey := S.publicKey secret
  let keyed ← state.mixPublicKey publicKey
  let shared ← keyed.mixKey (S.agree secret peer)
  match shared.encryptAndHash payload with
  | (.error e, _) => throw e
  | (.ok ciphertext, final) => return (⟨publicKey, ciphertext⟩, ← final.split)

/-- The answer with a payload. A secret key is drawn only once the message is accepted. -/
def respondWithPayload (S : CipherSuite) (request : HandshakeMessage) (payload : Bytes)
    (entropy : Entropy) : Except CryptoError (HandshakeMessage × TrafficKeys) × Entropy :=
  match accept (S := S) request with
  | .error e => (.error e, entropy)
  | .ok (state, peer) =>
    let (secret, entropy) := S.draw entropy
    (answer state peer secret payload, entropy)

/-- The answer to a message, with the empty payload that initiators expect. -/
def respond (S : CipherSuite) (request : HandshakeMessage) (entropy : Entropy) :
    Except CryptoError (HandshakeMessage × TrafficKeys) × Entropy :=
  respondWithPayload S request [] entropy

end Responder

end SealedLink
