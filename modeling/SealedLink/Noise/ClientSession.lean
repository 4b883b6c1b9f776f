import SealedLink.Noise.TrafficCipher
import SealedLink.Noise.Handshake
import SealedLink.CipherSession

/-!
# The client's session

A session runs the initiator's half of one handshake and then encrypts and decrypts. A call at the
wrong time is refused and changes nothing; any other failure ends the session for good.
-/

namespace SealedLink

inductive ClientPhase (S : CipherSuite) where
  | notStarted
  | inProgress (handshake : Initiator S)
  | established (cipher : TrafficCipher S)
  | failed

/-- A client's session, with the random bytes that its ephemeral key is drawn from. -/
structure ClientSession (S : CipherSuite) where
  entropy : Entropy
  phase : ClientPhase S := .notStarted

namespace ClientSession

variable {S : CipherSuite}

def isEstablished (s : ClientSession S) : Bool :=
  match s.phase with
  | .established _ => true
  | _ => false

def isFailed (s : ClientSession S) : Bool :=
  match s.phase with
  | .failed => true
  | _ => false

def phaseName (s : ClientSession S) : String :=
  match s.phase with
  | .notStarted => "NotStarted"
  | .inProgress _ => "InProgress"
  | .established _ => "Established"
  | .failed => "Failed"

def describe (s : ClientSession S) : String :=
  "NoiseSession \x7b state: \"" ++ s.phaseName ++ "\" \x7d"

/-- The first handshake message, made at most once. -/
def start (s : ClientSession S) : Except CryptoError HandshakeMessage × ClientSession S :=
  match s.phase with
  | .failed => (.error .sessionUnusable, s)
  | .inProgress _ | .established _ => (.error .handshakeAlreadyStarted, s)
  | .notStarted =>
    let (secret, entropy) := S.draw s.entropy
    match Initiator.start secret with
    | .error e => (.error e, ⟨entropy, .failed⟩)
    | .ok (handshake, message) => (.ok message, ⟨entropy, .inProgress handshake⟩)

def finish (s : ClientSession S) (response : HandshakeMessage) :
    Except CryptoError Unit × ClientSession S :=
  match s.phase with
  | .failed => (.error .sessionUnusable, s)
  | .notStarted | .established _ => (.error .handshakeNotStarted, s)
  | .inProgress handshake =>
    match handshake.finish response with
    | .error e => (.error e, { s with phase := .failed })
    | .ok keys => (.ok (), { s with phase := .established (.ofKeys S keys .initiator) })

def withCipher (s : ClientSession S)
    (operation : TrafficCipher S → Except CryptoError Bytes × TrafficCipher S) :
    Except CryptoError Bytes × ClientSession S :=
  match s.phase with
  | .failed => (.error .sessionUnusable, s)
  | .notStarted | .inProgress _ => (.error .notEstablished, s)
  | .established cipher =>
    match operation cipher with
    | (.error e, _) => (.error e, { s with phase := .failed })
    | (.ok bytes, cipher) => (.ok bytes, { s with phase := .established cipher })

def encrypt (s : ClientSession S) (plaintext : Bytes) :
    Except CryptoError Bytes × ClientSession S :=
  s.withCipher (·.encrypt plaintext)

def decrypt (s : ClientSession S) (ciphertext : Bytes) :
    Except CryptoError Bytes × ClientSession S :=
  s.withCipher (·.decrypt ciphertext)

instance : CipherSession (ClientSession S) where
  start := start
  finish := finish
  encrypt := encrypt
  decrypt := decrypt

end ClientSession

end SealedLink
