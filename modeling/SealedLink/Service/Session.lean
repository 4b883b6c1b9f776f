import SealedLink.Noise.TrafficCipher
import SealedLink.Noise.Handshake
import SealedLink.Service.Application

/-!
# The service's session

A session with one client: it answers one attestation request, one handshake and then encrypted
requests, in this order. Anything else closes it for good.
-/

namespace SealedLink

/-- A session, with the evidence that it presents, the application behind it, and the random bytes
that its ephemeral key is drawn from. It has no ciphers before the handshake. -/
structure ServiceSession (S : CipherSuite) (η : Type) where
  evidence : Bytes
  application : η
  entropy : Entropy
  phase : ServicePhase := .awaitingAttestation
  cipher : Option (TrafficCipher S) := none
  served : Nat := 0

namespace ServiceSession

variable {S : CipherSuite} {η : Type}

def close (s : ServiceSession S η) : ServiceSession S η :=
  { s with phase := .closed, cipher := none }

def respond (s : ServiceSession S η) (message : HandshakeMessage) :
    Except Error Response × ServiceSession S η :=
  match Responder.respond S message s.entropy with
  | (.error e, entropy) => (.error (.crypto e), { s with entropy := entropy })
  | (.ok (answer, keys), entropy) =>
    (.ok (.message (.handshake answer)),
      { s with
        entropy := entropy, phase := .established, cipher := some (.ofKeys S keys .responder) })

def serve [Application η] (s : ServiceSession S η) (ciphertext : Bytes) :
    Except Error Response × ServiceSession S η :=
  match s.cipher with
  | none => (.error (.crypto .notEstablished), s)
  | some cipher =>
    match cipher.decrypt ciphertext with
    | (.error e, cipher) => (.error (.crypto e), { s with cipher := some cipher })
    | (.ok request, cipher) =>
      let (answer, application) := Application.answer s.application request
      match cipher.encrypt answer with
      | (.error e, cipher) =>
        (.error (.crypto e), { s with application := application, cipher := some cipher })
      | (.ok sealed, cipher) =>
        (.ok (.message (.encrypted sealed)),
          { s with application := application, cipher := some cipher, served := s.served + 1 })

def dispatch [Application η] (s : ServiceSession S η) (request : Request) :
    Except Error Response × ServiceSession S η :=
  match s.phase, request with
  | .awaitingAttestation, .attest _ =>
    (.ok (.message (.attest s.evidence)), { s with phase := .awaitingHandshake })
  | .awaitingHandshake, .handshake message => s.respond message
  | .established, .encrypted ciphertext => s.serve ciphertext
  | phase, request => (.error (.unexpectedMessage phase request.kind), s)

def closeOnError : Except Error Response × ServiceSession S η →
    Except Error Response × ServiceSession S η
  | (.error e, s) => (.error e, s.close)
  | (.ok response, s) => (.ok response, s)

/-- Answers a message of the client. Any error closes the session. -/
def handle [Application η] (s : ServiceSession S η) (request : Request) :
    Except Error Response × ServiceSession S η :=
  closeOnError (s.dispatch request)

def phaseName (s : ServiceSession S η) : String :=
  match s.phase with
  | .awaitingAttestation => "AwaitingAttestation"
  | .awaitingHandshake => "AwaitingHandshake"
  | .established => "Established"
  | .closed => "Closed"

def describe (s : ServiceSession S η) : String :=
  "ServerSession \x7b state: " ++ s.phaseName ++ ", requests_served: " ++ toString s.served ++
    ", .. \x7d"

end ServiceSession

end SealedLink
