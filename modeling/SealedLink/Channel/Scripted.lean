import SealedLink.Channel.Basic

/-!
# Scripted collaborators

A transport and a session whose answers are written down beforehand, to drive a channel without a
peer.
-/

namespace SealedLink

/-! ## Transport -/

/-- Answers at once from a script; when the script is over it keeps each request open until an
answer is given by hand. -/
structure ScriptedTransport where
  script : List TransportResult := []
  kept : List UInt64 := []

namespace ScriptedTransport

def send (t : ScriptedTransport) (sequence : UInt64) (_ : Request) :
    Option TransportResult × ScriptedTransport :=
  match t.script with
  | result :: rest => (some result, { t with script := rest })
  | [] => (none, { t with kept := t.kept ++ [sequence] })

instance : Transport ScriptedTransport := ⟨send⟩

end ScriptedTransport

namespace Channel

variable {σ α : Type}

def takeKept (c : Channel ScriptedTransport σ α) :
    Option (UInt64 × Channel ScriptedTransport σ α) :=
  match c.transport.kept with
  | [] => none
  | sequence :: rest =>
    some (sequence, { c with transport := { c.transport with kept := rest } })

def replyKept (c : Channel ScriptedTransport σ α) (result : TransportResult) :
    Option (Channel ScriptedTransport σ α) :=
  c.takeKept.map fun (sequence, c) => c.deliver sequence result

def extendScript (c : Channel ScriptedTransport σ α) (results : List TransportResult) :
    Channel ScriptedTransport σ α :=
  { c with transport := { c.transport with script := c.transport.script ++ results } }

end Channel

/-! ## Session -/

/-- Encrypts and decrypts by leaving texts as they are. Each operation fails where its script says
so; encryptions and decryptions are counted from 1. -/
structure ScriptedSession where
  message : HandshakeMessage := ⟨[], []⟩
  startError : Option CryptoError := none
  finishError : Option CryptoError := none
  encryptFailsAt : Option Nat := none
  decryptFailsAt : Option Nat := none
  encryptions : Nat := 0
  decryptions : Nat := 0
  deriving DecidableEq, Repr

namespace ScriptedSession

def start (s : ScriptedSession) : Except CryptoError HandshakeMessage × ScriptedSession :=
  match s.startError with
  | some e => (.error e, s)
  | none => (.ok s.message, s)

def finish (s : ScriptedSession) (_ : HandshakeMessage) :
    Except CryptoError Unit × ScriptedSession :=
  match s.finishError with
  | some e => (.error e, s)
  | none => (.ok (), s)

def encrypt (s : ScriptedSession) (plaintext : Bytes) :
    Except CryptoError Bytes × ScriptedSession :=
  let number := s.encryptions + 1
  (if s.encryptFailsAt = some number then .error .encryptionFailed else .ok plaintext,
    { s with encryptions := number })

def decrypt (s : ScriptedSession) (ciphertext : Bytes) :
    Except CryptoError Bytes × ScriptedSession :=
  let number := s.decryptions + 1
  (if s.decryptFailsAt = some number then .error .decryptionFailed else .ok ciphertext,
    { s with decryptions := number })

instance : CipherSession ScriptedSession where
  start := start
  finish := finish
  encrypt := encrypt
  decrypt := decrypt

end ScriptedSession

end SealedLink
