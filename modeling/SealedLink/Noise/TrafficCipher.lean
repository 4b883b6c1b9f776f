import SealedLink.Noise.SymmetricState

/-!
# Traffic after the handshake

Each direction has a key and a counter. The counter of a direction moves on when a message was
encrypted, or was authentic; a text that is refused changes nothing.
-/

namespace SealedLink

/-- The keys and counters of one side. -/
structure TrafficCipher (S : CipherSuite) where
  sendKey : Bytes
  receiveKey : Bytes
  sent : UInt64 := 0
  received : UInt64 := 0
  deriving DecidableEq, Repr

namespace TrafficCipher

variable {S : CipherSuite}

def ofKeys (S : CipherSuite) (keys : TrafficKeys) (role : Role) : TrafficCipher S :=
  { sendKey := keys.sendKey role, receiveKey := keys.receiveKey role }

def encrypt (c : TrafficCipher S) (plaintext : Bytes) :
    Except CryptoError Bytes × TrafficCipher S :=
  match nextCounter c.sent with
  | .error e => (.error e, c)
  | .ok next =>
    match S.encryptAt c.sendKey c.sent [] plaintext with
    | .error e => (.error e, c)
    | .ok ciphertext => (.ok ciphertext, { c with sent := next })

def decrypt (c : TrafficCipher S) (ciphertext : Bytes) :
    Except CryptoError Bytes × TrafficCipher S :=
  match nextCounter c.received with
  | .error e => (.error e, c)
  | .ok next =>
    match S.decryptAt c.receiveKey c.received [] ciphertext with
    | .error e => (.error e, c)
    | .ok plaintext => (.ok plaintext, { c with received := next })

/-- What may be shown of a side: its counters, not its keys. -/
def describe (c : TrafficCipher S) : String :=
  "Crypter \x7b send_counter: " ++ toString c.sent.toNat ++ ", recv_counter: " ++
    toString c.received.toNat ++ ", .. \x7d"

end TrafficCipher

def describeKey : String := "SymmetricKey(..)"

end SealedLink
