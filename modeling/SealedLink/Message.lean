import SealedLink.Bytes

/-!
# Messages

What the two sides say to each other. A request is always a message; a response may also carry
none at all.
-/

namespace SealedLink

/-- One handshake message: an ephemeral public key and a payload encrypted under the handshake
key of that moment. -/
structure HandshakeMessage where
  publicKey : Bytes
  ciphertext : Bytes
  deriving DecidableEq, Repr

inductive MessageKind where
  | attest
  | handshake
  | encrypted
  deriving DecidableEq, Repr

/-- A message: evidence, a step of the handshake, or application data under the traffic keys. -/
inductive Message where
  | attest (evidence : Bytes)
  | handshake (message : HandshakeMessage)
  | encrypted (ciphertext : Bytes)
  deriving DecidableEq, Repr

abbrev Request := Message

inductive Response where
  | message (m : Message)
  | empty
  deriving DecidableEq, Repr

def MessageKind.name : MessageKind → String
  | .attest => "attest"
  | .handshake => "handshake"
  | .encrypted => "encrypted"

def Message.kind : Message → MessageKind
  | .attest _ => .attest
  | .handshake _ => .handshake
  | .encrypted _ => .encrypted

def Response.kindName : Response → String
  | .message m => m.kind.name
  | .empty => "empty"

end SealedLink
