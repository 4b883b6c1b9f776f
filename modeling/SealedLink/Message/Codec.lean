import SealedLink.Error

/-!
# The written form of messages

A message is a tag byte and its fields; a field is its length in four bytes, most significant
first, and its bytes. A response without a message is the tag 0 alone. Requests and responses share
one form, except that a request never has the tag 0.
-/

namespace SealedLink

/-! ## Tags -/

inductive MessageType where
  | empty
  | message (kind : MessageKind)
  deriving DecidableEq, Repr

namespace MessageType

def toByte : MessageType → UInt8
  | .empty => 0
  | .message .attest => 1
  | .message .handshake => 2
  | .message .encrypted => 3

def ofByte? (b : UInt8) : Option MessageType :=
  if b = 0 then some .empty
  else if b = 1 then some (.message .attest)
  else if b = 2 then some (.message .handshake)
  else if b = 3 then some (.message .encrypted)
  else none

@[simp] theorem ofByte?_toByte (t : MessageType) : ofByte? t.toByte = some t := by
  cases t with
  | empty => rfl
  | message k => cases k <;> rfl

theorem ofByte?_eq_some_iff {b : UInt8} {t : MessageType} : ofByte? b = some t ↔ b = t.toByte := by
  constructor
  · intro h
    unfold ofByte? at h
    repeat' split at h
    all_goals simp at h
    all_goals subst h; simp_all [toByte]
  · rintro rfl
    exact ofByte?_toByte t

def decode : Bytes → Except CodecError (MessageType × Bytes)
  | [] => .error (.tooShort 1 0)
  | tag :: rest =>
    match ofByte? tag with
    | some type => .ok (type, rest)
    | none => .error (.invalidTag tag)

end MessageType

/-! ## Fields -/

namespace Field

/-- The length of a field or frame is written in this many bytes. -/
def prefixSize : Nat := 4

/-- A field is shorter than this. -/
def sizeLimit : Nat := 1 <<< 32

def encode (bytes : Bytes) : Except CodecError Bytes :=
  if bytes.length < sizeLimit then .ok (Bytes.ofNat prefixSize bytes.length ++ bytes)
  else .error (.fieldTooLarge bytes.length)

def take (count : Nat) (bs : Bytes) : Except CodecError (Bytes × Bytes) :=
  if bs.length < count then .error (.tooShort count bs.length)
  else .ok (bs.take count, bs.drop count)

def decode (bs : Bytes) : Except CodecError (Bytes × Bytes) := do
  let (size, rest) ← take prefixSize bs
  take (Bytes.toNat size) rest

/-- Refuses anything after the last field. -/
def finish (rest : Bytes) : Except CodecError Unit :=
  if rest.isEmpty then .ok () else .error (.trailingBytes rest.length)

end Field

/-! ## Handshake messages -/

namespace HandshakeMessage

def encode (m : HandshakeMessage) : Except CodecError Bytes := do
  let key ← Field.encode m.publicKey
  let ciphertext ← Field.encode m.ciphertext
  return key ++ ciphertext

def decode (bs : Bytes) : Except CodecError (HandshakeMessage × Bytes) := do
  let (publicKey, rest) ← Field.decode bs
  let (ciphertext, rest) ← Field.decode rest
  return (⟨publicKey, ciphertext⟩, rest)

end HandshakeMessage

/-! ## Requests and responses -/

namespace Request

def encode : Request → Except CodecError Bytes
  | .attest evidence => do
    let field ← Field.encode evidence
    return (MessageType.message .attest).toByte :: field
  | .handshake m => do
    let fields ← m.encode
    return (MessageType.message .handshake).toByte :: fields
  | .encrypted ciphertext => do
    let field ← Field.encode ciphertext
    return (MessageType.message .encrypted).toByte :: field

/-- The tag of a response without a message is refused. -/
def decode (bs : Bytes) : Except CodecError Request := do
  let (type, rest) ← MessageType.decode bs
  let (request, rest) ← match type with
    | .empty => throw (.invalidTag type.toByte)
    | .message .attest => do
      let (evidence, rest) ← Field.decode rest
      pure (Message.attest evidence, rest)
    | .message .handshake => do
      let (m, rest) ← HandshakeMessage.decode rest
      pure (Message.handshake m, rest)
    | .message .encrypted => do
      let (ciphertext, rest) ← Field.decode rest
      pure (Message.encrypted ciphertext, rest)
  Field.finish rest
  return request

end Request

namespace Response

def encode : Response → Except CodecError Bytes
  | .message (.attest evidence) => do
    let field ← Field.encode evidence
    return (MessageType.message .attest).toByte :: field
  | .message (.handshake m) => do
    let fields ← m.encode
    return (MessageType.message .handshake).toByte :: fields
  | .message (.encrypted ciphertext) => do
    let field ← Field.encode ciphertext
    return (MessageType.message .encrypted).toByte :: field
  | .empty => return [MessageType.empty.toByte]

def decode (bs : Bytes) : Except CodecError Response := do
  let (type, rest) ← MessageType.decode bs
  let (response, rest) ← match type with
    | .empty => pure (Response.empty, rest)
    | .message .attest => do
      let (evidence, rest) ← Field.decode rest
      pure (Response.message (.attest evidence), rest)
    | .message .handshake => do
      let (m, rest) ← HandshakeMessage.decode rest
      pure (Response.message (.handshake m), rest)
    | .message .encrypted => do
      let (ciphertext, rest) ← Field.decode rest
      pure (Response.message (.encrypted ciphertext), rest)
  Field.finish rest
  return response

end Response

end SealedLink
