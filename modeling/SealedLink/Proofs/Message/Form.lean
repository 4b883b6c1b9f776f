import Mathlib.Data.List.Basic
import SealedLink.Proofs.Message.Field

/-!
# The form of messages

A message is written as the tag of its type and as many fields as the type has. `Form` is that form
without the messages: types, numbers of fields, lists of fields. The writers and the readers of
requests and of responses keep to it, which is proved of each of them on its own (`Request.kept`,
`Response.kept`).
-/

namespace SealedLink

def MessageKind.fieldCount : MessageKind → Nat
  | .attest => 1
  | .handshake => 2
  | .encrypted => 1

def MessageType.fieldCount : MessageType → Nat
  | .empty => 0
  | .message kind => kind.fieldCount

namespace Form

def writeFields : List Bytes → Except CodecError Bytes
  | [] => return []
  | field :: fields => do
    let bytes ← Field.encode field
    return bytes ++ (← writeFields fields)

def write (type : MessageType) (fields : List Bytes) : Except CodecError Bytes := do
  return type.toByte :: (← writeFields fields)

/-- Reads a number of fields, after which nothing may follow. -/
def readFields : Nat → Bytes → Except CodecError (List Bytes)
  | 0, bs => do
    Field.finish bs
    return []
  | count + 1, bs => do
    let (field, rest) ← Field.decode bs
    return field :: (← readFields count rest)

/-- Reads a message of one of the types that are allowed. -/
def read (allowed : MessageType → Bool) : Bytes → Except CodecError (MessageType × List Bytes)
  | [] => .error (.tooShort 1 0)
  | tag :: rest =>
    match (MessageType.ofByte? tag).filter allowed with
    | some type => do return (type, ← readFields type.fieldCount rest)
    | none => .error (.invalidTag tag)

/-! ## What is written is read back, and what is read is written -/

def Sized (fields : List Bytes) : Prop := ∀ field ∈ fields, field.length < Field.sizeLimit

/-- The parts that a message is read in: its tag, and of each field the size and the bytes. -/
def parts (type : MessageType) (fields : List Bytes) : List Bytes :=
  [type.toByte] :: fields.flatMap Field.parts

variable {allowed : MessageType → Bool} {type : MessageType} {field bs : Bytes}
  {fields : List Bytes} {count : Nat} {tag : UInt8}

theorem sized_cons : Sized (field :: fields) ↔ field.length < Field.sizeLimit ∧ Sized fields :=
  List.forall_mem_cons

theorem writeFields_cons : writeFields (field :: fields) = .ok bs ↔
    ∃ first rest, Field.encode field = .ok first ∧ writeFields fields = .ok rest ∧
      bs = first ++ rest := by
  simp only [writeFields, bind_eq_ok, pure, Except.pure, Except.ok.injEq]
  constructor
  · rintro ⟨first, hfirst, rest, hrest, rfl⟩
    exact ⟨first, rest, hfirst, hrest, rfl⟩
  · rintro ⟨first, rest, hfirst, hrest, rfl⟩
    exact ⟨first, hfirst, rest, hrest, rfl⟩

theorem readFields_cons : readFields (count + 1) bs = .ok fields ↔
    ∃ first rest left, Field.decode bs = .ok (first, left) ∧ readFields count left = .ok rest ∧
      fields = first :: rest := by
  simp only [readFields, bind_eq_ok, pure, Except.pure, Except.ok.injEq, Prod.exists]
  constructor
  · rintro ⟨first, left, hfirst, rest, hrest, rfl⟩
    exact ⟨first, rest, left, hfirst, hrest, rfl⟩
  · rintro ⟨first, rest, left, hfirst, hrest, rfl⟩
    exact ⟨first, left, hfirst, rest, hrest, rfl⟩

theorem writeFields_eq_ok : writeFields fields = .ok bs ↔
    Sized fields ∧ bs = (fields.flatMap Field.parts).flatten := by
  induction fields generalizing bs with
  | nil => simp [writeFields, Sized, pure, Except.pure, eq_comm]
  | cons field fields ih =>
    rw [writeFields_cons, sized_cons, List.flatMap_cons, List.flatten_append, Field.flatten_parts]
    constructor
    · rintro ⟨first, rest, hfirst, hrest, rfl⟩
      obtain ⟨hsize, rfl⟩ := Field.encode_eq_ok hfirst
      obtain ⟨hsized, rfl⟩ := ih.mp hrest
      exact ⟨⟨hsize, hsized⟩, rfl⟩
    · rintro ⟨⟨hsize, hsized⟩, rfl⟩
      exact ⟨_, _, Field.encode_ok hsize, ih.mpr ⟨hsized, rfl⟩, rfl⟩

theorem writeFields_error {e : CodecError} (h : writeFields fields = .error e) :
    ∃ size, e = .fieldTooLarge size := by
  induction fields with
  | nil => cases h
  | cons field fields ih =>
    rcases bind_eq_error.mp h with hfield | ⟨_, -, h⟩
    · exact Field.encode_error hfield
    · rcases bind_eq_error.mp h with hrest | ⟨_, -, hnone⟩
      · exact ih hrest
      · cases hnone

theorem write_eq_ok : write type fields = .ok bs ↔
    Sized fields ∧ bs = (parts type fields).flatten := by
  simp only [write, bind_eq_ok, pure, Except.pure, Except.ok.injEq, writeFields_eq_ok]
  constructor
  · rintro ⟨_, ⟨hsized, rfl⟩, rfl⟩
    exact ⟨hsized, rfl⟩
  · rintro ⟨hsized, rfl⟩
    exact ⟨_, ⟨hsized, rfl⟩, rfl⟩

theorem write_error {e : CodecError} (h : write type fields = .error e) :
    ∃ size, e = .fieldTooLarge size := by
  rcases bind_eq_error.mp h with hfields | ⟨_, -, hnone⟩
  · exact writeFields_error hfields
  · cases hnone

theorem readFields_eq_ok : readFields count bs = .ok fields ↔
    fields.length = count ∧ writeFields fields = .ok bs := by
  induction count generalizing bs fields with
  | zero =>
    simp only [readFields, bind_eq_ok, Field.finish_eq_ok, List.length_eq_zero_iff, pure,
      Except.pure, Except.ok.injEq]
    constructor
    · rintro ⟨-, rfl, rfl⟩
      exact ⟨rfl, rfl⟩
    · rintro ⟨rfl, h⟩
      exact ⟨(), (Except.ok.inj h).symm, rfl⟩
  | succ count ih =>
    rw [readFields_cons]
    constructor
    · rintro ⟨first, rest, left, hfirst, hrest, rfl⟩
      obtain ⟨written, hwritten, rfl⟩ := Field.decode_eq_ok.mp hfirst
      obtain ⟨rfl, hleft⟩ := ih.mp hrest
      exact ⟨rfl, writeFields_cons.mpr ⟨written, left, hwritten, hleft, rfl⟩⟩
    · rintro ⟨hcount, h⟩
      cases fields with
      | nil => cases hcount
      | cons field fields =>
        obtain ⟨written, left, hwritten, hleft, rfl⟩ := writeFields_cons.mp h
        exact ⟨field, fields, left, Field.decode_eq_ok.mpr ⟨written, hwritten, rfl⟩,
          ih.mpr ⟨Nat.succ.inj hcount, hleft⟩, rfl⟩

theorem read_toByte (h : allowed type = true) (rest : Bytes) :
    read allowed (type.toByte :: rest) = (readFields type.fieldCount rest).map (type, ·) := by
  simp only [read, MessageType.ofByte?_toByte, Option.filter_some, h, if_true]
  cases readFields type.fieldCount rest <;> rfl

theorem read_strange (h : ∀ type, allowed type = true → type.toByte ≠ tag) (rest : Bytes) :
    read allowed (tag :: rest) = .error (.invalidTag tag) := by
  have hnone : (MessageType.ofByte? tag).filter allowed = none := by
    rw [Option.filter_eq_none_iff]
    intro type htype hallowed
    exact h type hallowed (MessageType.ofByte?_eq_some_iff.mp htype).symm
  simp only [read, hnone]

theorem tag_cases (allowed : MessageType → Bool) (tag : UInt8) :
    (∃ type, allowed type = true ∧ type.toByte = tag) ∨
      ∀ type, allowed type = true → type.toByte ≠ tag := by
  by_cases h : ∃ type, allowed type = true ∧ type.toByte = tag
  · exact .inl h
  · exact .inr fun type hallowed htag => h ⟨type, hallowed, htag⟩

theorem read_eq_ok : read allowed bs = .ok (type, fields) ↔
    allowed type = true ∧ fields.length = type.fieldCount ∧ write type fields = .ok bs := by
  constructor
  · intro h
    cases bs with
    | nil => cases h
    | cons tag rest =>
      rcases tag_cases allowed tag with ⟨type', hallowed, rfl⟩ | hstrange
      · rw [read_toByte hallowed] at h
        cases hread : readFields type'.fieldCount rest with
        | error e => rw [hread] at h; cases h
        | ok fields' =>
          rw [hread] at h
          obtain ⟨rfl, rfl⟩ := Prod.mk.inj (Except.ok.inj h)
          obtain ⟨hcount, hwrite⟩ := readFields_eq_ok.mp hread
          exact ⟨hallowed, hcount, bind_eq_ok.mpr ⟨_, hwrite, rfl⟩⟩
      · rw [read_strange hstrange] at h
        cases h
  · rintro ⟨hallowed, hcount, h⟩
    obtain ⟨rest, hrest, heq⟩ := bind_eq_ok.mp h
    obtain rfl : type.toByte :: rest = bs := Except.ok.inj heq
    rw [read_toByte hallowed, readFields_eq_ok.mpr ⟨hcount, hrest⟩]
    rfl

/-! ## Writers and readers that keep to the form -/

/-- The messages are the allowed types with as many fields as they have, and are written and read in
the form. -/
structure Kept {μ : Type} (allowed : MessageType → Bool) (type : μ → MessageType)
    (fields : μ → List Bytes) (encode : μ → Except CodecError Bytes)
    (decode : Bytes → Except CodecError μ) : Prop where
  allows : ∀ m, allowed (type m) = true
  count : ∀ m, (fields m).length = (type m).fieldCount
  all : ∀ t fs, allowed t = true → fs.length = t.fieldCount → ∃ m, type m = t ∧ fields m = fs
  ext : ∀ m m', type m = type m' → fields m = fields m' → m = m'
  writes : ∀ m, encode m = write (type m) (fields m)
  reads : ∀ bs, (decode bs).map (fun m => (type m, fields m)) = read allowed bs

namespace Kept

variable {μ : Type} {typeOf : μ → MessageType} {fieldsOf : μ → List Bytes}
  {encode : μ → Except CodecError Bytes} {decode : Bytes → Except CodecError μ} {m : μ}

theorem decode_eq_error (h : Kept allowed typeOf fieldsOf encode decode) {e : CodecError} :
    decode bs = .error e ↔ read allowed bs = .error e := by
  rw [← h.reads]
  cases decode bs <;> simp [Except.map]

theorem decode_eq_ok (h : Kept allowed typeOf fieldsOf encode decode) :
    decode bs = .ok m ↔ encode m = .ok bs := by
  have hread : decode bs = .ok m ↔ read allowed bs = .ok (typeOf m, fieldsOf m) := by
    rw [← h.reads]
    cases decode bs with
    | error e => simp [Except.map]
    | ok m' =>
      simp only [Except.map, Except.ok.injEq, Prod.mk.injEq]
      exact ⟨fun heq => heq ▸ ⟨rfl, rfl⟩, fun ⟨htype, hfields⟩ => h.ext _ _ htype hfields⟩
  rw [hread, read_eq_ok, h.writes]
  exact ⟨fun ⟨_, _, hwrite⟩ => hwrite, fun hwrite => ⟨h.allows m, h.count m, hwrite⟩⟩

theorem encode_eq_ok (h : Kept allowed typeOf fieldsOf encode decode) :
    encode m = .ok bs ↔ Sized (fieldsOf m) ∧ bs = (parts (typeOf m) (fieldsOf m)).flatten := by
  rw [h.writes, write_eq_ok]

theorem exists_encode_iff (h : Kept allowed typeOf fieldsOf encode decode) :
    (∃ bs, encode m = .ok bs) ↔ Sized (fieldsOf m) := by
  simp only [h.encode_eq_ok]
  exact ⟨fun ⟨_, hsized, _⟩ => hsized, fun hsized => ⟨_, hsized, rfl⟩⟩

theorem encode_error (h : Kept allowed typeOf fieldsOf encode decode) {e : CodecError}
    (herror : encode m = .error e) : ∃ size, e = .fieldTooLarge size :=
  write_error (h.writes m ▸ herror)

end Kept

end Form

/-! ## Requests -/

def Message.fields : Message → List Bytes
  | .attest evidence => [evidence]
  | .handshake m => [m.publicKey, m.ciphertext]
  | .encrypted ciphertext => [ciphertext]

theorem Message.length_fields (m : Message) : m.fields.length = m.kind.fieldCount := by
  cases m <;> rfl

theorem Message.eq_iff_fields {m m' : Message} :
    m = m' ↔ m.kind = m'.kind ∧ m.fields = m'.fields := by
  constructor
  · rintro rfl
    exact ⟨rfl, rfl⟩
  · rintro ⟨hkind, hfields⟩
    cases m <;> cases m' <;> simp only [Message.kind, reduceCtorEq] at hkind
    case attest | encrypted => simpa [Message.fields] using hfields
    case handshake m m' =>
      obtain ⟨key, ciphertext⟩ := m
      obtain ⟨key', ciphertext'⟩ := m'
      simpa [Message.fields] using hfields

theorem Message.exists_fields {kind : MessageKind} {fields : List Bytes}
    (h : fields.length = kind.fieldCount) : ∃ m : Message, m.kind = kind ∧ m.fields = fields := by
  cases kind with
  | attest =>
    obtain ⟨evidence, rfl⟩ := List.length_eq_one_iff.mp h
    exact ⟨.attest evidence, rfl, rfl⟩
  | handshake =>
    obtain ⟨key, ciphertext, rfl⟩ := List.length_eq_two.mp h
    exact ⟨.handshake ⟨key, ciphertext⟩, rfl, rfl⟩
  | encrypted =>
    obtain ⟨ciphertext, rfl⟩ := List.length_eq_one_iff.mp h
    exact ⟨.encrypted ciphertext, rfl, rfl⟩

namespace Request

/-- A request never has the tag of a response without a message. -/
def allows : MessageType → Bool
  | .empty => false
  | .message _ => true

def type (r : Request) : MessageType := .message r.kind

theorem encode_form (r : Request) : encode r = Form.write r.type r.fields := by
  cases r with
  | attest field | encrypted field =>
    simp only [encode, type, Message.kind, Message.fields, Form.write, Form.writeFields]
    cases Field.encode field with
    | error e => rfl
    | ok bytes => simp [bind, Except.bind, pure, Except.pure]
  | handshake m =>
    simp only [encode, type, Message.kind, HandshakeMessage.encode, Message.fields, Form.write,
      Form.writeFields]
    cases Field.encode m.publicKey with
    | error e => rfl
    | ok key =>
      cases Field.encode m.ciphertext with
      | error e => rfl
      | ok ciphertext => simp [bind, Except.bind, pure, Except.pure]

theorem decode_form (bs : Bytes) :
    (decode bs).map (fun r => (type r, r.fields)) = Form.read allows bs := by
  cases bs with
  | nil => rfl
  | cons tag rest =>
    simp only [decode, MessageType.decode, Form.read, bind, Except.bind]
    cases htag : MessageType.ofByte? tag with
    | none => rfl
    | some t =>
      cases t with
      | empty =>
        obtain rfl := MessageType.ofByte?_eq_some_iff.mp htag
        rfl
      | message kind =>
        cases kind with
        | attest | encrypted =>
          simp only [Option.filter_some, allows, if_true, MessageType.fieldCount,
            MessageKind.fieldCount, Form.readFields, bind, Except.bind, pure, Except.pure]
          cases Field.decode rest with
          | error e => rfl
          | ok first =>
            simp only
            cases Field.finish first.2 <;> rfl
        | handshake =>
          simp only [Option.filter_some, allows, if_true, MessageType.fieldCount,
            MessageKind.fieldCount, HandshakeMessage.decode, Form.readFields, bind, Except.bind,
            pure, Except.pure]
          cases Field.decode rest with
          | error e => rfl
          | ok first =>
            simp only
            cases Field.decode first.2 with
            | error e => rfl
            | ok second =>
              simp only
              cases Field.finish second.2 <;> rfl

theorem kept : Form.Kept allows type Message.fields encode decode where
  allows _ := rfl
  count := Message.length_fields
  all t fs ht hcount := by
    cases t with
    | empty => cases ht
    | message kind =>
      obtain ⟨m, hkind, hfields⟩ := Message.exists_fields hcount
      exact ⟨m, congrArg MessageType.message hkind, hfields⟩
  ext _ _ htype hfields := Message.eq_iff_fields.mpr ⟨MessageType.message.inj htype, hfields⟩
  writes := encode_form
  reads := decode_form

end Request

/-! ## Responses -/

namespace Response

def allows : MessageType → Bool := fun _ => true

def type : Response → MessageType
  | .message m => .message m.kind
  | .empty => .empty

def fields : Response → List Bytes
  | .message m => m.fields
  | .empty => []

theorem encode_form (r : Response) : r.encode = Form.write r.type r.fields := by
  cases r with
  | empty => rfl
  | message m =>
    cases m with
    | attest field | encrypted field =>
      simp only [encode, type, fields, Message.kind, Message.fields, Form.write, Form.writeFields]
      cases Field.encode field with
      | error e => rfl
      | ok bytes => simp [bind, Except.bind, pure, Except.pure]
    | handshake m =>
      simp only [encode, type, fields, Message.kind, HandshakeMessage.encode, Message.fields,
        Form.write, Form.writeFields]
      cases Field.encode m.publicKey with
      | error e => rfl
      | ok key =>
        cases Field.encode m.ciphertext with
        | error e => rfl
        | ok ciphertext => simp [bind, Except.bind, pure, Except.pure]

theorem decode_form (bs : Bytes) :
    (decode bs).map (fun r => (r.type, r.fields)) = Form.read allows bs := by
  cases bs with
  | nil => rfl
  | cons tag rest =>
    simp only [decode, MessageType.decode, Form.read, bind, Except.bind]
    cases htag : MessageType.ofByte? tag with
    | none => rfl
    | some t =>
      simp only [Option.filter_some, allows, if_true]
      cases t with
      | empty =>
        simp only [MessageType.fieldCount, Form.readFields, bind, Except.bind, pure, Except.pure]
        cases Field.finish rest <;> rfl
      | message kind =>
        cases kind with
        | attest | encrypted =>
          simp only [MessageType.fieldCount, MessageKind.fieldCount, Form.readFields, bind,
            Except.bind, pure, Except.pure]
          cases Field.decode rest with
          | error e => rfl
          | ok first =>
            simp only
            cases Field.finish first.2 <;> rfl
        | handshake =>
          simp only [MessageType.fieldCount, MessageKind.fieldCount, HandshakeMessage.decode,
            Form.readFields, bind, Except.bind, pure, Except.pure]
          cases Field.decode rest with
          | error e => rfl
          | ok first =>
            simp only
            cases Field.decode first.2 with
            | error e => rfl
            | ok second =>
              simp only
              cases Field.finish second.2 <;> rfl

theorem kept : Form.Kept allows type fields encode decode where
  allows _ := rfl
  count r := by
    cases r with
    | message m => exact m.length_fields
    | empty => rfl
  all t fs _ hcount := by
    cases t with
    | empty => exact ⟨.empty, rfl, (List.length_eq_zero_iff.mp hcount).symm⟩
    | message kind =>
      obtain ⟨m, hkind, hfields⟩ := Message.exists_fields hcount
      exact ⟨.message m, congrArg MessageType.message hkind, hfields⟩
  ext r r' htype hfields := by
    cases r <;> cases r' <;> simp only [type, reduceCtorEq] at htype
    case message m m' =>
      exact congrArg message
        (Message.eq_iff_fields.mpr ⟨MessageType.message.inj htype, hfields⟩)
    case empty => rfl
  writes := encode_form
  reads := decode_form

end Response

/-! ## Sizes -/

namespace Message

def size : Message → Nat
  | .attest evidence => evidence.length + 5
  | .handshake m => m.publicKey.length + m.ciphertext.length + 9
  | .encrypted ciphertext => ciphertext.length + 5

theorem length_parts (m : Message) :
    (Form.parts (.message m.kind) m.fields).flatten.length = m.size := by
  cases m <;> simp [Form.parts, fields, Field.parts, size, Field.prefixSize] <;> omega

theorem sized_of_size {m : Message} (h : m.size < Field.sizeLimit) : Form.Sized m.fields := by
  cases m <;> simp only [size] at h <;> simp only [fields, Form.Sized, List.forall_mem_cons] <;>
    simp <;> omega

theorem exists_written {m : Message} (h : m.size < Field.sizeLimit) :
    ∃ bytes, Request.encode m = .ok bytes ∧ Response.encode (.message m) = .ok bytes ∧
      bytes.length = m.size :=
  ⟨_, Request.kept.encode_eq_ok.mpr ⟨sized_of_size h, rfl⟩,
    Response.kept.encode_eq_ok.mpr ⟨sized_of_size h, rfl⟩, m.length_parts⟩

end Message

end SealedLink
