import SealedLink.Proofs.Message.Canonical

/-!
# Why a byte string is no message

A message is read part by part: its tag, and of each field the size and the bytes. A byte string
that is no message breaks off in one of the parts, begins with a strange tag, or goes on after the
last part. The reader tells which, and where (`diagnosed_exactly`).
-/

namespace SealedLink

/-! ## Parts -/

/-- A byte string breaks off in one of some parts: of its `expected` bytes only `actual` are
there. -/
inductive Cut : (parts : List Bytes) → (bs : Bytes) → (expected actual : Nat) → Prop where
  | here {unread missing rest} (h : missing ≠ []) :
      Cut ((unread ++ missing) :: rest) unread (unread ++ missing).length unread.length
  | later {part rest bs expected actual} (h : Cut rest bs expected actual) :
      Cut (part :: rest) (part ++ bs) expected actual

section

variable {part bs : Bytes} {parts rest : List Bytes} {expected actual : Nat}

theorem not_cut_nil : ¬ Cut [] bs expected actual := by
  intro h
  cases h

theorem cut_cons (h : Cut (part :: rest) bs expected actual) :
    bs.length < part.length ∧ bs <+: part ∧ expected = part.length ∧ actual = bs.length ∨
      ∃ more, bs = part ++ more ∧ Cut rest more expected actual := by
  generalize hparts : part :: rest = parts at h
  cases h with
  | @here unread missing _ hmissing =>
    obtain ⟨rfl, rfl⟩ := List.cons.inj hparts
    have := List.length_pos_iff.mpr hmissing
    refine .inl ⟨?_, List.prefix_append .., rfl, rfl⟩
    rw [List.length_append]
    omega
  | later h =>
    obtain ⟨rfl, rfl⟩ := List.cons.inj hparts
    exact .inr ⟨_, rfl, h⟩

theorem cut_of_shorter (hfront : bs <+: part) (hlength : bs.length < part.length) :
    Cut (part :: rest) bs part.length bs.length := by
  obtain ⟨missing, rfl⟩ := hfront
  apply Cut.here
  rintro rfl
  simp at hlength

theorem Cut.lt (h : Cut parts bs expected actual) : actual < expected := by
  induction h with
  | here h =>
    have := List.length_pos_iff.mpr h
    rw [List.length_append]
    omega
  | later _ ih => exact ih

theorem Cut.due (h : Cut parts bs expected actual) {more : Bytes}
    (hmore : parts.flatten = bs ++ more) : expected - actual ≤ more.length := by
  induction h with
  | @here unread missing rest _ =>
    rw [List.flatten_cons, List.append_assoc] at hmore
    rw [← List.append_cancel_left hmore, List.length_append, List.length_append]
    omega
  | later _ ih =>
    rw [List.flatten_cons, List.append_assoc] at hmore
    exact ih (List.append_cancel_left hmore)

theorem Cut.proper (h : Cut parts bs expected actual) :
    bs <+: parts.flatten ∧ bs ≠ parts.flatten := by
  have hfront : bs <+: parts.flatten := by
    induction h with
    | here =>
      rw [List.flatten_cons, List.append_assoc]
      exact List.prefix_append ..
    | later _ ih =>
      rw [List.flatten_cons, List.prefix_append_right_inj]
      exact ih
  refine ⟨hfront, fun heq => ?_⟩
  have hdue := h.due (heq.symm.trans (List.append_nil bs).symm)
  have hlt := h.lt
  rw [List.length_nil] at hdue
  omega

theorem Cut.append (h : Cut parts bs expected actual) (rest : List Bytes) :
    Cut (parts ++ rest) bs expected actual := by
  induction h with
  | here h => exact .here h
  | later _ ih => exact ih.later

theorem Cut.after (h : Cut parts bs expected actual) (before : List Bytes) :
    Cut (before ++ parts) (before.flatten ++ bs) expected actual := by
  induction before with
  | nil => exact h
  | cons part before ih =>
    rw [List.flatten_cons, List.append_assoc]
    exact ih.later

theorem exists_cut (hfront : bs <+: parts.flatten) (hne : bs ≠ parts.flatten) :
    ∃ expected actual, Cut parts bs expected actual := by
  induction parts generalizing bs with
  | nil => exact absurd (List.prefix_nil.mp hfront) hne
  | cons part parts ih =>
    rw [List.flatten_cons] at hfront hne
    by_cases hlength : bs.length < part.length
    · exact ⟨_, _, cut_of_shorter
        (List.prefix_of_prefix_length_le hfront (List.prefix_append ..) (by omega)) hlength⟩
    · obtain ⟨more, rfl⟩ : part <+: bs :=
        List.prefix_of_prefix_length_le (List.prefix_append ..) hfront (by omega)
      rw [List.prefix_append_right_inj] at hfront
      obtain ⟨expected, actual, h⟩ := ih hfront fun heq => hne (by rw [heq])
      exact ⟨expected, actual, h.later⟩

end

/-! ## Fields -/

namespace Field

theorem decode_cut {bytes bs : Bytes} {rest : List Bytes} {expected actual : Nat}
    (hsize : bytes.length < sizeLimit) (h : Cut (parts bytes ++ rest) bs expected actual) :
    decode bs = .error (.tooShort expected actual) ∨
      ∃ more, decode bs = .ok (bytes, more) ∧ Cut rest more expected actual := by
  have hfour := Bytes.length_ofNat prefixSize bytes.length
  unfold decode
  rcases cut_cons h with ⟨hlength, -, rfl, rfl⟩ | ⟨body, rfl, hbody⟩
  · left
    rw [hfour] at hlength ⊢
    rw [take_short hlength]
    rfl
  · have hread := take_append (Bytes.ofNat prefixSize bytes.length) body
    rw [hfour] at hread
    simp only [hread, bind, Except.bind, toNat_size hsize]
    rcases cut_cons hbody with ⟨hlength, -, rfl, rfl⟩ | ⟨more, rfl, hmore⟩
    · exact .inl (take_short hlength)
    · exact .inr ⟨more, take_append bytes more, hmore⟩

theorem exists_filled {bs : Bytes} {n : Nat} (h : bs.length < n) :
    ∃ bytes : Bytes, bytes.length = n ∧ bs <+: bytes := by
  refine ⟨bs ++ List.replicate (n - bs.length) 0, ?_, List.prefix_append ..⟩
  rw [List.length_append, List.length_replicate]
  omega

theorem ofNat_size {size : Bytes} (h : size.length = prefixSize) :
    Bytes.toNat size < sizeLimit ∧ Bytes.ofNat prefixSize (Bytes.toNat size) = size := by
  have hlimit := Bytes.toNat_lt size
  rw [h] at hlimit
  refine ⟨hlimit, ?_⟩
  rw [← h]
  exact Bytes.ofNat_toNat size

theorem cut_of_decode {bs : Bytes} {e : CodecError} (h : decode bs = .error e) :
    ∃ bytes expected actual, bytes.length < sizeLimit ∧ Cut (parts bytes) bs expected actual ∧
      e = .tooShort expected actual := by
  unfold decode at h
  by_cases hstart : bs.length < prefixSize
  · rw [take_short hstart] at h
    obtain rfl : CodecError.tooShort prefixSize bs.length = e := Except.error.inj h
    obtain ⟨size, hfour, hfront⟩ := exists_filled hstart
    obtain ⟨hlimit, hwritten⟩ := ofNat_size hfour
    refine ⟨List.replicate (Bytes.toNat size) 0, prefixSize, bs.length, ?_, ?_, rfl⟩
    · rw [List.length_replicate]
      exact hlimit
    · rw [parts, List.length_replicate, hwritten, ← hfour]
      apply cut_of_shorter hfront
      omega
  · have hsplit : take prefixSize bs = .ok (bs.take prefixSize, bs.drop prefixSize) :=
      if_neg hstart
    obtain ⟨hfour, hbs⟩ := take_eq_ok hsplit
    simp only [hsplit, bind, Except.bind] at h
    generalize bs.take prefixSize = size at *
    generalize bs.drop prefixSize = body at *
    subst hbs
    obtain ⟨hlimit, hwritten⟩ := ofNat_size hfour
    unfold take at h
    split at h
    · rename_i hshort
      obtain rfl : CodecError.tooShort (Bytes.toNat size) body.length = e := Except.error.inj h
      obtain ⟨bytes, hlength, hfront⟩ := exists_filled hshort
      refine ⟨bytes, Bytes.toNat size, body.length, hlength ▸ hlimit, ?_, rfl⟩
      rw [parts, hlength, hwritten, ← hlength]
      apply Cut.later
      apply cut_of_shorter hfront
      omega
    · cases h

end Field

/-! ## The form -/

namespace Form

variable {allowed : MessageType → Bool} {type : MessageType} {fields : List Bytes} {bs : Bytes}
  {expected actual count : Nat} {e : CodecError}

theorem readFields_cut (hsized : Sized fields)
    (h : Cut (fields.flatMap Field.parts) bs expected actual) :
    readFields fields.length bs = .error (.tooShort expected actual) := by
  induction fields generalizing bs with
  | nil => exact absurd h not_cut_nil
  | cons field fields ih =>
    obtain ⟨hsize, hsized⟩ := sized_cons.mp hsized
    rcases Field.decode_cut hsize h with hdecode | ⟨more, hdecode, hcut⟩
    · exact bind_eq_error.mpr (.inl hdecode)
    · exact bind_eq_error.mpr (.inr ⟨_, hdecode, bind_eq_error.mpr (.inl (ih hsized hcut))⟩)

theorem readFields_trailing {written extra : Bytes} (h : writeFields fields = .ok written)
    (hextra : extra ≠ []) :
    readFields fields.length (written ++ extra) = .error (.trailingBytes extra.length) := by
  induction fields generalizing written with
  | nil =>
    obtain rfl : [] = written := Except.ok.inj h
    exact bind_eq_error.mpr (.inl (Field.finish_trailing hextra))
  | cons field fields ih =>
    obtain ⟨first, rest, hfirst, hrest, rfl⟩ := writeFields_cons.mp h
    have hdecode : Field.decode (first ++ rest ++ extra) = .ok (field, rest ++ extra) :=
      Field.decode_eq_ok.mpr ⟨first, hfirst, List.append_assoc ..⟩
    exact bind_eq_error.mpr (.inr ⟨_, hdecode, bind_eq_error.mpr (.inl (ih hrest))⟩)

theorem cases_of_readFields (h : readFields count bs = .error e) :
    (∃ fields expected actual, fields.length = count ∧ Sized fields ∧
      Cut (fields.flatMap Field.parts) bs expected actual ∧ e = .tooShort expected actual) ∨
    ∃ fields written extra, fields.length = count ∧ writeFields fields = .ok written ∧
      extra ≠ [] ∧ bs = written ++ extra ∧ e = .trailingBytes extra.length := by
  induction count generalizing bs with
  | zero =>
    rcases bind_eq_error.mp h with hfinish | ⟨_, -, hnone⟩
    · have hextra : bs ≠ [] := by
        rintro rfl
        cases hfinish
      rw [Field.finish_trailing hextra] at hfinish
      exact .inr ⟨[], [], bs, rfl, rfl, hextra, rfl, (Except.error.inj hfinish).symm⟩
    · cases hnone
  | succ count ih =>
    rcases bind_eq_error.mp h with hfield | ⟨⟨field, rest⟩, hfield, hread⟩
    · -- The fields after the one that is cut can be any.
      obtain ⟨field, expected, actual, hsize, hcut, rfl⟩ := Field.cut_of_decode hfield
      refine .inl ⟨field :: List.replicate count [], expected, actual, by simp, ?_,
        hcut.append _, rfl⟩
      refine sized_cons.mpr ⟨hsize, fun field hfield => ?_⟩
      rw [List.eq_of_mem_replicate hfield]
      decide
    · obtain ⟨first, hfirst, rfl⟩ := Field.decode_eq_ok.mp hfield
      obtain ⟨hsize, hwritten⟩ := Field.encode_eq_ok hfirst
      rcases bind_eq_error.mp hread with hrest | ⟨_, -, hnone⟩
      · rcases ih hrest with ⟨fields, expected, actual, rfl, hsized, hcut, rfl⟩ |
          ⟨fields, written, extra, rfl, hfields, hextra, rfl, rfl⟩
        · refine .inl ⟨field :: fields, expected, actual, rfl, sized_cons.mpr ⟨hsize, hsized⟩,
            ?_, rfl⟩
          rw [hwritten, ← Field.flatten_parts]
          exact hcut.after (Field.parts field)
        · exact .inr ⟨field :: fields, first ++ written, extra, rfl,
            writeFields_cons.mpr ⟨first, written, hfirst, hfields, rfl⟩, hextra,
            (List.append_assoc ..).symm, rfl⟩
      · cases hnone

theorem read_cut (hallowed : allowed type = true) (hcount : fields.length = type.fieldCount)
    (hsized : Sized fields) (h : Cut (parts type fields) bs expected actual) :
    read allowed bs = .error (.tooShort expected actual) := by
  rcases cut_cons h with ⟨hshort, -, rfl, rfl⟩ | ⟨more, rfl, hmore⟩
  · obtain rfl : bs = [] := List.length_eq_zero_iff.mp (by simpa using hshort)
    rfl
  · rw [List.singleton_append, read_toByte hallowed, ← hcount, readFields_cut hsized hmore]
    rfl

theorem read_trailing {written extra : Bytes} (hallowed : allowed type = true)
    (hcount : fields.length = type.fieldCount) (h : write type fields = .ok written)
    (hextra : extra ≠ []) :
    read allowed (written ++ extra) = .error (.trailingBytes extra.length) := by
  obtain ⟨rest, hrest, heq⟩ := bind_eq_ok.mp h
  obtain rfl : type.toByte :: rest = written := Except.ok.inj heq
  rw [List.cons_append, read_toByte hallowed, ← hcount, readFields_trailing hrest hextra]
  rfl

theorem cases_of_read (h : read allowed bs = .error e) :
    (bs = [] ∧ e = .tooShort 1 0) ∨
    (∃ tag rest, bs = tag :: rest ∧ (∀ type, allowed type = true → type.toByte ≠ tag) ∧
      e = .invalidTag tag) ∨
    ∃ type fields, allowed type = true ∧ fields.length = type.fieldCount ∧
      ((∃ expected actual, Sized fields ∧ Cut (parts type fields) bs expected actual ∧
        e = .tooShort expected actual) ∨
      ∃ written extra, write type fields = .ok written ∧ extra ≠ [] ∧ bs = written ++ extra ∧
        e = .trailingBytes extra.length) := by
  cases bs with
  | nil => exact .inl ⟨rfl, (Except.error.inj h).symm⟩
  | cons tag rest =>
    right
    rcases tag_cases allowed tag with ⟨type, hallowed, rfl⟩ | hstrange
    · right
      rw [read_toByte hallowed] at h
      cases hread : readFields type.fieldCount rest with
      | ok fields => rw [hread] at h; cases h
      | error e' =>
        obtain rfl : e' = e := by
          rw [hread] at h
          exact Except.error.inj h
        rcases cases_of_readFields hread with ⟨fields, expected, actual, hcount, hsized, hcut, rfl⟩ |
          ⟨fields, written, extra, hcount, hfields, hextra, rfl, rfl⟩
        · exact ⟨type, fields, hallowed, hcount, .inl ⟨expected, actual, hsized, hcut.later, rfl⟩⟩
        · exact ⟨type, fields, hallowed, hcount, .inr ⟨type.toByte :: written, extra,
            bind_eq_ok.mpr ⟨written, hfields, rfl⟩, hextra, rfl, rfl⟩⟩
    · rw [read_strange hstrange] at h
      exact .inl ⟨tag, rest, rfl, hstrange, (Except.error.inj h).symm⟩

end Form

/-! ## Messages -/

namespace Message

def fieldParts (m : Message) : List Bytes := m.fields.flatMap Field.parts

def parts (m : Message) : List Bytes := [(MessageType.message m.kind).toByte] :: m.fieldParts

end Message

/-- A request never has the tag of a response without a message. -/
def Request.Tag (tag : UInt8) : Prop := ∃ kind, (MessageType.message kind).toByte = tag

theorem Request.tag_iff {tag : UInt8} :
    Tag tag ↔ ∃ type, allows type = true ∧ type.toByte = tag := by
  constructor
  · rintro ⟨kind, rfl⟩
    exact ⟨.message kind, rfl, rfl⟩
  · rintro ⟨type, hallowed, rfl⟩
    cases type with
    | empty => cases hallowed
    | message kind => exact ⟨kind, rfl⟩

namespace Response

def Tag (tag : UInt8) : Prop := ∃ type : MessageType, type.toByte = tag

theorem tag_iff {tag : UInt8} : Tag tag ↔ ∃ type, allows type = true ∧ type.toByte = tag :=
  ⟨fun ⟨type, htag⟩ => ⟨type, rfl, htag⟩, fun ⟨type, _, htag⟩ => ⟨type, htag⟩⟩

def parts : Response → List Bytes
  | .message m => m.parts
  | .empty => [[MessageType.empty.toByte]]

theorem parts_eq (r : Response) : r.parts = Form.parts r.type r.fields := by
  cases r <;> rfl

end Response

/-! ## Findings -/

/-- What a reader finds in a byte string: a message that is there as a whole, one that breaks off, a
strange tag, or a message with something after it. -/
inductive Finding {μ : Type} (encode : μ → Except CodecError Bytes) (parts : μ → List Bytes)
    (Tag : UInt8 → Prop) : Bytes → Except CodecError μ → Prop where
  | whole {m written} (h : encode m = .ok written) : Finding encode parts Tag written (.ok m)
  | cut {m written bs expected actual} (h : encode m = .ok written)
      (hcut : Cut (parts m) bs expected actual) :
      Finding encode parts Tag bs (.error (.tooShort expected actual))
  | strange {tag rest} (h : ¬ Tag tag) :
      Finding encode parts Tag (tag :: rest) (.error (.invalidTag tag))
  | trailing {m written extra} (h : encode m = .ok written) (hextra : extra ≠ []) :
      Finding encode parts Tag (written ++ extra) (.error (.trailingBytes extra.length))

section

variable {μ : Type} {allowed : MessageType → Bool} {typeOf : μ → MessageType}
  {fieldsOf : μ → List Bytes} {encode : μ → Except CodecError Bytes}
  {decode : Bytes → Except CodecError μ} {parts : μ → List Bytes} {Tag : UInt8 → Prop}
  {bs : Bytes}

namespace Form.Kept

theorem flatten_parts (h : Kept allowed typeOf fieldsOf encode decode)
    (hparts : ∀ m, parts m = Form.parts (typeOf m) (fieldsOf m)) (m : μ) (written : Bytes)
    (hm : encode m = .ok written) : (parts m).flatten = written := by
  rw [hparts, (h.encode_eq_ok.mp hm).2]

theorem decode_finding (h : Kept allowed typeOf fieldsOf encode decode)
    (hparts : ∀ m, parts m = Form.parts (typeOf m) (fieldsOf m))
    (htag : ∀ tag, Tag tag ↔ ∃ type, allowed type = true ∧ type.toByte = tag)
    {result : Except CodecError μ} (hfinding : Finding encode parts Tag bs result) :
    decode bs = result := by
  cases hfinding with
  | whole hm => exact h.decode_eq_ok.mpr hm
  | @cut m written _ expected actual hm hcut =>
    rw [hparts] at hcut
    exact h.decode_eq_error.mpr
      (read_cut (h.allows m) (h.count m) (h.encode_eq_ok.mp hm).1 hcut)
  | @strange tag rest hstrange =>
    rw [htag] at hstrange
    exact h.decode_eq_error.mpr (read_strange (fun type hallowed hbyte =>
      hstrange ⟨type, hallowed, hbyte⟩) rest)
  | @trailing m written extra hm hextra =>
    rw [h.writes] at hm
    exact h.decode_eq_error.mpr (read_trailing (h.allows m) (h.count m) hm hextra)

theorem finding_decode (h : Kept allowed typeOf fieldsOf encode decode)
    (hparts : ∀ m, parts m = Form.parts (typeOf m) (fieldsOf m))
    (htag : ∀ tag, Tag tag ↔ ∃ type, allowed type = true ∧ type.toByte = tag)
    {short : μ} {written : Bytes} (hshort : encode short = .ok written) (bs : Bytes) :
    Finding encode parts Tag bs (decode bs) := by
  cases hdecode : decode bs with
  | ok m => exact .whole (h.decode_eq_ok.mp hdecode)
  | error e =>
    rcases cases_of_read (h.decode_eq_error.mp hdecode) with ⟨rfl, rfl⟩ |
      ⟨tag, rest, rfl, hstrange, rfl⟩ | ⟨type, fields, hallowed, hcount, hrest⟩
    · refine .cut hshort ?_
      rw [hparts]
      exact cut_of_shorter List.nil_prefix (by simp)
    · refine .strange fun hknown => ?_
      obtain ⟨type, hallowed, hbyte⟩ := (htag tag).mp hknown
      exact hstrange type hallowed hbyte
    · obtain ⟨m, rfl, rfl⟩ := h.all type fields hallowed hcount
      rcases hrest with ⟨expected, actual, hsized, hcut, rfl⟩ |
        ⟨written', extra, hwrite, hextra, rfl, rfl⟩
      · rw [← hparts] at hcut
        exact .cut (h.encode_eq_ok.mpr ⟨hsized, rfl⟩) hcut
      · rw [← h.writes] at hwrite
        exact .trailing hwrite hextra

end Form.Kept

end

/-! ## The theorem -/

/-- A reader gives every byte string its one finding, and tells by its error which one it is. -/
structure Diagnosed {μ : Type} (encode : μ → Except CodecError Bytes)
    (decode : Bytes → Except CodecError μ) (parts : μ → List Bytes) (Tag : UInt8 → Prop) :
    Prop where
  found : ∀ bs result, decode bs = result ↔ Finding encode parts Tag bs result
  /-- The empty byte string among them. -/
  tooShort : ∀ bs, (∃ expected actual, decode bs = .error (.tooShort expected actual)) ↔
    ∃ m written, encode m = .ok written ∧ bs <+: written ∧ bs ≠ written
  invalidTag : ∀ bs tag, decode bs = .error (.invalidTag tag) ↔ bs.head? = some tag ∧ ¬ Tag tag
  trailing : ∀ bs n, decode bs = .error (.trailingBytes n) ↔
    ∃ m written extra, encode m = .ok written ∧ bs = written ++ extra ∧ extra.length = n ∧ 1 ≤ n
  otherwise : ∀ bs, (∃ m, decode bs = .ok m) ↔
    ¬ (∃ m written, encode m = .ok written ∧ bs <+: written ∧ bs ≠ written) ∧
    ¬ (∃ tag, bs.head? = some tag ∧ ¬ Tag tag) ∧
    ¬ (∃ m written extra, encode m = .ok written ∧ bs = written ++ extra ∧ extra ≠ [])
  never : ∀ bs size, decode bs ≠ .error (.fieldTooLarge size)
  /-- What is missing is missing from one part of a message, of which `actual` bytes are left to be
  read. -/
  short : ∀ bs expected actual, decode bs = .error (.tooShort expected actual) →
    actual < expected ∧
    (∃ m written, encode m = .ok written ∧ Cut (parts m) bs expected actual) ∧
    ∀ more, more.length < expected - actual → ∀ m, decode (bs ++ more) ≠ .ok m
  apart : ∀ m m' written written', encode m = .ok written → encode m' = .ok written' →
    written <+: written' → written = written'

section

variable {μ : Type} {encode : μ → Except CodecError Bytes} {decode : Bytes → Except CodecError μ}
  {parts : μ → List Bytes} {Tag : UInt8 → Prop} {bs : Bytes}

namespace Finding

theorem exists_cut {expected actual : Nat}
    (h : Finding encode parts Tag bs (.error (.tooShort expected actual))) :
    ∃ m written, encode m = .ok written ∧ Cut (parts m) bs expected actual := by
  cases h with
  | @cut m written _ _ _ h hcut => exact ⟨m, written, h, hcut⟩

theorem tooShort_iff (hparts : ∀ m written, encode m = .ok written → (parts m).flatten = written) :
    (∃ expected actual, Finding encode parts Tag bs (.error (.tooShort expected actual))) ↔
      ∃ m written, encode m = .ok written ∧ bs <+: written ∧ bs ≠ written := by
  constructor
  · rintro ⟨expected, actual, h⟩
    obtain ⟨m, written, h, hcut⟩ := h.exists_cut
    have hproper := hcut.proper
    rw [hparts m written h] at hproper
    exact ⟨m, written, h, hproper⟩
  · rintro ⟨m, written, h, hproper⟩
    rw [← hparts m written h] at hproper
    obtain ⟨expected, actual, hcut⟩ := SealedLink.exists_cut hproper.1 hproper.2
    exact ⟨expected, actual, .cut h hcut⟩

theorem invalidTag_iff {tag : UInt8} :
    Finding encode parts Tag bs (.error (.invalidTag tag)) ↔ bs.head? = some tag ∧ ¬ Tag tag := by
  constructor
  · intro h
    cases h with
    | strange h => exact ⟨rfl, h⟩
  · rintro ⟨hhead, h⟩
    obtain ⟨rest, rfl⟩ := List.head?_eq_some_iff.mp hhead
    exact .strange h

theorem trailing_iff {n : Nat} : Finding encode parts Tag bs (.error (.trailingBytes n)) ↔
    ∃ m written extra, encode m = .ok written ∧ bs = written ++ extra ∧ extra.length = n ∧
      1 ≤ n := by
  constructor
  · intro h
    cases h with
    | @trailing m written extra h hextra =>
      exact ⟨m, written, extra, h, rfl, rfl, List.length_pos_iff.mpr hextra⟩
  · rintro ⟨m, written, extra, h, rfl, rfl, hlength⟩
    exact .trailing h (List.length_pos_iff.mp hlength)

theorem not_fieldTooLarge {size : Nat} :
    ¬ Finding encode parts Tag bs (.error (.fieldTooLarge size)) := by
  intro h
  cases h

theorem whole_parts (hparts : ∀ m written, encode m = .ok written → (parts m).flatten = written)
    {m : μ} (h : Finding encode parts Tag bs (.ok m)) :
    encode m = .ok bs ∧ (parts m).flatten = bs := by
  cases h with
  | whole h => exact ⟨h, hparts m bs h⟩

end Finding

theorem decode_ok_iff
    (found : ∀ bs result, decode bs = result ↔ Finding encode parts Tag bs result)
    (hparts : ∀ m written, encode m = .ok written → (parts m).flatten = written) :
    (∃ m, decode bs = .ok m) ↔
      ¬ (∃ m written, encode m = .ok written ∧ bs <+: written ∧ bs ≠ written) ∧
      ¬ (∃ tag, bs.head? = some tag ∧ ¬ Tag tag) ∧
      ¬ (∃ m written extra, encode m = .ok written ∧ bs = written ++ extra ∧ extra ≠ []) := by
  constructor
  · rintro ⟨m, h⟩
    refine ⟨?_, ?_, ?_⟩
    · intro hcut
      obtain ⟨expected, actual, hcut⟩ := (Finding.tooShort_iff hparts).mpr hcut
      rw [(found _ _).mpr hcut] at h
      cases h
    · rintro ⟨tag, hstrange⟩
      rw [(found _ _).mpr (Finding.invalidTag_iff.mpr hstrange)] at h
      cases h
    · rintro ⟨m', written, extra, hwritten, rfl, hextra⟩
      rw [(found _ _).mpr (.trailing hwritten hextra)] at h
      cases h
  · rintro ⟨hcut, hstrange, htrailing⟩
    cases hdecode : decode bs with
    | ok m => exact ⟨m, rfl⟩
    | error e =>
      exfalso
      have h := (found _ _).mp hdecode
      cases e with
      | tooShort expected actual => exact hcut ((Finding.tooShort_iff hparts).mp ⟨_, _, h⟩)
      | invalidTag tag => exact hstrange ⟨tag, Finding.invalidTag_iff.mp h⟩
      | trailingBytes n =>
        obtain ⟨m, written, extra, hm, hbs, hlength, hpos⟩ := Finding.trailing_iff.mp h
        exact htrailing ⟨m, written, extra, hm, hbs, List.length_pos_iff.mp (hlength ▸ hpos)⟩
      | fieldTooLarge size => exact Finding.not_fieldTooLarge h

theorem not_decode_of_few
    (found : ∀ bs result, decode bs = result ↔ Finding encode parts Tag bs result)
    (hparts : ∀ m written, encode m = .ok written → (parts m).flatten = written)
    {expected actual : Nat} (h : decode bs = .error (.tooShort expected actual)) {more : Bytes}
    (hmore : more.length < expected - actual) (m : μ) : decode (bs ++ more) ≠ .ok m := by
  intro hread
  obtain ⟨hencode, hwhole⟩ := ((found _ _).mp hread).whole_parts hparts
  have hne : bs ≠ (parts m).flatten := by
    intro heq
    rw [hwhole] at heq
    rw [← heq] at hread
    rw [hread] at h
    cases h
  obtain ⟨expected', actual', hcut⟩ := exists_cut (hwhole ▸ List.prefix_append ..) hne
  -- The error names the place of the one cut, whichever message it is a cut of.
  have hsame := (found _ _).mpr (.cut hencode hcut)
  rw [h] at hsame
  injection Except.error.inj hsame with hexpected hactual
  have hdue := hcut.due hwhole
  omega

theorem Diagnosed.of_found
    (found : ∀ bs result, decode bs = result ↔ Finding encode parts Tag bs result)
    (hparts : ∀ m written, encode m = .ok written → (parts m).flatten = written) :
    Diagnosed encode decode parts Tag where
  found := found
  tooShort bs := by
    simp only [found]
    exact Finding.tooShort_iff hparts
  invalidTag bs tag := by
    rw [found]
    exact Finding.invalidTag_iff
  trailing bs n := by
    rw [found]
    exact Finding.trailing_iff
  otherwise bs := decode_ok_iff found hparts
  never bs size h := Finding.not_fieldTooLarge ((found _ _).mp h)
  short bs expected actual h := by
    obtain ⟨m, written, hencode, hcut⟩ := ((found _ _).mp h).exists_cut
    exact ⟨hcut.lt, ⟨m, written, hencode, hcut⟩, fun _ => not_decode_of_few found hparts h⟩
  apart m m' written written' h h' hfront := by
    by_contra hne
    have hread := (found _ _).mpr (.whole h)
    obtain ⟨expected, actual, hcut⟩ :=
      (Finding.tooShort_iff hparts).mpr ⟨m', written', h', hfront, hne⟩
    rw [(found _ _).mpr hcut] at hread
    cases hread

end

theorem Diagnosed.of_kept {μ : Type} {allowed : MessageType → Bool} {typeOf : μ → MessageType}
    {fieldsOf : μ → List Bytes} {encode : μ → Except CodecError Bytes}
    {decode : Bytes → Except CodecError μ} {parts : μ → List Bytes} {Tag : UInt8 → Prop}
    (h : Form.Kept allowed typeOf fieldsOf encode decode)
    (hparts : ∀ m, parts m = Form.parts (typeOf m) (fieldsOf m))
    (htag : ∀ tag, Tag tag ↔ ∃ type, allowed type = true ∧ type.toByte = tag) (short : μ)
    {written : Bytes} (hshort : encode short = .ok written) :
    Diagnosed encode decode parts Tag := by
  refine .of_found (fun bs result => ⟨?_, h.decode_finding hparts htag⟩) (h.flatten_parts hparts)
  rintro rfl
  exact h.finding_decode hparts htag hshort bs

/-- **Every byte string is diagnosed exactly.** It is a message as a whole, or one that breaks off,
or one with something after it, or has a strange tag; the reader tells which, and what is missing or
left over. -/
theorem diagnosed_exactly :
    Diagnosed Request.encode Request.decode Message.parts Request.Tag ∧
      Diagnosed Response.encode Response.decode Response.parts Response.Tag :=
  ⟨.of_kept Request.kept (fun _ => rfl) (fun _ => Request.tag_iff) (.attest []) rfl,
    .of_kept Response.kept Response.parts_eq (fun _ => Response.tag_iff) .empty rfl⟩

end SealedLink
