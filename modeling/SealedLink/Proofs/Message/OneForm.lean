import SealedLink.Proofs.Message.Canonical

/-!
# Requests and responses share one form

Both sides write a message in the same way, and read the same message or the same error. They differ
at the tag of the empty response alone (`one_form`).
-/

namespace SealedLink

/-- Both sides read the same message, or both the same error. -/
inductive SameReading : Except CodecError Request → Except CodecError Response → Prop where
  | message (m : Message) : SameReading (.ok m) (.ok (.message m))
  | error (e : CodecError) : SameReading (.error e) (.error e)

structure OneForm : Prop where
  readers : ∀ bs, bs.head? ≠ some 0 → SameReading (Request.decode bs) (Response.decode bs)
  /-- Which type and fields, or which error, is told tag by tag and field by field. -/
  requestRead : ∀ bs,
    (Request.decode bs).map (fun r => (Request.type r, r.fields)) = Form.read Request.allows bs
  responseRead : ∀ bs,
    (Response.decode bs).map (fun r => (r.type, r.fields)) = Form.read Response.allows bs
  /-- A message is its kind and its fields, as many as the kind has. -/
  fields : ∀ m m' : Message, m.fields.length = m.kind.fieldCount ∧
    (m = m' ↔ m.kind = m'.kind ∧ m.fields = m'.fields)
  requestEmpty : ∀ rest, Request.decode (0 :: rest) = .error (.invalidTag 0)
  responseEmpty : ∀ rest, ((∃ r, Response.decode (0 :: rest) = .ok r) ↔ rest = []) ∧
    (rest = [] → Response.decode (0 :: rest) = .ok .empty) ∧
    (rest ≠ [] → Response.decode (0 :: rest) = .error (.trailingBytes rest.length))
  /-- Nowhere else do the readers differ, and there they always do. -/
  differ : ∀ bs, ¬ SameReading (Request.decode bs) (Response.decode bs) ↔ bs.head? = some 0
  writers : ∀ m, Request.encode m = Response.encode (.message m)
  requestWritten : ∀ r, Request.encode r = Form.write (Request.type r) r.fields
  responseWritten : ∀ r, Response.encode r = Form.write r.type r.fields
  /-- What one side writes, the other side reads. -/
  across : ∀ m bs, (Request.encode m = .ok bs → Response.decode bs = .ok (.message m)) ∧
    (Response.encode (.message m) = .ok bs → Request.decode bs = .ok m)

namespace Form

theorem read_allows {bs : Bytes} (h : bs.head? ≠ some 0) :
    read Request.allows bs = read Response.allows bs := by
  cases bs with
  | nil => rfl
  | cons tag rest =>
    rcases tag_cases Response.allows tag with ⟨type, hallowed, rfl⟩ | hstrange
    · cases type with
      | empty => exact absurd rfl h
      | message kind => rw [read_toByte rfl, read_toByte hallowed]
    · rw [read_strange hstrange, read_strange fun type _ => hstrange type rfl]

end Form

theorem Request.encode_eq (m : Message) : encode m = Response.encode (.message m) :=
  (Request.encode_form m).trans (Response.encode_form (.message m)).symm

theorem sameReading {bs : Bytes} (h : bs.head? ≠ some 0) :
    SameReading (Request.decode bs) (Response.decode bs) := by
  cases hdecode : Request.decode bs with
  | error e =>
    rw [Request.kept.decode_eq_error, Form.read_allows h, ← Response.kept.decode_eq_error] at hdecode
    rw [hdecode]
    exact .error e
  | ok m =>
    rw [Request.kept.decode_eq_ok, Request.encode_eq, ← Response.kept.decode_eq_ok] at hdecode
    rw [hdecode]
    exact .message m

theorem Request.decode_empty (rest : Bytes) : decode (0 :: rest) = .error (.invalidTag 0) :=
  Request.kept.decode_eq_error.mpr (Form.read_strange (fun type hallowed => by
    cases type with
    | empty => cases hallowed
    | message kind => cases kind <;> decide) rest)

theorem Response.decode_empty (rest : Bytes) :
    ((∃ r, decode (0 :: rest) = .ok r) ↔ rest = []) ∧
      (rest = [] → decode (0 :: rest) = .ok .empty) ∧
      (rest ≠ [] → decode (0 :: rest) = .error (.trailingBytes rest.length)) := by
  have hempty (h : rest = []) : decode (0 :: rest) = .ok .empty := by
    subst h
    rfl
  have htrailing (h : rest ≠ []) : decode (0 :: rest) = .error (.trailingBytes rest.length) := by
    have hread : Form.read Response.allows (MessageType.empty.toByte :: rest) = _ :=
      Form.read_toByte rfl rest
    rw [MessageType.fieldCount, Form.readFields, Field.finish_trailing h] at hread
    exact Response.kept.decode_eq_error.mpr hread
  refine ⟨⟨?_, fun h => ⟨_, hempty h⟩⟩, hempty, htrailing⟩
  rintro ⟨r, hr⟩
  by_contra h
  rw [htrailing h] at hr
  cases hr

theorem not_sameReading_empty (rest : Bytes) :
    ¬ SameReading (Request.decode (0 :: rest)) (Response.decode (0 :: rest)) := by
  obtain ⟨-, hempty, htrailing⟩ := Response.decode_empty rest
  rw [Request.decode_empty]
  intro h
  by_cases hrest : rest = []
  · rw [hempty hrest] at h
    cases h
  · rw [htrailing hrest] at h
    cases h

/-- **Requests and responses share one form.** -/
theorem one_form : OneForm where
  readers _ := sameReading
  requestRead := Request.decode_form
  responseRead := Response.decode_form
  fields m _ := ⟨m.length_fields, Message.eq_iff_fields⟩
  requestEmpty := Request.decode_empty
  responseEmpty := Response.decode_empty
  differ bs := by
    constructor
    · intro h
      by_contra hhead
      exact h (sameReading hhead)
    · intro hhead
      obtain ⟨rest, rfl⟩ := List.head?_eq_some_iff.mp hhead
      exact not_sameReading_empty rest
  writers := Request.encode_eq
  requestWritten := Request.encode_form
  responseWritten := Response.encode_form
  across m bs := by
    constructor
    · intro h
      exact Response.kept.decode_eq_ok.mpr (Request.encode_eq m ▸ h)
    · intro h
      exact Request.kept.decode_eq_ok.mpr ((Request.encode_eq m).trans h)

end SealedLink
