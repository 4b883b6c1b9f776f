import SealedLink.Message.Codec
import SealedLink.Proofs.Bytes
import SealedLink.Proofs.Except

/-!
# Fields

A byte string is read as a field and a rest exactly if it is the field as it is written, and then
the rest.
-/

namespace SealedLink

namespace Field

theorem toNat_size {size : Nat} (h : size < sizeLimit) :
    Bytes.toNat (Bytes.ofNat prefixSize size) = size := by
  rw [Bytes.toNat_ofNat]
  exact Nat.mod_eq_of_lt h

theorem encode_ok {bytes : Bytes} (h : bytes.length < sizeLimit) :
    encode bytes = .ok (Bytes.ofNat prefixSize bytes.length ++ bytes) := if_pos h

theorem encode_eq_ok {bytes written : Bytes} (h : encode bytes = .ok written) :
    bytes.length < sizeLimit ∧ written = Bytes.ofNat prefixSize bytes.length ++ bytes := by
  unfold encode at h
  split at h
  · exact ⟨‹_›, (Except.ok.inj h).symm⟩
  · cases h

theorem encode_error {bytes : Bytes} {e : CodecError} (h : encode bytes = .error e) :
    ∃ size, e = .fieldTooLarge size := by
  unfold encode at h
  split at h
  · cases h
  · exact ⟨_, (Except.error.inj h).symm⟩

/-- The size and the bytes of a field. -/
def parts (bytes : Bytes) : List Bytes := [Bytes.ofNat prefixSize bytes.length, bytes]

theorem flatten_parts (bytes : Bytes) :
    (parts bytes).flatten = Bytes.ofNat prefixSize bytes.length ++ bytes := by
  simp [parts]

/-! ## Reading -/

theorem take_append (bytes rest : Bytes) : take bytes.length (bytes ++ rest) = .ok (bytes, rest) := by
  unfold take
  rw [if_neg (by simp), List.take_left, List.drop_left]

theorem take_short {count : Nat} {bs : Bytes} (h : bs.length < count) :
    take count bs = .error (.tooShort count bs.length) := if_pos h

theorem take_eq_ok {count : Nat} {bs bytes rest : Bytes} (h : take count bs = .ok (bytes, rest)) :
    bytes.length = count ∧ bs = bytes ++ rest := by
  unfold take at h
  split at h
  · cases h
  · rename_i hcount
    obtain ⟨rfl, rfl⟩ := Prod.mk.inj (Except.ok.inj h)
    refine ⟨?_, (List.take_append_drop count bs).symm⟩
    rw [List.length_take]
    omega

theorem decode_eq_ok {bs bytes rest : Bytes} : decode bs = .ok (bytes, rest) ↔
    ∃ written, encode bytes = .ok written ∧ bs = written ++ rest := by
  constructor
  · intro h
    obtain ⟨⟨size, body⟩, hsize, hbody⟩ := bind_eq_ok.mp h
    obtain ⟨hfour, rfl⟩ := take_eq_ok hsize
    obtain ⟨hlength, rfl⟩ := take_eq_ok hbody
    have hlimit : bytes.length < sizeLimit := by
      rw [hlength]
      have := Bytes.toNat_lt size
      rwa [hfour] at this
    -- The four bytes that were read are those that the length is written in.
    have hsized : Bytes.ofNat prefixSize bytes.length = size := by
      rw [hlength, ← hfour]
      exact Bytes.ofNat_toNat size
    exact ⟨_, encode_ok hlimit, by rw [hsized, List.append_assoc]⟩
  · rintro ⟨written, h, rfl⟩
    obtain ⟨hsize, rfl⟩ := encode_eq_ok h
    have hfirst := take_append (Bytes.ofNat prefixSize bytes.length) (bytes ++ rest)
    rw [Bytes.length_ofNat, ← List.append_assoc] at hfirst
    have hbody : take (Bytes.toNat (Bytes.ofNat prefixSize bytes.length)) (bytes ++ rest) =
        .ok (bytes, rest) := by
      rw [toNat_size hsize]
      exact take_append bytes rest
    exact bind_eq_ok.mpr ⟨_, hfirst, hbody⟩

theorem finish_eq_ok {rest : Bytes} {u : Unit} : finish rest = .ok u ↔ rest = [] := by
  cases rest <;> simp [finish]

theorem finish_trailing {extra : Bytes} (h : extra ≠ []) :
    finish extra = .error (.trailingBytes extra.length) := by
  unfold finish
  rw [if_neg]
  simpa using h

end Field

end SealedLink
