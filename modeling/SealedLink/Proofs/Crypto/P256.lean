import SealedLink.Crypto.P256
import SealedLink.Proofs.Bytes

/-!
# The written form of a public key

A byte string is a public key exactly when it is the written form of a point with reduced
coordinates on the curve (`PublicKey.parse?_eq_some_iff`).
-/

namespace SealedLink.P256

theorem prime_lt : prime < 256 ^ coordinateSize := by decide

theorem eq_encodePoint {bs : Bytes} (hlen : bs.length = publicKeySize)
    (htag : bs.head? = some uncompressedTag) :
    bs = encodePoint (Bytes.toNat ((bs.drop 1).take coordinateSize))
      (Bytes.toNat (bs.drop (1 + coordinateSize))) := by
  match bs, hlen, htag with
  | b :: rest, hlen, htag =>
    simp only [publicKeySize, List.length_cons] at hlen
    have hx : ((b :: rest).drop 1 |>.take coordinateSize).length = coordinateSize := by
      simp [coordinateSize]; omega
    have hy : ((b :: rest).drop (1 + coordinateSize)).length = coordinateSize := by
      simp [coordinateSize]; omega
    have ex := Bytes.ofNat_toNat ((b :: rest).drop 1 |>.take coordinateSize)
    have ey := Bytes.ofNat_toNat ((b :: rest).drop (1 + coordinateSize))
    rw [hx] at ex
    rw [hy] at ey
    rw [encodePoint, ex, ey]
    simp only [List.head?_cons, Option.some.injEq] at htag
    subst htag
    rw [Nat.add_comm 1, List.drop_succ_cons, List.drop_succ_cons, List.drop_zero,
      List.cons_append, List.take_append_drop]

theorem take_encodePoint (x y : Nat) :
    ((encodePoint x y).drop 1).take coordinateSize = Bytes.ofNat coordinateSize x := by
  simp [encodePoint, List.take_left']

theorem drop_encodePoint (x y : Nat) :
    (encodePoint x y).drop (1 + coordinateSize) = Bytes.ofNat coordinateSize y := by
  rw [encodePoint, Nat.add_comm 1, List.cons_append, List.drop_succ_cons, List.drop_left' (by simp)]

theorem PublicKey.parse?_eq_some_iff {bs : Bytes} {key : PublicKey} :
    parse? bs = some key ↔ bs = key.encode := by
  constructor
  · intro h
    unfold parse? at h
    split at h
    · rename_i hb
      simp only at h
      split at h
      · simp only [Option.some.injEq] at h
        subst h
        exact eq_encodePoint hb.1 hb.2
      · simp at h
    · simp at h
  · rintro rfl
    have hx : key.x % 256 ^ coordinateSize = key.x :=
      Nat.mod_eq_of_lt (Nat.lt_trans key.x_lt prime_lt)
    have hy : key.y % 256 ^ coordinateSize = key.y :=
      Nat.mod_eq_of_lt (Nat.lt_trans key.y_lt prime_lt)
    unfold parse? encode
    rw [if_pos ⟨length_encodePoint _ _, rfl⟩]
    simp only [take_encodePoint, drop_encodePoint, Bytes.toNat_ofNat, hx, hy]
    rw [dif_pos ⟨key.x_lt, key.y_lt, key.onCurve⟩]

end SealedLink.P256
