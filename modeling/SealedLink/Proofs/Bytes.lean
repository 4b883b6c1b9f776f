import Mathlib.Algebra.Order.Ring.Nat
import SealedLink.Bytes

/-!
# Numbers in bytes

Writing a number in a fixed number of bytes and reading it undo each other (`toNat_ofNat`,
`ofNat_toNat`).
-/

namespace SealedLink.Bytes

theorem toNat_ofNat (width n : Nat) : toNat (ofNat width n) = n % 256 ^ width := by
  induction width generalizing n with
  | zero => simp [ofNat, Nat.mod_one]
  | succ width ih =>
    have split : n % 256 ^ (width + 1) = n % 256 + 256 * (n / 256 % 256 ^ width) := by
      rw [Nat.pow_succ', Nat.mod_mul]
    rw [ofNat, toNat_concat, ih, UInt8.toNat_ofNat', split]
    omega

theorem toNat_lt (bs : Bytes) : toNat bs < 256 ^ bs.length := by
  suffices h : ∀ k (bs : Bytes), bs.length = k → toNat bs < 256 ^ k from h _ bs rfl
  intro k
  induction k with
  | zero =>
    intro bs h
    simp [List.eq_nil_of_length_eq_zero h]
  | succ k ih =>
    intro bs h
    have hne : bs ≠ [] := by rintro rfl; simp at h
    rw [← List.dropLast_concat_getLast hne, toNat_concat]
    have := ih bs.dropLast (by simp [h])
    have := (bs.getLast hne).toNat_lt
    rw [Nat.pow_succ]
    omega

theorem ofNat_toNat (bs : Bytes) : ofNat bs.length (toNat bs) = bs := by
  suffices h : ∀ k (bs : Bytes), bs.length = k → ofNat k (toNat bs) = bs from h _ bs rfl
  intro k
  induction k with
  | zero =>
    intro bs h
    simp [List.eq_nil_of_length_eq_zero h, ofNat]
  | succ k ih =>
    intro bs h
    have hne : bs ≠ [] := by rintro rfl; simp at h
    have hb := (bs.getLast hne).toNat_lt
    have hdiv : toNat bs / 256 = toNat bs.dropLast := by
      conv => lhs; rw [← List.dropLast_concat_getLast hne, toNat_concat]
      omega
    have hmod : UInt8.ofNat (toNat bs) = bs.getLast hne := by
      apply UInt8.toNat_inj.mp
      conv => lhs; rw [← List.dropLast_concat_getLast hne, toNat_concat]
      rw [UInt8.toNat_ofNat']
      omega
    rw [ofNat, hdiv, hmod, ih _ (by simp [h]), List.dropLast_concat_getLast hne]

theorem ofNat_inj {width m n : Nat} (hm : m < 256 ^ width) (hn : n < 256 ^ width)
    (h : ofNat width m = ofNat width n) : m = n := by
  have := congrArg toNat h
  rwa [toNat_ofNat, toNat_ofNat, Nat.mod_eq_of_lt hm, Nat.mod_eq_of_lt hn] at this

end SealedLink.Bytes
