/-!
# Byte strings

A byte string is a list of bytes. Numbers are written with the most significant byte first, in a
fixed number of bytes. Main statement: two exclusive ors with one mask undo each other (`xor_xor`).
-/

namespace SealedLink

abbrev Bytes := List UInt8

namespace Bytes

/-! ## Numbers -/

/-- The number that a byte string stands for, most significant byte first. -/
def toNat (bs : Bytes) : Nat := bs.foldl (fun acc b => acc * 256 + b.toNat) 0

/-- The last `width` bytes of a number, most significant byte first. -/
def ofNat : (width : Nat) → Nat → Bytes
  | 0, _ => []
  | width + 1, n => ofNat width (n / 256) ++ [UInt8.ofNat n]

@[simp] theorem length_ofNat (width n : Nat) : (ofNat width n).length = width := by
  induction width generalizing n with
  | zero => rfl
  | succ width ih => simp [ofNat, ih]

@[simp] theorem toNat_nil : toNat [] = 0 := rfl

theorem toNat_concat (bs : Bytes) (b : UInt8) : toNat (bs ++ [b]) = toNat bs * 256 + b.toNat := by
  simp [toNat]

/-! ## Masks -/

/-- Byte by byte exclusive or, as long as the shorter of the two. -/
def xor (a b : Bytes) : Bytes := List.zipWith (· ^^^ ·) a b

@[simp] theorem length_xor (a b : Bytes) : (xor a b).length = min a.length b.length := by
  simp [xor]

theorem xor_xor (a mask : Bytes) (h : a.length ≤ mask.length) : xor (xor a mask) mask = a := by
  apply List.ext_getElem
  · simp; omega
  · intro i h1 h2
    simp only [xor, List.getElem_zipWith, UInt8.xor_assoc, UInt8.xor_self, UInt8.xor_zero]

def padTo (width : Nat) (bs : Bytes) : Bytes := bs ++ List.replicate (width - bs.length) 0

end Bytes

end SealedLink
