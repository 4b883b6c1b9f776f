import SealedLink.Bytes

/-!
# Random bytes

A reserve of random bytes that ephemeral keys are drawn from. Drawing takes bytes from the front;
past the end of the reserve every byte is 1, so that a draw never fails.
-/

namespace SealedLink

structure Entropy where
  reserve : Bytes
  deriving DecidableEq, Repr

namespace Entropy

def next (e : Entropy) (count : Nat) : Bytes :=
  e.reserve.take count ++ List.replicate (count - e.reserve.length) 1

def skip (e : Entropy) (count : Nat) : Entropy := ⟨e.reserve.drop count⟩

@[simp] theorem length_next (e : Entropy) (count : Nat) : (e.next count).length = count := by
  simp [next]
  omega

end Entropy

end SealedLink
