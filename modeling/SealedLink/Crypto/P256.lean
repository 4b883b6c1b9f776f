import SealedLink.Entropy

/-!
# The curve P-256

The prime-order curve `y² = x³ - 3x + b` of FIPS 186, its group by chords and tangents, public keys
in the uncompressed form of SEC 1, and key agreement.
-/

namespace SealedLink.P256

/-! ## The curve -/

def prime : Nat := 0xffffffff00000001000000000000000000000000ffffffffffffffffffffffff

def constant : Nat := 0x5ac635d8aa3a93e7b3ebbd55769886bc651d06b0cc53b0f63bce3c3e27d2604b

/-- The number of points, a prime. -/
def order : Nat := 0xffffffff00000000ffffffffffffffffbce6faada7179e84f3b9cac2fc632551

/-- The curve equation between reduced coordinates. -/
def OnCurve (x y : Nat) : Prop :=
  (y * y) % prime = (x * x * x + (prime - 3) * x + constant) % prime

instance (x y : Nat) : Decidable (OnCurve x y) := inferInstanceAs (Decidable (_ = _))

/-- A point of the curve: the neutral one, or a pair of coordinates. -/
inductive Point where
  | infinity
  | affine (x y : Nat)
  deriving DecidableEq, Repr

def generator : Point :=
  .affine 0x6b17d1f2e12c4247f8bce6e563a440f277037d812deb33a0f4a13945d898c296
    0x4fe342e2fe1a7f9b8ee7eb4a7c0f9e162bce33576b315ececbb6406837bf51f5

/-! ## The group -/

def sub (a b : Nat) : Nat := (a + prime - b) % prime

/-- A power modulo the prime, by the bits of the exponent from the top down. -/
def power (base exponent : Nat) : Nat :=
  (List.range 256).foldr
    (fun i acc =>
      let square := acc * acc % prime
      if exponent.testBit i then square * base % prime else square)
    1

def inverse (a : Nat) : Nat := power a (prime - 2)

/-- The third point on a line of a given slope through `(x₁, y₁)` and a point above `x₂`,
reflected. -/
def thirdPoint (slope x₁ y₁ x₂ : Nat) : Point :=
  let x₃ := sub (sub (slope * slope % prime) x₁) x₂
  .affine x₃ (sub (slope * sub x₁ x₃ % prime) y₁)

def Point.double : Point → Point
  | .infinity => .infinity
  | .affine x y =>
    if y = 0 then .infinity
    else thirdPoint ((3 * x * x + (prime - 3)) % prime * inverse (2 * y % prime) % prime) x y x

def Point.add : Point → Point → Point
  | .infinity, q => q
  | p, .infinity => p
  | .affine x₁ y₁, .affine x₂ y₂ =>
    if x₁ = x₂ then
      if y₁ = y₂ then Point.double (.affine x₁ y₁) else .infinity
    else thirdPoint (sub y₂ y₁ * inverse (sub x₂ x₁) % prime) x₁ y₁ x₂

/-- A multiple of a point, by the bits of the factor from the top down. -/
def Point.mul (k : Nat) (p : Point) : Point :=
  (List.range 256).foldr
    (fun i acc => if k.testBit i then acc.double.add p else acc.double)
    .infinity

/-! ## Public keys -/

def coordinateSize : Nat := 32

/-- The first byte of an uncompressed point. -/
def uncompressedTag : UInt8 := 0x04

def publicKeySize : Nat := 65

/-- A point that a peer may use: coordinates below the prime that satisfy the curve equation. -/
structure PublicKey where
  x : Nat
  y : Nat
  x_lt : x < prime
  y_lt : y < prime
  onCurve : OnCurve x y

def encodePoint (x y : Nat) : Bytes :=
  uncompressedTag :: Bytes.ofNat coordinateSize x ++ Bytes.ofNat coordinateSize y

@[simp] theorem length_encodePoint (x y : Nat) : (encodePoint x y).length = publicKeySize := by
  simp [encodePoint, coordinateSize, publicKeySize]

namespace PublicKey

@[ext] theorem ext {p q : PublicKey} (hx : p.x = q.x) (hy : p.y = q.y) : p = q := by
  cases p; cases q; cases hx; cases hy; rfl

def encode (key : PublicKey) : Bytes := encodePoint key.x key.y

/-- Reads an uncompressed point; any other form, and any point off the curve, is refused. -/
def parse? (bs : Bytes) : Option PublicKey :=
  if bs.length = publicKeySize ∧ bs.head? = some uncompressedTag then
    let x := Bytes.toNat ((bs.drop 1).take coordinateSize)
    let y := Bytes.toNat (bs.drop (1 + coordinateSize))
    if h : x < prime ∧ y < prime ∧ OnCurve x y then some ⟨x, y, h.1, h.2.1, h.2.2⟩ else none
  else none

end PublicKey

/-! ## Key agreement -/

def IsScalar (k : Nat) : Prop := 0 < k ∧ k < order

instance (k : Nat) : Decidable (IsScalar k) := inferInstanceAs (Decidable (_ ∧ _))

/-- The candidate number `i` for a scalar. -/
def candidate (e : Entropy) (i : Nat) : Nat :=
  Bytes.toNat ((e.skip (coordinateSize * i)).next coordinateSize)

/-- The number of the first candidate that is a scalar; past the reserve every candidate is. -/
def scalarIndex (e : Entropy) : Nat :=
  ((List.range (e.reserve.length / coordinateSize + 2)).find?
    fun i => decide (IsScalar (candidate e i))).getD 0

/-- Draws a secret scalar: 32 bytes at a time until they are one. -/
def drawScalar (e : Entropy) : Nat × Entropy :=
  let i := scalarIndex e
  (candidate e i, e.skip (coordinateSize * (i + 1)))

def publicKey (k : Nat) : Bytes :=
  match Point.mul k generator with
  | .infinity => [0]
  | .affine x y => encodePoint x y

/-- The first coordinate of the peer's point times the scalar. -/
def sharedSecret (k : Nat) (peer : PublicKey) : Bytes :=
  match Point.mul k (.affine peer.x peer.y) with
  | .infinity => Bytes.ofNat coordinateSize 0
  | .affine x _ => Bytes.ofNat coordinateSize x

end SealedLink.P256
