import Mathlib.AlgebraicGeometry.EllipticCurve.Affine.Basic
import Mathlib.Data.ZMod.Basic
import SealedLink.Proofs.Crypto.P256
import SealedLink.Proofs.Noise.Handshake

/-!
# The keys that a peer can send

A public key is read from exactly one byte string for each affine point of the curve, the
uncompressed one, and from no other (`reads_points`). So the bytes that go into a transcript stand
for the point that is agreed with, and no other bytes do.
-/

namespace SealedLink

namespace P256

/-! ## The curve over its field -/

instance : NeZero prime := ⟨by decide⟩

/-- The curve `y² = x³ - 3x + b`. -/
def curve : WeierstrassCurve (ZMod prime) where
  a₁ := 0
  a₂ := 0
  a₃ := 0
  a₄ := -3
  a₆ := constant

theorem onCurve_iff {x y : Nat} :
    OnCurve x y ↔ curve.toAffine.Equation (x : ZMod prime) (y : ZMod prime) := by
  have hthree : ((prime - 3 : Nat) : ZMod prime) = -3 := by
    rw [Nat.cast_sub (by decide), ZMod.natCast_self, zero_sub, Nat.cast_ofNat]
  rw [OnCurve, ← ZMod.natCast_eq_natCast_iff', WeierstrassCurve.Affine.equation_iff]
  simp only [Nat.cast_add, Nat.cast_mul, hthree, curve, zero_mul, add_zero]
  constructor
  · intro h
    linear_combination h
  · intro h
    linear_combination h

namespace PublicKey

theorem equation (key : PublicKey) :
    curve.toAffine.Equation (key.x : ZMod prime) (key.y : ZMod prime) :=
  onCurve_iff.mp key.onCurve

/-- The key of an affine point. -/
def ofPoint {x y : ZMod prime} (h : curve.toAffine.Equation x y) : PublicKey where
  x := x.val
  y := y.val
  x_lt := ZMod.val_lt x
  y_lt := ZMod.val_lt y
  onCurve := by
    rw [onCurve_iff, ZMod.natCast_zmod_val, ZMod.natCast_zmod_val]
    exact h

theorem eq_of_point {key key' : PublicKey} (hx : (key.x : ZMod prime) = key'.x)
    (hy : (key.y : ZMod prime) = key'.y) : key = key' := by
  rw [ZMod.natCast_eq_natCast_iff', Nat.mod_eq_of_lt key.x_lt, Nat.mod_eq_of_lt key'.x_lt] at hx
  rw [ZMod.natCast_eq_natCast_iff', Nat.mod_eq_of_lt key.y_lt, Nat.mod_eq_of_lt key'.y_lt] at hy
  exact PublicKey.ext hx hy

end PublicKey

/-! ## The uncompressed form -/

/-- The tag of an uncompressed point, and two coordinates in full. -/
structure Uncompressed (bs x y : Bytes) : Prop where
  written : bs = 0x04 :: (x ++ y)
  x_length : x.length = 32
  y_length : y.length = 32

/-- Coordinates of a point of the curve, reduced. -/
structure OfPoint (x y : Bytes) : Prop where
  x_lt : Bytes.toNat x < prime
  y_lt : Bytes.toNat y < prime
  equation : curve.toAffine.Equation (Bytes.toNat x : ZMod prime) (Bytes.toNat y : ZMod prime)

variable {bs x y : Bytes}

theorem exists_halves (h : bs.length = publicKeySize) :
    ∃ tag x y, bs = tag :: (x ++ y) ∧ x.length = 32 ∧ y.length = 32 := by
  cases bs with
  | nil => cases h
  | cons tag rest =>
    have hrest : rest.length = 64 := Nat.succ.inj h
    refine ⟨tag, rest.take 32, rest.drop 32, by rw [List.take_append_drop], ?_, ?_⟩
    · rw [List.length_take, hrest]
      rfl
    · rw [List.length_drop, hrest]

theorem uncompressed_iff :
    (∃ x y, Uncompressed bs x y) ↔ bs.length = publicKeySize ∧ bs.head? = some uncompressedTag := by
  constructor
  · rintro ⟨x, y, rfl, hx, hy⟩
    simp [hx, hy, publicKeySize, uncompressedTag]
  · rintro ⟨hlength, hhead⟩
    obtain ⟨tag, x, y, rfl, hx, hy⟩ := exists_halves hlength
    obtain rfl : tag = uncompressedTag := Option.some.inj hhead
    exact ⟨x, y, rfl, hx, hy⟩

theorem Uncompressed.unique {x' y' : Bytes} (h : Uncompressed bs x y)
    (h' : Uncompressed bs x' y') : x = x' ∧ y = y' := by
  have heq := List.tail_eq_of_cons_eq (h.written.symm.trans h'.written)
  exact List.append_inj heq (h.x_length.trans h'.x_length.symm)

theorem Uncompressed.eq_encodePoint (h : Uncompressed bs x y) :
    bs = encodePoint (Bytes.toNat x) (Bytes.toNat y) := by
  have ex := Bytes.ofNat_toNat x
  have ey := Bytes.ofNat_toNat y
  rw [h.x_length] at ex
  rw [h.y_length] at ey
  rw [encodePoint, coordinateSize, ex, ey]
  exact h.written

theorem uncompressed_encode (key : PublicKey) : ∃ x y, Uncompressed key.encode x y ∧
    Bytes.toNat x = key.x ∧ Bytes.toNat y = key.y := by
  refine ⟨_, _, ⟨rfl, Bytes.length_ofNat .., Bytes.length_ofNat ..⟩, ?_, ?_⟩
  · rw [Bytes.toNat_ofNat, Nat.mod_eq_of_lt (Nat.lt_trans key.x_lt prime_lt)]
  · rw [Bytes.toNat_ofNat, Nat.mod_eq_of_lt (Nat.lt_trans key.y_lt prime_lt)]

namespace PublicKey

theorem parse?_isSome_iff :
    (∃ key, parse? bs = some key) ↔ ∃ x y, Uncompressed bs x y ∧ OfPoint x y := by
  constructor
  · rintro ⟨key, h⟩
    obtain rfl := parse?_eq_some_iff.mp h
    obtain ⟨x, y, hform, hx, hy⟩ := uncompressed_encode key
    exact ⟨x, y, hform, hx ▸ key.x_lt, hy ▸ key.y_lt, by rw [hx, hy]; exact key.equation⟩
  · rintro ⟨x, y, hform, hpoint⟩
    have hcurve := onCurve_iff.mpr hpoint.equation
    exact ⟨⟨_, _, hpoint.x_lt, hpoint.y_lt, hcurve⟩, parse?_eq_some_iff.mpr hform.eq_encodePoint⟩

theorem parse?_eq_none_iff : parse? bs = none ↔ bs.length ≠ publicKeySize ∨
    bs.head? ≠ some uncompressedTag ∨ ∃ x y, Uncompressed bs x y ∧ ¬ OfPoint x y := by
  rw [← not_iff_not, ← ne_eq, Option.ne_none_iff_exists', parse?_isSome_iff]
  constructor
  · rintro ⟨x, y, hform, hpoint⟩
    obtain ⟨hlength, hhead⟩ := uncompressed_iff.mp ⟨x, y, hform⟩
    rintro (h | h | ⟨x', y', hform', hbad⟩)
    · exact h hlength
    · exact h hhead
    · obtain ⟨rfl, rfl⟩ := hform.unique hform'
      exact hbad hpoint
  · intro h
    simp only [not_or, not_not, not_exists, not_and] at h
    obtain ⟨hlength, hhead, hpoint⟩ := h
    obtain ⟨x, y, hform⟩ := uncompressed_iff.mpr ⟨hlength, hhead⟩
    exact ⟨x, y, hform, hpoint x y hform⟩

theorem parse?_otherForm {tag : UInt8} (h : tag ≠ uncompressedTag) (rest : Bytes) :
    parse? (tag :: rest) = none := by
  rw [parse?_eq_none_iff]
  exact .inr (.inl fun heq => h (Option.some.inj heq))

theorem parse?_halves {tag : UInt8} (hx : x.length = 32) (hy : y.length = 32) {key : PublicKey} :
    parse? (tag :: (x ++ y)) = some key ↔
      tag = uncompressedTag ∧ key.x = Bytes.toNat x ∧ key.y = Bytes.toNat y := by
  rw [parse?_eq_some_iff]
  constructor
  · intro h
    obtain ⟨x', y', hform, hx', hy'⟩ := uncompressed_encode key
    rw [← h] at hform
    obtain ⟨rfl, hhalves⟩ := List.cons.inj hform.written
    obtain ⟨rfl, rfl⟩ := List.append_inj hhalves (hx.trans hform.x_length.symm)
    exact ⟨rfl, hx'.symm, hy'.symm⟩
  · rintro ⟨rfl, hkx, hky⟩
    have hform : Uncompressed (uncompressedTag :: (x ++ y)) x y := ⟨rfl, hx, hy⟩
    rw [encode, hkx, hky]
    exact hform.eq_encodePoint

theorem existsUnique_written {x y : ZMod prime} (h : curve.toAffine.Equation x y) :
    ∃! bs, ∃ key, parse? bs = some key ∧ (key.x : ZMod prime) = x ∧ (key.y : ZMod prime) = y := by
  have hx : ((ofPoint h).x : ZMod prime) = x := ZMod.natCast_zmod_val x
  have hy : ((ofPoint h).y : ZMod prime) = y := ZMod.natCast_zmod_val y
  refine ⟨(ofPoint h).encode, ⟨ofPoint h, parse?_eq_some_iff.mpr rfl, hx, hy⟩, ?_⟩
  rintro bs ⟨key, hkey, hkx, hky⟩
  rw [parse?_eq_some_iff.mp hkey, eq_of_point (hkx.trans hx.symm) (hky.trans hy.symm)]

end PublicKey

end P256

/-! ## In a handshake -/

section

variable {S : CipherSuite} {m : HandshakeMessage}

theorem Initiator.finish_invalidPublicKey_iff (hS : S.Exact) (hK : S.Derives) (i : Initiator S) :
    i.finish m = .error .invalidPublicKey ↔ S.parse m.publicKey = none := by
  rw [i.finish_error_iff hS hK]
  constructor
  · intro h
    cases h with
    | unreadable hk => exact hk
    | flawed hk hc => rcases hc.cases with h | h <;> cases h
  · exact fun hk => .unreadable hk

theorem Responder.refuses_invalidPublicKey_iff :
    Responder.Refuses S m .invalidPublicKey ↔
      (Responder.transcript S m.publicKey).Carries [] m.ciphertext ∧
        S.parse m.publicKey = none := by
  constructor
  · intro h
    cases h with
    | flawed hc => rcases hc.cases with h | h <;> cases h
    | unreadable hc hk => exact ⟨hc, hk⟩
  · rintro ⟨hc, hk⟩
    exact .unreadable hc hk

end

/-! ## The theorem -/

open P256 P256.PublicKey CipherSuite

/-- What is read as a public key, and what becomes of anything else. -/
structure ReadsPoints : Prop where
  accepts : ∀ bs, (∃ key, parse? bs = some key) ↔ ∃ x y, Uncompressed bs x y ∧ OfPoint x y
  reads : ∀ bs key, parse? bs = some key → key.encode = bs ∧
    ∃ x y, Uncompressed bs x y ∧ Bytes.toNat x = key.x ∧ Bytes.toNat y = key.y
  point : ∀ x y : ZMod prime, curve.toAffine.Equation x y → ∃! bs, ∃ key,
    parse? bs = some key ∧ (key.x : ZMod prime) = x ∧ (key.y : ZMod prime) = y
  refuses : ∀ bs, parse? bs = none ↔
    bs.length ≠ 65 ∨ bs.head? ≠ some 0x04 ∨ ∃ x y, Uncompressed bs x y ∧ ¬ OfPoint x y
  /-- Neither compressed points, nor hybrid ones, nor the neutral point. -/
  otherForms : ∀ tag rest, tag ≠ 0x04 → parse? (tag :: rest) = none
  /-- A byte string of the right size has the tag and the two halves that are looked at. -/
  whole : ∀ bs, bs.length = 65 → ∃ tag x y, bs = tag :: (x ++ y) ∧ x.length = 32 ∧ y.length = 32 ∧
    ∀ key, parse? bs = some key ↔ tag = 0x04 ∧ key.x = Bytes.toNat x ∧ key.y = Bytes.toNat y
  initiator : ∀ (i : Initiator p256AesGcmSha256) m,
    i.finish m = .error .invalidPublicKey ↔ parse? m.publicKey = none
  /-- The responder looks at the key of a message whose ciphertext is good. -/
  responder : ∀ m entropy,
    (Responder.respond p256AesGcmSha256 m entropy).1 = .error .invalidPublicKey ↔
      (Responder.transcript p256AesGcmSha256 m.publicKey).Carries [] m.ciphertext ∧
        parse? m.publicKey = none

/-- **A public key is the uncompressed form of a point of the curve, and each point has one.** -/
theorem reads_points : ReadsPoints where
  accepts _ := parse?_isSome_iff
  reads bs key h := by
    obtain rfl := parse?_eq_some_iff.mp h
    exact ⟨rfl, uncompressed_encode key⟩
  point _ _ := existsUnique_written
  refuses _ := parse?_eq_none_iff
  otherForms _ rest h := parse?_otherForm h rest
  whole bs h := by
    obtain ⟨tag, x, y, rfl, hx, hy⟩ := exists_halves h
    exact ⟨tag, x, y, rfl, hx, hy, fun _ => parse?_halves hx hy⟩
  initiator i _ := i.finish_invalidPublicKey_iff exact_p256AesGcmSha256 derives_p256AesGcmSha256
  responder m entropy := by
    have hjudges := Responder.judges exact_p256AesGcmSha256 sealsUpTo_p256AesGcmSha256
      derives_p256AesGcmSha256 entropy
    exact (hjudges.refuses m _).trans Responder.refuses_invalidPublicKey_iff

end SealedLink
