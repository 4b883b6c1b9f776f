import SealedLink.Noise.Standard
import SealedLink.Proofs.Noise.Agreement

/-!
# The standard suite can be relied on

AES-256-GCM undoes what it does, for every text that fits in a field. That two secret keys agree is
a fact about each pair of them.
-/

namespace SealedLink

/-- Random bytes that a small scalar is drawn from. -/
def Entropy.small (scalar : UInt8) : Entropy := ⟨List.replicate 31 0 ++ [scalar]⟩

namespace CipherSuite

theorem exact_p256AesGcmSha256 : p256AesGcmSha256.Exact where
  opens_iff _ _ _ _ _ := Gcm.decrypt_eq_some_iff
  length _ _ _ _ _ h := Gcm.length_of_encrypt h

theorem inverts_p256AesGcmSha256 : p256AesGcmSha256.Inverts := exact_p256AesGcmSha256.inverts

theorem sealsUpTo_p256AesGcmSha256 : p256AesGcmSha256.SealsUpTo Gcm.sizeLimit where
  seals key nonce aad plain hplain haad := ⟨_, if_neg (by omega)⟩
  hashes data := by
    show (Sha256.digest data).length ≤ Gcm.sizeLimit
    rw [Sha256.length_digest]
    decide

theorem derives_p256AesGcmSha256 : p256AesGcmSha256.Derives := by
  intro chainingKey material size hsize
  have hlimit : size ≤ Hkdf.blockLimit * Sha256.digestSize := hsize
  show (Hkdf.expand (Hkdf.extract chainingKey material) [] size).isSome
  rw [Hkdf.expand, if_pos hlimit]
  rfl

theorem reliable_p256AesGcmSha256 : p256AesGcmSha256.Reliable where
  inverts := inverts_p256AesGcmSha256
  derives := derives_p256AesGcmSha256
  seals key nonce aad plain hplain haad := by
    have hlimit : Field.sizeLimit ≤ Gcm.sizeLimit := by decide
    obtain ⟨sealed, hsealed⟩ :=
      sealsUpTo_p256AesGcmSha256.seals key nonce aad plain (by omega) (by omega)
    exact ⟨sealed, hsealed, exact_p256AesGcmSha256.length _ _ _ _ _ hsealed⟩
  hashes data := by
    show (Sha256.digest data).length < Field.sizeLimit
    rw [Sha256.length_digest]
    decide

/-- Whether two scalars agree, decided on the curve. -/
def agreeing (a b : Nat) : Bool :=
  match P256.PublicKey.parse? (P256.publicKey a), P256.PublicKey.parse? (P256.publicKey b) with
  | some publicA, some publicB => P256.sharedSecret a publicB == P256.sharedSecret b publicA
  | _, _ => false

theorem agrees_of_agreeing {a b : Nat} (h : agreeing a b)
    (hlengths : (P256.publicKey a).length = 65 ∧ (P256.publicKey b).length = 65) :
    p256AesGcmSha256.Agrees a b := by
  refine ⟨hlengths, ?_⟩
  show ∃ publicA publicB, P256.PublicKey.parse? (P256.publicKey a) = some publicA ∧
    P256.PublicKey.parse? (P256.publicKey b) = some publicB ∧
    P256.sharedSecret a publicB = P256.sharedSecret b publicA
  revert h
  unfold agreeing
  split
  · case _ publicA publicB hA hB => exact fun h => ⟨publicA, publicB, hA, hB, by simpa using h⟩
  · intro h
    cases h

/-! ## The scalars 1 and 2 -/

theorem draw_one : (p256AesGcmSha256.draw (.small 1)).1 = (1 : Nat) := by
  show (P256.drawScalar (.small 1)).1 = 1
  decide +kernel

theorem draw_two : (p256AesGcmSha256.draw (.small 2)).1 = (2 : Nat) := by
  show (P256.drawScalar (.small 2)).1 = 2
  decide +kernel

theorem agrees_one_two : p256AesGcmSha256.Agrees (1 : Nat) (2 : Nat) :=
  agrees_of_agreeing (by decide +kernel) (by decide +kernel)

def scalarKeys (a b : Nat) : TrafficKeys :=
  match P256.PublicKey.parse? (P256.publicKey b) with
  | some publicB =>
    p256AesGcmSha256.trafficKeys [P256.publicKey a, P256.publicKey b, P256.sharedSecret a publicB]
  | none => ⟨[], []⟩

end CipherSuite

end SealedLink
