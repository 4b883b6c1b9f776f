import SealedLink.Crypto.Aes256

/-!
# AES-256 in Galois/Counter mode

Authenticated encryption with associated data, after NIST SP 800-38D, with nonces of twelve bytes
and tags of sixteen. Main statement: decryption accepts, for each plaintext, the one sealed text
that encryption makes of it (`decrypt_eq_some_iff`).
-/

namespace SealedLink.Gcm

open Aes256 (Block)

def tagSize : Nat := 16

def nonceSize : Nat := 12

/-- Neither a plaintext nor associated data may be longer than this. -/
def sizeLimit : Nat := 1 <<< 36

/-! ## The authentication hash -/

/-- An element of the field of 2¹²⁸ elements; the top bit is the constant coefficient. -/
structure Element where
  high : UInt64
  low : UInt64
  deriving DecidableEq, Repr

/-- Adds to the sum `z` the multiples of `v` by the next `n` coefficients of `x`. -/
def mulLoop : (n : Nat) → (xh xl zh zl vh vl : UInt64) → Element
  | 0, _, _, zh, zl, _, _ => ⟨zh, zl⟩
  | n + 1, xh, xl, zh, zl, vh, vl =>
    let take := (0 : UInt64) - (xh >>> 63)
    let carry := (0 : UInt64) - (vl &&& 1)
    mulLoop n ((xh <<< 1) ||| (xl >>> 63)) (xl <<< 1)
      (zh ^^^ (vh &&& take)) (zl ^^^ (vl &&& take))
      ((vh >>> 1) ^^^ (carry &&& 0xe100000000000000)) ((vl >>> 1) ||| (vh <<< 63))

def Element.mul (x y : Element) : Element := mulLoop 128 x.high x.low 0 0 y.high y.low

def Element.xor (x y : Element) : Element := ⟨x.high ^^^ y.high, x.low ^^^ y.low⟩

def Element.ofBlock (b : Block) : Element :=
  ⟨(b.c0.toUInt64 <<< 32) ||| b.c1.toUInt64, (b.c2.toUInt64 <<< 32) ||| b.c3.toUInt64⟩

def Element.toBlock (x : Element) : Block :=
  ⟨(x.high >>> 32).toUInt32, x.high.toUInt32, (x.low >>> 32).toUInt32, x.low.toUInt32⟩

/-- Hashes a number of blocks of a byte string, the last one filled up with zeros. -/
def absorb (h : Element) : (blocks : Nat) → Element → Bytes → Element
  | 0, y, _ => y
  | n + 1, y, bs => absorb h n ((y.xor (.ofBlock (.ofBytes bs))).mul h) (bs.drop Aes256.blockSize)

def blockCount (bs : Bytes) : Nat := (bs.length + 15) / 16

/-- The hash of associated data and ciphertext, each filled up to whole blocks, and their lengths
in bits. -/
def hash (h : Element) (aad ciphertext : Bytes) : Element :=
  let lengths : Element := ⟨.ofNat (8 * aad.length), .ofNat (8 * ciphertext.length)⟩
  let y := absorb h (blockCount aad) ⟨0, 0⟩ aad
  let y := absorb h (blockCount ciphertext) y ciphertext
  (y.xor lengths).mul h

/-! ## The key stream -/

def counterBlock (nonce : Bytes) (i : Nat) : Block :=
  { Block.ofBytes nonce with c3 := .ofNat (i + 1) }

/-- The encryptions of the counter blocks 1 to `blocks`, one after another. -/
def keyStream (keys : List Block) (nonce : Bytes) (blocks : Nat) : Bytes :=
  (List.range blocks).flatMap fun i => (Aes256.encrypt keys (counterBlock nonce (i + 1))).bytes

@[simp] theorem length_keyStream (keys : List Block) (nonce : Bytes) (blocks : Nat) :
    (keyStream keys nonce blocks).length = 16 * blocks := by
  simp only [keyStream, List.length_flatMap, Block.length_bytes, List.map_const',
    List.length_range, List.sum_replicate_nat, Aes256.blockSize, Nat.mul_comm]

/-- A text under the key stream; the same operation takes it off again. -/
def mask (keys : List Block) (nonce text : Bytes) : Bytes :=
  Bytes.xor text (keyStream keys nonce (blockCount text))

@[simp] theorem length_mask (keys : List Block) (nonce text : Bytes) :
    (mask keys nonce text).length = text.length := by
  simp [mask, blockCount]
  omega

theorem mask_mask (keys : List Block) (nonce text : Bytes) :
    mask keys nonce (mask keys nonce text) = text := by
  have h : blockCount (mask keys nonce text) = blockCount text := by simp [blockCount]
  unfold mask at h ⊢
  rw [h]
  exact Bytes.xor_xor _ _ (by simp [blockCount]; omega)

/-! ## Encryption -/

def tag (keys : List Block) (nonce aad ciphertext : Bytes) : Bytes :=
  let h := Element.ofBlock (Aes256.encrypt keys ⟨0, 0, 0, 0⟩)
  ((hash h aad ciphertext).toBlock.xor (Aes256.encrypt keys (counterBlock nonce 0))).bytes

@[simp] theorem length_tag (keys : List Block) (nonce aad ciphertext : Bytes) :
    (tag keys nonce aad ciphertext).length = tagSize := rfl

def encrypt (key nonce aad plaintext : Bytes) : Option Bytes :=
  if sizeLimit < plaintext.length ∨ sizeLimit < aad.length then none
  else
    let keys := Aes256.roundKeys key
    let ciphertext := mask keys nonce plaintext
    some (ciphertext ++ tag keys nonce aad ciphertext)

def decrypt (key nonce aad sealed : Bytes) : Option Bytes :=
  let size := sealed.length - tagSize
  if sealed.length < tagSize ∨ sizeLimit < size ∨ sizeLimit < aad.length then none
  else
    let keys := Aes256.roundKeys key
    let ciphertext := sealed.take size
    if sealed.drop size = tag keys nonce aad ciphertext then some (mask keys nonce ciphertext)
    else none

theorem encrypt_eq_some {key nonce aad plaintext sealed : Bytes}
    (h : encrypt key nonce aad plaintext = some sealed) :
    plaintext.length ≤ sizeLimit ∧ aad.length ≤ sizeLimit ∧
      sealed = mask (Aes256.roundKeys key) nonce plaintext ++
        tag (Aes256.roundKeys key) nonce aad (mask (Aes256.roundKeys key) nonce plaintext) := by
  simp only [encrypt] at h
  split at h
  · simp at h
  · simp only [Option.some.injEq] at h
    exact ⟨by omega, by omega, h.symm⟩

theorem length_of_encrypt {key nonce aad plaintext sealed : Bytes}
    (h : encrypt key nonce aad plaintext = some sealed) :
    sealed.length = plaintext.length + tagSize := by
  rw [(encrypt_eq_some h).2.2]
  simp

theorem decrypt_eq_some_iff {key nonce aad plaintext sealed : Bytes} :
    decrypt key nonce aad sealed = some plaintext ↔
      encrypt key nonce aad plaintext = some sealed := by
  constructor
  · intro h
    simp only [decrypt] at h
    split at h
    · simp at h
    · split at h
      · rename_i hsize htag
        simp only [Option.some.injEq] at h
        have hp : plaintext.length = sealed.length - tagSize := by
          rw [← h]; simp
        subst h
        rw [encrypt, if_neg (by simp only [length_mask] at hp ⊢; omega)]
        simp only [mask_mask, ← htag, List.take_append_drop]
      · simp at h
  · intro h
    obtain ⟨hp, ha, rfl⟩ := encrypt_eq_some h
    simp only [decrypt, List.length_append, length_mask, length_tag, Nat.add_sub_cancel]
    rw [if_neg (by omega), List.take_left' (by simp), List.drop_left' (by simp), if_pos rfl,
      mask_mask]

end SealedLink.Gcm
