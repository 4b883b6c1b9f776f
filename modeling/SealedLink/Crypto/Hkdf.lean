import SealedLink.Crypto.Sha256

/-!
# HMAC and HKDF over SHA-256

The keyed hash of RFC 2104 and the two-step key derivation of RFC 5869.
-/

namespace SealedLink

namespace Hmac

/-- A key of one hash block: a longer key is hashed first, a shorter one filled up with zeros. -/
def blockKey (key : Bytes) : Bytes :=
  Bytes.padTo Sha256.blockSize (if key.length ≤ Sha256.blockSize then key else Sha256.digest key)

def code (key message : Bytes) : Bytes :=
  let block := blockKey key
  Sha256.digest (block.map (· ^^^ 0x5c) ++ Sha256.digest (block.map (· ^^^ 0x36) ++ message))

@[simp] theorem length_code (key message : Bytes) :
    (code key message).length = Sha256.digestSize := by
  simp [code]

end Hmac

namespace Hkdf

def extract (salt material : Bytes) : Bytes := Hmac.code salt material

/-- The `i`-th block of the expanded key, counted from 1; block 0 is empty. -/
def block (key info : Bytes) : Nat → Bytes
  | 0 => []
  | i + 1 => Hmac.code key (block key info i ++ info ++ [UInt8.ofNat (i + 1)])

/-- The number of a block is written in one byte. -/
def blockLimit : Nat := 255

/-- The first bytes of the expanded key, as many as are asked for; refused for more than there
are. -/
def expand (key info : Bytes) (size : Nat) : Option Bytes :=
  if size ≤ blockLimit * Sha256.digestSize then
    let count := (size + Sha256.digestSize - 1) / Sha256.digestSize
    some (((List.range count).flatMap fun i => block key info (i + 1)).take size)
  else none

end Hkdf

end SealedLink
