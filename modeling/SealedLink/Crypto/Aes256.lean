import SealedLink.Bytes

/-!
# AES-256

The block cipher of FIPS 197 with a key of 32 bytes, in the direction of encryption. A block is
four words, one for each column of the state, with the first row in the top byte.
-/

namespace SealedLink.Aes256

def keySize : Nat := 32

def blockSize : Nat := 16

/-! ## Bytes as polynomials -/

/-- Multiplication by `x` modulo `x⁸ + x⁴ + x³ + x + 1`. -/
def double (a : UInt8) : UInt8 := (a <<< 1) ^^^ (if a &&& 0x80 = 0 then 0 else 0x1b)

/-- The product of two bytes, with the second one read from its low bit up. -/
def mul (a b : UInt8) : UInt8 :=
  ((List.range 8).foldl
    (fun (s : UInt8 × UInt8) i => (if b.toNat.testBit i then s.1 ^^^ s.2 else s.1, double s.2))
    (0, a)).1

/-- The inverse of a byte other than zero, and zero for zero: the 254th power. -/
def inverse (a : UInt8) : UInt8 :=
  let a2 := mul a a
  let a4 := mul a2 a2
  let a8 := mul a4 a4
  let a16 := mul a8 a8
  let a32 := mul a16 a16
  let a64 := mul a32 a32
  let a128 := mul a64 a64
  mul a128 (mul a64 (mul a32 (mul a16 (mul a8 (mul a4 a2)))))

def rotl (a : UInt8) (n : UInt8) : UInt8 := (a <<< n) ||| (a >>> (8 - n))

/-- The substitution of one byte: its inverse under an affine map. -/
def substitute (a : UInt8) : UInt8 :=
  let b := inverse a
  b ^^^ rotl b 1 ^^^ rotl b 2 ^^^ rotl b 3 ^^^ rotl b 4 ^^^ 0x63

def substitutes : Array UInt32 :=
  ((List.range 256).map fun i => (substitute (.ofNat i)).toUInt32).toArray

def substituteWord (w : UInt32) : UInt32 :=
  (substitutes.getD (w >>> 24).toNat 0 <<< 24) |||
  (substitutes.getD ((w >>> 16) &&& 0xff).toNat 0 <<< 16) |||
  (substitutes.getD ((w >>> 8) &&& 0xff).toNat 0 <<< 8) |||
  substitutes.getD (w &&& 0xff).toNat 0

/-! ## Columns and blocks -/

/-- Four columns of four bytes. -/
structure Block where
  c0 : UInt32
  c1 : UInt32
  c2 : UInt32
  c3 : UInt32
  deriving DecidableEq, Repr

def Block.xor (a b : Block) : Block := ⟨a.c0 ^^^ b.c0, a.c1 ^^^ b.c1, a.c2 ^^^ b.c2, a.c3 ^^^ b.c3⟩

def doubleWord (w : UInt32) : UInt32 :=
  ((w &&& 0x7f7f7f7f) <<< 1) ^^^ (((w >>> 7) &&& 0x01010101) * 0x1b)

def rotlWord (w n : UInt32) : UInt32 := (w <<< n) ||| (w >>> (32 - n))

/-- A column multiplied by the circulant matrix of 2, 3, 1, 1. -/
def mixColumn (w : UInt32) : UInt32 :=
  doubleWord w ^^^ rotlWord (doubleWord w ^^^ w) 8 ^^^ rotlWord w 16 ^^^ rotlWord w 24

/-- The column that row shifting makes of four columns, each giving one of its rows. -/
def gather (w0 w1 w2 w3 : UInt32) : UInt32 :=
  (w0 &&& 0xff000000) ||| (w1 &&& 0x00ff0000) ||| (w2 &&& 0x0000ff00) ||| (w3 &&& 0x000000ff)

/-- Byte substitution followed by row shifting. -/
def substituteShift (b : Block) : Block :=
  let s0 := substituteWord b.c0
  let s1 := substituteWord b.c1
  let s2 := substituteWord b.c2
  let s3 := substituteWord b.c3
  ⟨gather s0 s1 s2 s3, gather s1 s2 s3 s0, gather s2 s3 s0 s1, gather s3 s0 s1 s2⟩

def mixColumns (b : Block) : Block :=
  ⟨mixColumn b.c0, mixColumn b.c1, mixColumn b.c2, mixColumn b.c3⟩

/-! ## Keys -/

def word (a b c d : UInt8) : UInt32 :=
  (a.toUInt32 <<< 24) ||| (b.toUInt32 <<< 16) ||| (c.toUInt32 <<< 8) ||| d.toUInt32

/-- The words of a byte string; a partial word at the end is ignored. -/
def words : Bytes → List UInt32
  | a :: b :: c :: d :: rest => word a b c d :: words rest
  | _ => []

/-- The constants of the key schedule, one for every eight words: the powers of `x`. -/
def scheduleConstant (i : Nat) : UInt32 := 0x01000000 <<< UInt32.ofNat (i - 1)

def nextWord (ws : Array UInt32) : UInt32 :=
  let i := ws.size
  let last := ws.getD (i - 1) 0
  let mixed :=
    if i % 8 = 0 then substituteWord (rotlWord last 8) ^^^ scheduleConstant (i / 8)
    else if i % 8 = 4 then substituteWord last
    else last
  ws.getD (i - 8) 0 ^^^ mixed

def scheduleWords (key : Bytes) : Array UInt32 :=
  (List.range 52).foldl (fun ws _ => ws.push (nextWord ws)) (words key).toArray

def roundKeys (key : Bytes) : List Block :=
  let ws := scheduleWords key
  (List.range 15).map fun r =>
    ⟨ws.getD (4 * r) 0, ws.getD (4 * r + 1) 0, ws.getD (4 * r + 2) 0, ws.getD (4 * r + 3) 0⟩

/-! ## Encryption -/

/-- The rounds after the first key addition. The last one mixes no columns. -/
def rounds : List Block → Block → Block
  | [], b => b
  | [key], b => (substituteShift b).xor key
  | key :: keys, b => rounds keys ((mixColumns (substituteShift b)).xor key)

def encrypt (keys : List Block) (b : Block) : Block :=
  match keys with
  | [] => b
  | key :: rest => rounds rest (b.xor key)

def wordBytes (w : UInt32) : Bytes :=
  [(w >>> 24).toUInt8, (w >>> 16).toUInt8, (w >>> 8).toUInt8, w.toUInt8]

def Block.bytes (b : Block) : Bytes :=
  wordBytes b.c0 ++ wordBytes b.c1 ++ wordBytes b.c2 ++ wordBytes b.c3

@[simp] theorem Block.length_bytes (b : Block) : b.bytes.length = blockSize := rfl

/-- The block that a byte string starts with, filled up with zeros. -/
def Block.ofBytes (bs : Bytes) : Block :=
  match words (Bytes.padTo blockSize (bs.take blockSize)) with
  | [c0, c1, c2, c3] => ⟨c0, c1, c2, c3⟩
  | _ => ⟨0, 0, 0, 0⟩

end SealedLink.Aes256
