import SealedLink.Error

/-!
# Dialogues with a byte stream

A computation that reads and writes a byte stream is a tree: each node is a call to the stream, with
one branch for each answer. The same tree can be run against any stream, and where the stream has
no answer yet the rest of the tree waits for it.
-/

namespace SealedLink

/-- A computation with a byte stream. -/
inductive Dialogue (α : Type) where
  | done (result : α)
  /-- Reads at most `limit` bytes; no bytes mean the end of the stream. -/
  | read (limit : Nat) (next : Except IoError Bytes → Dialogue α)
  /-- Offers bytes; the answer is how many of them were taken. -/
  | write (bytes : Bytes) (next : Except IoError Nat → Dialogue α)
  | flush (next : Except IoError Unit → Dialogue α)

inductive Answer (α : Type) where
  | ready (result : Except IoError α)
  | pending

/-- A byte stream. A read may wait for bytes until an instant, the horizon; without a horizon it may
wait for ever. -/
class ByteStream (ς : Type) where
  read : ς → (limit : Nat) → (horizon : Option Nat) → Answer Bytes × ς
  write : ς → Bytes → Answer Nat × ς
  flush : ς → Answer Unit × ς
  clock : ς → Nat
  waitUntil : ς → Nat → ς

/-- How far a dialogue came. -/
inductive Progress (α : Type) where
  | finished (result : α)
  | blocked (rest : Dialogue α)

namespace Dialogue

variable {α β ς : Type}

def bind : Dialogue α → (α → Dialogue β) → Dialogue β
  | done a, f => f a
  | read limit next, f => read limit fun answer => (next answer).bind f
  | write bytes next, f => write bytes fun answer => (next answer).bind f
  | flush next, f => flush fun answer => (next answer).bind f

instance : Monad Dialogue where
  pure := done
  bind := bind

/-- Runs a dialogue for as long as the stream answers. -/
def run [ByteStream ς] (horizon : Option Nat) : Dialogue α → ς → Progress α × ς
  | done a, s => (.finished a, s)
  | read limit next, s =>
    match ByteStream.read s limit horizon with
    | (.ready answer, s) => run horizon (next answer) s
    | (.pending, s) => (.blocked (read limit next), s)
  | write bytes next, s =>
    match ByteStream.write s bytes with
    | (.ready answer, s) => run horizon (next answer) s
    | (.pending, s) => (.blocked (write bytes next), s)
  | flush next, s =>
    match ByteStream.flush s with
    | (.ready answer, s) => run horizon (next answer) s
    | (.pending, s) => (.blocked (flush next), s)

/-- Offers bytes until all of them are taken. A stream that takes none fails. -/
def writeAll (bytes : Bytes) : Dialogue (Except IoError Unit) :=
  if _h : bytes = [] then done (.ok ())
  else
    write bytes fun
      | .error e => done (.error e)
      | .ok 0 => done (.error .writeZero)
      | .ok (taken + 1) => writeAll (bytes.drop (taken + 1))
termination_by bytes.length
decreasing_by
  have := List.length_pos_iff.mpr _h
  simp only [List.length_drop]
  omega

/-- Reads until `missing` more bytes have come or the stream has ended; `got` holds those that came
before, the latest first. -/
def fill (missing : Nat) (got : Bytes) : Dialogue (Except IoError Bytes) :=
  if missing = 0 then done (.ok got.reverse)
  else
    read missing fun
      | .error e => done (.error e)
      | .ok [] => done (.ok got.reverse)
      | .ok (b :: bytes) => fill (missing - (bytes.length + 1)) (bytes.reverse ++ b :: got)
termination_by missing

end Dialogue

end SealedLink
