import SealedLink.Stream.Dialogue

/-!
# Scripted streams

A byte stream whose peer is written down beforehand: what it says and when, and how it takes what
is written to it. Time passes only where the script says so.
-/

namespace SealedLink

/-- What the next read meets. -/
inductive ReadStep where
  /-- Bytes, handed out as fast as they are asked for. -/
  | data (bytes : Bytes)
  /-- A pause, which begins when a read meets it. -/
  | wait (duration : Nat)
  | error (e : IoError)
  /-- No read is ever answered again. -/
  | hang
  deriving DecidableEq, Repr

/-- What a write meets once the stream takes no more. -/
inductive StopAction where
  | zero
  | hang
  | error (e : IoError)
  deriving DecidableEq, Repr

/-- A stream and its script. After the last read step the stream has ended. -/
structure ScriptedStream where
  reads : List ReadStep := []
  /-- The end of the pause that reads are waiting for. -/
  pauseEnd : Option Nat := none
  /-- The most bytes that one write takes. -/
  chunk : Option Nat := none
  /-- How many bytes are taken in all, and what comes after. -/
  stop : Option (Nat × StopAction) := none
  /-- The number of a flush, from 1, that fails, and how. -/
  flushFault : Option (Nat × IoError) := none
  now : Nat := 0
  writtenSize : Nat := 0
  writtenRev : List UInt8 := []
  flushes : Nat := 0

namespace ScriptedStream

def written (s : ScriptedStream) : Bytes := s.writtenRev.reverse

def within (instant : Nat) : Option Nat → Bool
  | none => true
  | some horizon => decide (instant ≤ horizon)

/-- Reads from a script, with the end of the pause at its head if a read met it before. -/
def readFrom (limit : Nat) (horizon : Option Nat) :
    List ReadStep → (pauseEnd : Option Nat) → (now : Nat) → ScriptedStream →
      Answer Bytes × ScriptedStream
  | [], _, now, s => (.ready (.ok []), { s with reads := [], pauseEnd := none, now := now })
  | .data bytes :: rest, _, now, s =>
    if bytes.isEmpty then readFrom limit horizon rest none now s
    else
      let left := bytes.drop limit
      (.ready (.ok (bytes.take limit)),
        { s with reads := if left.isEmpty then rest else .data left :: rest,
                 pauseEnd := none, now := now })
  | .wait duration :: rest, pauseEnd, now, s =>
    let instant := pauseEnd.getD (now + duration)
    if within instant horizon then readFrom limit horizon rest none (max now instant) s
    else
      (.pending, { s with reads := .wait duration :: rest, pauseEnd := some instant, now := now })
  | .error e :: rest, _, now, s =>
    (.ready (.error e), { s with reads := rest, pauseEnd := none, now := now })
  | .hang :: rest, _, now, s =>
    (.pending, { s with reads := .hang :: rest, pauseEnd := none, now := now })

def read (s : ScriptedStream) (limit : Nat) (horizon : Option Nat) :
    Answer Bytes × ScriptedStream :=
  readFrom limit horizon s.reads s.pauseEnd s.now s

/-- Takes as many of some bytes as one write takes. -/
def takeChunk (s : ScriptedStream) (bytes : Bytes) : Bytes :=
  match s.chunk with
  | some chunk => bytes.take chunk
  | none => bytes

def accept (s : ScriptedStream) (bytes : Bytes) : Answer Nat × ScriptedStream :=
  (.ready (.ok bytes.length),
    { s with writtenSize := s.writtenSize + bytes.length,
             writtenRev := bytes.reverse ++ s.writtenRev })

def write (s : ScriptedStream) (bytes : Bytes) : Answer Nat × ScriptedStream :=
  match s.stop with
  | none => s.accept (s.takeChunk bytes)
  | some (size, action) =>
    if s.writtenSize < size then s.accept ((s.takeChunk bytes).take (size - s.writtenSize))
    else
      match action with
      | .zero => (.ready (.ok 0), s)
      | .hang => (.pending, s)
      | .error e => (.ready (.error e), s)

def flush (s : ScriptedStream) : Answer Unit × ScriptedStream :=
  let number := s.flushes + 1
  let s := { s with flushes := number }
  match s.flushFault with
  | some (at_, e) => if number = at_ then (.ready (.error e), s) else (.ready (.ok ()), s)
  | none => (.ready (.ok ()), s)

instance : ByteStream ScriptedStream where
  read := read
  write := write
  flush := flush
  clock := now
  waitUntil s instant := { s with now := max s.now instant }

def dataSize (s : ScriptedStream) : Nat :=
  (s.reads.map fun
    | .data bytes => bytes.length
    | _ => 0).foldr (· + ·) 0

end ScriptedStream

end SealedLink
