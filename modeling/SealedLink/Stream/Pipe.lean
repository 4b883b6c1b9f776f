import SealedLink.Stream.Dialogue

/-!
# Pipes

An in-memory stream of bytes with a bounded buffer, and the two ends of a pair of pipes. When an
end is dropped both pipes are closed: what is in them can still be read, and nothing more can be
written.
-/

namespace SealedLink

structure Pipe where
  capacity : Nat
  buffer : Bytes := []
  closed : Bool := false
  moved : Nat := 0
  deriving DecidableEq, Repr

namespace Pipe

def read (p : Pipe) (limit : Nat) : Answer Bytes × Pipe :=
  if p.buffer.isEmpty then (if p.closed then .ready (.ok []) else .pending, p)
  else (.ready (.ok (p.buffer.take limit)), { p with buffer := p.buffer.drop limit })

def write (p : Pipe) (bytes : Bytes) : Answer Nat × Pipe :=
  if p.closed then (.ready (.error .brokenPipe), p)
  else
    let room := p.capacity - p.buffer.length
    if room = 0 then (.pending, p)
    else
      let taken := bytes.take room
      (.ready (.ok taken.length),
        { p with buffer := p.buffer ++ taken, moved := p.moved + taken.length })

def close (p : Pipe) : Pipe := { p with closed := true }

end Pipe

/-- One end of a pair of pipes, at an instant. -/
structure PipeEnd where
  inbound : Pipe
  outbound : Pipe
  now : Nat

namespace PipeEnd

instance : ByteStream PipeEnd where
  read e limit _ :=
    let (answer, inbound) := e.inbound.read limit
    (answer, { e with inbound := inbound })
  write e bytes :=
    let (answer, outbound) := e.outbound.write bytes
    (answer, { e with outbound := outbound })
  flush e := (.ready (.ok ()), e)
  clock := now
  waitUntil e instant := { e with now := max e.now instant }

def close (e : PipeEnd) : PipeEnd :=
  { e with inbound := e.inbound.close, outbound := e.outbound.close }

end PipeEnd

end SealedLink
