import SealedLink.Link.Config
import SealedLink.Transport

/-!
# Links

A link is a transport over a byte stream: it writes each request as a frame and reads one frame for
an answer, one exchange at a time, in the order of the requests. An exchange that fails or takes too
long ends the link: its stream can no longer be trusted to be between two frames. The link closes
then, turns away the requests that wait, one by one, and stops. A request that comes after it has
closed finds the socket closed at once, also while others are still being turned away.
-/

namespace SealedLink

def TransportError.ofIoError : IoError → TransportError
  | .unexpectedEof | .connectionReset | .connectionAborted | .brokenPipe | .notConnected =>
    .socketClosed
  | .writeZero | .other _ => .other

inductive LinkState where
  | idle
  /-- An exchange is in progress, and has to end by its deadline. -/
  | busy (sequence : UInt64) (deadline : Option Nat) (rest : Dialogue TransportResult)
  /-- An exchange has failed, and its request is answered. The link still takes requests. -/
  | closing
  /-- The link takes no more requests, and turns away those that wait. -/
  | draining
  | stopped

structure Link where
  config : LinkConfig := {}
  state : LinkState := .idle
  /-- The encoded requests that wait, the oldest first. -/
  queue : List (UInt64 × Bytes) := []

namespace Link

variable {ς : Type}

def isClosed (l : Link) : Bool :=
  match l.state with
  | .draining | .stopped => true
  | .idle | .busy .. | .closing => false

/-- Takes a request. One that cannot be encoded within the limit, and any after the link has
closed, is answered at once. -/
def send (l : Link) (sequence : UInt64) (request : Request) : Option TransportResult × Link :=
  match Request.encode request with
  | .error _ => (some (.error .serialization), l)
  | .ok bytes =>
    if l.config.maxFrameSize < bytes.length then (some (.error .serialization), l)
    else if l.isClosed then (some (.error .socketClosed), l)
    else (none, { l with queue := l.queue ++ [(sequence, bytes)] })

instance : Transport Link := ⟨send⟩

/-- One exchange: the request's frame out, and a frame with the answer in. -/
def exchange (limit : Nat) (request : Bytes) : Dialogue TransportResult := do
  match ← Frame.write limit request with
  | .error (.io e) => return .error (.ofIoError e)
  | .error _ => return .error .serialization
  | .ok () =>
    match ← Frame.read limit with
    | .error (.io e) => return .error (.ofIoError e)
    | .error _ => return .error .deserialization
    | .ok none => return .error .socketClosed
    | .ok (some frame) =>
      match Response.decode frame with
      | .error _ => return .error .deserialization
      | .ok response => return .ok response

/-- The earlier of two instants, where none is never. -/
def earlier : Option Nat → Option Nat → Option Nat
  | none, b => b
  | a, none => a
  | some a, some b => some (min a b)

/-- Runs an exchange up to the horizon. At its deadline it fails. -/
def runExchange [ByteStream ς] (horizon deadline : Option Nat) (d : Dialogue TransportResult)
    (s : ς) : Progress TransportResult × ς :=
  match d.run (earlier deadline horizon) s with
  | (.finished result, s) => (.finished result, s)
  | (.blocked rest, s) =>
    match deadline, horizon with
    | some deadline, none => (.finished (.error .other), ByteStream.waitUntil s deadline)
    | some deadline, some horizon =>
      if deadline ≤ horizon then (.finished (.error .other), ByteStream.waitUntil s deadline)
      else (.blocked rest, s)
    | none, _ => (.blocked rest, s)

/-- Runs the exchanges that wait, one after another, until one is blocked or fails. The answers are
in the order in which they came. -/
def runQueue [ByteStream ς] (horizon : Option Nat) (config : LinkConfig) :
    List (UInt64 × Bytes) → ς → List (UInt64 × TransportResult) × Link × ς
  | [], s => ([], { config := config }, s)
  | (sequence, request) :: queue, s =>
    let deadline := config.responseTimeout.map (ByteStream.clock s + ·)
    match runExchange horizon deadline (exchange config.maxFrameSize request) s with
    | (.finished (.ok response), s) =>
      let (answers, l, s) := runQueue horizon config queue s
      ((sequence, .ok response) :: answers, l, s)
    | (.finished (.error e), s) =>
      ([(sequence, .error e)], { config := config, state := .closing, queue := queue }, s)
    | (.blocked rest, s) =>
      ([], { config := config, state := .busy sequence deadline rest, queue := queue }, s)

/-- The exchanges go on for as long as the stream answers, up to the horizon. -/
def pump [ByteStream ς] (horizon : Option Nat) (l : Link) (s : ς) :
    List (UInt64 × TransportResult) × Link × ς :=
  match l.state with
  | .closing | .draining | .stopped => ([], l, s)
  | .idle => runQueue horizon l.config l.queue s
  | .busy sequence deadline d =>
    match runExchange horizon deadline d s with
    | (.finished (.ok response), s) =>
      let (answers, l, s) := runQueue horizon l.config l.queue s
      ((sequence, .ok response) :: answers, l, s)
    | (.finished (.error e), s) => ([(sequence, .error e)], { l with state := .closing }, s)
    | (.blocked rest, s) => ([], { l with state := .busy sequence deadline rest }, s)

/-- Takes no more requests, once an exchange has failed. -/
def close (l : Link) : Link :=
  match l.state with
  | .closing => { l with state := .draining }
  | _ => l

/-- Turns away the oldest request that waits in a closed link. When none is left, the link stops. -/
def drain (l : Link) : List (UInt64 × TransportResult) × Link :=
  match l.state, l.queue with
  | .draining, [] => ([], { l with state := .stopped })
  | .draining, (sequence, _) :: queue =>
    ([(sequence, .error .socketClosed)], { l with queue := queue })
  | _, _ => ([], l)

def drainFor : (steps : Nat) → Link → List (UInt64 × TransportResult) × Link
  | 0, l => ([], l)
  | steps + 1, l =>
    let (first, l) := l.drain
    let (answers, l) := drainFor steps l
    (first ++ answers, l)

/-- The end of a link whose exchange has failed: it closes and turns away all that wait. -/
def windUp (l : Link) : List (UInt64 × TransportResult) × Link :=
  l.close.drainFor (l.queue.length + 1)

/-- Goes on for as long as the stream answers, up to the horizon. -/
def advance [ByteStream ς] (horizon : Option Nat) (l : Link) (s : ς) :
    List (UInt64 × TransportResult) × Link × ς :=
  let (answers, l, s) := l.pump horizon s
  let (turned, l) := l.windUp
  (answers ++ turned, l, s)

def runFor [ByteStream ς] (duration : Nat) (l : Link) (s : ς) :
    List (UInt64 × TransportResult) × Link × ς :=
  let horizon := ByteStream.clock s + duration
  let (answers, l, s) := l.advance (some horizon) s
  (answers, l, ByteStream.waitUntil s horizon)

end Link

end SealedLink
