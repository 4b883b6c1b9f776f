import SealedLink.Channel.Driver

/-!
# Channels

A channel is a driver with its event queue, its transport and the handles that write to it. Writes
and answers wait in the event queue; the driver takes them in order, either whenever it is told to
(`runUntilIdle`) or as a task that ends by itself (`runTask`). Dropping the driver cancels every
write that is not resolved. The log keeps all that happened.
-/

namespace SealedLink

inductive Entry where
  | submitted (w : Pending)
  | handled (e : Event)
  | called (c : Call)
  | published (state : ChannelState)
  | sent (sequence : UInt64) (request : Request)
  | resolved (w : Pending) (outcome : Outcome)

structure Channel (τ σ α : Type) where
  transport : τ
  /-- The driver, until it is dropped. -/
  driver : Option (Driver σ α)
  /-- The events that wait, the oldest first. -/
  events : List Event := []
  /-- Whether the event queue takes events; a write that it does not take is cancelled at once. -/
  accepting : Bool := true
  published : ChannelState := .uninitialized
  submissions : Nat := 0
  handles : Nat := 1
  /-- The futures not dropped and not asked for their outcome yet, by the number of their write. -/
  futures : List (Nat × Option Outcome) := []
  /-- All that happened, the latest first. -/
  log : List Entry := []

inductive Polled where
  | ready (outcome : Outcome)
  | waiting
  /-- There is no such future, or it gave its outcome before. -/
  | gone

namespace Channel

variable {τ σ α : Type}

/-- A new channel. Nothing is sent before the first write. -/
def new (transport : τ) (session : σ) (attester : α) : Channel τ σ α :=
  { transport := transport, driver := some { session := session, attester := attester } }

def record (c : Channel τ σ α) (e : Entry) : Channel τ σ α := { c with log := e :: c.log }

def post (c : Channel τ σ α) (e : Event) : Channel τ σ α :=
  if c.accepting then { c with events := c.events ++ [e] } else c

/-! ## Writing -/

/-- Carries out a plan: each of its writes is queued, or cancelled at once, and then its own plan
carried out, before the next one is made. -/
def submitPlan : Plan → Channel τ σ α → Channel τ σ α
  | .nothing, c => c
  | .write request whenResolved rest, c =>
    let w : Pending := ⟨c.submissions, request, .callback whenResolved⟩
    let c := { c with submissions := c.submissions + 1 }.record (.submitted w)
    if c.accepting then submitPlan rest (c.post (.write w))
    else submitPlan rest (submitPlan whenResolved (c.record (.resolved w (.error .cancelled))))

def fill (c : Channel τ σ α) (number : Nat) (outcome : Outcome) : Channel τ σ α :=
  { c with futures := c.futures.map fun f => if f.1 = number then (f.1, some outcome) else f }

/-- Resolves a write: its callback runs, or its future is filled. -/
def resolve (c : Channel τ σ α) (w : Pending) (outcome : Outcome) : Channel τ σ α :=
  let c := c.record (.resolved w outcome)
  match w.completion with
  | .callback plan => submitPlan plan c
  | .future => c.fill w.number outcome

def write (c : Channel τ σ α) (request : Bytes) (plan : Plan) : Channel τ σ α :=
  submitPlan (.write request plan .nothing) c

def writeFuture (c : Channel τ σ α) (request : Bytes) : Channel τ σ α :=
  let w : Pending := ⟨c.submissions, request, .future⟩
  let c := { c with submissions := c.submissions + 1,
                    futures := c.futures ++ [(c.submissions, none)] }.record (.submitted w)
  if c.accepting then c.post (.write w) else c.resolve w (.error .cancelled)

/-- Asks a future for its outcome. A future that gives it is gone. -/
def poll (c : Channel τ σ α) (number : Nat) : Polled × Channel τ σ α :=
  match c.futures.lookup number with
  | none => (.gone, c)
  | some none => (.waiting, c)
  | some (some outcome) =>
    (.ready outcome, { c with futures := c.futures.filter fun f => f.1 ≠ number })

def dropFuture (c : Channel τ σ α) (number : Nat) : Bool × Channel τ σ α :=
  ((c.futures.lookup number).isSome,
    { c with futures := c.futures.filter fun f => f.1 ≠ number })

def dropHandle (c : Channel τ σ α) : Channel τ σ α := { c with handles := c.handles - 1 }

def cloneHandle (c : Channel τ σ α) : Channel τ σ α := { c with handles := c.handles + 1 }

def deliver (c : Channel τ σ α) (sequence : UInt64) (result : TransportResult) : Channel τ σ α :=
  c.post (.reply sequence result)

/-! ## Driving -/

def perform [Transport τ] (c : Channel τ σ α) : Action → Channel τ σ α
  | .call call => c.record (.called call)
  | .publish state => { c with published := state }.record (.published state)
  | .resolve w outcome => c.resolve w outcome
  | .send sequence request =>
    let (answer, transport) := Transport.send c.transport sequence request
    let c := { c with transport := transport }.record (.sent sequence request)
    match answer with
    | some result => c.post (.reply sequence result)
    | none => c

def processNext [Transport τ] [CipherSession σ] [Attester α] (c : Channel τ σ α) :
    Option (Channel τ σ α) :=
  match c.driver, c.events with
  | some d, e :: rest =>
    let (d, actions) := d.handle e
    some (actions.foldl perform ({ c with driver := some d, events := rest }.record (.handled e)))
  | _, _ => none

def runFor [Transport τ] [CipherSession σ] [Attester α] :
    (limit : Nat) → Channel τ σ α → Nat × Channel τ σ α
  | 0, c => (0, c)
  | limit + 1, c =>
    match c.processNext with
    | none => (0, c)
    | some next =>
      let (handled, last) := runFor limit next
      (handled + 1, last)

/-! ### How long a channel can go on by itself -/

/-- An event leads to itself, to at most one answer, and to the events of the plans it starts. -/
def eventPotential : Event → Nat
  | .write w => 4 * w.size
  | .reply .. => 1

/-- A write in the driver's queue leads to less than one in the event queue. -/
def queuePotential (w : Pending) : Nat := 4 * w.size - 2

/-- Before it is established a channel still has its first sends to make. -/
def statePotential : ChannelState → Nat
  | .uninitialized => 3
  | .performingAttestation => 2
  | .performingHandshake => 1
  | .established | .permanentFailure => 0

/-- Every event that is handled takes something away from this number. -/
def potential (c : Channel τ σ α) : Nat :=
  (c.events.map eventPotential).foldr (· + ·) 0 +
    match c.driver with
    | none => 0
    | some d => (d.queue.map queuePotential).foldr (· + ·) 0 + statePotential d.state

/-- Handles events, also those that come up meanwhile, until none is left; how many there were. -/
def runUntilIdle [Transport τ] [CipherSession σ] [Attester α] (c : Channel τ σ α) :
    Nat × Channel τ σ α :=
  c.runFor c.potential

/-! ## The end -/

def cancelEvent (c : Channel τ σ α) : Event → Channel τ σ α
  | .write w => c.resolve w (.error .cancelled)
  | .reply .. => c

/-- Drops the driver: first the writes in its queue are cancelled, then the event queue is closed,
then the writes left in it are cancelled. -/
def dropDriver (c : Channel τ σ α) : Channel τ σ α :=
  match c.driver with
  | none => c
  | some d =>
    let c := d.queue.foldl (fun c w => c.resolve w (.error .cancelled)) { c with driver := none }
    c.events.foldl cancelEvent { c with accepting := false, events := [] }

/-- Whether the driver is gone, so that writes are cancelled at once. -/
def isClosed (c : Channel τ σ α) : Bool := !c.accepting

/-! ## The driver as a task -/

/-- Whether a handle is left: one of the application's, or one that a waiting callback owns. -/
def hasHandle (c : Channel τ σ α) : Bool :=
  let waiting := c.events.any fun
    | .write w => w.ownsHandle
    | .reply .. => false
  let queued := match c.driver with
    | some d => d.queue.any Pending.ownsHandle
    | none => false
  decide (0 < c.handles) || waiting || queued

/-- Whether the driver has nothing to wait for: no handle is left to write, and no answer is due. -/
def isAbandoned (c : Channel τ σ α) : Bool :=
  match c.driver with
  | some d => d.outstanding.isNone && !c.hasHandle
  | none => false

/-- One step of the driver as a task: it handles the oldest event; if there is none and it has
nothing to wait for, it is dropped; otherwise it waits. -/
def taskStep [Transport τ] [CipherSession σ] [Attester α] (c : Channel τ σ α) :
    Option (Channel τ σ α) :=
  match c.processNext with
  | some next => some next
  | none => if c.isAbandoned then some c.dropDriver else none

def runTaskFor [Transport τ] [CipherSession σ] [Attester α] :
    (limit : Nat) → Channel τ σ α → Channel τ σ α
  | 0, c => c
  | limit + 1, c =>
    match c.taskStep with
    | none => c
    | some next => runTaskFor limit next

def runTask [Transport τ] [CipherSession σ] [Attester α] (c : Channel τ σ α) : Channel τ σ α :=
  c.runTaskFor (c.potential + 1)

/-! ## The log -/

def sends (c : Channel τ σ α) : List Request :=
  c.log.reverse.filterMap fun
    | .sent _ request => some request
    | _ => none

/-- The writes resolved and their outcomes, in the order of their resolution. -/
def outcomes (c : Channel τ σ α) : List (Pending × Outcome) :=
  c.log.reverse.filterMap fun
    | .resolved w outcome => some (w, outcome)
    | _ => none

end Channel

end SealedLink
