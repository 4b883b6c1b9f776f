import SealedLink.Channel.Basic
import SealedLink.Link.Basic
import SealedLink.Noise.ClientSession
import SealedLink.Service.Serve
import SealedLink.Stream.Pipe

/-!
# Loopbacks

A loopback is a client's channel and a service in one process, joined by a pair of pipes. The two
sides take turns. Time passes only when neither side can go on: then it is the deadline of the
exchange that the client waits for.
-/

namespace SealedLink

/-- A channel over a link, a service, and the pipes between them. -/
structure Loopback (S : CipherSuite) (α η : Type) where
  channel : Channel Link (ClientSession S) α
  service : Service.Task S η
  serviceLimit : Nat
  toService : Pipe
  toClient : Pipe
  now : Nat := 0

namespace Loopback

variable {S : CipherSuite} {α η : Type}

def defaultCapacity : Nat := 4096

def defaultServiceLimit : Nat := Frame.defaultLimit

/-- A new loopback, with an application behind the service and the evidence that it presents. The
client's ephemeral key is the first in the random bytes, and the service's the second. -/
def new [Application η] (config : LinkConfig) (entropy : Entropy) (attester : α)
    (evidence : Bytes) (application : η) (serviceLimit : Nat := defaultServiceLimit)
    (capacity : Nat := defaultCapacity) : Loopback S α η :=
  { channel := .new { config := config } { entropy := entropy } attester,
    service := Service.start serviceLimit
      { evidence := evidence, application := application, entropy := (S.draw entropy).2 },
    serviceLimit := serviceLimit,
    toService := { capacity := capacity },
    toClient := { capacity := capacity } }

/-! ## Turns -/

def clientEnd (l : Loopback S α η) : PipeEnd := ⟨l.toClient, l.toService, l.now⟩

def serviceEnd (l : Loopback S α η) : PipeEnd := ⟨l.toService, l.toClient, l.now⟩

/-- Whether the client still holds its end: its link goes on, and there is a driver to use it. -/
def clientHoldsEnd (c : Channel Link (ClientSession S) α) : Bool :=
  !c.transport.isClosed && c.driver.isSome

/-- The client's turn: the channel goes on, then its link, whose answers go to the channel. -/
def clientTurn [Attester α] (l : Loopback S α η) : Loopback S α η :=
  let channel := l.channel.runTask
  let (answers, link, e) := channel.transport.advance (some l.now) l.clientEnd
  let channel := answers.foldl (fun c answer => c.deliver answer.1 answer.2)
    { channel with transport := link }
  let e := if clientHoldsEnd channel then e else e.close
  { l with channel := channel, toService := e.outbound, toClient := e.inbound }

/-- The service's turn. It can read no more frames than there are bytes. -/
def serviceTurn [Application η] (l : Loopback S α η) : Loopback S α η :=
  let (service, e) := Service.advance l.serviceLimit (l.toService.buffer.length + 2) l.service
    l.serviceEnd
  let e := match service with
    | .running _ => e
    | .ended _ => e.close
  { l with service := service, toService := e.inbound, toClient := e.outbound }

def round [Attester α] [Application η] (l : Loopback S α η) : Loopback S α η :=
  l.clientTurn.serviceTurn

/-! ## Runs -/

def deadline (l : Loopback S α η) : Option Nat :=
  match l.channel.transport.state with
  | .busy _ deadline _ => deadline
  | .idle | .closing | .draining | .stopped => none

/-- Whether a round left everything as it was. -/
def settledBy (before after : Loopback S α η) : Bool :=
  decide (before.toService = after.toService) && decide (before.toClient = after.toClient) &&
    after.channel.events.isEmpty

/-- Rounds until nothing moves and no deadline is left to wait for, but at most `rounds` of them. -/
def run [Attester α] [Application η] : (rounds : Nat) → Loopback S α η → Loopback S α η
  | 0, l => l
  | rounds + 1, l =>
    let next := l.round
    if settledBy l next then
      match next.deadline with
      | none => next
      | some instant => run rounds { next with now := max next.now instant }
    else run rounds next

/-- A run of more rounds than this is given up. -/
def patience : Nat := 1 <<< 32

/-- Makes a batch of writes and runs until nothing moves. Gives what the futures of the writes say
then, in order. -/
def exchange [Attester α] [Application η] (l : Loopback S α η) (requests : List Bytes) :
    List Polled × Loopback S α η :=
  let first := l.channel.submissions
  let written := { l with channel := requests.foldl Channel.writeFuture l.channel }
  let after := run patience written
  let (polled, channel) := (List.range' first requests.length).foldl
    (fun (polled, c) number => let (p, c) := c.poll number; (p :: polled, c)) ([], after.channel)
  (polled.reverse, { after with channel := channel })

/-- The application drops its handle, and what is left to do is done. -/
def finish [Attester α] [Application η] (l : Loopback S α η) : Loopback S α η :=
  run patience { l with channel := l.channel.dropHandle }

end Loopback

end SealedLink
