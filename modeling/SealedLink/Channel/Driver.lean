import SealedLink.Attestation
import SealedLink.Channel.Write
import SealedLink.CipherSession
import SealedLink.Transport

/-!
# The state machine of a channel

The driver takes one event at a time, a write or a reply of the transport, and answers with the
actions that follow, in order. It attests the peer and runs the handshake when the first write
comes, then sends the queued requests one at a time. Any failure is for good and fails every
queued write.
-/

namespace SealedLink

inductive ChannelState where
  | uninitialized
  | performingAttestation
  | performingHandshake
  | established
  | permanentFailure
  deriving DecidableEq, Repr

def ChannelState.name : ChannelState → String
  | .uninitialized => "Uninitialized"
  | .performingAttestation => "PerformingAttestation"
  | .performingHandshake => "PerformingHandshake"
  | .established => "Established"
  | .permanentFailure => "PermanentFailure"

inductive Event where
  | write (w : Pending)
  /-- The transport's answer to the send of a sequence number. -/
  | reply (sequence : UInt64) (result : TransportResult)

/-- A call to the session or the attester, with what came of it. -/
inductive Call where
  | attestationRequest (evidence : Option Bytes)
  | verify (evidence : Bytes) (accepted : Bool)
  | start (result : Except CryptoError HandshakeMessage)
  | finish (response : HandshakeMessage) (result : Except CryptoError Unit)
  | encrypt (plaintext : Bytes) (result : Except CryptoError Bytes)
  | decrypt (ciphertext : Bytes) (result : Except CryptoError Bytes)

inductive Action where
  | call (c : Call)
  | publish (state : ChannelState)
  | send (sequence : UInt64) (request : Request)
  | resolve (w : Pending) (outcome : Outcome)

structure Driver (σ α : Type) where
  session : σ
  attester : α
  state : ChannelState := .uninitialized
  /-- The writes that were taken and not resolved, the oldest first. -/
  queue : List Pending := []
  /-- The send that is not answered yet. -/
  outstanding : Option UInt64 := none
  nextSequence : UInt64 := 0

namespace Driver

variable {σ α : Type}

def after (actions : List Action) (step : Driver σ α × List Action) : Driver σ α × List Action :=
  (step.1, actions ++ step.2)

def send (d : Driver σ α) (request : Request) : Driver σ α × List Action :=
  ({ d with outstanding := some d.nextSequence, nextSequence := d.nextSequence + 1 },
    [.send d.nextSequence request])

def advance (d : Driver σ α) (state : ChannelState) (request : Request) :
    Driver σ α × List Action :=
  after [.publish state] ({ d with state := state }.send request)

/-- Fails for good, and every queued write with it. -/
def failAll (d : Driver σ α) (code : ChannelError) : Driver σ α × List Action :=
  ({ d with state := .permanentFailure, outstanding := none, queue := [] },
    .publish .permanentFailure :: d.queue.map fun w => .resolve w (.error code))

def phaseError (d : Driver σ α) : ChannelError :=
  match d.state with
  | .performingAttestation => .attestationFailed
  | .performingHandshake => .handshakeFailed
  | .established => .networkError
  | .uninitialized | .permanentFailure => .genericError

def describe (d : Driver σ α) : String :=
  let outstanding := match d.outstanding with
    | none => "None"
    | some sequence => "Some(" ++ toString sequence.toNat ++ ")"
  "ChannelDriver \x7b state: " ++ d.state.name ++ ", queued: " ++ toString d.queue.length ++
    ", outstanding: " ++ outstanding ++ ", .. \x7d"

variable [CipherSession σ] [Attester α]

/-- Sends the oldest request if the channel is established and no answer is due. -/
def dispatchNext (d : Driver σ α) : Driver σ α × List Action :=
  if d.state = .established ∧ d.outstanding = none then
    match d.queue with
    | [] => (d, [])
    | w :: _ =>
      match CipherSession.encrypt d.session w.request with
      | (.ok ciphertext, session) =>
        after [.call (.encrypt w.request (.ok ciphertext))]
          ({ d with session := session }.send (.encrypted ciphertext))
      | (.error e, session) =>
        after [.call (.encrypt w.request (.error e))]
          ({ d with session := session }.failAll .encryptionFailed)
  else (d, [])

def startAttestation (d : Driver σ α) : Driver σ α × List Action :=
  match Attester.request d.attester with
  | (some evidence, attester) =>
    after [.call (.attestationRequest (some evidence))]
      ({ d with attester := attester }.advance .performingAttestation (.attest evidence))
  | (none, attester) =>
    after [.call (.attestationRequest none)]
      ({ d with attester := attester }.failAll .attestationFailed)

def onWrite (d : Driver σ α) (w : Pending) : Driver σ α × List Action :=
  let queued := { d with queue := d.queue ++ [w] }
  match d.state with
  | .permanentFailure => (d, [.resolve w (.error .genericError)])
  | .uninitialized => queued.startAttestation
  | .performingAttestation | .performingHandshake => (queued, [])
  | .established => queued.dispatchNext

def onAttestation (d : Driver σ α) (evidence : Bytes) : Driver σ α × List Action :=
  match Attester.verify d.attester evidence with
  | (false, attester) =>
    after [.call (.verify evidence false)]
      ({ d with attester := attester }.failAll .attestationFailed)
  | (true, attester) =>
    match CipherSession.start d.session with
    | (.ok message, session) =>
      after [.call (.verify evidence true), .call (.start (.ok message))]
        ({ d with attester := attester, session := session }.advance .performingHandshake
          (.handshake message))
    | (.error e, session) =>
      after [.call (.verify evidence true), .call (.start (.error e))]
        ({ d with attester := attester, session := session }.failAll .handshakeFailed)

def onHandshake (d : Driver σ α) (response : HandshakeMessage) : Driver σ α × List Action :=
  match CipherSession.finish d.session response with
  | (.ok (), session) =>
    after [.call (.finish response (.ok ())), .publish .established]
      ({ d with session := session, state := .established }.dispatchNext)
  | (.error e, session) =>
    after [.call (.finish response (.error e))]
      ({ d with session := session }.failAll .handshakeFailed)

/-- Resolves the oldest write with the decrypted answer and sends the next request. -/
def onEncrypted (d : Driver σ α) (ciphertext : Bytes) : Driver σ α × List Action :=
  match CipherSession.decrypt d.session ciphertext with
  | (.ok plaintext, session) =>
    after (.call (.decrypt ciphertext (.ok plaintext)) ::
        (d.queue.take 1).map fun w => .resolve w (.ok plaintext))
      ({ d with session := session, queue := d.queue.drop 1 }.dispatchNext)
  | (.error e, session) =>
    after [.call (.decrypt ciphertext (.error e))]
      ({ d with session := session }.failAll .decryptionFailed)

/-- Takes the answer to the outstanding send; any other answer is ignored. -/
def onReply (d : Driver σ α) (sequence : UInt64) (result : TransportResult) :
    Driver σ α × List Action :=
  if d.outstanding = some sequence then
    let answered := { d with outstanding := none }
    match d.state, result with
    | .performingAttestation, .ok (.message (.attest evidence)) => answered.onAttestation evidence
    | .performingHandshake, .ok (.message (.handshake response)) => answered.onHandshake response
    | .established, .ok (.message (.encrypted ciphertext)) => answered.onEncrypted ciphertext
    | _, _ => answered.failAll answered.phaseError
  else (d, [])

def handle (d : Driver σ α) : Event → Driver σ α × List Action
  | .write w => d.onWrite w
  | .reply sequence result => d.onReply sequence result

end Driver

end SealedLink
