import SealedLink.Link.Config
import SealedLink.Service.Session

/-!
# Serving a session over a byte stream

A service reads a frame, answers it, and goes on until the client is gone. A frame that is over the
limit, cannot be read, or is refused by the session gets one empty response, and the service ends
with the error. A failure of the stream ends it without a word.
-/

namespace SealedLink.Service

variable {S : CipherSuite} {η ς : Type}

/-- How a service ends: with its session, when the client is gone, or with an error. -/
abbrev End (S : CipherSuite) (η : Type) := Except Error (ServiceSession S η)

/-- What comes after one frame. -/
inductive Turn (S : CipherSuite) (η : Type) where
  | next (session : ServiceSession S η)
  | ended (result : End S η)

/-- Tells the client of an error, if the stream lets it, and ends with the error. -/
def reject (limit : Nat) (e : Error) : Dialogue (Turn S η) := do
  match Response.encode .empty with
  | .ok bytes =>
    let _ ← Frame.write limit bytes
    return .ended (.error e)
  | .error _ => return .ended (.error e)

def reply (limit : Nat) (session : ServiceSession S η) (response : Response) :
    Dialogue (Turn S η) := do
  match response.encode with
  | .error e => return .ended (.error (.codec e))
  | .ok bytes =>
    match ← Frame.write limit bytes with
    | .ok () => return .next session
    | .error e => return .ended (.error e)

def answer [Application η] (limit : Nat) (session : ServiceSession S η) (frame : Bytes) :
    Dialogue (Turn S η) :=
  match Request.decode frame with
  | .error e => reject limit (.codec e)
  | .ok request =>
    match session.handle request with
    | (.ok response, session) => reply limit session response
    | (.error e, _) => reject limit e

def turn [Application η] (limit : Nat) (session : ServiceSession S η) :
    Dialogue (Turn S η) := do
  match ← Frame.read limit with
  | .ok none => return .ended (.ok session)
  | .ok (some frame) => answer limit session frame
  | .error (.codec e) => reject limit (.codec e)
  | .error e => return .ended (.error e)

/-- Where a service is: in the middle of a turn, or at its end. -/
inductive Task (S : CipherSuite) (η : Type) where
  | running (rest : Dialogue (Turn S η))
  | ended (result : End S η)

def start [Application η] (limit : Nat) (session : ServiceSession S η) : Task S η :=
  if limit = 0 then .ended (.error zeroFrameSize) else .running (turn limit session)

/-- Goes on for as long as the stream answers, for up to a number of turns. -/
def advance [Application η] [ByteStream ς] (limit : Nat) :
    (turns : Nat) → Task S η → ς → Task S η × ς
  | turns + 1, .running d, s =>
    match d.run none s with
    | (.finished (.next session), s) => advance limit turns (.running (turn limit session)) s
    | (.finished (.ended result), s) => (.ended result, s)
    | (.blocked rest, s) => (.running rest, s)
  | _, task, s => (task, s)

end SealedLink.Service
