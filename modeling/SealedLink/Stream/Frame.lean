import SealedLink.Message.Codec
import SealedLink.Stream.Dialogue

/-!
# Frames

On a stream a message travels as a frame: its length in four bytes, most significant first, and the
message. Both sides refuse frames over a limit.
-/

namespace SealedLink.Frame

/-- The limit that links and services have unless they are told another. -/
def defaultLimit : Nat := 1 <<< 20

def Fits (limit size : Nat) : Prop := size ≤ limit ∧ size < Field.sizeLimit

instance (limit size : Nat) : Decidable (Fits limit size) := inferInstanceAs (Decidable (_ ∧ _))

def encode (payload : Bytes) : Bytes := Bytes.ofNat Field.prefixSize payload.length ++ payload

/-- Writes one frame and flushes the stream. A payload over the limit is refused before anything is
written. -/
def write (limit : Nat) (payload : Bytes) : Dialogue (Except Error Unit) :=
  if Fits limit payload.length then do
    match ← Dialogue.writeAll (Bytes.ofNat Field.prefixSize payload.length) with
    | .error e => return .error (.io e)
    | .ok () =>
      match ← Dialogue.writeAll payload with
      | .error e => return .error (.io e)
      | .ok () => .flush fun
        | .error e => .done (.error (.io e))
        | .ok () => .done (.ok ())
  else return .error (.codec (.fieldTooLarge payload.length))

def readPayload (size : Nat) : Dialogue (Except Error (Option Bytes)) := do
  match ← Dialogue.fill size [] with
  | .error e => return .error (.io e)
  | .ok payload =>
    if payload.length < size then return .error (.io .unexpectedEof)
    else return .ok (some payload)

/-- Reads one frame. There is none if the stream ends where a frame would begin; a stream that ends
inside a frame is an error, and a frame over the limit is refused before its payload is read. -/
def read (limit : Nat) : Dialogue (Except Error (Option Bytes)) := do
  match ← Dialogue.fill Field.prefixSize [] with
  | .error e => return .error (.io e)
  | .ok [] => return .ok none
  | .ok start =>
    if start.length < Field.prefixSize then return .error (.io .unexpectedEof)
    else if limit < Bytes.toNat start then
      return .error (.codec (.fieldTooLarge (Bytes.toNat start)))
    else readPayload (Bytes.toNat start)

end SealedLink.Frame
