import SealedLink.Bytes

/-!
# Applications

The application behind a service answers each decrypted request, in order, with a state of its own.
-/

namespace SealedLink

class Application (η : Type) where
  answer : η → (request : Bytes) → Bytes × η

/-- The answers to requests that come one after another. -/
def Application.answers {η : Type} [Application η] : η → List Bytes → List Bytes
  | _, [] => []
  | a, request :: rest =>
    let (response, a) := answer a request
    response :: answers a rest

/-! ## Stock -/

inductive StockApplication where
  | echo
  | reverse
  | upper
  | double
  | empty
  /-- Answers with the number of requests so far in one byte. -/
  | counter (answered : UInt8)
  deriving DecidableEq, Repr

/-- A letter from a to z as a capital, and any other byte as it is. -/
def upperByte (b : UInt8) : UInt8 := if 0x61 ≤ b ∧ b ≤ 0x7a then b - 0x20 else b

def StockApplication.answer (a : StockApplication) (request : Bytes) : Bytes × StockApplication :=
  match a with
  | .echo => (request, a)
  | .reverse => (request.reverse, a)
  | .upper => (request.map upperByte, a)
  | .double => (request ++ request, a)
  | .empty => ([], a)
  | .counter answered => ([answered + 1], .counter (answered + 1))

instance : Application StockApplication := ⟨StockApplication.answer⟩

end SealedLink
