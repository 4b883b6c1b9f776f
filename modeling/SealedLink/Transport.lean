import SealedLink.Error

/-!
# Transports

A transport takes one request at a time and answers each at most once: at once, inside the call, or
later, by the sequence number that came with the request.
-/

namespace SealedLink

abbrev TransportResult := Except TransportError Response

class Transport (τ : Type) where
  /-- Takes a request. The answer is given if it is there at once. -/
  send : τ → (sequence : UInt64) → Request → Option TransportResult × τ

end SealedLink
