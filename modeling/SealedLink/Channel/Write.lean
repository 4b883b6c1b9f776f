import SealedLink.Error

/-!
# Writes

A write is a request with someone who waits for its outcome: a callback, which may make further
writes, or a future, which keeps the outcome until it is asked for.
-/

namespace SealedLink

abbrev Outcome := Except ChannelError Bytes

/-- The writes that a callback makes, in order. Each of them has a callback of its own, which runs
when that write is resolved. -/
inductive Plan where
  | nothing
  | write (request : Bytes) (whenResolved rest : Plan)
  deriving DecidableEq, Repr

def Plan.size : Plan → Nat
  | .nothing => 0
  | .write _ whenResolved rest => whenResolved.size + rest.size + 1

/-- Who waits for an outcome. -/
inductive Completion where
  /-- A callback that takes note of the outcome and then carries out a plan. -/
  | callback (plan : Plan)
  | future
  deriving DecidableEq, Repr

def Completion.plan : Completion → Plan
  | .callback plan => plan
  | .future => .nothing

/-- A write that is not resolved yet; its number counts the writes of the channel before it. -/
structure Pending where
  number : Nat
  request : Bytes
  completion : Completion
  deriving DecidableEq, Repr

namespace Pending

def size (w : Pending) : Nat := w.completion.plan.size + 1

/-- A callback that will write owns a handle of the channel. -/
def ownsHandle (w : Pending) : Bool :=
  match w.completion with
  | .callback (.write ..) => true
  | _ => false

end Pending

end SealedLink
