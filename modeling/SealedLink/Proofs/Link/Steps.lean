import SealedLink.Link.Basic

/-!
# The steps of a link

The end of an exchange, and the end of the link. Whichever step a link takes, it answers those who
wait in their order (`waiting_pump`, `waiting_close`, `waiting_drain`).
-/

namespace SealedLink.Link

variable {ς : Type} [ByteStream ς] {config : LinkConfig} {l : Link}

/-! ## Exchanges -/

/-- What the link does with the end of an exchange. -/
def conclude (horizon : Option Nat) (config : LinkConfig) (sequence : UInt64)
    (deadline : Option Nat) (queue : List (UInt64 × Bytes)) :
    Progress TransportResult × ς → List (UInt64 × TransportResult) × Link × ς
  | (.finished (.ok response), s) =>
    let (answers, l, s) := runQueue horizon config queue s
    ((sequence, .ok response) :: answers, l, s)
  | (.finished (.error e), s) =>
    ([(sequence, .error e)], { config := config, state := .closing, queue := queue }, s)
  | (.blocked rest, s) =>
    ([], { config := config, state := .busy sequence deadline rest, queue := queue }, s)

theorem runQueue_cons (horizon : Option Nat) (config : LinkConfig) (sequence : UInt64)
    (request : Bytes) (queue : List (UInt64 × Bytes)) (s : ς) :
    runQueue horizon config ((sequence, request) :: queue) s =
      conclude horizon config sequence (config.responseTimeout.map (ByteStream.clock s + ·)) queue
        (runExchange horizon (config.responseTimeout.map (ByteStream.clock s + ·))
          (exchange config.maxFrameSize request) s) := by
  rw [runQueue]
  rcases runExchange horizon _ _ s with ⟨⟨_ | _⟩ | _, _⟩ <;> rfl

theorem pump_busy (horizon : Option Nat) (config : LinkConfig) (sequence : UInt64)
    (deadline : Option Nat) (d : Dialogue TransportResult) (queue : List (UInt64 × Bytes)) (s : ς) :
    pump horizon { config := config, state := .busy sequence deadline d, queue := queue } s =
      conclude horizon config sequence deadline queue (runExchange horizon deadline d s) := by
  unfold pump
  dsimp only
  rcases runExchange horizon deadline d s with ⟨⟨_ | _⟩ | _, _⟩ <;> rfl

/-! ## The end -/

/-- The request finds the link closed. -/
def closed (sending : UInt64 × Bytes) : UInt64 × TransportResult :=
  (sending.1, .error .socketClosed)

/-- An exchange has failed, and no other one begins. -/
def hasFailed (l : Link) : Bool :=
  match l.state with
  | .idle | .busy .. => false
  | .closing | .draining | .stopped => true

theorem hasFailed_of_closed (h : l.isClosed = true) : l.hasFailed = true := by
  obtain ⟨config, state, queue⟩ := l
  cases state with
  | idle | busy | closing => cases h
  | draining | stopped => rfl

theorem pump_failed (h : l.hasFailed = true) (horizon : Option Nat) (s : ς) :
    l.pump horizon s = ([], l, s) := by
  obtain ⟨config, state, queue⟩ := l
  cases state with
  | idle | busy => cases h
  | closing | draining | stopped => rfl

theorem drainFor_of_drain (h : l.drain = ([], l)) (steps : Nat) : l.drainFor steps = ([], l) := by
  induction steps with
  | zero => rfl
  | succ steps ih => simp only [drainFor, h, ih, List.append_nil]

theorem windUp_ongoing (h : l.hasFailed = false) : l.windUp = ([], l) := by
  obtain ⟨config, state, queue⟩ := l
  cases state with
  | idle | busy => exact drainFor_of_drain rfl _
  | closing | draining | stopped => cases h

theorem drainFor_draining (config : LinkConfig) (queue : List (UInt64 × Bytes)) :
    drainFor (queue.length + 1) { config := config, state := .draining, queue := queue } =
      (queue.map closed, { config := config, state := .stopped }) := by
  induction queue with
  | nil => rfl
  | cons sending queue ih =>
    rw [List.length_cons, drainFor, drain]
    simp only [ih]
    rfl

theorem windUp_failed (h : l.hasFailed = true) (hstopped : l.state = .stopped → l.queue = []) :
    l.windUp = (l.queue.map closed, { config := l.config, state := .stopped }) := by
  obtain ⟨config, state, queue⟩ := l
  cases state with
  | idle | busy => cases h
  | closing | draining => exact drainFor_draining config queue
  | stopped =>
    obtain rfl : queue = [] := hstopped rfl
    rfl

theorem advance_of_pump {horizon : Option Nat} {answers : List (UInt64 × TransportResult)}
    {l' : Link} {s s' : ς} (h : l.pump horizon s = (answers, l', s'))
    (hongoing : l'.hasFailed = false) : l.advance horizon s = (answers, l', s') := by
  simp only [advance, h, windUp_ongoing hongoing, List.append_nil]

/-! ## The order of the answers -/

/-- The requests that are not answered, the oldest first. -/
def waiting (l : Link) : List UInt64 :=
  match l.state with
  | .busy sequence _ _ => sequence :: l.queue.map Prod.fst
  | _ => l.queue.map Prod.fst

theorem waiting_enqueue (l : Link) (sending : UInt64 × Bytes) :
    ({ l with queue := l.queue ++ [sending] } : Link).waiting = l.waiting ++ [sending.1] := by
  obtain ⟨config, state, queue⟩ := l
  cases state <;> simp [waiting]

theorem waiting_conclude {horizon deadline : Option Nat} {sequence : UInt64}
    {queue : List (UInt64 × Bytes)} (result : Progress TransportResult × ς)
    (hqueue : ∀ s : ς, (runQueue horizon config queue s).1.map Prod.fst ++
      (runQueue horizon config queue s).2.1.waiting = queue.map Prod.fst) :
    (conclude horizon config sequence deadline queue result).1.map Prod.fst ++
      (conclude horizon config sequence deadline queue result).2.1.waiting =
        sequence :: queue.map Prod.fst := by
  rcases result with ⟨⟨_ | response⟩ | rest, s⟩
  · rfl
  · exact congrArg (sequence :: ·) (hqueue s)
  · rfl

theorem waiting_runQueue (horizon : Option Nat) (config : LinkConfig)
    (queue : List (UInt64 × Bytes)) (s : ς) : (runQueue horizon config queue s).1.map Prod.fst ++
      (runQueue horizon config queue s).2.1.waiting = queue.map Prod.fst := by
  induction queue generalizing s with
  | nil => rfl
  | cons sending queue ih =>
    obtain ⟨sequence, request⟩ := sending
    rw [runQueue_cons]
    exact waiting_conclude _ ih

theorem waiting_pump (horizon : Option Nat) (l : Link) (s : ς) :
    (l.pump horizon s).1.map Prod.fst ++ (l.pump horizon s).2.1.waiting = l.waiting := by
  obtain ⟨config, state, queue⟩ := l
  cases state with
  | idle => exact waiting_runQueue horizon config queue s
  | busy sequence deadline d =>
    rw [pump_busy]
    exact waiting_conclude _ (waiting_runQueue horizon config queue)
  | closing | draining | stopped => rfl

theorem waiting_close (l : Link) : l.close.waiting = l.waiting := by
  obtain ⟨config, state, queue⟩ := l
  cases state <;> rfl

theorem waiting_drain (l : Link) : l.drain.1.map Prod.fst ++ l.drain.2.waiting = l.waiting := by
  obtain ⟨config, state, queue⟩ := l
  cases state with
  | draining => cases queue <;> rfl
  | idle | busy | closing | stopped => rfl

end SealedLink.Link
