import SealedLink.Proofs.Channel.Live

/-!
# A channel comes to rest

Handling an event may bring up others: an answer that is given inside a send, and the writes of
callbacks. But every event takes more from the potential of a channel than what it brings up adds
to it. So a channel that is left to itself comes to a point where no event waits.
-/

namespace SealedLink

/-! ## What a step brings up -/

def total {β : Type} (f : β → Nat) (l : List β) : Nat := (l.map f).foldr (· + ·) 0

theorem total_append {β : Type} (f : β → Nat) (a b : List β) :
    total f (a ++ b) = total f a + total f b := by
  simp only [total, ← List.sum_eq_foldr, List.map_append, List.sum_append]

/-- What an action may add to the potential of the event queue. -/
def Action.gain : Action → Nat
  | .call _ | .publish _ => 0
  | .send .. => 1
  | .resolve w _ => 4 * w.completion.plan.size

def gain (actions : List Action) : Nat := total Action.gain actions

@[simp] theorem gain_nil : gain [] = 0 := rfl

@[simp] theorem gain_cons (a : Action) (actions : List Action) :
    gain (a :: actions) = a.gain + gain actions := rfl

@[simp] theorem gain_append (a b : List Action) : gain (a ++ b) = gain a + gain b :=
  total_append _ a b

def queued (queue : List Pending) : Nat := total Channel.queuePotential queue

@[simp] theorem queued_nil : queued [] = 0 := rfl

@[simp] theorem queued_cons (w : Pending) (queue : List Pending) :
    queued (w :: queue) = 4 * w.completion.plan.size + 2 + queued queue := by
  have hcons : queued (w :: queue) = Channel.queuePotential w + queued queue := rfl
  rw [hcons, Channel.queuePotential, Pending.size]
  omega

@[simp] theorem queued_append (a b : List Pending) : queued (a ++ b) = queued a + queued b :=
  total_append _ a b

theorem gain_resolve (queue : List Pending) (outcome : Outcome) :
    gain (queue.map (.resolve · outcome)) ≤ queued queue := by
  induction queue with
  | nil => exact Nat.le_refl 0
  | cons w queue ih =>
    rw [List.map_cons, gain_cons, queued_cons, Action.gain]
    omega

namespace Driver

variable {σ α : Type}

theorem gain_failActions (queue : List Pending) (code : ChannelError) :
    gain (failActions queue code) ≤ queued queue := by
  have := gain_resolve queue (.error code)
  rw [failActions, gain_cons, Action.gain]
  omega

def potential (d : Driver σ α) : Nat := queued d.queue + Channel.statePotential d.state

theorem potential_shut (d : Driver σ α) : d.shut.potential = 0 := rfl

variable [CipherSession σ] {d d' : Driver σ α} {e : Event} {actions : List Action}

theorem dispatch_potential (h : Dispatch d d' actions) :
    d'.potential + gain actions ≤ d.potential + 1 := by
  cases h with
  | idle => simp
  | sends =>
    simp only [gain_cons, gain_nil, Action.gain, potential, sending]
    omega
  | fails =>
    have := gain_failActions d.queue .encryptionFailed
    simp only [gain_cons, Action.gain, potential_shut]
    unfold potential
    omega

theorem dispatch_nothing (h : Dispatch d d' actions) (hq : d.queue = []) :
    d' = d ∧ actions = [] := by
  cases h with
  | idle => exact ⟨rfl, rfl⟩
  | sends hq' => simp [hq] at hq'
  | fails hq' => simp [hq] at hq'

variable [Attester α]

/-- **Every event takes more than its step brings up.** -/
theorem step_potential (h : Step d e d' actions) :
    d'.potential + gain actions < d.potential + Channel.eventPotential e := by
  have hqueue : queued d.queue ≤ d.potential := Nat.le_add_right ..
  cases h with
  | rejects =>
    simp only [gain_cons, gain_nil, Action.gain, Channel.eventPotential, Pending.size]
    omega
  | @noEvidence w =>
    have := gain_failActions (d.queue ++ [w]) .attestationFailed
    simp only [queued_append, queued_cons, queued_nil] at this
    rw [potential_shut, gain_cons, Action.gain, Channel.eventPotential, Pending.size]
    omega
  | attests hs =>
    simp only [gain_cons, gain_nil, Action.gain, potential, sending, queued_append, queued_cons,
      queued_nil, Channel.eventPotential, Pending.size, hs, Channel.statePotential]
    omega
  | queues =>
    simp only [gain_nil, potential, queued_append, queued_cons, queued_nil,
      Channel.eventPotential, Pending.size]
    omega
  | dispatches _ _ h =>
    have := dispatch_potential h
    simp only [potential, queued_append, queued_cons, queued_nil] at this
    simp only [potential, Channel.eventPotential, Pending.size]
    omega
  | ignores =>
    rw [gain_nil, Channel.eventPotential]
    omega
  | breaks =>
    have := gain_failActions d.queue d.phaseError
    rw [potential_shut, Channel.eventPotential]
    omega
  | refuses =>
    have := gain_failActions d.queue .attestationFailed
    rw [potential_shut, gain_cons, Action.gain, Channel.eventPotential]
    omega
  | noHandshake =>
    have := gain_failActions d.queue .handshakeFailed
    rw [potential_shut, gain_cons, gain_cons, Action.gain, Action.gain, Channel.eventPotential]
    omega
  | greets _ hs =>
    simp only [gain_cons, gain_nil, Action.gain, potential, sending, Channel.eventPotential, hs,
      Channel.statePotential]
    omega
  | notFinished =>
    have := gain_failActions d.queue .handshakeFailed
    rw [potential_shut, gain_cons, Action.gain, Channel.eventPotential]
    omega
  | establishes _ hs _ h =>
    have := dispatch_potential h
    simp only [potential, Channel.statePotential] at this
    simp only [gain_cons, Action.gain, potential, Channel.eventPotential, hs,
      Channel.statePotential]
    omega
  | notOpened =>
    have := gain_failActions d.queue .decryptionFailed
    rw [potential_shut, gain_cons, Action.gain, Channel.eventPotential]
    omega
  | opens _ hs _ h =>
    have := dispatch_potential h
    cases hq : d.queue with
    | nil =>
      -- Without a queue there is nothing to send, so nothing makes up for the event.
      obtain ⟨rfl, rfl⟩ := dispatch_nothing h (by simp [hq])
      simp [gain_cons, Action.gain, potential, hq, Channel.eventPotential]
    | cons w ws =>
      simp only [hq, List.drop_succ_cons, List.drop_zero, potential] at this
      simp only [gain_cons, gain_nil, gain_append, Action.gain, potential, hq, List.take_succ_cons,
        List.take_zero, List.map_cons, List.map_nil, queued_cons, Channel.eventPotential]
      omega

end Driver

namespace Channel

/-! ## What the event queue takes up -/

section

variable {τ σ α : Type}

/-- The potential of the events that wait. -/
def pending (c : Channel τ σ α) : Nat := total eventPotential c.events

theorem potential_eq {c : Channel τ σ α} {d : Driver σ α} (hd : c.driver = some d) :
    c.potential = c.pending + d.potential := by
  unfold potential
  rw [hd]
  rfl

theorem pending_submit (c : Channel τ σ α) (w : Pending) :
    (c.submit w).pending = c.pending + 4 * w.size :=
  total_append _ c.events [.write w]

theorem pending_submitPlan (plan : Plan) (c : Channel τ σ α) (h : c.accepting = true) :
    (submitPlan plan c).pending = c.pending + 4 * plan.size := by
  induction plan generalizing c with
  | nothing => rfl
  | write request whenResolved rest _ ih =>
    rw [submitPlan_write h, ih (c.submit _) h, pending_submit, Pending.size, Completion.plan,
      Plan.size]
    omega

theorem pending_resolve (c : Channel τ σ α) (w : Pending) (outcome : Outcome)
    (h : c.accepting = true) :
    (c.resolve w outcome).pending = c.pending + 4 * w.completion.plan.size := by
  unfold resolve
  split
  · rename_i plan hw
    rw [hw]
    exact pending_submitPlan plan _ h
  · rename_i hw
    rw [hw]
    rfl

theorem pending_send [Transport τ] (c : Channel τ σ α) (q : UInt64) (request : Request)
    (h : c.accepting = true) : (c.perform (.send q request)).pending ≤ c.pending + 1 := by
  simp only [perform]
  rcases Transport.send c.transport q request with ⟨_ | result, t⟩
  · exact Nat.le_succ _
  · simp only [record, post, h, if_true]
    exact Nat.le_of_eq (total_append _ c.events [.reply q result])

theorem pending_perform [Transport τ] (c : Channel τ σ α) (a : Action) (h : c.accepting = true) :
    (c.perform a).pending ≤ c.pending + a.gain := by
  cases a with
  | call | publish => exact Nat.le_refl _
  | send q request => exact pending_send c q request h
  | resolve w outcome => exact Nat.le_of_eq (pending_resolve c w outcome h)

theorem pending_performAll [Accounts τ] (actions : List Action) (c : Channel τ σ α)
    (h : c.accepting = true) : (actions.foldl perform c).pending ≤ c.pending + gain actions := by
  induction actions generalizing c with
  | nil => exact Nat.le_refl _
  | cons a actions ih =>
    have hone := pending_perform c a h
    have hrest := ih (c.perform a) ((effect_perform c a h).accepting.trans h)
    rw [List.foldl_cons, gain_cons]
    omega

end

/-! ## Events run out -/

variable {τ σ α : Type} [Accounts τ] [CipherSession σ] [Attester α]
variable {s₀ : σ} {a₀ : α} {c next : Channel τ σ α} {d : Driver σ α}

theorem potential_process {e : Event} {rest : List Event} (h : Live s₀ a₀ c d)
    (he : c.events = e :: rest) :
    ((d.handle e).2.foldl perform (c.take d e rest)).potential < c.potential := by
  have hdriver := (effect_performAll (d.handle e).2 (c.take d e rest) h.accepting).driver
  have hgain := pending_performAll (d.handle e).2 (c.take d e rest) h.accepting
  have hstep := Driver.step_potential (d.handle_step e)
  have hpending : c.pending = eventPotential e + (c.take d e rest).pending := by
    unfold pending
    rw [he]
    rfl
  rw [potential_eq h.driver, potential_eq hdriver]
  omega

theorem processNext_cases (h : Live s₀ a₀ c d) :
    c.events = [] ∧ c.processNext = none ∨
      ∃ next d', c.processNext = some next ∧ Live s₀ a₀ next d' ∧ next.potential < c.potential := by
  cases he : c.events with
  | nil => exact .inl ⟨rfl, by simp [processNext, h.driver, he]⟩
  | cons e rest =>
    exact .inr ⟨_, _, processNext_eq h.driver he, live_process h he, potential_process h he⟩

theorem live_runFor (limit : Nat) (h : Live s₀ a₀ c d) (hlimit : c.potential ≤ limit) :
    ∃ d', Live s₀ a₀ (c.runFor limit).2 d' ∧ (c.runFor limit).2.events = [] := by
  induction limit generalizing c d with
  | zero =>
    rcases processNext_cases h with ⟨he, -⟩ | ⟨next, d', -, -, hless⟩
    · exact ⟨d, h, he⟩
    · omega
  | succ limit ih =>
    rcases processNext_cases h with ⟨he, hnext⟩ | ⟨next, d', hnext, h', hless⟩
    · simp only [runFor, hnext]
      exact ⟨d, h, he⟩
    · simp only [runFor, hnext]
      exact ih h' (by omega)

/-- **A channel that runs until it is idle has no event left.** -/
theorem live_runUntilIdle (h : Live s₀ a₀ c d) :
    ∃ d', Live s₀ a₀ c.runUntilIdle.2 d' ∧ c.runUntilIdle.2.events = [] :=
  live_runFor c.potential h (Nat.le_refl _)

end Channel

end SealedLink
