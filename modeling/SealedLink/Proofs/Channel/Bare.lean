import SealedLink.Proofs.Channel.Task

/-!
# Channels without futures

The bare image of a channel has a callback that does nothing in the place of every future. Whatever
is done with a channel is done with its bare image as well, and what is done with futures alone
does not show in it (`bare_move`).
-/

namespace SealedLink

/-! ## Writes in another form -/

def Event.mapWrite (f : Pending → Pending) : Event → Event
  | .write w => .write (f w)
  | .reply q r => .reply q r

def Action.mapWrite (f : Pending → Pending) : Action → Action
  | .resolve w outcome => .resolve (f w) outcome
  | a => a

def Entry.mapWrite (f : Pending → Pending) : Entry → Entry
  | .submitted w => .submitted (f w)
  | .handled e => .handled (e.mapWrite f)
  | .resolved w outcome => .resolved (f w) outcome
  | e => e

namespace Driver

variable {σ α : Type} {f : Pending → Pending}

def mapWrites (f : Pending → Pending) (d : Driver σ α) : Driver σ α :=
  { d with queue := d.queue.map f }

/-- A step with its writes in another form. -/
def mapStep (f : Pending → Pending) (step : Driver σ α × List Action) :
    Driver σ α × List Action := (step.1.mapWrites f, step.2.map (·.mapWrite f))

theorem failAll_mapWrites (d : Driver σ α) (code : ChannelError) :
    (d.mapWrites f).failAll code = mapStep f (d.failAll code) := by
  simp [failAll, mapStep, mapWrites, Action.mapWrite]

theorem after_mapWrites (actions : List Action) (step : Driver σ α × List Action) :
    after (actions.map (·.mapWrite f)) (mapStep f step) = mapStep f (after actions step) := by
  simp [after, mapStep]

variable [CipherSession σ]

theorem dispatchNext_mapWrites (hf : ∀ w, (f w).request = w.request) (d : Driver σ α) :
    (d.mapWrites f).dispatchNext = mapStep f d.dispatchNext := by
  unfold dispatchNext
  by_cases h : d.state = .established ∧ d.outstanding = none
  · have h' : (d.mapWrites f).state = .established ∧ (d.mapWrites f).outstanding = none := h
    rw [if_pos h, if_pos h']
    cases hq : d.queue with
    | nil => simp [mapWrites, mapStep, hq]
    | cons w ws =>
      simp only [mapWrites, hq, List.map_cons, hf]
      rcases hs : CipherSession.encrypt d.session w.request with ⟨_ | ciphertext, session⟩
      · simp [failAll, after, mapStep, mapWrites, Action.mapWrite]
      · simp [send, after, mapStep, mapWrites, Action.mapWrite]
  · have h' : ¬ ((d.mapWrites f).state = .established ∧ (d.mapWrites f).outstanding = none) := h
    rw [if_neg h, if_neg h']
    rfl

theorem onHandshake_mapWrites (hf : ∀ w, (f w).request = w.request) (d : Driver σ α)
    (response : HandshakeMessage) :
    (d.mapWrites f).onHandshake response = mapStep f (d.onHandshake response) := by
  unfold onHandshake
  rcases hs : CipherSession.finish d.session response with ⟨_ | _, session⟩
  · simp [failAll, after, mapStep, mapWrites, Action.mapWrite, hs]
  · have hdispatch := dispatchNext_mapWrites hf { d with session := session, state := .established }
    simp only [mapWrites, hs] at hdispatch ⊢
    rw [hdispatch, ← after_mapWrites]
    rfl

theorem onEncrypted_mapWrites (hf : ∀ w, (f w).request = w.request) (d : Driver σ α)
    (ciphertext : Bytes) :
    (d.mapWrites f).onEncrypted ciphertext = mapStep f (d.onEncrypted ciphertext) := by
  unfold onEncrypted
  rcases hs : CipherSession.decrypt d.session ciphertext with ⟨_ | plaintext, session⟩
  · simp [failAll, after, mapStep, mapWrites, Action.mapWrite, hs]
  · have hdispatch := dispatchNext_mapWrites hf
      { d with session := session, queue := d.queue.drop 1 }
    simp only [mapWrites, hs, List.map_drop] at hdispatch ⊢
    rw [hdispatch, ← after_mapWrites]
    simp [Action.mapWrite, Function.comp_def]

variable [Attester α]

omit [CipherSession σ] in
theorem startAttestation_mapWrites (d : Driver σ α) :
    (d.mapWrites f).startAttestation = mapStep f d.startAttestation := by
  unfold startAttestation
  simp only [mapWrites]
  rcases Attester.request d.attester with ⟨_ | evidence, attester⟩
  · simp [failAll, after, mapStep, mapWrites, Action.mapWrite]
  · rfl

theorem onWrite_mapWrites (hf : ∀ w, (f w).request = w.request) (d : Driver σ α) (w : Pending) :
    (d.mapWrites f).onWrite (f w) = mapStep f (d.onWrite w) := by
  have hstate : (d.mapWrites f).state = d.state := rfl
  unfold onWrite
  simp only [hstate]
  split
  · rfl
  · rw [← startAttestation_mapWrites]
    simp [mapWrites]
  · simp [mapWrites, mapStep]
  · simp [mapWrites, mapStep]
  · rw [← dispatchNext_mapWrites hf]
    simp [mapWrites]

theorem onAttestation_mapWrites (d : Driver σ α) (evidence : Bytes) :
    (d.mapWrites f).onAttestation evidence = mapStep f (d.onAttestation evidence) := by
  unfold onAttestation
  simp only [mapWrites]
  rcases Attester.verify d.attester evidence with ⟨_ | _, attester⟩
  · simp [failAll, after, mapStep, mapWrites, Action.mapWrite]
  · rcases CipherSession.start d.session with ⟨_ | message, session⟩
    · simp [failAll, after, mapStep, mapWrites, Action.mapWrite]
    · rfl

theorem onReply_mapWrites (hf : ∀ w, (f w).request = w.request) (d : Driver σ α) (q : UInt64)
    (result : TransportResult) :
    (d.mapWrites f).onReply q result = mapStep f (d.onReply q result) := by
  have hanswered : { d.mapWrites f with outstanding := none } =
      { d with outstanding := none }.mapWrites f := rfl
  unfold onReply
  simp only [hanswered]
  have hstate : (d.mapWrites f).state = d.state := rfl
  have houtstanding : (d.mapWrites f).outstanding = d.outstanding := rfl
  rw [hstate, houtstanding]
  split
  · split
    · exact onAttestation_mapWrites _ _
    · exact onHandshake_mapWrites hf _ _
    · exact onEncrypted_mapWrites hf _ _
    · exact failAll_mapWrites _ _
  · rfl

/-- **A driver does the same whatever the form of its writes.** -/
theorem handle_mapWrites (hf : ∀ w, (f w).request = w.request) (d : Driver σ α) (e : Event) :
    (d.mapWrites f).handle (e.mapWrite f) = mapStep f (d.handle e) := by
  cases e with
  | write w => exact onWrite_mapWrites hf d w
  | reply q result => exact onReply_mapWrites hf d q result

end Driver

/-! ## Bare writes -/

/-- A callback that does the same, in the place of a future one that does nothing. -/
def Completion.bare (x : Completion) : Completion := .callback x.plan

def Pending.bare (w : Pending) : Pending := { w with completion := w.completion.bare }

@[simp] theorem Pending.bare_request (w : Pending) : w.bare.request = w.request := rfl

@[simp] theorem Pending.bare_number (w : Pending) : w.bare.number = w.number := rfl

@[simp] theorem Pending.bare_size (w : Pending) : w.bare.size = w.size := rfl

@[simp] theorem Pending.bare_ownsHandle (w : Pending) : w.bare.ownsHandle = w.ownsHandle := by
  obtain ⟨number, request, _ | _⟩ := w <;> rfl

namespace Channel

variable {τ σ α : Type}

def mapWrites (f : Pending → Pending) (c : Channel τ σ α) : Channel τ σ α :=
  { c with
    driver := c.driver.map (·.mapWrites f)
    events := c.events.map (·.mapWrite f)
    log := c.log.map (·.mapWrite f) }

/-- The channel with callbacks only. -/
def bare (c : Channel τ σ α) : Channel τ σ α := { c.mapWrites Pending.bare with futures := [] }

/-! ### Writing -/

theorem bare_post (c : Channel τ σ α) (e : Event) :
    (c.post e).bare = c.bare.post (e.mapWrite Pending.bare) := by
  have haccepting : c.bare.accepting = c.accepting := rfl
  unfold post
  rw [haccepting]
  split
  · simp [bare, mapWrites]
  · rfl

theorem bare_submit (c : Channel τ σ α) (w : Pending) :
    (c.submit w).bare = c.bare.submit w.bare := by
  simp [submit, bare, mapWrites, Entry.mapWrite, Event.mapWrite]

theorem bare_refuse (c : Channel τ σ α) (w : Pending) :
    (c.refuse w).bare = c.bare.refuse w.bare := rfl

theorem bare_submitPlan (plan : Plan) (c : Channel τ σ α) :
    (submitPlan plan c).bare = submitPlan plan c.bare := by
  induction plan generalizing c with
  | nothing => rfl
  | write request whenResolved rest ih ih' =>
    cases h : c.accepting with
    | true =>
      have h' : c.bare.accepting = true := h
      rw [submitPlan_write h, submitPlan_write h', ih', bare_submit]
      rfl
    | false =>
      have h' : c.bare.accepting = false := h
      rw [submitPlan_refuse h, submitPlan_refuse h', ih', ih, bare_refuse]
      rfl

theorem bare_resolve (c : Channel τ σ α) (w : Pending) (outcome : Outcome) :
    (c.resolve w outcome).bare = c.bare.resolve w.bare outcome := by
  obtain ⟨number, request, plan | _⟩ := w
  · exact bare_submitPlan plan _
  · rfl

theorem bare_writeFuture (c : Channel τ σ α) (request : Bytes) :
    (c.writeFuture request).bare = c.bare.write request .nothing := by
  cases h : c.accepting with
  | true =>
    have h' : c.bare.accepting = true := h
    rw [writeFuture_submit h, write, submitPlan_write h', bare_submit]
    rfl
  | false =>
    have h' : c.bare.accepting = false := h
    rw [writeFuture_refuse h, write, submitPlan_refuse h']
    rfl

theorem bare_poll (c : Channel τ σ α) (number : Nat) : (c.poll number).2.bare = c.bare := by
  unfold poll
  split <;> rfl

theorem bare_foldl {β γ : Type} {f : Channel τ σ α → β → Channel τ σ α}
    {g : Channel τ σ α → γ → Channel τ σ α} {h : β → γ}
    (hf : ∀ c b, (f c b).bare = g c.bare (h b)) (l : List β) (c : Channel τ σ α) :
    (l.foldl f c).bare = (l.map h).foldl g c.bare := by
  induction l generalizing c with
  | nil => rfl
  | cons b l ih => rw [List.foldl_cons, ih, hf, List.map_cons, List.foldl_cons]

theorem driver_bare {c : Channel τ σ α} {d : Driver σ α} (hd : c.driver = some d) :
    c.bare.driver = some (d.mapWrites Pending.bare) := by
  simp [bare, mapWrites, hd]

theorem bare_cancelQueue (queue : List Pending) (c : Channel τ σ α) :
    (queue.foldl (fun c w => c.resolve w (.error .cancelled)) c).bare =
      (queue.map Pending.bare).foldl (fun c w => c.resolve w (.error .cancelled)) c.bare :=
  bare_foldl (fun c w => bare_resolve c w _) queue c

theorem bare_cancelEvent (c : Channel τ σ α) (e : Event) :
    (c.cancelEvent e).bare = c.bare.cancelEvent (e.mapWrite Pending.bare) := by
  cases e with
  | write w => exact bare_resolve c w _
  | reply => rfl

theorem bare_emptied (c : Channel τ σ α) (d : Driver σ α) :
    (c.emptied d).bare = c.bare.emptied (d.mapWrites Pending.bare) :=
  bare_cancelQueue d.queue c.release

theorem bare_dropDriver (c : Channel τ σ α) : c.dropDriver.bare = c.bare.dropDriver := by
  cases hd : c.driver with
  | none =>
    have hd' : c.bare.driver = none := by simp [bare, mapWrites, hd]
    rw [dropDriver_gone hd, dropDriver_gone hd']
  | some d =>
    rw [dropDriver_eq hd, dropDriver_eq (driver_bare hd), bare_foldl bare_cancelEvent,
      ← bare_emptied]
    rfl

/-! ### Driving -/

theorem bare_potential (c : Channel τ σ α) : c.bare.potential = c.potential := by
  have hevents : (c.bare.events.map eventPotential) = c.events.map eventPotential := by
    rw [bare, mapWrites, List.map_map]
    refine List.map_congr_left fun e _ => ?_
    cases e <;> rfl
  have hqueue (d : Driver σ α) : (d.mapWrites Pending.bare).queue.map queuePotential =
      d.queue.map queuePotential := by
    rw [Driver.mapWrites, List.map_map]
    rfl
  unfold potential
  rw [hevents]
  cases hd : c.driver with
  | none => simp [bare, mapWrites, hd]
  | some d =>
    have hstate : (d.mapWrites Pending.bare).state = d.state := rfl
    simp [driver_bare hd, hqueue, hstate]

theorem any_bare {p : Event → Bool} (hp : ∀ e, p (e.mapWrite Pending.bare) = p e)
    (c : Channel τ σ α) : c.bare.events.any p = c.events.any p := by
  simp [bare, mapWrites, Function.comp_def, hp]

theorem bare_hasHandle (c : Channel τ σ α) : c.bare.hasHandle = c.hasHandle := by
  have hhandles : c.bare.handles = c.handles := rfl
  unfold hasHandle
  rw [any_bare, hhandles]
  · cases hd : c.driver with
    | none => simp [bare, mapWrites, hd]
    | some d => simp [driver_bare hd, Driver.mapWrites, Function.comp_def]
  · rintro (w | ⟨q, r⟩)
    · exact w.bare_ownsHandle
    · rfl

theorem bare_isAbandoned (c : Channel τ σ α) : c.bare.isAbandoned = c.isAbandoned := by
  unfold isAbandoned
  rw [bare_hasHandle]
  cases hd : c.driver with
  | none => simp [bare, mapWrites, hd]
  | some d => simp [driver_bare hd, Driver.mapWrites]

variable [Accounts τ]

theorem bare_perform (c : Channel τ σ α) (a : Action) :
    (c.perform a).bare = c.bare.perform (a.mapWrite Pending.bare) := by
  cases a with
  | call | publish => rfl
  | resolve w outcome => exact bare_resolve c w outcome
  | send q request =>
    have ht : c.bare.transport = c.transport := rfl
    simp only [perform, Action.mapWrite, ht]
    rcases Transport.send c.transport q request with ⟨_ | result, t⟩
    · rfl
    · exact bare_post _ _

variable [CipherSession σ] [Attester α]

omit [Accounts τ] in
theorem bare_take (c : Channel τ σ α) (d : Driver σ α) (e : Event) (rest : List Event) :
    (c.take d e rest).bare = c.bare.take (d.mapWrites Pending.bare) (e.mapWrite Pending.bare)
      (rest.map (·.mapWrite Pending.bare)) := by
  simp only [take, Driver.handle_mapWrites Pending.bare_request]
  rfl

theorem bare_processNext (c : Channel τ σ α) :
    c.bare.processNext = c.processNext.map bare := by
  cases hd : c.driver with
  | none => simp [processNext, bare, mapWrites, hd]
  | some d =>
    cases he : c.events with
    | nil => simp [processNext, bare, mapWrites, he]
    | cons e rest =>
      have he' : c.bare.events =
          e.mapWrite Pending.bare :: rest.map (·.mapWrite Pending.bare) := by
        simp [bare, mapWrites, he]
      rw [processNext_eq hd he, processNext_eq (driver_bare hd) he', Option.map_some,
        bare_foldl bare_perform, bare_take, Driver.handle_mapWrites Pending.bare_request]
      rfl

theorem bare_taskStep (c : Channel τ σ α) : c.bare.taskStep = c.taskStep.map bare := by
  unfold taskStep
  rw [bare_processNext, bare_isAbandoned]
  cases c.processNext with
  | some next => rfl
  | none =>
    cases c.isAbandoned with
    | true => exact congrArg some (bare_dropDriver c).symm
    | false => rfl

theorem bare_runTaskFor (limit : Nat) (c : Channel τ σ α) :
    (c.runTaskFor limit).bare = c.bare.runTaskFor limit := by
  induction limit generalizing c with
  | zero => rfl
  | succ limit ih =>
    unfold runTaskFor
    rw [bare_taskStep]
    cases c.taskStep with
    | none => rfl
    | some next => exact ih next

theorem bare_runTask (c : Channel τ σ α) : c.runTask.bare = c.bare.runTask := by
  unfold runTask
  rw [bare_runTaskFor, bare_potential]

end Channel

/-! ## Moves -/

/-- What is done with a channel without futures: a write has a callback that does nothing in the
place of its future, and nothing is done with futures. -/
def Move.bare? : Move → Option Move
  | .writeFuture request => some (.write request .nothing)
  | .poll _ | .dropFuture _ => none
  | m => some m

namespace Channel

variable {τ σ α : Type}

theorem bare_answer (c : Channel (Held τ) σ α) (position : Nat) (result : TransportResult) :
    (c.answer position result).bare = c.bare.answer position result := by
  have htransport : c.bare.transport = c.transport := rfl
  unfold answer
  rw [htransport]
  split
  · exact bare_post _ _
  · rfl

theorem bare_move [Transport τ] [CipherSession σ] [Attester α] (c : Channel (Held τ) σ α)
    (m : Move) : (c.move m).bare = m.bare?.elim c.bare c.bare.move := by
  cases m with
  | write request plan => exact bare_submitPlan _ c
  | writeFuture request => exact bare_writeFuture c request
  | poll number => exact bare_poll c number
  | dropFuture | cloneHandle | dropHandle | forget => rfl
  | answer position result => exact bare_answer c position result
  | process =>
    simp only [Move.bare?, Option.elim_some, move, bare_processNext]
    cases c.processNext <;> rfl

end Channel

end SealedLink
