import SealedLink.Proofs.Channel.Live

/-!
# What the state of a driver says about its queue

Whether writes are queued and whether an answer is due follows from the state alone, except that an
established driver may have both or neither. The handlers break this while they work, and every one
of them restores it. So a driver that waits for nothing has nothing queued, and a failure always
finds a write to fail.
-/

namespace SealedLink

namespace Driver

variable {σ α : Type}

structure Phased (d : Driver σ α) : Prop where
  resting : d.state = .uninitialized ∨ d.state = .permanentFailure →
    d.queue = [] ∧ d.outstanding = none
  opening : d.state = .performingAttestation ∨ d.state = .performingHandshake →
    d.queue ≠ [] ∧ d.outstanding ≠ none
  established : d.state = .established → (d.outstanding ≠ none ↔ d.queue ≠ [])

/-! ## Every step keeps it -/

theorem phased_fresh (s : σ) (a : α) : Phased ({ session := s, attester := a } : Driver σ α) where
  resting _ := ⟨rfl, rfl⟩
  opening h := by simp at h
  established h := by simp at h

theorem phased_shut (d : Driver σ α) : Phased d.shut where
  resting _ := ⟨rfl, rfl⟩
  opening h := by simp [shut] at h
  established h := by simp [shut] at h

theorem phased_waiting {d : Driver σ α} (hq : d.queue ≠ []) (ho : d.outstanding ≠ none)
    (hs : d.state ≠ .uninitialized ∧ d.state ≠ .permanentFailure) : Phased d where
  resting h := absurd h (by simp [hs])
  opening _ := ⟨hq, ho⟩
  established _ := ⟨fun _ => hq, fun _ => ho⟩

theorem Phased.queue_ne_nil {d : Driver σ α} (h : Phased d) (ho : d.outstanding ≠ none) :
    d.queue ≠ [] := by
  cases hs : d.state with
  | uninitialized => exact absurd (h.resting (.inl hs)).2 ho
  | performingAttestation => exact (h.opening (.inl hs)).1
  | performingHandshake => exact (h.opening (.inr hs)).1
  | established => exact (h.established hs).mp ho
  | permanentFailure => exact absurd (h.resting (.inr hs)).2 ho

theorem Phased.queue_eq_nil {d : Driver σ α} (h : Phased d) (ho : d.outstanding = none) :
    d.queue = [] := by
  cases hs : d.state with
  | uninitialized => exact (h.resting (.inl hs)).1
  | performingAttestation => exact absurd ho (h.opening (.inl hs)).2
  | performingHandshake => exact absurd ho (h.opening (.inr hs)).2
  | established => simpa [ho] using h.established hs
  | permanentFailure => exact (h.resting (.inr hs)).1

variable [CipherSession σ] {d d' : Driver σ α} {e : Event} {actions : List Action}

theorem phased_dispatch (h : Dispatch d d' actions) (hs : d.state = .established)
    (ho : d.outstanding = none) : Phased d' := by
  cases h with
  | idle hq =>
    exact {
      resting := by simp [hs]
      opening := by simp [hs]
      established := by simp [hq, ho] }
  | sends hq =>
    exact phased_waiting (by simp [sending, hq]) (by simp [sending]) (by simp [sending, hs])
  | fails => exact phased_shut _

variable [Attester α]

theorem phased_step (h : Phased d) (hs : Step d e d' actions) : Phased d' := by
  cases hs with
  | rejects | ignores => exact h
  | attests => exact phased_waiting (by simp [sending]) (by simp [sending]) (by simp [sending])
  | queues hs =>
    refine phased_waiting (by simp) ?_ ?_
    · rcases hs with hs | hs | ⟨-, ho⟩
      · exact (h.opening (.inl hs)).2
      · exact (h.opening (.inr hs)).2
      · exact ho
    · rcases hs with hs | hs | ⟨hs, -⟩ <;> simp [hs]
  | greets ho =>
    have hq : d.queue ≠ [] := h.queue_ne_nil (by simp [ho])
    exact phased_waiting hq (by simp [sending]) (by simp [sending])
  | dispatches hs ho hd => exact phased_dispatch hd hs ho
  | establishes _ _ _ hd => exact phased_dispatch hd rfl rfl
  | opens _ hs _ hd => exact phased_dispatch hd hs rfl
  | noEvidence | breaks | refuses | noHandshake | notFinished | notOpened => exact phased_shut _

/-! ## What cannot happen -/

omit [CipherSession σ] [Attester α] in
theorem phaseError_ne_generic (h : Phased d) (ho : d.outstanding ≠ none) :
    d.phaseError ≠ .genericError := by
  unfold phaseError
  cases hs : d.state with
  | uninitialized => exact absurd (h.resting (.inl hs)).2 ho
  | permanentFailure => exact absurd (h.resting (.inr hs)).2 ho
  | performingAttestation | performingHandshake | established => simp

omit [CipherSession σ] [Attester α] in
theorem getLast?_failActions {queue : List Pending} (hq : queue ≠ []) (cause : List Action)
    (code : ChannelError) : (cause ++ failActions queue code).getLast? ≠
      some (.publish .permanentFailure) := by
  simp [failActions, List.getLast?_append, List.getLast?_cons, List.getLast?_map,
    List.getLast?_eq_some_getLast hq]

omit [Attester α] in
theorem getLast?_dispatch (h : Dispatch d d' actions) (cause : List Action)
    (hcause : cause.getLast? ≠ some (.publish .permanentFailure)) :
    (cause ++ actions).getLast? ≠ some (.publish .permanentFailure) := by
  cases h with
  | idle => rwa [List.append_nil]
  | sends => simp [List.getLast?_append]
  | @fails w ws e _ hq =>
    have := getLast?_failActions (by simp [hq] : d.queue ≠ [])
      (cause ++ [.call (.encrypt w.request (.error e))]) .encryptionFailed
    simpa using this

theorem getLast?_step (h : Phased d) (hs : Step d e d' actions) :
    actions.getLast? ≠ some (.publish .permanentFailure) := by
  have hqueue {q : UInt64} (ho : d.outstanding = some q) : d.queue ≠ [] :=
    h.queue_ne_nil (by simp [ho])
  cases hs with
  | rejects | attests | queues | ignores | greets => simp
  | noEvidence => exact getLast?_failActions (by simp) [_] _
  | dispatches _ _ hd => exact getLast?_dispatch hd [] (by simp)
  | breaks ho => exact getLast?_failActions (hqueue ho) [] _
  | refuses ho | notFinished ho | notOpened ho => exact getLast?_failActions (hqueue ho) [_] _
  | noHandshake ho => exact getLast?_failActions (hqueue ho) [_, _] _
  | establishes _ _ _ hd => exact getLast?_dispatch hd [_, _] (by simp)
  | opens _ _ _ hd =>
    rw [← List.cons_append]
    refine getLast?_dispatch hd _ ?_
    rw [List.getLast?_cons]
    cases d.queue <;> simp

theorem handle_opens {q : UInt64} {answer opened : Bytes} {s : σ} (ho : d.outstanding = some q)
    (hs : d.state = .established) (hd : CipherSession.decrypt d.session answer = (.ok opened, s)) :
    ∃ rest, (d.handle (.reply q (.ok (.message (.encrypted answer))))).2 =
      .call (.decrypt answer (.ok opened)) ::
        ((d.queue.take 1).map (fun w => .resolve w (.ok opened)) ++ rest) := by
  have hstep := d.handle_step (.reply q (.ok (.message (.encrypted answer))))
  generalize (d.handle _).1 = d', (d.handle _).2 = actions at hstep
  cases hstep with
  | ignores hne => exact absurd ho hne
  | breaks _ hr => simp [hs, Expected] at hr
  | notOpened _ _ he => simp [hd] at he
  | opens _ _ he =>
    obtain ⟨rfl, -⟩ : opened = _ ∧ s = _ := by simpa [hd] using he
    exact ⟨_, rfl⟩

/-- What a driver need not fear, whatever event comes next. -/
structure Safe (d : Driver σ α) : Prop where
  /-- A driver that waits for no answer strands no write. -/
  idle : d.outstanding = none → d.queue = []
  /-- An answer that is opened has a write that it resolves. -/
  resolves : ∀ q answer opened s, d.outstanding = some q → d.state = .established →
    CipherSession.decrypt d.session answer = (.ok opened, s) →
    ∃ w rest, d.queue.head? = some w ∧
      (d.handle (.reply q (.ok (.message (.encrypted answer))))).2 =
        .call (.decrypt answer (.ok opened)) :: .resolve w (.ok opened) :: rest
  /-- A reply that breaks the channel has a code that tells its phase. -/
  coded : ∀ q, d.outstanding = some q → { d with outstanding := none }.phaseError ≠ .genericError
  /-- Whenever all writes are failed there is one. -/
  fails : ∀ e cause (d' : Driver σ α) code, d.handle e = after cause (d'.failAll code) →
    d'.queue ≠ []

theorem Phased.safe (h : Phased d) : Safe d where
  idle := h.queue_eq_nil
  resolves q answer opened s ho hs hd := by
    obtain ⟨w, ws, hq⟩ := List.exists_cons_of_ne_nil (h.queue_ne_nil (by simp [ho]))
    obtain ⟨rest, hrest⟩ := handle_opens ho hs hd
    exact ⟨w, rest, by simp [hq], by simpa [hq] using hrest⟩
  coded q ho := by
    have : d.phaseError ≠ .genericError := phaseError_ne_generic h (by simp [ho])
    exact this
  fails e cause d' code heq hq := by
    apply getLast?_step h (d.handle_step e)
    rw [heq]
    simp [after, failAll, hq]

end Driver

namespace Channel

variable {τ σ α : Type} [Transport τ] [CipherSession σ] [Attester α]

/-- **In every reachable state the phase tells what is queued and outstanding.** -/
theorem phased_after (t : τ) (s₀ : σ) (a₀ : α) (moves : List Move) :
    ∃ d, ((new ⟨t, []⟩ s₀ a₀).after moves).driver = some d ∧ d.Phased ∧ d.Safe := by
  obtain ⟨d, h, hp⟩ := kept_after (P := fun d _ => d.Phased) t s₀ a₀ (Driver.phased_fresh s₀ a₀)
    (fun _ d e _ _ _ hp => Driver.phased_step hp (d.handle_step e)) moves
  exact ⟨d, h.driver, hp, hp.safe⟩

end Channel

end SealedLink
