import SealedLink.Proofs.Channel.Story

/-!
# The calls in a log were made

A log shows the calls to the session and the attester with their results. `Made` says that the
session and the attester give these results when they are called in this order.
-/

namespace SealedLink

variable {σ α : Type} [CipherSession σ] [Attester α]

/-- One call, with the session and the attester before and after it. -/
inductive Call.Gives : σ → α → Call → σ → α → Prop where
  | attestationRequest {s a a' evidence} (h : Attester.request a = (evidence, a')) :
      Gives s a (.attestationRequest evidence) s a'
  | verify {s a a' evidence accepted} (h : Attester.verify a evidence = (accepted, a')) :
      Gives s a (.verify evidence accepted) s a'
  | start {s s' a result} (h : CipherSession.start s = (result, s')) :
      Gives s a (.start result) s' a
  | finish {s s' a response result} (h : CipherSession.finish s response = (result, s')) :
      Gives s a (.finish response result) s' a
  | encrypt {s s' a plaintext result} (h : CipherSession.encrypt s plaintext = (result, s')) :
      Gives s a (.encrypt plaintext result) s' a
  | decrypt {s s' a ciphertext result} (h : CipherSession.decrypt s ciphertext = (result, s')) :
      Gives s a (.decrypt ciphertext result) s' a

inductive Made (s₀ : σ) (a₀ : α) : List Call → σ → α → Prop where
  | none : Made s₀ a₀ [] s₀ a₀
  | more {cs c s a s' a'} (h : Made s₀ a₀ cs s a) (hc : c.Gives s a s' a') :
      Made s₀ a₀ (cs ++ [c]) s' a'

theorem Made.two {s₀ s s' s'' : σ} {a₀ a a' a'' : α} {cs : List Call} {c c' : Call}
    (h : Made s₀ a₀ cs s a) (hc : c.Gives s a s' a') (hc' : c'.Gives s' a' s'' a'') :
    Made s₀ a₀ (cs ++ [c, c']) s'' a'' := by
  have := (h.more hc).more hc'
  simpa using this

theorem Made.nil {s₀ s : σ} {a₀ a : α} (h : Made s₀ a₀ [] s a) : s₀ = s ∧ a₀ = a := by
  generalize hcs : [] = cs at h
  cases h with
  | none => exact ⟨rfl, rfl⟩
  | more => simp at hcs

theorem Made.uncons {s₀ s : σ} {a₀ a : α} {c : Call} {cs : List Call}
    (h : Made s₀ a₀ (c :: cs) s a) :
    ∃ s₁ a₁, c.Gives s₀ a₀ s₁ a₁ ∧ Made s₁ a₁ cs s a := by
  generalize hcs : c :: cs = all at h
  induction h generalizing cs with
  | none => cases hcs
  | @more front last s a s' a' h hlast ih =>
    cases front with
    | nil =>
      obtain ⟨rfl, rfl⟩ := List.cons.inj hcs
      obtain ⟨rfl, rfl⟩ := h.nil
      exact ⟨s', a', hlast, .none⟩
    | cons c' front =>
      obtain ⟨rfl, rfl⟩ := List.cons.inj hcs
      obtain ⟨s₁, a₁, hc, hfront⟩ := ih rfl
      exact ⟨s₁, a₁, hc, hfront.more hlast⟩

@[simp] theorem calls_call (c : Call) (log : List Entry) :
    calls (.called c :: log) = c :: calls log := rfl

@[simp] theorem calls_handled (e : Event) (log : List Entry) :
    calls (.handled e :: log) = calls log := rfl

@[simp] theorem calls_published (state : ChannelState) (log : List Entry) :
    calls (.published state :: log) = calls log := rfl

@[simp] theorem calls_failActions (queue : List Pending) (code : ChannelError) :
    calls ((Driver.failActions queue code).map Entry.ofAction) = [] := by
  simp [calls, Driver.failActions, Entry.ofAction, Entry.call?]

theorem calls_resolve (queue : List Pending) (outcome : Outcome) :
    calls ((queue.map fun w => .resolve w outcome).map Entry.ofAction) = [] := by
  simp [calls, Entry.ofAction, Entry.call?]

variable {d d' : Driver σ α} {e : Event} {actions : List Action} {s₀ : σ} {a₀ : α} {cs : List Call}

theorem made_dispatch (h : Driver.Dispatch d d' actions)
    (hm : Made s₀ a₀ cs d.session d.attester) :
    Made s₀ a₀ (cs ++ calls (actions.map Entry.ofAction)) d'.session d'.attester := by
  cases h with
  | idle =>
    rw [List.map_nil, show calls [] = [] from rfl, List.append_nil]
    exact hm
  | sends _ he => exact hm.more (.encrypt he)
  | fails _ he =>
    simp only [List.map_cons, Entry.ofAction, calls_call, calls_failActions]
    exact hm.more (.encrypt he)

theorem made_step (h : Driver.Step d e d' actions) (hm : Made s₀ a₀ cs d.session d.attester) :
    Made s₀ a₀ (cs ++ calls (actions.map Entry.ofAction)) d'.session d'.attester := by
  cases h with
  | rejects | queues | ignores => exact (List.append_nil cs).symm ▸ hm
  | breaks =>
    rw [calls_failActions, List.append_nil]
    exact hm
  | noEvidence _ ha =>
    simp only [List.map_cons, Entry.ofAction, calls_call, calls_failActions]
    exact hm.more (.attestationRequest ha)
  | attests _ ha => exact hm.more (.attestationRequest ha)
  | dispatches _ _ h => exact made_dispatch h hm
  | refuses _ _ hv =>
    simp only [List.map_cons, Entry.ofAction, calls_call, calls_failActions]
    exact hm.more (.verify hv)
  | noHandshake _ _ hv hc =>
    simp only [List.map_cons, Entry.ofAction, calls_call, calls_failActions]
    exact hm.two (.verify hv) (.start hc)
  | greets _ _ hv hc => exact hm.two (.verify hv) (.start hc)
  | notFinished _ _ hf =>
    simp only [List.map_cons, Entry.ofAction, calls_call, calls_failActions]
    exact hm.more (.finish hf)
  | establishes _ _ hf h =>
    have := made_dispatch h (hm.more (.finish hf))
    simpa [Entry.ofAction] using this
  | notOpened _ _ hd =>
    simp only [List.map_cons, Entry.ofAction, calls_call, calls_failActions]
    exact hm.more (.decrypt hd)
  | opens _ _ hd h =>
    have := made_dispatch h (hm.more (.decrypt hd))
    rw [List.map_cons, List.map_append, Entry.ofAction, calls_call, calls_append, calls_resolve]
    simpa using this

end SealedLink
