import SealedLink.Attestation
import SealedLink.Channel.Scripted
import SealedLink.Proofs.Channel.Potential
import SealedLink.Proofs.Channel.Outcomes

/-!
# Failing before the channel is established

The writes made before the driver takes its first event are all taken before it gets a reply. So a
failure on a reply is shared by all of them. A failure for want of evidence comes with the first of
them, and the others find a channel that has failed before.
-/

namespace SealedLink

/-! ## Logs that answer late -/

/-- No reply is taken before `n` writes are. -/
def Patient : (n : Nat) → List Entry → Prop
  | _, [] => True
  | n, e :: log => (e.answered?.isSome → n = 0) ∧ Patient (n - (taken [e]).length) log

theorem patient_append {n : Nat} {a b : List Entry} :
    Patient n (a ++ b) ↔ Patient n a ∧ Patient (n - (taken a).length) b := by
  induction a generalizing n with
  | nil => simp [Patient, taken]
  | cons e a ih =>
    have hlength : (taken (e :: a)).length = (taken [e]).length + (taken a).length := by
      rw [← List.singleton_append, taken_append, List.length_append]
    rw [List.cons_append, Patient, Patient, ih, hlength, Nat.sub_sub, and_assoc]

theorem patient_ofAction (n : Nat) (actions : List Action) :
    Patient n (actions.map Entry.ofAction) := by
  induction actions generalizing n with
  | nil => trivial
  | cons a actions ih =>
    refine ⟨?_, ih _⟩
    cases a <;> simp [Entry.ofAction, Entry.answered?]

theorem Patient.le_of_reply {n : Nat} {log : List Entry} {q : UInt64} {r : TransportResult}
    (h : Patient n log) (hr : .handled (.reply q r) ∈ log) : n ≤ (taken log).length := by
  obtain ⟨before, after, rfl⟩ := List.append_of_mem hr
  have hzero := (patient_append.mp h).2.1 rfl
  rw [taken_append, List.length_append]
  omega

def Entry.state? : Entry → Option ChannelState
  | .published state => some state
  | _ => none

/-- The states that a log shows. -/
def statesIn (log : List Entry) : List ChannelState := log.filterMap Entry.state?

theorem mem_statesIn {log : List Entry} {state : ChannelState} :
    state ∈ statesIn log ↔ .published state ∈ log := by
  unfold statesIn
  rw [List.mem_filterMap]
  constructor
  · rintro ⟨e, he, hstate⟩
    cases e with
    | published state' => rwa [← Option.some.inj hstate]
    | _ => cases hstate
  · intro h
    exact ⟨_, h, rfl⟩

theorem Breaks.replied {story : Story} {w : Pending} {cause : List Entry} {code : ChannelError}
    (h : Breaks story w cause code) (hs : story.state ≠ .established) :
    (∃ q r, .handled (.reply q r) ∈ cause) ∨
      story = .fresh ∧ cause = [.called (.attestationRequest none)] := by
  cases h with
  | noEvidence => exact .inr ⟨rfl, rfl⟩
  | reply | refused | noHandshake | notFinished => exact .inl ⟨_, _, List.mem_cons_self ..⟩
  | notSealed | notOpened => exact absurd rfl hs

namespace Channel

variable {τ σ α : Type}

/-! ## The first writes -/

/-- The writes `ws` are the first ones of a channel. Those not taken yet are next. -/
structure Foremost (ws : List Pending) (c : Channel τ σ α) : Prop where
  known : ws <+: c.submitted
  next : (ws.drop (taken c.course).length).map Event.write <+: c.events
  patient : Patient ws.length c.course

theorem drop_prefix {ws : List Pending} {k : Nat} {e : Event} {rest : List Event}
    (h : (ws.drop k).map Event.write <+: e :: rest) :
    (ws.drop (k + (taken [.handled e]).length)).map Event.write <+: rest ∧
      ((Entry.handled e).answered?.isSome → ws.length - k = 0) := by
  rw [← List.drop_drop, ← List.length_drop]
  generalize ws.drop k = left at h ⊢
  cases left with
  | nil => simp
  | cons w left =>
    rw [List.map_cons, List.cons_prefix_cons] at h
    obtain ⟨rfl, hrest⟩ := h
    exact ⟨hrest, fun hsome => nomatch hsome⟩

section

variable [Accounts τ] [CipherSession σ] [Attester α] {s₀ : σ} {a₀ : α} {c : Channel τ σ α}
  {d : Driver σ α} {ws : List Pending}

theorem foremost_process {e : Event} {rest : List Event} (h : Live s₀ a₀ c d)
    (he : c.events = e :: rest) (hf : Foremost ws c) :
    Foremost ws ((d.handle e).2.foldl perform (c.take d e rest)) := by
  have heffect := effect_performAll (d.handle e).2 (c.take d e rest) h.accepting
  have hnext := hf.next
  rw [he] at hnext
  obtain ⟨hrest, hzero⟩ := drop_prefix hnext
  exact {
    known := by
      have hsubmitted := heffect.submitted
      rw [submitted_take] at hsubmitted
      exact hf.known.trans hsubmitted
    next := by
      rw [course_process h, taken_handled, List.length_append]
      exact hrest.trans heffect.events
    patient := by
      rw [course_process h]
      exact patient_append.mpr ⟨hf.patient, hzero, patient_ofAction _ _⟩ }

end

/-! ### Before the first event, and after it -/

section

variable [Transport τ] [CipherSession σ] [Attester α] {s₀ : σ} {a₀ : α} {c : Channel (Held τ) σ α}
  {d : Driver σ α} {ws : List Pending}

theorem extends_move {m : Move} (ha : c.accepting = true) (hm : m ≠ .process) :
    c.events <+: (c.move m).events ∧ c.submitted <+: (c.move m).submitted := by
  have of_effect {c' : Channel (Held τ) σ α} (he : Effect c c' []) :
      c.events <+: c'.events ∧ c.submitted <+: c'.submitted := ⟨he.events, he.submitted⟩
  cases m with
  | write request plan => exact of_effect (effect_submitPlan _ c ha)
  | writeFuture request => exact of_effect (effect_writeFuture c request ha)
  | poll number => exact of_effect (effect_poll c number)
  | answer position result => exact of_effect (effect_answer c position result ha)
  | dropFuture | cloneHandle | dropHandle | forget =>
    exact ⟨List.prefix_refl _, List.prefix_refl _⟩
  | process => exact absurd rfl hm

theorem quiet_move {m : Move} (h : Live s₀ a₀ c d) (hm : m ≠ .process) :
    Live s₀ a₀ (c.move m) d ∧ (c.move m).course = c.course := by
  rcases move_cases h m with hquiet | ⟨_, _, hprocess, -⟩
  · exact hquiet
  · exact absurd hprocess hm

theorem quiet_after (t : τ) (s₀ : σ) (a₀ : α) {opening : List Move}
    (hopening : .process ∉ opening) :
    Live s₀ a₀ ((new ⟨t, []⟩ s₀ a₀).after opening) { session := s₀, attester := a₀ } ∧
      ((new ⟨t, []⟩ s₀ a₀).after opening).course = [] := by
  induction opening using List.reverseRecOn with
  | nil => exact ⟨live_new _ rfl s₀ a₀, rfl⟩
  | append_singleton opening m ih =>
    rw [List.mem_append, List.mem_singleton, not_or] at hopening
    obtain ⟨h, hcourse⟩ := ih hopening.1
    rw [after, List.foldl_append]
    obtain ⟨h', hcourse'⟩ := quiet_move h (Ne.symm hopening.2)
    exact ⟨h', hcourse'.trans hcourse⟩

theorem events_of_no_reply {events : List Event} (h : events.filterMap Event.reply? = []) :
    (events.filterMap Event.write?).map Event.write = events := by
  induction events with
  | nil => rfl
  | cons e events ih =>
    cases e with
    | write w => exact congrArg _ (ih h)
    | reply q r => cases h

theorem foremost_quiet (h : Live s₀ a₀ c d) (ho : d.outstanding = none) (hc : c.course = []) :
    Foremost c.submitted c := by
  have hdue := h.due
  rw [ho] at hdue
  have hreplies : c.events.filterMap Event.reply? = [] :=
    (List.append_eq_nil_iff.mp (List.sublist_nil.mp hdue)).2
  have hwaiting : c.submitted = c.waiting := by
    rw [h.fifo, hc]
    rfl
  refine ⟨List.prefix_refl _, ?_, ?_⟩
  · rw [hc, hwaiting, waiting]
    exact (events_of_no_reply hreplies).symm ▸ List.prefix_refl _
  · rw [hc]
    trivial

theorem foremost_move (h : Live s₀ a₀ c d) (hf : Foremost ws c) (m : Move) :
    Foremost ws (c.move m) := by
  by_cases hm : m = .process
  · subst hm
    cases he : c.events with
    | nil =>
      have hnone : c.processNext = none := by simp [processNext, h.driver, he]
      rw [move, hnone]
      exact hf
    | cons e rest =>
      rw [move, processNext_eq h.driver he]
      exact foremost_process h he hf
  · obtain ⟨hevents, hsubmitted⟩ := extends_move h.accepting hm
    obtain ⟨-, hcourse⟩ := quiet_move h hm
    exact ⟨hf.known.trans hsubmitted, hcourse ▸ hf.next.trans hevents, hcourse ▸ hf.patient⟩

theorem foremost_after (h : Live s₀ a₀ c d) (hf : Foremost ws c) (moves : List Move) :
    ∃ d', Live s₀ a₀ (c.after moves) d' ∧ Foremost ws (c.after moves) := by
  induction moves using List.reverseRecOn with
  | nil => exact ⟨d, h, hf⟩
  | append_singleton moves m ih =>
    obtain ⟨d', h', hf'⟩ := ih
    rw [after, List.foldl_append]
    obtain ⟨d'', h''⟩ := live_move h' m
    exact ⟨d'', h'', foremost_move h' hf' m⟩

end

/-! ## The two ways to fail -/

section

variable [Accounts τ] [CipherSession σ] [Attester α] {s₀ : σ} {a₀ : α} {c : Channel τ σ α}
  {d : Driver σ α} {ws : List Pending}

theorem evidence_of_made {evidence : Option Bytes} {cs : List Call} {s : σ} {a : α}
    (h : Made s₀ a₀ (.attestationRequest evidence :: cs) s a) :
    (Attester.request a₀).1 = evidence := by
  obtain ⟨s₁, a₁, hfirst, -⟩ := h.uncons
  cases hfirst with
  | attestationRequest hrequest => rw [hrequest]

theorem dropped_of_evidence {story : Story} {code : ChannelError} {dropped late : List Pending}
    (h : Live s₀ a₀ c d) (hf : Foremost ws c) (hfail : Failed c.course story code dropped late)
    (hnever : .published .established ∉ c.course) (hevidence : (Attester.request a₀).1.isSome) :
    ws <+: dropped := by
  obtain ⟨before, after, w, cause, hsplit, hbefore, htaken, -, hbreak, -⟩ := hfail
  have hmem {e : Entry} (he : e ∈ story.entries ++ cause) : e ∈ before := by
    rw [← hbefore] at he
    exact (List.mem_filter.mp he).1
  have hstate : story.state ≠ .established := by
    intro hs
    have hestablished := hmem (List.mem_append_left _ ((established_mem_story story).mpr hs))
    rw [hsplit] at hnever
    exact hnever (List.mem_append_left _ hestablished)
  rw [(hbreak.early hstate).1] at htaken
  rcases hbreak.replied hstate with ⟨q, r, hreply⟩ | ⟨rfl, rfl⟩
  · -- The reply was taken before the failure, and all of `ws` before the reply.
    have hpatient := hf.patient
    rw [hsplit] at hpatient
    have hle := (patient_append.mp hpatient).1.le_of_reply (hmem (List.mem_append_right _ hreply))
    have hdropped : dropped <+: c.submitted := by
      rw [h.fifo, hsplit, taken_append, htaken, List.append_assoc]
      exact List.prefix_append ..
    rw [htaken] at hle
    exact List.prefix_of_prefix_length_le hf.known hdropped hle
  · -- The first call of the log is one that gets no evidence.
    have hcalls : calls c.course =
        .attestationRequest none :: calls (.published .permanentFailure :: after) := by
      rw [hsplit, calls_append, ← calls_deeds before, hbefore]
      rfl
    have hmade := h.made
    rw [hcalls] at hmade
    rw [evidence_of_made hmade] at hevidence
    cases hevidence

/-- A driver without evidence, before its first write and after it. -/
inductive Silent (a₀ : α) (d : Driver σ α) (log : List Entry) : Prop where
  | fresh (state : d.state = .uninitialized) (outstanding : d.outstanding = none)
      (queue : d.queue = []) (attester : d.attester = a₀) (log : log = [])
  | failed {w late} (h : Failed log .fresh .attestationFailed [w] late)
      (state : d.state = .permanentFailure) (outstanding : d.outstanding = none)
      (queue : d.queue = [])

theorem silent_step {log : List Entry} {e : Event} {d' : Driver σ α} {actions : List Action}
    (hnone : (Attester.request a₀).1 = none) (h : Silent a₀ d log)
    (hs : Driver.Step d e d' actions) (timely : ∀ q r, e = .reply q r → d.outstanding = some q) :
    Silent a₀ d' (log ++ .handled e :: actions.map Entry.ofAction) := by
  -- No send is ever outstanding, so no reply is timely.
  match h, e with
  | .fresh _ ho _ _ _, .reply q r | .failed _ _ ho _, .reply q r => simp [ho] at timely
  | .fresh hstate ho hq ha hlog, .write w =>
    cases hs with
    | noEvidence =>
      subst hlog
      rw [hq]
      have hfailed : Failed ([] ++ .handled (.write w) :: .called (.attestationRequest none) ::
          (Driver.failActions [w] .attestationFailed).map Entry.ofAction)
          .fresh .attestationFailed [w] [] :=
        ⟨[.handled (.write w), .called (.attestationRequest none)], _, w, _, rfl, rfl, rfl, rfl,
          .noEvidence, rfl, rfl⟩
      exact .failed hfailed rfl rfl rfl
    | attests _ hrequest =>
      rw [ha] at hrequest
      rw [hrequest] at hnone
      cases hnone
    | _ => simp_all
  | .failed hfail hstate ho hq, .write w =>
    cases hs with
    | rejects => exact .failed (hfail.late w) hstate ho hq
    | _ => simp_all

theorem silent_after {τ : Type} [Transport τ] (t : τ) (s₀ : σ)
    (hnone : (Attester.request a₀).1 = none) (moves : List Move) :
    ∃ d, Live s₀ a₀ ((new ⟨t, []⟩ s₀ a₀).after moves) d ∧
      Silent a₀ d ((new ⟨t, []⟩ s₀ a₀).after moves).course := by
  refine kept_after t s₀ a₀ (.fresh rfl rfl rfl rfl rfl) ?_ moves
  intro c d e rest h he hsilent
  refine silent_step hnone hsilent (d.handle_step e) ?_
  rintro q r rfl
  exact (due_of_reply h he).1

end

/-! ## The theorem -/

/-- What becomes of the first writes of a channel that fails before it is established. -/
structure Aborts (c : Channel τ σ α) (ws : List Pending) (evidence : Option Bytes) : Prop where
  together : evidence.isSome → ∃ code, (code = .attestationFailed ∨ code = .handshakeFailed) ∧
    (ws.map fun w => (w, .error code)) <+: c.outcomes
  apart : evidence = none → ∃ first rest, ws = first :: rest ∧
    ((first, .error .attestationFailed) :: rest.map fun w => (w, .error .genericError)) <+:
      c.outcomes
  /-- They fail with one code unless there are several of them and no evidence. -/
  shared : (∃ code, (ws.map fun w => (w, .error code)) <+: c.outcomes) ↔
    evidence.isSome ∨ ws.length = 1

theorem single_of_shared {outcomes : List (Pending × Outcome)} {first : Pending}
    {rest : List Pending} {code : ChannelError}
    (hapart : ((first, .error .attestationFailed) ::
      rest.map fun w => (w, .error .genericError)) <+: outcomes)
    (hshared : ((first :: rest).map fun w => (w, .error code)) <+: outcomes) : rest = [] := by
  have hprefix := List.prefix_of_prefix_length_le hshared hapart (by simp)
  have heq := hprefix.eq_of_length (by simp)
  cases rest with
  | nil => rfl
  | cons next rest =>
    simp only [List.map_cons, List.cons.injEq, Prod.mk.injEq, Except.error.injEq, true_and] at heq
    rw [heq.1] at heq
    cases heq.2.1

theorem aborts_of_together {c : Channel τ σ α} {ws : List Pending} {evidence : Bytes}
    {code : ChannelError} (hcode : code = .attestationFailed ∨ code = .handshakeFailed)
    (h : (ws.map fun w => (w, .error code)) <+: c.outcomes) : Aborts c ws (some evidence) where
  together _ := ⟨code, hcode, h⟩
  apart hnone := nomatch hnone
  shared := iff_of_true ⟨code, h⟩ (.inl rfl)

theorem aborts_of_apart {c : Channel τ σ α} {first : Pending} {rest : List Pending}
    (h : ((first, .error .attestationFailed) :: rest.map fun w => (w, .error .genericError)) <+:
      c.outcomes) : Aborts c (first :: rest) none where
  together hsome := nomatch hsome
  apart _ := ⟨first, rest, rfl, h⟩
  shared := by
    constructor
    · rintro ⟨code, hshared⟩
      rw [single_of_shared h hshared]
      exact .inr rfl
    · rintro (hsome | hone)
      · cases hsome
      · obtain rfl : rest = [] := by simpa using hone
        exact ⟨.attestationFailed, h⟩

section

variable [CipherSession σ] [Attester α] {s₀ : σ} {a₀ : α} {ws : List Pending}

theorem aborts_of_evidence [Accounts τ] {c : Channel τ σ α} {d : Driver σ α} {evidence : Bytes}
    (h : Live s₀ a₀ c d) (hf : Foremost ws c) (hfailed : d.state = .permanentFailure)
    (hnever : .published .established ∉ c.course)
    (hevidence : (Attester.request a₀).1 = some evidence) : Aborts c ws (some evidence) := by
  cases h.told with
  | alive _ halive => exact absurd hfailed halive.not_failed
  | failed hfail hstate _ hqueue =>
    have hhalted := halted_of_failed h hfail hstate hqueue
    obtain ⟨hserved, hcode⟩ := hhalted.early hnever
    have hdropped := dropped_of_evidence h hf hfail hnever (by rw [hevidence]; rfl)
    refine aborts_of_together hcode ?_
    rw [hhalted.outcomes, hserved, List.map_nil, List.nil_append]
    exact (hdropped.map _).trans (List.prefix_append ..)

theorem aborts_of_silent [Accounts τ] {c : Channel τ σ α} {d : Driver σ α} (h : Live s₀ a₀ c d)
    (hsilent : Silent a₀ d c.course) (hfailed : d.state = .permanentFailure)
    (hwaiting : c.waiting = []) (hknown : ws <+: c.submitted) (hwrites : ws ≠ []) :
    Aborts c ws none := by
  cases hsilent with
  | fresh hstate =>
    rw [hstate] at hfailed
    cases hfailed
  | @failed w late hfail hstate _ hqueue =>
    have hhalted := halted_of_failed h hfail hstate hqueue
    have hsubmitted : c.submitted = w :: late := by
      rw [hhalted.submitted, hwaiting, List.append_nil]
      rfl
    rw [hsubmitted] at hknown
    cases ws with
    | nil => exact absurd rfl hwrites
    | cons first rest =>
      obtain ⟨rfl, hrest⟩ := List.cons_prefix_cons.mp hknown
      refine aborts_of_apart ?_
      rw [hhalted.outcomes]
      exact List.cons_prefix_cons.mpr ⟨rfl, hrest.map _⟩

theorem aborts_of_idle [Transport τ] (t : τ) (s₀ : σ) (a₀ : α) {opening later : List Move}
    (hopening : .process ∉ opening)
    (hwrites : ((new ⟨t, []⟩ s₀ a₀).after opening).submitted ≠ [])
    (hidle : ((new ⟨t, []⟩ s₀ a₀).after (opening ++ later)).events = [])
    (hfailed : ((new ⟨t, []⟩ s₀ a₀).after (opening ++ later)).published = .permanentFailure)
    (hnever : .published .established ∉ ((new ⟨t, []⟩ s₀ a₀).after (opening ++ later)).course) :
    Aborts ((new ⟨t, []⟩ s₀ a₀).after (opening ++ later))
      ((new ⟨t, []⟩ s₀ a₀).after opening).submitted (Attester.request a₀).1 := by
  obtain ⟨hquiet, hcourse⟩ := quiet_after t s₀ a₀ hopening
  obtain ⟨d, h, hf⟩ := foremost_after hquiet (foremost_quiet hquiet rfl hcourse) later
  have hlater : ((new ⟨t, []⟩ s₀ a₀).after opening).after later =
      (new ⟨t, []⟩ s₀ a₀).after (opening ++ later) := (List.foldl_append ..).symm
  rw [hlater] at h hf
  rw [h.published] at hfailed
  cases hevidence : (Attester.request a₀).1 with
  | some evidence => exact aborts_of_evidence h hf hfailed hnever hevidence
  | none =>
    obtain ⟨d', h', hsilent⟩ := silent_after t s₀ hevidence (opening ++ later)
    obtain rfl : d = d' := Option.some.inj (h.driver.symm.trans h'.driver)
    have hwaiting : waiting ((new ⟨t, []⟩ s₀ a₀).after (opening ++ later)) = [] := by
      rw [waiting, hidle]
      rfl
    exact aborts_of_silent h hsilent hfailed hwaiting hf.known hwrites

/-- **Writes made before the first event fail together, except for want of evidence.** -/
theorem aborts_after [Transport τ] (t : τ) (s₀ : σ) (a₀ : α) (opening moves : List Move)
    (hopening : .process ∉ opening)
    (hwrites : ((new ⟨t, []⟩ s₀ a₀).after opening).submitted ≠ [])
    (hfailed : ((new ⟨t, []⟩ s₀ a₀).after (opening ++ moves)).runUntilIdle.2.published =
      .permanentFailure)
    (hnever : .established ∉
      statesIn ((new ⟨t, []⟩ s₀ a₀).after (opening ++ moves)).runUntilIdle.2.course) :
    Aborts ((new ⟨t, []⟩ s₀ a₀).after (opening ++ moves)).runUntilIdle.2
      ((new ⟨t, []⟩ s₀ a₀).after opening).submitted (Attester.request a₀).1 := by
  obtain ⟨d, hlive⟩ := live_after t s₀ a₀ (opening ++ moves)
  obtain ⟨-, -, hidle⟩ := live_runUntilIdle hlive
  -- The run until the channel is idle is made of further moves.
  obtain ⟨n, hn⟩ : ∃ n, ((new ⟨t, []⟩ s₀ a₀).after (opening ++ moves)).runUntilIdle.2 =
      (new ⟨t, []⟩ s₀ a₀).after (opening ++ (moves ++ List.replicate n .process)) := by
    refine ⟨((new ⟨t, []⟩ s₀ a₀).after (opening ++ moves)).runUntilIdle.1, ?_⟩
    rw [← List.append_assoc]
    exact (runUntilIdle_eq_after _).trans (List.foldl_append ..).symm
  rw [hn] at hidle hfailed hnever ⊢
  exact aborts_of_idle t s₀ a₀ hopening hwrites hidle hfailed (mt mem_statesIn.mpr hnever)

end

/-- Three writes and evidence that the client refuses. -/
theorem aborts_refused :
    let c : Channel (Held ScriptedTransport) ScriptedSession (VerifyingAttester EvidenceRule) :=
      new ⟨⟨[.ok (.message (.attest [9]))], []⟩, []⟩ {} ((EvidenceRule.always false).attester [1])
    let opening : List Move := [.write [65] .nothing, .writeFuture [66], .write [67] .nothing]
    .process ∉ opening ∧ (c.after opening).submitted ≠ [] ∧
      (c.after (opening ++ [])).runUntilIdle.2.published = .permanentFailure ∧
      .established ∉ statesIn (c.after (opening ++ [])).runUntilIdle.2.course ∧
      Aborts (c.after (opening ++ [])).runUntilIdle.2 (c.after opening).submitted (some [1]) := by
  intro c opening
  have hopening : .process ∉ opening := by simp [opening]
  have hwrites : (c.after opening).submitted ≠ [] := by decide
  have hfailed : (c.after (opening ++ [])).runUntilIdle.2.published = .permanentFailure := by decide
  have hnever : .established ∉ statesIn (c.after (opening ++ [])).runUntilIdle.2.course := by decide
  exact ⟨hopening, hwrites, hfailed, hnever, aborts_after _ _ _ _ _ hopening hwrites hfailed hnever⟩

/-- Two writes and no evidence: the second one fails with another code than the first. -/
theorem silent_splits :
    let c : Channel (Held ScriptedTransport) ScriptedSession SilentAttester :=
      ((new ⟨{}, []⟩ {} {}).after [.write [65] .nothing, .write [66] .nothing]).runUntilIdle.2
    c.published = .permanentFailure ∧ .established ∉ statesIn c.course ∧
      c.outcomes.map (·.1) = c.submitted ∧
      c.outcomes.map (·.2) = [.error .attestationFailed, .error .genericError] := by
  decide

end Channel

end SealedLink
