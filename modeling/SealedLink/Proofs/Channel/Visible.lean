import Mathlib.Data.List.Chain
import SealedLink.Proofs.Channel.Establishment
import SealedLink.Proofs.Channel.Phases
import SealedLink.Proofs.Channel.Protocol
import SealedLink.Proofs.Channel.Teardown

/-!
# The state that handles see

The state that a channel shows goes forward only, and a failure is for good. It is the state of the
driver whenever the driver rests. While the driver acts it runs ahead of no outcome: a callback that
gets an answer sees an established channel, and one that gets an error of the driver sees a failed
one (`watched_throughout`).
-/

namespace SealedLink

/-! ## Truthful logs -/

inductive ChannelState.Next : ChannelState → ChannelState → Prop where
  | attests : Next .uninitialized .performingAttestation
  | greets : Next .performingAttestation .performingHandshake
  | establishes : Next .performingHandshake .established
  | fails {state} (h : state ≠ .permanentFailure) : Next state .permanentFailure

/-- Whether an entry may come while a state is shown. -/
def Entry.Suits (state : ChannelState) : Entry → Prop
  | .published state' => state.Next state'
  | .resolved _ (.ok _) => state = .established
  | .resolved _ (.error .cancelled) => True
  | .resolved _ (.error _) => state = .permanentFailure
  | _ => True

/-- A log that begins while a state is shown, and of which every entry suits what is shown then. -/
def Truthful : (state : ChannelState) → List Entry → Prop
  | _, [] => True
  | state, e :: log => Entry.Suits state e ∧ Truthful (Entry.shows state e) log

theorem truthful_append {state : ChannelState} {a b : List Entry} :
    Truthful state (a ++ b) ↔ Truthful state a ∧ Truthful (a.foldl Entry.shows state) b := by
  induction a generalizing state with
  | nil => exact (and_iff_right trivial).symm
  | cons e a ih => rw [List.cons_append, Truthful, Truthful, ih, List.foldl_cons, and_assoc]

theorem suits_failed (w : Pending) (code : ChannelError) :
    Entry.Suits .permanentFailure (.resolved w (.error code)) := by
  cases code <;> trivial

theorem truthful_resolved {state : ChannelState} {outcome : Outcome}
    (h : ∀ w, Entry.Suits state (.resolved w outcome)) (ws : List Pending) :
    Truthful state (ws.map (.resolved · outcome)) ∧
      (ws.map (.resolved · outcome)).foldl Entry.shows state = state := by
  induction ws with
  | nil => exact ⟨trivial, rfl⟩
  | cons w ws ih => exact ⟨⟨h w, ih.1⟩, ih.2⟩

theorem foldl_shows_ofAction (state : ChannelState) (actions : List Action) :
    (actions.map Entry.ofAction).foldl Entry.shows state = (states actions).getLastD state := by
  induction actions generalizing state with
  | nil => rfl
  | cons a actions ih =>
    rw [List.map_cons, List.foldl_cons, ih]
    cases a with
    | publish state' => rw [states_publish, List.getLastD_cons]; rfl
    | call | send | resolve => rfl

/-! ### Submissions do not matter -/

theorem truthful_filter {state : ChannelState} (log : List Entry) :
    Truthful state (log.filter (·.submission?.isNone)) ↔ Truthful state log := by
  induction log generalizing state with
  | nil => rfl
  | cons e log ih =>
    cases e with
    | submitted w => exact ih.trans (and_iff_right trivial).symm
    | handled | called | published | sent | resolved => exact and_congr_right fun _ => ih

theorem foldl_shows_filter (state : ChannelState) (log : List Entry) :
    (log.filter (·.submission?.isNone)).foldl Entry.shows state = log.foldl Entry.shows state := by
  induction log generalizing state with
  | nil => rfl
  | cons e log ih => cases e <;> exact ih _

/-! ### What a truthful log says -/

/-- The states that are shown, before the first entry of a log and after each of its entries. -/
def views (log : List Entry) : List ChannelState := log.scanl Entry.shows .uninitialized

theorem isChain_scanl {state : ChannelState} {log : List Entry} (h : Truthful state log) :
    (log.scanl Entry.shows state).IsChain fun s s' => s = s' ∨ s.Next s' := by
  induction log generalizing state with
  | nil => exact List.isChain_singleton _
  | cons e log ih =>
    obtain ⟨he, hlog⟩ := h
    have hnext : state = Entry.shows state e ∨ state.Next (Entry.shows state e) := by
      cases e with
      | published => exact .inr he
      | submitted | handled | called | sent | resolved => exact .inl rfl
    have hrest := ih hlog
    rw [List.scanl_cons]
    cases log with
    | nil => exact List.isChain_pair.mpr hnext
    | cons =>
      rw [List.scanl_cons] at hrest ⊢
      exact List.isChain_cons_cons.mpr ⟨hnext, hrest⟩

/-! ## One step of the driver -/

namespace Driver

variable {σ α : Type} [CipherSession σ] {d d' : Driver σ α} {e : Event} {actions : List Action}

theorem truthful_failActions {state : ChannelState} (hs : state ≠ .permanentFailure)
    (queue : List Pending) (code : ChannelError) :
    Truthful state ((failActions queue code).map Entry.ofAction) := by
  refine ⟨.fails hs, ?_⟩
  rw [List.map_map]
  exact (truthful_resolved (suits_failed · code) queue).1

omit [CipherSession σ] in
theorem truthful_call {state : ChannelState} (c : Call) {actions : List Action}
    (h : Truthful state (actions.map Entry.ofAction)) :
    Truthful state ((.call c :: actions).map Entry.ofAction) := ⟨trivial, h⟩

theorem truthful_dispatch (h : Dispatch d d' actions) :
    Truthful .established (actions.map Entry.ofAction) := by
  cases h with
  | idle => trivial
  | sends => exact ⟨trivial, trivial, trivial⟩
  | fails => exact truthful_call _ (truthful_failActions (by simp) _ _)

variable [Attester α]

/-- **The driver shows a state before it acts on it.** -/
theorem truthful_step (h : Phased d) (hs : Step d e d' actions) :
    Truthful d.state (actions.map Entry.ofAction) := by
  cases hs with
  | rejects hs =>
    rw [hs]
    exact ⟨rfl, trivial⟩
  | noEvidence hs =>
    rw [hs]
    exact truthful_call _ (truthful_failActions (by simp) _ _)
  | attests hs =>
    rw [hs]
    exact ⟨trivial, .attests, trivial, trivial⟩
  | queues => trivial
  | ignores => trivial
  | dispatches hs _ hd =>
    rw [hs]
    exact truthful_dispatch hd
  | breaks ho =>
    -- A driver that has failed waits for no reply.
    refine truthful_failActions (fun hs => ?_) _ _
    rw [(h.resting (.inr hs)).2] at ho
    cases ho
  | refuses _ hs =>
    rw [hs]
    exact truthful_call _ (truthful_failActions (by simp) _ _)
  | noHandshake _ hs =>
    rw [hs]
    exact truthful_call _ (truthful_call _ (truthful_failActions (by simp) _ _))
  | greets _ hs =>
    rw [hs]
    exact ⟨trivial, trivial, .greets, trivial, trivial⟩
  | notFinished _ hs =>
    rw [hs]
    exact truthful_call _ (truthful_failActions (by simp) _ _)
  | establishes _ hs _ hd =>
    rw [hs]
    exact ⟨trivial, .establishes, truthful_dispatch hd⟩
  | notOpened _ hs =>
    rw [hs]
    exact truthful_call _ (truthful_failActions (by simp) _ _)
  | @opens _ _ opened _ _ _ _ hs _ hd =>
    rw [hs, List.map_cons, List.map_append, List.map_map]
    have hanswered : ∀ w, Entry.Suits .established (.resolved w (.ok opened)) := fun _ => rfl
    obtain ⟨hresolved, hshown⟩ := truthful_resolved hanswered (d.queue.take 1)
    refine ⟨trivial, truthful_append.mpr ⟨hresolved, ?_⟩⟩
    have hdispatch := truthful_dispatch hd
    rwa [← hshown] at hdispatch

end Driver

/-! ## Runs -/

namespace Channel

variable {τ σ α : Type} {c c' : Channel τ σ α}

/-! ### Nothing but the driver shows states -/

theorem published_tolerates : Tolerates fun c c' : Channel τ σ α => c'.published = c.published where
  refl _ := rfl
  trans h h' := h'.trans h
  submitted _ _ := rfl
  post c e := by
    unfold post
    split <;> rfl
  resolved _ _ _ := rfl
  fill _ _ _ := rfl

theorem published_submitPlan (plan : Plan) (c : Channel τ σ α) :
    (submitPlan plan c).published = c.published := published_tolerates.plan plan c

theorem published_dropDriver (c : Channel τ σ α) : c.dropDriver.published = c.published :=
  published_tolerates.dropDriver (fun _ => rfl) (fun _ => rfl) c

/-! ### Histories grow -/

theorem history_grows_writeFuture (c : Channel τ σ α) (request : Bytes) :
    c.history <+: (c.writeFuture request).history := by
  have hsubmitted (w : Pending) (futures : List (Nat × Option Outcome)) : c.history <+:
      ({ c with submissions := c.submissions + 1, futures := futures }.record
        (.submitted w)).history :=
    { c with submissions := c.submissions + 1, futures := futures }.history_grows_record _
  simp only [writeFuture]
  split
  · rw [history_post]
    exact hsubmitted _ _
  · exact (hsubmitted _ _).trans (history_tolerates.resolve ..)

theorem history_grows_dropDriver (c : Channel τ σ α) : c.history <+: c.dropDriver.history :=
  history_tolerates.dropDriver (fun _ => List.prefix_refl _) (fun _ => List.prefix_refl _) c

variable [CipherSession σ] [Attester α]

theorem history_grows_processNext [Transport τ] {c next : Channel (Held τ) σ α}
    (h : c.processNext = some next) : c.history <+: next.history := by
  cases hd : c.driver with
  | none => simp [processNext, hd] at h
  | some d =>
    cases he : c.events with
    | nil => simp [processNext, hd, he] at h
    | cons e rest =>
      rw [processNext_eq hd he] at h
      obtain rfl := Option.some.inj h
      have htake : c.history <+: (c.take d e rest).history :=
        history_grows_record { c with driver := some (d.handle e).1, events := rest } _
      exact htake.trans (history_tolerates.foldl history_grows_perform _ _)

theorem history_grows_move [Transport τ] (c : Channel (Held τ) σ α) (m : Move) :
    c.history <+: (c.move m).history := by
  cases m with
  | write request plan => exact history_tolerates.plan _ c
  | writeFuture request => exact c.history_grows_writeFuture request
  | poll number =>
    simp only [move, poll]
    split <;> exact List.prefix_refl _
  | dropFuture | cloneHandle | dropHandle | forget => exact List.prefix_refl _
  | answer position result =>
    simp only [move, answer]
    split
    · rw [deliver, history_post]
      exact List.prefix_refl _
    · exact List.prefix_refl _
  | process =>
    rw [move]
    cases hnext : c.processNext with
    | none => exact List.prefix_refl _
    | some next => exact history_grows_processNext hnext

theorem history_grows_after [Transport τ] (c : Channel (Held τ) σ α) (moves : List Move) :
    c.history <+: (c.after moves).history :=
  history_tolerates.foldl history_grows_move moves c

/-! ### A driver and what is shown -/

/-- What is shown suits the log, and is the state of the driver. -/
structure Reflects (d : Driver σ α) (log : List Entry) : Prop where
  phased : d.Phased
  truthful : Truthful .uninitialized log
  shown : shownAfter log = d.state

omit [CipherSession σ] [Attester α] in
theorem foldl_shows_handled (state : ChannelState) (e : Event) (actions : List Action) :
    (Entry.handled e :: actions.map Entry.ofAction).foldl Entry.shows state =
      (states actions).getLastD state := foldl_shows_ofAction state actions

theorem reflects_step {d d' : Driver σ α} {log : List Entry} {e : Event} {actions : List Action}
    (h : Reflects d log) (hs : Driver.Step d e d' actions) :
    Reflects d' (log ++ .handled e :: actions.map Entry.ofAction) where
  phased := Driver.phased_step h.phased hs
  truthful := by
    have hstep := Driver.truthful_step h.phased hs
    rw [← h.shown] at hstep
    exact truthful_append.mpr ⟨h.truthful, trivial, hstep⟩
  shown := by
    have hshown := h.shown
    unfold shownAfter at hshown ⊢
    rw [List.foldl_append, hshown, foldl_shows_handled, Driver.step_states hs]

theorem reflects_after [Transport τ] (t : τ) (s₀ : σ) (a₀ : α) (moves : List Move) :
    ∃ d, Live s₀ a₀ ((new ⟨t, []⟩ s₀ a₀).after moves) d ∧
      Reflects d ((new ⟨t, []⟩ s₀ a₀).after moves).course :=
  kept_after t s₀ a₀ ⟨Driver.phased_fresh s₀ a₀, trivial, rfl⟩
    (fun _ d e _ _ _ h => reflects_step h (d.handle_step e)) moves

/-! ### What a watcher sees -/

/-- What is seen of a channel, whenever one looks. -/
structure Watched (c : Channel τ σ α) : Prop where
  now : c.published = shownAfter c.history
  forward : (views c.history).IsChain fun s s' => s = s' ∨ s.Next s'
  /-- Who gets an answer sees an established channel. -/
  answered : ∀ before w plaintext later,
    c.history = before ++ .resolved w (.ok plaintext) :: later → shownAfter before = .established
  /-- Who gets an error sees a failed channel, unless the write is cancelled. -/
  failed : ∀ before w e later, c.history = before ++ .resolved w (.error e) :: later →
    e ≠ .cancelled → shownAfter before = .permanentFailure

omit [CipherSession σ] [Attester α] in
theorem watched_of_truthful (h : Truthful .uninitialized c.course)
    (hnow : c.published = shownAfter c.course) : Watched c := by
  have hhistory := (truthful_filter c.history).mp h
  have hsuits {before later : List Entry} {e : Entry} (hsplit : c.history = before ++ e :: later) :
      Entry.Suits (shownAfter before) e := by
    rw [hsplit] at hhistory
    exact (truthful_append.mp hhistory).2.1
  exact {
    now := hnow.trans (foldl_shows_filter _ c.history)
    forward := isChain_scanl hhistory
    answered := fun before w plaintext later hsplit => hsuits hsplit
    failed := fun before w e later hsplit hne => by
      have hfailed := hsuits hsplit
      cases e with
      | cancelled => exact absurd rfl hne
      | _ => exact hfailed }

omit [CipherSession σ] [Attester α] in
theorem watched_of_cancels {ws : List Pending} (h : Truthful .uninitialized c.course)
    (hnow : c.published = shownAfter c.course) (hcancels : Cancels c c' ws)
    (hpublished : c'.published = c.published) : Watched c' := by
  obtain ⟨cancelled, made, hcourse, -⟩ := hcancels
  have hsuits (w : Pending) :
      Entry.Suits (shownAfter c.course) (.resolved w (.error .cancelled)) := trivial
  obtain ⟨htruthful, hshown⟩ := truthful_resolved hsuits cancelled
  refine watched_of_truthful ?_ ?_
  · rw [hcourse]
    exact truthful_append.mpr ⟨h, htruthful⟩
  · rw [hpublished, hnow, hcourse]
    unfold shownAfter at hshown ⊢
    rw [List.foldl_append, hshown]

theorem published_closed [Transport τ] {c : Channel (Held τ) σ α} (h : c.Closed) (m : Move) :
    (c.move m).published = c.published := by
  cases m with
  | write request plan => exact published_submitPlan _ c
  | writeFuture request =>
    rw [move, writeFuture_refuse h.accepting]
    rfl
  | poll number =>
    simp only [move, poll]
    split <;> rfl
  | dropFuture | cloneHandle | dropHandle | forget => rfl
  | answer position result =>
    rw [move, answer_closed h.accepting]
    rfl
  | process => simp [move, processNext, h.driver]

theorem published_after_closed [Transport τ] {c : Channel (Held τ) σ α} (h : c.Closed)
    (moves : List Move) : (c.after moves).published = c.published := by
  induction moves using List.reverseRecOn with
  | nil => rfl
  | append_singleton moves m ih =>
    rw [after, List.foldl_append]
    exact (published_closed (cancels_after h moves).2 m).trans ih

/-! ## The theorem -/

/-- What is seen of a channel with a driver, now and after the drop of the driver. -/
structure Displays [Transport τ] (c : Channel (Held τ) σ α) : Prop where
  watched : Watched c
  resting : ∃ d, c.driver = some d ∧ c.published = d.state
  grows : ∀ moves, c.history <+: (c.after moves).history
  /-- While the driver acts on an event, after any of its actions. -/
  inside : ∀ d e rest actions later, c.driver = some d → c.events = e :: rest →
    (d.handle e).2 = actions ++ later →
    let now := actions.foldl perform (c.take d e rest)
    now.published = shownAfter now.history ∧ now.history <+: (c.move .process).history
  /-- When a completion is invoked. A callback sees one state from its first write to its last. -/
  invoked : ∀ d e rest actions w outcome later, c.driver = some d → c.events = e :: rest →
    (d.handle e).2 = actions ++ .resolve w outcome :: later →
    let now := actions.foldl perform (c.take d e rest)
    (∀ plan, (submitPlan plan (now.record (.resolved w outcome))).published = now.published) ∧
    (∀ plaintext, outcome = .ok plaintext → now.published = .established) ∧
    ∀ e, outcome = .error e → e ≠ .cancelled → now.published = .permanentFailure
  dropped : ∀ moves, let c' := c.dropDriver.after moves
    Watched c' ∧ c'.published = c.published ∧ c.history <+: c'.history

section

variable [Transport τ] {s₀ : σ} {a₀ : α} {c : Channel (Held τ) σ α} {d : Driver σ α}

theorem shown_within (h : Live s₀ a₀ c d) (hs : Reflects d c.course) (e : Event) (rest : List Event)
    (actions : List Action) :
    (actions.foldl perform (c.take d e rest)).published =
      shownAfter (actions.foldl perform (c.take d e rest)).history := by
  have heffect := effect_performAll actions (c.take d e rest) h.accepting
  have hbefore : (c.take d e rest).published = shownAfter c.course :=
    h.published.trans hs.shown.symm
  have hcourse : shownAfter (actions.foldl perform (c.take d e rest)).history =
      shownAfter (actions.foldl perform (c.take d e rest)).course :=
    (foldl_shows_filter _ _).symm
  rw [hcourse, heffect.course, heffect.published, hbefore, course_take, List.append_assoc]
  unfold shownAfter
  rw [List.foldl_append, List.singleton_append, foldl_shows_handled]

theorem suits_invoked (h : Live s₀ a₀ c d) (hs : Reflects d c.course) {e : Event}
    (rest : List Event) {actions later : List Action} {w : Pending} {outcome : Outcome}
    (hactions : (d.handle e).2 = actions ++ .resolve w outcome :: later) :
    Entry.Suits (actions.foldl perform (c.take d e rest)).published (.resolved w outcome) := by
  have heffect := effect_performAll actions (c.take d e rest) h.accepting
  have hstep := Driver.truthful_step hs.phased (d.handle_step e)
  rw [hactions, List.map_append, truthful_append, foldl_shows_ofAction] at hstep
  have hbefore : (c.take d e rest).published = d.state := h.published
  rw [heffect.published, hbefore]
  exact hstep.2.1

theorem displays_of_live (h : Live s₀ a₀ c d) (hs : Reflects d c.course) : Displays c where
  watched := watched_of_truthful hs.truthful (h.published.trans hs.shown.symm)
  resting := ⟨d, h.driver, h.published⟩
  grows := c.history_grows_after
  inside := by
    intro d' e rest actions later hd he hactions
    obtain rfl : d = d' := Option.some.inj (h.driver.symm.trans hd)
    refine ⟨shown_within h hs e rest actions, ?_⟩
    rw [move, processNext_eq hd he, hactions, List.foldl_append]
    exact history_tolerates.foldl history_grows_perform _ _
  invoked := by
    intro d' e rest actions w outcome later hd he hactions
    obtain rfl : d = d' := Option.some.inj (h.driver.symm.trans hd)
    have hsuits := suits_invoked h hs rest hactions
    refine ⟨fun plan => published_submitPlan plan _, ?_, ?_⟩
    · rintro plaintext rfl
      exact hsuits
    · rintro e rfl hne
      cases e with
      | cancelled => exact absurd rfl hne
      | _ => exact hsuits
  dropped moves := by
    obtain ⟨hdrop, hclosed⟩ := cancels_dropDriver h.driver h.accepting
    have hpublished : (c.dropDriver.after moves).published = c.published :=
      (published_after_closed hclosed moves).trans c.published_dropDriver
    exact ⟨watched_of_cancels hs.truthful (h.published.trans hs.shown.symm)
        (hdrop.trans (cancels_after hclosed moves).1) hpublished, hpublished,
      c.history_grows_dropDriver.trans (history_grows_after _ moves)⟩

/-- **The state that handles see goes forward only and is in step with the outcomes**, at every
moment of a run. -/
theorem watched_throughout (t : τ) (s₀ : σ) (a₀ : α) (moves : List Move) :
    Displays ((new ⟨t, []⟩ s₀ a₀).after moves) := by
  obtain ⟨d, h, hs⟩ := reflects_after t s₀ a₀ moves
  exact displays_of_live h hs

end

end Channel

end SealedLink
