import SealedLink.Channel.Scripted
import SealedLink.Proofs.Channel.Transcript

/-!
# Schedules

When writes are made, when the driver takes events and when the transport calls its callbacks does
not matter in the end. Two runs with the same requests and the same replies, both over, have made
the same calls and sends, are in the same state, and have answered the same writes alike.
-/

namespace SealedLink

/-- What the writes get that have no answer: those that the driver had taken when it failed get the
code of the failure, later ones the generic code. -/
inductive Fallout : Option ChannelError → List Outcome → Prop where
  | none : Fallout none []
  | some (code : ChannelError) (dropped late : Nat) : Fallout (some code)
      (List.replicate (dropped + 1) (.error code) ++ List.replicate late (.error .genericError))

namespace Channel

variable {τ σ α : Type}

/-- All events are handled and all sends answered, the `j`-th of them with `reply j`. -/
structure Settled (reply : Nat → TransportResult) (c : Channel τ σ α) : Prop where
  handled : c.events = []
  answered : (answersIn c.history).map (·.2) = (List.range c.sends.length).map reply

/-- Every write is resolved in its turn: the first ones with the answers `opened`, and the others
with errors. -/
structure Resolved (c : Channel τ σ α) (opened : List Bytes) (failure : Option ChannelError) :
    Prop where
  writes : c.outcomes.map (·.1) = c.submitted
  outcomes : ∃ rest, c.outcomes.map (·.2) = opened.map .ok ++ rest ∧ Fallout failure rest

/-- Channels that nothing tells apart but which of the failed writes got the generic code. -/
structure Alike {τ₁ τ₂ : Type} (c₁ : Channel τ₁ σ α) (c₂ : Channel τ₂ σ α) : Prop where
  sends : c₁.sends = c₂.sends
  calls : calls c₁.history = calls c₂.history
  state : c₁.driver.map (·.state) = c₂.driver.map (·.state)
  published : c₁.published = c₂.published
  resolved : ∃ opened failure, c₁.Resolved opened failure ∧ c₂.Resolved opened failure

/-! ## A run that is over -/

theorem openedIn_served {served : List Exchange} :
    (served.map Exchange.outcome).filterMap (·.2.toOption) = served.map (·.opened) := by
  rw [List.filterMap_map]
  exact congrFun List.filterMap_eq_map served

theorem openedIn_errors (ws : List Pending) (code : ChannelError) :
    (ws.map fun w => (w, (.error code : Outcome))).filterMap (·.2.toOption) = [] := by
  rw [List.filterMap_map]
  exact List.filterMap_eq_nil_iff.mpr fun _ _ => rfl

theorem resolved_of_serving {c : Channel τ σ α} {d : Driver σ α} {served : List Exchange}
    (h : Serving c d served) (hqueue : d.queue = []) (hwaiting : c.waiting = []) :
    c.Resolved (openedIn c.history) none := by
  have hopened : openedIn c.history = served.map (·.opened) := by
    rw [← openedIn_served, ← h.outcomes]
    rfl
  refine ⟨?_, [], ?_, .none⟩
  · rw [h.outcomes, h.submitted, hqueue, hwaiting, List.map_map, List.append_nil, List.append_nil]
    rfl
  · rw [hopened, h.outcomes, List.map_map, List.map_map, List.append_nil]
    rfl

theorem resolved_of_halted {c : Channel τ σ α} {d : Driver σ α} {served : List Exchange}
    {code : ChannelError} {dropped late : List Pending} (h : Halted c d served code dropped late)
    (hwaiting : c.waiting = []) : c.Resolved (openedIn c.history) (some code) := by
  have hopened : openedIn c.history = served.map (·.opened) := by
    have : openedIn c.history = c.outcomes.filterMap (·.2.toOption) := rfl
    rw [this, h.outcomes, List.filterMap_append, List.filterMap_append, openedIn_served,
      openedIn_errors, openedIn_errors, List.append_nil, List.append_nil]
  obtain ⟨before, after, story, w, cause, -, -, -, -, -, hw, -⟩ := h.moment
  obtain ⟨ws, rfl⟩ := List.head?_eq_some_iff.mp hw
  refine ⟨?_, _, ?_, .some code ws.length late.length⟩
  · rw [h.outcomes, h.submitted, hwaiting]
    simp [Function.comp_def, Exchange.outcome]
  · rw [hopened, h.outcomes]
    simp [Function.comp_def, Exchange.outcome, List.map_const', List.replicate_succ]

variable [CipherSession σ] [Attester α] {reply : Nat → TransportResult} {s₀ : σ} {a₀ : α}

section

variable [Accounts τ] {c : Channel τ σ α} {d : Driver σ α}

theorem idle_of_settled (h : Live s₀ a₀ c d) (hs : Settled reply c) : d.outstanding = none := by
  obtain ⟨turn, hpass, hawaited⟩ := Turn.foldlM_pass_told h.told
  rw [Turn.foldlM_pass_course] at hpass
  have hturns := congrArg List.length (Turn.foldlM_pass_awaited hpass)
  have hsent : (sentIn c.history).length = c.sends.length := by
    rw [(disciplined_of_live h).numbers, List.length_map, List.length_range]
  have hanswered : (answeredIn c.history).length = c.sends.length := by
    have hfst : answeredIn c.history = (answersIn c.history).map (·.1) := by
      simp only [answeredIn, answersIn, List.map_filterMap]
      congr 1
      funext e
      rcases e with _ | ⟨_ | _⟩ | _ | _ | _ | _ <;> rfl
    have := congrArg List.length hs.answered
    rw [hfst]
    simpa using this
  -- What was sent is what was answered and what is awaited.
  rw [List.length_append, List.length_append, hsent, hanswered, hawaited] at hturns
  cases ho : d.outstanding with
  | none => rfl
  | some q => simp [ho, Turn.awaited] at hturns

theorem accords_of_settled (h : Live s₀ a₀ c d) (hs : Settled reply c) :
    Accords reply s₀ a₀ 0 (deeds c.course) := by
  apply accords_of_made (calls_deeds c.course ▸ h.made)
  intro i x hx
  rw [deeds_course, answersIn_deeds] at hx
  have hreply : ((answersIn c.history).map (·.2))[i]? = some x.2 := by simp [hx]
  obtain ⟨_, hreply⟩ := List.getElem?_eq_some_iff.mp (hs.answered ▸ hreply)
  simpa using hreply

theorem transcript_of_settled (h : Live s₀ a₀ c d)
    (hbegun : taken c.course = [] → d.state = .uninitialized) (hs : Settled reply c) :
    ∃ failure, transcript reply s₀ a₀ (c.submitted.map (·.request)) =
      .read c.history { state := d.state, failure := failure } ∧
      c.Resolved (openedIn c.history) failure := by
  have hidle := idle_of_settled h hs
  have haccords := accords_of_settled h hs
  have hwaiting : c.waiting = [] := by
    rw [waiting, hs.handled]
    rfl
  have hsubmitted : c.submitted = taken c.course := by rw [h.fifo, hwaiting, List.append_nil]
  have hread (t : Transcript) : Transcript.read c.history t = .read (deeds c.course) t := by
    rw [deeds_course, Transcript.read_deeds]
  cases h.told with
  | alive story ha =>
    have hqueue := ha.rests hidle
    have htaken := ha.taken
    rw [hqueue, List.append_nil] at htaken
    refine ⟨none, ?_, resolved_of_serving (serving_of_alive h ha) hqueue hwaiting⟩
    rw [hread, ha.deeds, ha.state, hsubmitted, htaken, List.map_map]
    refine transcript_idle (ha.outstanding ▸ hidle) (fun hserved => ?_) (ha.deeds ▸ haccords)
    -- A story that served nothing has not begun: there was no write to begin with.
    rw [← ha.state]
    exact hbegun (by rw [htaken, hserved, List.map_nil])
  | @failed story code dropped late hf hstate _ hqueue =>
    have hhalted := halted_of_failed h hf hstate hqueue
    refine ⟨some code, ?_, resolved_of_halted hhalted hwaiting⟩
    obtain ⟨w, cause, hdeeds, htaken, hw, hbreak⟩ := hf.whole
    obtain ⟨ws, rfl⟩ := List.head?_eq_some_iff.mp hw
    have hrequests : c.submitted.map (·.request) =
        story.served.map (·.write.request) ++ w.request :: (ws ++ late).map (·.request) := by
      rw [hsubmitted, htaken]
      simp [Function.comp_def]
    -- The transcript stops at the failure, whatever else was queued or came later.
    rw [← List.append_assoc] at hdeeds
    rw [hdeeds] at haccords
    rw [hread, hdeeds, hrequests, Transcript.read_append, Transcript.read_aftermath, hstate]
    exact transcript_breaks hbreak haccords.left

end

/-! ## Two runs -/

theorem begun_after [Transport τ] (t : τ) (s₀ : σ) (a₀ : α) (moves : List Move) :
    ∃ d, Live s₀ a₀ ((new ⟨t, []⟩ s₀ a₀).after moves) d ∧
      (taken ((new ⟨t, []⟩ s₀ a₀).after moves).course = [] → d.state = .uninitialized) := by
  refine kept_after (P := fun d log => taken log = [] → d.state = .uninitialized) t s₀ a₀
    (fun _ => rfl) ?_ moves
  intro c d e rest h he hbegun hnone
  rw [taken_handled, List.append_eq_nil_iff] at hnone
  cases e with
  | write w => cases hnone.2
  | reply q r => exact absurd (hbegun hnone.1) (begun_of_waits h (due_of_reply h he).1)

/-- **Runs with the same requests and the same replies end alike, whatever their schedules.** -/
theorem alike_after {τ₁ τ₂ : Type} [Transport τ₁] [Transport τ₂] (t₁ : τ₁) (t₂ : τ₂) (s₀ : σ)
    (a₀ : α) (reply : Nat → TransportResult) (moves₁ moves₂ : List Move)
    (h₁ : Settled reply ((new ⟨t₁, []⟩ s₀ a₀).after moves₁))
    (h₂ : Settled reply ((new ⟨t₂, []⟩ s₀ a₀).after moves₂))
    (hrequests : ((new ⟨t₁, []⟩ s₀ a₀).after moves₁).submitted.map (·.request) =
      ((new ⟨t₂, []⟩ s₀ a₀).after moves₂).submitted.map (·.request)) :
    Alike ((new ⟨t₁, []⟩ s₀ a₀).after moves₁) ((new ⟨t₂, []⟩ s₀ a₀).after moves₂) := by
  obtain ⟨d₁, hlive₁, hbegun₁⟩ := begun_after t₁ s₀ a₀ moves₁
  obtain ⟨d₂, hlive₂, hbegun₂⟩ := begun_after t₂ s₀ a₀ moves₂
  obtain ⟨failure₁, htranscript₁, hresolved₁⟩ := transcript_of_settled hlive₁ hbegun₁ h₁
  obtain ⟨failure₂, htranscript₂, hresolved₂⟩ := transcript_of_settled hlive₂ hbegun₂ h₂
  -- Both logs read as the transcript of the same requests.
  have hsame := htranscript₁.symm.trans ((congrArg _ hrequests).trans htranscript₂)
  simp only [Transcript.read_eq, List.append_nil, Transcript.mk.injEq] at hsame
  obtain ⟨hcalls, hsends, hopened, hstate, rfl⟩ := hsame
  exact {
    sends := hsends
    calls := hcalls
    state := by rw [hlive₁.driver, hlive₂.driver, Option.map_some, Option.map_some, hstate]
    published := by rw [hlive₁.published, hlive₂.published, hstate]
    resolved := ⟨_, _, hresolved₁, hopened ▸ hresolved₂⟩ }

/-- The replies to an attestation, a handshake and a first request. -/
def givenReplies : List TransportResult :=
  [.ok (.message (.attest [])), .ok (.message (.handshake ⟨[], []⟩)),
    .ok (.message (.encrypted [1]))]

def givenReply (j : Nat) : TransportResult := givenReplies.getD j (.error .socketClosed)

/-- The transport answers inside each send, after all writes were made. -/
def prompt : Channel (Held ScriptedTransport) ScriptedSession InsecureAttester :=
  (new ⟨{ script := (List.range 4).map givenReply }, []⟩ {} {}).after
    ([.write [1] .nothing, .write [2] .nothing, .write [3] .nothing] ++ List.replicate 7 .process)

/-- The transport answers later, and the last write is made when the channel has failed. -/
def delayed : Channel (Held ScriptedTransport) ScriptedSession InsecureAttester :=
  (new ⟨{}, []⟩ {} {}).after
    [.write [1] .nothing, .process, .answer 0 (givenReply 0), .write [2] .nothing, .process,
      .process, .answer 0 (givenReply 1), .process, .answer 0 (givenReply 2), .process,
      .answer 0 (givenReply 3), .process, .write [3] .nothing, .process]

/-- The first write is answered in both; the last one was taken before the failure in one of them
only. -/
theorem alike_prompt_delayed : Settled givenReply prompt ∧ Settled givenReply delayed ∧
    prompt.submitted.map (·.request) = delayed.submitted.map (·.request) ∧
    prompt.outcomes.map (·.2) = [.ok [1], .error .networkError, .error .networkError] ∧
    delayed.outcomes.map (·.2) = [.ok [1], .error .networkError, .error .genericError] ∧
    Alike prompt delayed := by
  have hprompt : Settled givenReply prompt := ⟨rfl, rfl⟩
  have hdelayed : Settled givenReply delayed := ⟨rfl, rfl⟩
  exact ⟨hprompt, hdelayed, rfl, rfl, rfl, alike_after _ _ _ _ _ _ _ hprompt hdelayed rfl⟩

end Channel

end SealedLink
