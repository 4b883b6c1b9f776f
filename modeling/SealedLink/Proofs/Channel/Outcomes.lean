import SealedLink.Proofs.Channel.Live

/-!
# Outcomes of writes

Writes are resolved in the order of their submission: first those that got an answer, and after a
failure those that the driver had taken, with the code of the failure, and those that it takes
later, with the generic code.
-/

namespace SealedLink

def Exchange.outcome (x : Exchange) : Pending × Outcome := (x.write, .ok x.opened)

/-! ## What a story resolves -/

theorem outcomesOf_story (story : Story) :
    outcomesOf story.entries = story.served.map Exchange.outcome := by
  have hcurrent : outcomesOf ((story.current.map Sending.entries).getD []) = [] := by
    cases story.current <;> rfl
  have hread : Reading outcomesOf := ⟨rfl, outcomesOf_append⟩
  rw [hread.story (g := Exchange.outcome) (fun _ => rfl) (fun _ => rfl) (fun _ => rfl)
    (fun _ => rfl), hcurrent, List.append_nil]

theorem outcomesOf_breaks {story : Story} {w : Pending} {cause : List Entry} {code : ChannelError}
    (h : Breaks story w cause code) : outcomesOf cause = [] := by
  cases h <;> rfl

theorem outcomesOf_resolved (ws : List Pending) (outcome : Outcome) :
    outcomesOf (ws.map (.resolved · outcome)) = ws.map (·, outcome) := by
  rw [outcomesOf, List.filterMap_map]
  exact congrFun List.filterMap_eq_map ws

theorem outcomesOf_aftermath (dropped : List Pending) (code : ChannelError) (late : List Pending) :
    outcomesOf (aftermath dropped code late) =
      dropped.map (·, .error code) ++ late.map (·, .error .genericError) := by
  rw [← outcomesOf_resolved, ← outcomesOf_resolved, ← outcomesOf_append]
  rfl

theorem Story.entries_eq (story : Story) :
    ∃ opening rest, story.entries = opening ++ story.served.flatMap Exchange.entries ++ rest := by
  match story with
  | .traffic o served current => exact ⟨o.entries, _, rfl⟩
  | .fresh => exact ⟨[], [], rfl⟩
  | .attesting a => exact ⟨a.entries, [], by simp [entries, served]⟩
  | .greeting g => exact ⟨g.entries, [], by simp [entries, served]⟩

/-! ## Which code it is -/

theorem established_mem_story (story : Story) :
    .published .established ∈ story.entries ↔ story.state = .established := by
  match story with
  | .fresh => simp [Story.entries, Story.state]
  | .attesting _ => simp [Story.entries, Story.state, Attestation.entries]
  | .greeting _ => simp [Story.entries, Story.state, Greeting.entries, Attestation.entries]
  | .traffic o _ _ => simp [Story.entries, Story.state, Opening.entries]

theorem established_not_mem_breaks {story : Story} {w : Pending} {cause : List Entry}
    {code : ChannelError} (h : Breaks story w cause code) : .published .established ∉ cause := by
  cases h <;> simp

theorem Breaks.early {story : Story} {w : Pending} {cause : List Entry} {code : ChannelError}
    (h : Breaks story w cause code) (hs : story.state ≠ .established) :
    story.served = [] ∧ (code = .attestationFailed ∨ code = .handshakeFailed) := by
  cases h with
  | @reply story _ q _ hq =>
    match story with
    | .fresh => cases hq
    | .attesting _ => exact ⟨rfl, .inl rfl⟩
    | .greeting _ => exact ⟨rfl, .inr rfl⟩
    | .traffic .. => exact absurd rfl hs
  | noEvidence | refused => exact ⟨rfl, .inl rfl⟩
  | noHandshake | notFinished => exact ⟨rfl, .inr rfl⟩
  | notSealed | notOpened => exact absurd rfl hs

theorem Breaks.late {story : Story} {w : Pending} {cause : List Entry} {code : ChannelError}
    (h : Breaks story w cause code) (hs : story.state = .established) :
    code = .encryptionFailed ∨ code = .decryptionFailed ∨ code = .networkError := by
  cases h with
  | reply => rw [hs]; exact .inr (.inr rfl)
  | notSealed => exact .inl rfl
  | notOpened => exact .inr (.inl rfl)
  | noEvidence | refused | noHandshake | notFinished => cases hs

/-! ## The law -/

namespace Channel

variable {τ σ α : Type}

theorem outcomes_eq (c : Channel τ σ α) : c.outcomes = outcomesOf c.course := by
  simp only [outcomes, outcomesOf, course, history, List.filterMap_filter]
  congr 1
  funext e
  cases e <;> rfl

/-- Nothing has failed: the first writes have their answers, and the others wait. -/
structure Serving (c : Channel τ σ α) (d : Driver σ α) (served : List Exchange) : Prop where
  state : d.state ≠ .permanentFailure
  outcomes : c.outcomes = served.map Exchange.outcome
  submitted : c.submitted = served.map (·.write) ++ d.queue ++ c.waiting

/-- The channel has failed: the first writes had got their answers, `dropped` are the writes that
were taken when it happened and `late` those that were taken later. -/
structure Halted (c : Channel τ σ α) (d : Driver σ α) (served : List Exchange) (code : ChannelError)
    (dropped late : List Pending) : Prop where
  state : d.state = .permanentFailure
  queue : d.queue = []
  outcomes : c.outcomes = served.map Exchange.outcome ++ dropped.map (·, .error code) ++
    late.map (·, .error .genericError)
  submitted : c.submitted = served.map (·.write) ++ dropped ++ late ++ c.waiting
  moment : ∃ before after story w cause,
    c.course = before ++ .published .permanentFailure :: after ∧
    taken before = served.map (·.write) ++ dropped ∧ taken after = late ∧
    story.served = served ∧ deeds before = story.entries ++ cause ∧
    dropped.head? = some w ∧ Breaks story w cause code
  early : .published .established ∉ c.course →
    served = [] ∧ (code = .attestationFailed ∨ code = .handshakeFailed)
  late : .published .established ∈ c.course →
    code = .encryptionFailed ∨ code = .decryptionFailed ∨ code = .networkError

variable [CipherSession σ] [Attester α]

/-- The law of outcomes. The calls in the log are those that were made, and each exchange is there
from the encryption of the write's own request to the decryption of the reply to its send. -/
structure Lawful (s₀ : σ) (a₀ : α) (c : Channel τ σ α) (d : Driver σ α) (served : List Exchange) :
    Prop where
  driver : c.driver = some d
  numbers : c.submitted.map (·.number) = List.range c.submissions
  made : Made s₀ a₀ (calls c.course) d.session d.attester
  exchanges : ∃ opening rest,
    deeds c.course = opening ++ served.flatMap Exchange.entries ++ rest
  outcome : Serving c d served ∨ ∃ code dropped late, Halted c d served code dropped late

section

variable [Accounts τ] {s₀ : σ} {a₀ : α} {c : Channel τ σ α} {d : Driver σ α}

theorem serving_of_alive {story : Story} (h : Live s₀ a₀ c d) (ha : Alive d c.course story) :
    Serving c d story.served where
  state := ha.not_failed
  outcomes := by rw [outcomes_eq, ← outcomesOf_deeds, ha.deeds, outcomesOf_story]
  submitted := by rw [h.fifo, ha.taken]

theorem halted_of_failed {story : Story} {code : ChannelError} {dropped late : List Pending}
    (h : Live s₀ a₀ c d) (hf : Failed c.course story code dropped late)
    (hs : d.state = .permanentFailure) (hq : d.queue = []) :
    Halted c d story.served code dropped late := by
  obtain ⟨w, cause, hdeeds, htaken, -, hbreak⟩ := hf.whole
  have hestablished : .published .established ∈ c.course ↔ story.state = .established := by
    have hmem : .published .established ∈ c.course ↔ .published .established ∈ deeds c.course := by
      simp [deeds, Entry.isDeed]
    rw [hmem, hdeeds, ← established_mem_story]
    simp [established_not_mem_breaks hbreak, aftermath]
  exact {
    state := hs
    queue := hq
    outcomes := by
      rw [outcomes_eq, ← outcomesOf_deeds, hdeeds, outcomesOf_append, outcomesOf_append,
        outcomesOf_story, outcomesOf_breaks hbreak, outcomesOf_aftermath, List.nil_append,
        List.append_assoc]
    submitted := by rw [h.fifo, htaken, ← List.append_assoc]
    moment := by
      obtain ⟨before, after, w, cause, hsplit, hbefore, htaken, hw, hbreak, -, hlate⟩ := hf
      exact ⟨before, after, story, w, cause, hsplit, htaken, hlate, rfl, hbefore, hw, hbreak⟩
    early := fun hnot => hbreak.early (mt hestablished.mpr hnot)
    late := fun hmem => hbreak.late (hestablished.mp hmem) }

theorem lawful_of_live (h : Live s₀ a₀ c d) : ∃ served, Lawful s₀ a₀ c d served := by
  cases h.told with
  | alive story ha =>
    refine ⟨story.served, h.driver, h.numbers, h.made, ?_, .inl (serving_of_alive h ha)⟩
    rw [ha.deeds]
    exact story.entries_eq
  | @failed story code dropped late hf hs _ hq =>
    refine ⟨story.served, h.driver, h.numbers, h.made, ?_,
      .inr ⟨code, dropped, late, halted_of_failed h hf hs hq⟩⟩
    obtain ⟨opening, rest, hstory⟩ := story.entries_eq
    obtain ⟨w, cause, hdeeds, -⟩ := hf.whole
    refine ⟨opening, rest ++ (cause ++ aftermath dropped code late), ?_⟩
    rw [hdeeds, hstory]
    simp only [List.append_assoc]

end

/-- **The outcomes of every run obey the law.** -/
theorem lawful_after [Transport τ] (t : τ) (s₀ : σ) (a₀ : α) (moves : List Move) :
    ∃ d served, Lawful s₀ a₀ ((new ⟨t, []⟩ s₀ a₀).after moves) d served := by
  obtain ⟨d, h⟩ := live_after t s₀ a₀ moves
  obtain ⟨served, hl⟩ := lawful_of_live h
  exact ⟨d, served, hl⟩

end Channel

end SealedLink
