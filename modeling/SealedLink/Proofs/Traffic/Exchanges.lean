import SealedLink.Proofs.Channel.Outcomes
import SealedLink.Proofs.Traffic.Client

/-!
# Exchanges and packets

The packets that a channel seals are the requests of its writes in order, and those that it opens
are their answers.
-/

namespace SealedLink

def success? : Pending × Outcome → Option (Pending × Bytes)
  | (w, .ok answer) => some (w, answer)
  | (_, .error _) => none

def successes (log : List Entry) : List (Pending × Bytes) := (outcomesOf log).filterMap success?

theorem successes_append (a b : List Entry) : successes (a ++ b) = successes a ++ successes b := by
  simp [successes]

namespace Channel

def successes {τ σ α : Type} (c : Channel τ σ α) : List (Pending × Bytes) :=
  c.outcomes.filterMap success?

theorem successes_eq {τ σ α : Type} (c : Channel τ σ α) :
    c.successes = SealedLink.successes c.course := by
  rw [successes, outcomes_eq]
  rfl

theorem successes_of_course {τ σ α : Type} {c c' : Channel τ σ α} {log : List Entry}
    (h : c'.course = c.course ++ log) (hl : SealedLink.successes log = []) :
    c'.successes = c.successes := by
  rw [successes_eq, successes_eq, h, successes_append, hl, List.append_nil]

end Channel

def Sending.packet (x : Sending) : Packet := ⟨x.write.request, x.sealed⟩

def Exchange.reply (x : Exchange) : Packet := ⟨x.opened, x.answer⟩

/-- What a log shows of exchanges. -/
structure Exchanged (log : List Entry) (served : List Exchange) (current : Option Sending) : Prop where
  sealings : sealings (calls log) = served.map (·.packet) ++ current.toList.map (·.packet)
  openings : openings (calls log) = served.map (·.reply)
  successes : successes log = served.map fun x => (x.write, x.opened)
  taken : served.map (·.write) ++ current.toList.map (·.write) <+: taken log

/-! ## Packets of a story -/

theorem sealings_story (story : Story) : sealings (calls story.entries) =
    story.served.map (·.packet) ++ story.current.toList.map (·.packet) := by
  have hread : Reading fun log => sealings (calls log) := ⟨rfl, by simp⟩
  have hstory := hread.story (g := fun x => x.packet) (fun _ => rfl) (fun _ => rfl) (fun _ => rfl)
    (fun _ => rfl) story
  have hcurrent : sealings (calls ((story.current.map Sending.entries).getD [])) =
      story.current.toList.map (·.packet) := by
    cases story.current <;> rfl
  rw [hstory, hcurrent]

theorem openings_story (story : Story) :
    openings (calls story.entries) = story.served.map (·.reply) := by
  have hread : Reading fun log => openings (calls log) := ⟨rfl, by simp⟩
  have hstory := hread.story (g := fun x => x.reply) (fun _ => rfl) (fun _ => rfl) (fun _ => rfl)
    (fun _ => rfl) story
  have hcurrent : openings (calls ((story.current.map Sending.entries).getD [])) = [] := by
    cases story.current <;> rfl
  rw [hstory, hcurrent, List.append_nil]

theorem calls_breaks {story : Story} {w : Pending} {cause : List Entry} {code : ChannelError}
    (h : Breaks story w cause code) :
    sealings (calls cause) = [] ∧ openings (calls cause) = [] := by
  cases h <;> exact ⟨rfl, rfl⟩

theorem success?_outcome (served : List Exchange) :
    (served.map Exchange.outcome).filterMap success? = served.map fun x => (x.write, x.opened) := by
  rw [List.filterMap_map]
  exact congrFun List.filterMap_eq_map served

theorem success?_error (ws : List Pending) (code : ChannelError) :
    (ws.map (·, .error code)).filterMap success? = [] := by
  simp [success?]

theorem prefix_of_current {served : List Exchange} {current : Option Sending} {rest : List Pending}
    (h : ∀ x, current = some x → rest.head? = some x.write) :
    served.map (·.write) ++ current.toList.map (·.write) <+: served.map (·.write) ++ rest := by
  rw [List.prefix_append_right_inj]
  cases current with
  | none => exact List.nil_prefix
  | some x =>
    obtain ⟨ws, rfl⟩ := List.head?_eq_some_iff.mp (h x rfl)
    exact ⟨ws, rfl⟩

/-! ## Packets of a log -/

variable {σ α : Type} {d : Driver σ α} {log : List Entry} {story : Story}

theorem exchanged_of_alive (h : Alive d log story) : Exchanged log story.served story.current where
  sealings := by rw [← calls_deeds, h.deeds, sealings_story]
  openings := by rw [← calls_deeds, h.deeds, openings_story]
  successes := by
    rw [successes, ← outcomesOf_deeds, h.deeds, outcomesOf_story, success?_outcome]
  taken := by
    rw [h.taken]
    exact prefix_of_current fun x hx => h.current hx

theorem exchanged_of_failed {code : ChannelError} {dropped late : List Pending}
    (h : Failed log story code dropped late) : Exchanged log story.served story.current := by
  obtain ⟨w, cause, hdeeds, htaken, hw, hbreak⟩ := h.whole
  have hcalls : calls log = calls story.entries ++ calls cause := by
    rw [← calls_deeds, hdeeds, calls_append, calls_append, calls_aftermath, List.append_nil]
  refine ⟨?_, ?_, ?_, ?_⟩
  · rw [hcalls, sealings_append, (calls_breaks hbreak).1, List.append_nil, sealings_story]
  · rw [hcalls, openings_append, (calls_breaks hbreak).2, List.append_nil, openings_story]
  · rw [successes, ← outcomesOf_deeds, hdeeds, outcomesOf_append, outcomesOf_append,
      outcomesOf_story, outcomesOf_breaks hbreak, outcomesOf_aftermath]
    simp only [List.nil_append, List.append_nil, List.filterMap_append, success?_outcome,
      success?_error]
  · rw [htaken, ← List.append_assoc]
    refine (prefix_of_current fun x hx => ?_).trans (List.prefix_append ..)
    rw [hw, hbreak.current hx]

theorem exchanged_of_told (h : Told d log) : ∃ served current, Exchanged log served current := by
  cases h with
  | alive story h => exact ⟨_, _, exchanged_of_alive h⟩
  | failed h => exact ⟨_, _, exchanged_of_failed h⟩

end SealedLink
