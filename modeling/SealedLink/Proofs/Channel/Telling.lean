import SealedLink.Proofs.Channel.Story

/-!
# Every step goes on with the story

A driver whose log tells a story still does so after each event, if the replies that it gets are
answers to the send that waits for one.
-/

namespace SealedLink

variable {σ α : Type} {d d' : Driver σ α} {log : List Entry} {e : Event} {actions : List Action}

/-! ## Parts of a step -/

theorem told_dispatch [CipherSession σ] (log : List Entry) (o : Opening) (served : List Exchange)
    (hd : deeds log = (Story.traffic o served none).entries)
    (ht : taken log = served.map (·.write) ++ d.queue) (hs : d.state = .established)
    (ho : d.outstanding = none) (h : Driver.Dispatch d d' actions) :
    Told d' (log ++ actions.map Entry.ofAction) := by
  cases h with
  | idle hq =>
    refine .alive (.traffic o served none) ⟨?_, ?_, hs, ho, hq⟩
    · simpa using hd
    · simpa [Story.served] using ht
  | @sends w ws sealed s hq he =>
    refine .alive (.traffic o served (some ⟨w, d.nextSequence, sealed⟩))
      ⟨?_, ?_, hs, rfl, by simp [Story.Queued, Driver.sending, hq]⟩
    · rw [deeds_append, hd, deeds_ofAction]
      simp [Story.entries, Sending.entries, Entry.ofAction]
    · rw [taken_append, ht, taken_ofAction, List.append_nil]
      rfl
  | @fails w ws e s hq he =>
    have hdeeds : deeds (log ++ [.called (.encrypt w.request (.error e))]) =
        (Story.traffic o served none).entries ++ [.called (.encrypt w.request (.error e))] := by
      rw [deeds_append, hd]
      rfl
    have htaken : taken (log ++ [.called (.encrypt w.request (.error e))]) =
        (Story.traffic o served none).served.map (·.write) ++ d.queue := by
      rw [taken_append, ht]
      exact List.append_nil _
    have := told_failAll (d := { d with session := s }) _ hdeeds htaken (by rw [hq]; rfl) .notSealed
    simpa [List.append_assoc, Entry.ofAction] using this

theorem told_break {story : Story} {w : Pending} {deed : List Entry} {code : ChannelError}
    (cause : List Action) (hd : deeds log = story.entries)
    (ht : taken (log ++ [.handled e]) = story.served.map (·.write) ++ d.queue)
    (hw : d.queue.head? = some w) (he : deeds [.handled e] = deed)
    (hb : Breaks story w (deed ++ cause.map Entry.ofAction) code) :
    Told d.shut
      (log ++ .handled e :: (cause ++ Driver.failActions d.queue code).map Entry.ofAction) := by
  have := told_failAll (d := d) (log ++ .handled e :: cause.map Entry.ofAction)
    (by rw [deeds_handled, hd, he, List.append_assoc])
    (by rw [taken_handled, ← taken_append, ht]) hw hb
  simpa [List.append_assoc] using this

theorem Story.Queued.append {story : Story} {queue : List Pending} (h : story.Queued queue)
    (ho : story.outstanding ≠ none) (w : Pending) : story.Queued (queue ++ [w]) := by
  match story with
  | .fresh => simp [Story.outstanding] at ho
  | .attesting _ | .greeting _ => simp [Story.Queued]
  | .traffic _ _ none => simp [Story.outstanding] at ho
  | .traffic _ _ (some x) =>
    have hx : queue.head? = some x.write := h
    simp [Story.Queued, List.head?_append, hx]

/-! ## Writes -/

section

variable [CipherSession σ] [Attester α] {story : Story}

theorem told_write {w : Pending} (h : Alive d log story) (hs : Driver.Step d (.write w) d' actions) :
    Told d' (log ++ .handled (.write w) :: actions.map Entry.ofAction) := by
  have ht : taken (log ++ [.handled (.write w)]) = story.served.map (·.write) ++ (d.queue ++ [w]) := by
    rw [taken_append, h.taken, taken_write, List.append_assoc]
  cases hs with
  | rejects hs => exact absurd hs h.not_failed
  | noEvidence hs ha =>
    obtain rfl := h.of_uninitialized hs
    have hq : d.queue = [] := h.queue
    exact told_break (d := { d with attester := _, queue := d.queue ++ [w] }) (w := w)
      [.call (.attestationRequest none)] h.deeds ht (by rw [hq]; rfl) rfl .noEvidence
  | @attests _ evidence _ hs ha =>
    obtain rfl := h.of_uninitialized hs
    refine .alive (.attesting ⟨d.nextSequence, evidence⟩)
      ⟨?_, ?_, rfl, rfl, by simp [Story.Queued, Driver.sending]⟩
    · rw [deeds_handled, h.deeds]
      rfl
    · rw [taken_handled, ← taken_append, ht]
      rfl
  | queues hs =>
    refine .alive story ⟨?_, ?_, h.state, h.outstanding, ?_⟩
    · rw [deeds_handled, h.deeds, deeds_write]
      simp
    · rw [taken_handled, ← taken_append, ht]
    · apply h.queue.append
      rcases hs with hs | hs | ⟨_, ho⟩
      · obtain ⟨a, rfl⟩ := h.of_attesting hs
        simp [Story.outstanding]
      · obtain ⟨g, rfl⟩ := h.of_greeting hs
        simp [Story.outstanding]
      · rwa [← h.outstanding]
  | dispatches hs ho hdis =>
    obtain ⟨o, served, current, rfl⟩ := h.of_established hs
    have hcur := h.outstanding
    rw [ho] at hcur
    obtain rfl : current = none := by simpa [Story.outstanding] using hcur.symm
    have := told_dispatch (d := { d with queue := d.queue ++ [w] })
      (log ++ [.handled (.write w)]) o served
      (by rw [deeds_append, h.deeds, deeds_write, List.append_nil]) ht hs ho hdis
    simpa [List.append_assoc] using this

/-! ## Replies -/

theorem told_reply {q : UInt64} {r : TransportResult} (h : Alive d log story)
    (ho : d.outstanding = some q) (hs : Driver.Step d (.reply q r) d' actions) :
    Told d' (log ++ .handled (.reply q r) :: actions.map Entry.ofAction) := by
  obtain ⟨w, hw⟩ := h.head ho
  have hst := h.outstanding
  rw [ho] at hst
  have ht : taken (log ++ [.handled (.reply q r)]) = story.served.map (·.write) ++ d.queue := by
    rw [taken_append, h.taken, taken_reply, List.append_nil]
  cases hs with
  | ignores hne => exact absurd ho hne
  | breaks _ hr =>
    have hcode : d.phaseError = story.state.replyError := by
      rw [← h.state]
      unfold Driver.phaseError ChannelState.replyError
      cases d.state <;> rfl
    rw [hcode]
    rw [h.state] at hr
    refine told_break [] h.deeds ht hw rfl (.reply hst.symm hr ?_)
    intro x hx
    exact Option.some.inj ((h.current hx).symm.trans hw)
  | refuses _ hs hv =>
    obtain ⟨a, rfl⟩ := h.of_attesting hs
    obtain rfl : q = a.sequence := Option.some.inj hst
    exact told_break (d := { d with attester := _ }) [.call (.verify _ false)]
      h.deeds ht hw rfl .refused
  | noHandshake _ hs hv hc =>
    obtain ⟨a, rfl⟩ := h.of_attesting hs
    obtain rfl : q = a.sequence := Option.some.inj hst
    exact told_break (d := { d with attester := _, session := _ })
      [.call (.verify _ true), .call (.start (.error _))] h.deeds ht hw rfl .noHandshake
  | @greets _ answer _ message _ _ hs hv hc =>
    obtain ⟨a, rfl⟩ := h.of_attesting hs
    obtain rfl : q = a.sequence := Option.some.inj hst
    refine .alive (.greeting ⟨a, answer, d.nextSequence, message⟩)
      ⟨?_, ?_, rfl, rfl, h.queue⟩
    · rw [deeds_handled, h.deeds, deeds_reply]
      simp [Story.entries, Greeting.entries, Entry.ofAction]
    · rw [taken_handled, ← taken_append, ht]
      rfl
  | notFinished _ hs hf =>
    obtain ⟨g, rfl⟩ := h.of_greeting hs
    obtain rfl : q = g.handshake := Option.some.inj hst
    exact told_break (d := { d with session := _ }) [.call (.finish _ (.error _))]
      h.deeds ht hw rfl .notFinished
  | @establishes _ response s _ actions _ hs hf hdis =>
    obtain ⟨g, rfl⟩ := h.of_greeting hs
    obtain rfl : q = g.handshake := Option.some.inj hst
    have := told_dispatch (d := { d with session := s, state := .established, outstanding := none })
      (log ++ [.handled (.reply g.handshake (.ok (.message (.handshake response)))),
        .called (.finish response (.ok ())), .published .established]) ⟨g, response⟩ []
      (by rw [deeds_append, h.deeds]; simp [Story.entries, Opening.entries, deeds, Entry.isDeed])
      (by rw [taken_append, h.taken]; simp [Story.served, taken, Entry.taken?]) rfl rfl hdis
    simpa [List.append_assoc, Entry.ofAction] using this
  | notOpened _ hs hd =>
    obtain ⟨o, served, current, rfl⟩ := h.of_established hs
    obtain ⟨x, rfl, rfl⟩ := Option.map_eq_some_iff.mp hst.symm
    have hx : d.queue.head? = some x.write := h.queue
    exact told_break (d := { d with session := _ }) [.call (.decrypt _ (.error _))]
      h.deeds ht hx rfl .notOpened
  | @opens _ answer opened s _ actions _ hs hd hdis =>
    obtain ⟨o, served, current, rfl⟩ := h.of_established hs
    obtain ⟨x, rfl, rfl⟩ := Option.map_eq_some_iff.mp hst.symm
    obtain ⟨ws, hq⟩ : ∃ ws, d.queue = x.write :: ws := List.head?_eq_some_iff.mp h.queue
    have := told_dispatch
      (d := { d with session := s, queue := d.queue.drop 1, outstanding := none })
      (log ++ [.handled (.reply x.sequence (.ok (.message (.encrypted answer)))),
        .called (.decrypt answer (.ok opened)), .resolved x.write (.ok opened)]) o
      (served ++ [⟨x, answer, opened⟩])
      (by rw [deeds_append, h.deeds]; simp [Story.entries, Exchange.entries, deeds, Entry.isDeed])
      (by rw [taken_append, h.taken, hq]; simp [Story.served, taken, Entry.taken?]) hs rfl hdis
    simpa [List.append_assoc, Entry.ofAction, hq] using this

/-! ## After a failure -/

theorem Failed.late {story : Story} {code : ChannelError} {dropped late : List Pending}
    (h : Failed log story code dropped late) (w : Pending) :
    Failed (log ++ [.handled (.write w), .resolved w (.error .genericError)]) story code dropped
      (late ++ [w]) := by
  obtain ⟨before, after, v, cause, rfl, hb, ht, hv, hbr, hd, hl⟩ := h
  refine ⟨before, after ++ [.handled (.write w), .resolved w (.error .genericError)], v, cause,
    by simp, hb, ht, hv, hbr, ?_, ?_⟩
  · rw [deeds_append, hd]
    simp [deeds, Entry.isDeed]
  · rw [taken_append, hl]
    rfl

/-- **Every step goes on with the story.** -/
theorem told_step (ht : Told d log) (hs : Driver.Step d e d' actions)
    (timely : ∀ q r, e = .reply q r → d.outstanding = some q) :
    Told d' (log ++ .handled e :: actions.map Entry.ofAction) := by
  -- After a failure no send is outstanding, so no reply is timely.
  match ht, e with
  | .alive _ h, .write w => exact told_write h hs
  | .alive _ h, .reply q r => exact told_reply h (timely q r rfl) hs
  | .failed h hst ho hq, .reply q r => simp [ho] at timely
  | .failed h hst ho hq, .write w =>
    cases hs with
    | rejects _ => exact .failed (h.late w) hst ho hq
    | _ => simp_all

end

end SealedLink
