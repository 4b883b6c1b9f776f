import SealedLink.Proofs.Channel.Live

/-!
# Discipline of the transport

A channel makes one send at a time, in the order of the protocol, and never gets a reply that it
does not wait for.
-/

namespace SealedLink

/-! ## Taking turns -/

/-- Whose turn it is: the channel's, that of the transport with a send, or nobody's any more. -/
inductive Turn where
  | idle
  | waits (sequence : UInt64)
  | ended
  deriving DecidableEq

namespace Turn

/-- How an entry passes the turn on. It may not come if there is no result. -/
def pass (t : Turn) : Entry → Option Turn
  | .sent q _ => if t = idle then some (waits q) else none
  | .handled (.reply q _) => if t = waits q then some idle else none
  | .published .permanentFailure => if t = idle then some ended else none
  | _ => some t

def awaited : Turn → List UInt64
  | waits q => [q]
  | idle | ended => []

def ofWaiting : Option UInt64 → Turn
  | some q => waits q
  | none => idle

theorem pass_awaited {t u : Turn} {e : Entry} (h : t.pass e = some u) :
    t.awaited ++ sentIn [e] = answeredIn [e] ++ u.awaited := by
  unfold pass at h
  split at h
  · split at h <;> cases h
    rename_i ht
    rw [ht]
    rfl
  · split at h <;> cases h
    rename_i ht
    rw [ht]
    rfl
  · split at h <;> cases h
    rename_i ht
    rw [ht]
    rfl
  · rename_i hsent hreply _
    obtain rfl := Option.some.inj h
    have hs : sentIn [e] = [] := by
      cases e <;> first | rfl | exact absurd rfl (hsent _ _)
    have hr : answeredIn [e] = [] := by
      rcases e with _ | ⟨_ | _⟩ | _ | _ | _ | _ <;> first | rfl | exact absurd rfl (hreply _ _)
    rw [hs, hr, List.append_nil, List.nil_append]

theorem foldlM_pass_awaited {log : List Entry} {t u : Turn} (h : log.foldlM pass t = some u) :
    t.awaited ++ sentIn log = answeredIn log ++ u.awaited := by
  induction log generalizing t with
  | nil =>
    obtain rfl : t = u := by simpa using h
    simp [sentIn, answeredIn]
  | cons e log ih =>
    obtain ⟨v, hv, hlog⟩ := Option.bind_eq_some_iff.mp h
    calc t.awaited ++ sentIn (e :: log)
        = t.awaited ++ sentIn [e] ++ sentIn log := by
          rw [List.append_assoc, ← sentIn_append, List.singleton_append]
      _ = answeredIn [e] ++ (v.awaited ++ sentIn log) := by
          rw [pass_awaited hv, List.append_assoc]
      _ = answeredIn (e :: log) ++ u.awaited := by
          rw [ih hlog, ← List.append_assoc, ← answeredIn_append, List.singleton_append]

theorem pass_ended {u : Turn} {e : Entry} (h : ended.pass e = some u) :
    u = ended ∧ sentIn [e] = [] := by
  unfold pass at h
  split at h
  · simp at h
  · simp at h
  · simp at h
  · rename_i hsent _ _
    refine ⟨(Option.some.inj h).symm, ?_⟩
    cases e <;> first | rfl | exact absurd rfl (hsent _ _)

theorem foldlM_pass_ended {log : List Entry} {u : Turn} (h : log.foldlM pass ended = some u) :
    sentIn log = [] := by
  induction log with
  | nil => rfl
  | cons e log ih =>
    obtain ⟨v, hv, hlog⟩ := Option.bind_eq_some_iff.mp h
    obtain ⟨rfl, he⟩ := pass_ended hv
    rw [← List.singleton_append, sentIn_append, he, ih hlog]
    rfl

theorem foldlM_pass_split {before after : List Entry} {e : Entry} {t u : Turn}
    (h : (before ++ e :: after).foldlM pass t = some u) :
    ∃ v v', before.foldlM pass t = some v ∧ v.pass e = some v' ∧ after.foldlM pass v' = some u := by
  rw [List.foldlM_append] at h
  obtain ⟨v, hv, h⟩ := Option.bind_eq_some_iff.mp h
  obtain ⟨v', hv', h⟩ := Option.bind_eq_some_iff.mp h
  exact ⟨v, v', hv, hv', h⟩

theorem foldlM_pass_filter (p : Entry → Bool) (hp : ∀ e t, p e = false → pass t e = some t)
    (log : List Entry) (t : Turn) : (log.filter p).foldlM pass t = log.foldlM pass t := by
  rw [List.foldlM_filter]
  congr 1
  funext t e
  split
  · rfl
  · exact (hp e t (by simpa using ‹¬p e = true›)).symm

theorem foldlM_pass_deeds (log : List Entry) (t : Turn) :
    (deeds log).foldlM pass t = log.foldlM pass t := by
  apply foldlM_pass_filter
  intro e t he
  rcases e with _ | ⟨_ | _⟩ | _ | _ | _ | _ <;> first | rfl | cases he

theorem foldlM_pass_course {τ σ α : Type} (c : Channel τ σ α) (t : Turn) :
    c.course.foldlM pass t = c.history.foldlM pass t := by
  apply foldlM_pass_filter
  intro e t he
  rcases e with _ | ⟨_ | _⟩ | _ | _ | _ | _ <;> first | rfl | cases he

/-! ### The turns of a story -/

theorem foldlM_pass_served (served : List Exchange) :
    (served.flatMap Exchange.entries).foldlM pass idle = some idle := by
  induction served with
  | nil => rfl
  | cons x served ih =>
    have hx : x.entries.foldlM pass idle = some idle := by
      simp [Exchange.entries, Sending.entries, pass]
    rw [List.flatMap_cons, List.foldlM_append, hx]
    exact ih

theorem foldlM_pass_story (story : Story) :
    story.entries.foldlM pass idle = some (ofWaiting story.outstanding) := by
  have hopening (o : Opening) : o.entries.foldlM pass idle = some idle := by
    simp [Opening.entries, Greeting.entries, Attestation.entries, pass]
  cases story with
  | fresh => rfl
  | attesting a => simp [Story.entries, Story.outstanding, Attestation.entries, pass, ofWaiting]
  | greeting g =>
    simp [Story.entries, Story.outstanding, Greeting.entries, Attestation.entries, pass, ofWaiting]
  | traffic o served current =>
    rw [Story.entries, List.foldlM_append, List.foldlM_append, hopening]
    simp only [Option.bind_eq_bind, Option.bind_some, foldlM_pass_served]
    cases current with
    | none => rfl
    | some x => simp [Sending.entries, Story.outstanding, pass, ofWaiting]

theorem foldlM_pass_breaks {story : Story} {w : Pending} {cause : List Entry} {code : ChannelError}
    (h : Breaks story w cause code) :
    cause.foldlM pass (ofWaiting story.outstanding) = some idle := by
  cases h with
  | reply hq => simp [pass, hq, ofWaiting]
  | _ => simp [pass, Story.outstanding, ofWaiting]

theorem foldlM_pass_resolved (ws : List Pending) (outcome : Outcome) (t : Turn) :
    (ws.map (.resolved · outcome)).foldlM pass t = some t := by
  induction ws with
  | nil => rfl
  | cons w ws ih => exact ih

theorem foldlM_pass_failed {log : List Entry} {story : Story} {code : ChannelError}
    {dropped late : List Pending} (h : Failed log story code dropped late) :
    log.foldlM pass idle = some ended := by
  obtain ⟨w, cause, hdeeds, -, -, hbreak⟩ := h.whole
  have hafter : (aftermath dropped code late).foldlM pass idle = some ended := by
    have hshown : pass idle (.published .permanentFailure) = some ended := rfl
    rw [aftermath, List.foldlM_cons, hshown, Option.bind_eq_bind, Option.bind_some,
      List.foldlM_append, foldlM_pass_resolved]
    exact foldlM_pass_resolved late _ ended
  rw [← foldlM_pass_deeds, hdeeds, List.foldlM_append, foldlM_pass_story, Option.bind_eq_bind,
    Option.bind_some, List.foldlM_append, foldlM_pass_breaks hbreak]
  exact hafter

theorem foldlM_pass_told {σ α : Type} {d : Driver σ α} {log : List Entry} (h : Told d log) :
    ∃ t, log.foldlM pass idle = some t ∧ t.awaited = d.outstanding.toList := by
  cases h with
  | alive story h =>
    refine ⟨ofWaiting d.outstanding, ?_, ?_⟩
    · rw [← foldlM_pass_deeds, h.deeds, h.outstanding]
      exact foldlM_pass_story story
    · cases d.outstanding <;> rfl
  | failed h _ ho _ => exact ⟨ended, foldlM_pass_failed h, by rw [ho]; rfl⟩

end Turn

/-! ## The order of the requests -/

/-- A start of an attestation, a handshake, and encrypted requests. -/
def InOrder : List Request → Prop
  | [] => True
  | [.attest _] => True
  | .attest _ :: .handshake _ :: rest => ∀ r ∈ rest, r.kind = .encrypted
  | _ => False

theorem requestsIn_served (served : List Exchange) :
    requestsIn (served.flatMap Exchange.entries) = served.map (.encrypted ·.sealed) :=
  Reading.served ⟨rfl, requestsIn_append⟩ (fun _ => rfl) served

theorem requestsIn_story (story : Story) : InOrder (requestsIn story.entries) := by
  match story with
  | .fresh => trivial
  | .attesting _ => trivial
  | .greeting _ => exact fun _ h => nomatch h
  | .traffic o served current =>
    have hopening : requestsIn o.entries = [.attest o.evidence, .handshake o.message] := rfl
    rw [Story.entries, requestsIn_append, requestsIn_append, hopening, requestsIn_served]
    intro r hr
    rcases List.mem_append.mp hr with hr | hr
    · obtain ⟨x, -, rfl⟩ := List.mem_map.mp hr
      rfl
    · cases current with
      | none => cases hr
      | some x =>
        obtain rfl : r = .encrypted x.sealed := List.mem_singleton.mp hr
        rfl

theorem requestsIn_breaks {story : Story} {w : Pending} {cause : List Entry} {code : ChannelError}
    (h : Breaks story w cause code) : requestsIn cause = [] := by
  cases h <;> rfl

theorem requestsIn_told {σ α : Type} {d : Driver σ α} {log : List Entry} (h : Told d log) :
    InOrder (requestsIn log) := by
  cases h with
  | alive story h =>
    rw [← requestsIn_deeds, h.deeds]
    exact requestsIn_story story
  | @failed story _ _ _ h =>
    obtain ⟨w, cause, hdeeds, -, -, hbreak⟩ := h.whole
    rw [← requestsIn_deeds, hdeeds, requestsIn_append, requestsIn_append, requestsIn_breaks hbreak,
      requestsIn_aftermath, List.append_nil, List.append_nil]
    exact requestsIn_story story

/-! ## The theorem -/

namespace Channel

variable {τ σ α : Type}

theorem sends_eq (c : Channel τ σ α) : c.sends = requestsIn c.course := by
  simp only [sends, requestsIn, course, history, List.filterMap_filter]
  congr 1
  funext e
  cases e <;> rfl

theorem length_sends (c : Channel τ σ α) : c.sends.length = (sentIn c.course).length := by
  rw [sends_eq]
  simp only [requestsIn, sentIn, List.length_filterMap_eq_countP]
  congr 1
  funext e
  cases e <;> rfl

theorem sentIn_course (c : Channel τ σ α) : sentIn c.course = sentIn c.history := by
  simp only [sentIn, course, List.filterMap_filter]
  congr 1
  funext e
  cases e <;> rfl

/-- What a channel and its driver keep to with a transport. -/
structure Disciplined [Accounts τ] (c : Channel τ σ α) (d : Driver σ α) : Prop where
  order : InOrder c.sends
  /-- Sends are numbered from 0 on, and from 0 again after 2 ^ 64 of them. -/
  numbers : sentIn c.history = (List.range c.sends.length).map UInt64.ofNat
  /-- A send is made when the replies to all sends before it were handled. -/
  turns : ∀ before q request after, c.history = before ++ .sent q request :: after →
    answeredIn before = sentIn before
  /-- A reply that is handled is the one to the last send. -/
  timely : ∀ before q result after, c.history = before ++ .handled (.reply q result) :: after →
    sentIn before = answeredIn before ++ [q]
  /-- At most one callback or reply is about, and it belongs to the send that the driver waits for. -/
  alone : c.due.length ≤ 1
  outstanding : ∀ q ∈ c.due, d.outstanding = some q
  /-- The reply that is handled next is not a stale one. -/
  fresh : ∀ q result rest, c.events = .reply q result :: rest → d.outstanding = some q
  silent : ∀ before after, c.history = before ++ .published .permanentFailure :: after →
    sentIn after = []

variable [CipherSession σ] [Attester α] {s₀ : σ} {a₀ : α}

theorem disciplined_of_live [Accounts τ] {c : Channel τ σ α} {d : Driver σ α}
    (h : Live s₀ a₀ c d) : Disciplined c d := by
  obtain ⟨t, hpass, hawaited⟩ := Turn.foldlM_pass_told h.told
  rw [Turn.foldlM_pass_course] at hpass
  refine ⟨?_, ?_, ?_, ?_, ?_, ?_, ?_, ?_⟩
  · rw [sends_eq]
    exact requestsIn_told h.told
  · obtain ⟨k, -, hk⟩ := h.sends
    have hlength : c.sends.length = k := by
      rw [length_sends, hk, List.length_map, List.length_range]
    rw [← sentIn_course, hlength, hk]
  · intro before q request after hsplit
    rw [hsplit] at hpass
    obtain ⟨v, v', hv, hv', -⟩ := Turn.foldlM_pass_split hpass
    have hidle : v = .idle := by
      by_contra hne
      simp [Turn.pass, hne] at hv'
    have := Turn.foldlM_pass_awaited hv
    simpa [Turn.awaited, hidle] using this.symm
  · intro before q result after hsplit
    rw [hsplit] at hpass
    obtain ⟨v, v', hv, hv', -⟩ := Turn.foldlM_pass_split hpass
    have hwaits : v = .waits q := by
      by_contra hne
      simp [Turn.pass, hne] at hv'
    have := Turn.foldlM_pass_awaited hv
    simpa [Turn.awaited, hwaits] using this
  · refine Nat.le_trans h.due.length_le ?_
    cases d.outstanding <;> simp
  · intro q hq
    simpa using h.due.subset hq
  · intro q result rest he
    exact (due_of_reply h he).1
  · intro before after hsplit
    rw [hsplit] at hpass
    obtain ⟨v, v', -, hv', hafter⟩ := Turn.foldlM_pass_split hpass
    have hended : v' = .ended := by
      unfold Turn.pass at hv'
      split at hv' <;> simp_all
    rw [hended] at hafter
    exact Turn.foldlM_pass_ended hafter

/-- **Every run keeps the discipline of the transport.** -/
theorem disciplined_after [Transport τ] (t : τ) (s₀ : σ) (a₀ : α) (moves : List Move) :
    ∃ d, ((new ⟨t, []⟩ s₀ a₀).after moves).driver = some d ∧
      Disciplined ((new ⟨t, []⟩ s₀ a₀).after moves) d := by
  obtain ⟨d, h⟩ := live_after t s₀ a₀ moves
  exact ⟨d, h.driver, disciplined_of_live h⟩

end Channel

end SealedLink
