import SealedLink.Proofs.Traffic.Exchanges
import SealedLink.Proofs.Traffic.Relay

/-!
# Integrity against an active network

A network that delivers what it likes to a client and a service cannot make the application see
anything but the client's requests in order, nor the client anything but their answers in order.
-/

namespace SealedLink

variable {S : CipherSuite} {τ α η : Type}

namespace Network

/-- What the network cannot change. -/
structure Intact (n : Network S τ α η) : Prop where
  handled : n.service.seen.map (·.1) <+: n.client.submitted.map (·.request)
  resolved : n.client.successes.map (·.1) <+: n.client.submitted
  answered : (n.client.successes.map fun x => (x.1.request, x.2)) <+: n.service.seen
  behind : n.client.successes.length ≤ n.service.seen.length ∧
    n.service.seen.length ≤ n.client.successes.length + 1

/-- A message that carries what the client sealed as number `k`, counted from 0. -/
def RequestAt (n : Network S τ α η) (k : Nat) (r : Request) : Prop :=
  ∃ u, n.notes.sealed[k]? = some u ∧ r = .encrypted u.sealed

/-- An answer that carries what the service sealed as number `k`, counted from 0. -/
def ReplyAt (n : Network S τ α η) (k : Nat) (result : TransportResult) : Prop :=
  ∃ u, n.service.sealed[k]? = some u ∧ result = .ok (.message (.encrypted u.sealed))

end Network

/-! ## Lanes -/

theorem Notes.Sound.lanes {n : Notes S} {cs : List Call} {keys : TrafficKeys} (h : n.Sound cs)
    (hk : ∀ k, n.keys = some k → k = keys) :
    n.sealed = uses keys.initiatorToResponder (sealings cs) ∧
      n.opened = uses keys.responderToInitiator (openings cs) ∧
      Lane (Seals S keys.initiatorToResponder) (sealings cs) ∧
      Lane (Opens S keys.responderToInitiator) (openings cs) := by
  cases h with
  | silent h =>
    rw [h.sealings, h.openings]
    exact ⟨h.sealed, h.opened, lane_nil _, lane_nil _⟩
  | keyed k h =>
    obtain rfl := hk k h.agreed
    exact ⟨h.sealed, h.opened, h.seals, h.opens⟩

theorem Visit.Sound.lanes {v : Visit S η} {keys : TrafficKeys} (h : v.Sound)
    (hk : ∀ k, v.keys = some k → k = keys) :
    ∃ inbound outbound, v.opened = uses keys.initiatorToResponder inbound ∧
      v.sealed = uses keys.responderToInitiator outbound ∧
      Lane (Opens S keys.initiatorToResponder) inbound ∧
      Lane (Seals S keys.responderToInitiator) outbound ∧
      inbound.map (·.plain) = v.seen.map (·.1) ∧ outbound.map (·.plain) <+: v.seen.map (·.2) := by
  cases h with
  | silent h =>
    refine ⟨[], [], h.opened, h.sealed, lane_nil _, lane_nil _, ?_, ?_⟩ <;> simp [h.seen]
  | keyed k inbound outbound h =>
    obtain rfl := hk k h.agreed
    exact ⟨inbound, outbound, h.opened, h.sealed, h.opens, h.seals, h.asked, h.answered⟩

theorem prefix_of_projections {β γ : Type} {l m : List (β × γ)}
    (hfst : l.map (·.1) <+: m.map (·.1)) (hsnd : l.map (·.2) <+: m.map (·.2)) : l <+: m := by
  rw [List.prefix_iff_getElem?] at hfst hsnd ⊢
  intro i hi
  have h1 := hfst i (by simpa using hi)
  have h2 := hsnd i (by simpa using hi)
  simp only [List.getElem?_map, List.getElem_map, Option.map_eq_some_iff] at h1 h2
  obtain ⟨x, hx, hx1⟩ := h1
  obtain ⟨y, hy, hy2⟩ := h2
  obtain rfl : x = y := Option.some.inj (hx.symm.trans hy)
  rw [hx, Prod.ext hx1 hy2]

namespace Network

/-- What goes on on both sides, with the lanes of both directions. -/
structure Joined (keys : TrafficKeys) (n : Network S τ α η) (served : List Exchange)
    (current : Option Sending) (inbound outbound : List Packet) : Prop where
  exchanged : Exchanged n.client.course served current
  sealed : n.notes.sealed = uses keys.initiatorToResponder (sealings (calls n.client.course))
  opened : n.service.opened = uses keys.initiatorToResponder inbound
  replied : n.service.sealed = uses keys.responderToInitiator outbound
  requests : inbound <+: sealings (calls n.client.course)
  replies : openings (calls n.client.course) <+: outbound
  asked : inbound.map (·.plain) = n.service.seen.map (·.1)
  answered : outbound.map (·.plain) <+: n.service.seen.map (·.2)
  submitted : SealedLink.taken n.client.course <+: n.client.submitted

variable {n : Network S τ α η} {keys : TrafficKeys}
variable {served : List Exchange} {current : Option Sending} {inbound outbound : List Packet}

theorem requestAt_of_uses {key : Bytes} {lane : List Packet} {k : Nat} {p : Packet}
    (h : n.notes.sealed = uses key lane) (hp : lane[k]? = some p) :
    RequestAt n k (.encrypted p.sealed) := by
  refine ⟨⟨key, .ofNat k, p.sealed⟩, ?_, rfl⟩
  rw [h, uses_getElem?, hp]
  rfl

theorem replyAt_of_uses {key : Bytes} {lane : List Packet} {k : Nat} {p : Packet}
    (h : n.service.sealed = uses key lane) (hp : lane[k]? = some p) :
    ReplyAt n k (.ok (.message (.encrypted p.sealed))) := by
  refine ⟨⟨key, .ofNat k, p.sealed⟩, ?_, rfl⟩
  rw [h, uses_getElem?, hp]
  rfl

theorem intact_of_joined (h : Joined keys n served current inbound outbound) : Intact n := by
  have hsuccesses : n.client.successes = served.map fun x => (x.write, x.opened) := by
    rw [Channel.successes_eq, h.exchanged.successes]
  have htaken := h.exchanged.taken.trans h.submitted
  have hrequests : (sealings (calls n.client.course)).map (·.plain) =
      (served.map (·.write) ++ current.toList.map (·.write)).map (·.request) := by
    rw [h.exchanged.sealings]
    simp [Function.comp_def, Sending.packet]
  have hhandled : n.service.seen.map (·.1) <+: n.client.submitted.map (·.request) := by
    rw [← h.asked]
    refine (h.requests.map (·.plain)).trans ?_
    rw [hrequests]
    exact htaken.map (·.request)
  have hresolved : served.map (·.write) <+: n.client.submitted :=
    (List.prefix_append ..).trans htaken
  have hvalues : served.map (·.opened) <+: n.service.seen.map (·.2) := by
    have : (openings (calls n.client.course)).map (·.plain) = served.map (·.opened) := by
      rw [h.exchanged.openings]
      simp [Function.comp_def, Exchange.reply]
    rw [← this]
    exact (h.replies.map (·.plain)).trans h.answered
  have hseen : inbound.length = n.service.seen.length := by
    have := congrArg List.length h.asked
    rwa [List.length_map, List.length_map] at this
  have hle : served.length ≤ n.service.seen.length := by
    have := hvalues.length_le
    rwa [List.length_map, List.length_map] at this
  refine ⟨hhandled, ?_, ?_, ?_, ?_⟩
  · rw [hsuccesses, List.map_map]
    exact hresolved
  · rw [hsuccesses]
    apply prefix_of_projections
    · refine List.prefix_of_prefix_length_le ?_ hhandled (by simpa using hle)
      have := hresolved.map (·.request)
      simpa [Function.comp_def] using this
    · simpa [Function.comp_def] using hvalues
  · rw [hsuccesses, List.length_map]
    exact hle
  · -- The client seals one request more than it has answers for at most.
    have hone := h.requests.length_le
    rw [h.exchanged.sealings, hseen] at hone
    have hcurrent : current.toList.length ≤ 1 := by cases current <;> simp
    rw [hsuccesses]
    simp only [List.length_append, List.length_map] at hone ⊢
    omega

/-! ## Runs -/

variable [Transport τ] [Attester α]

/-- What holds of a network all the time, trusted or not. -/
structure Coherent (n : Network S τ α η) (a₀ : α) (d : Driver (ClientSession S) α) : Prop where
  fresh : n.origin.cipher? = none
  live : Channel.Live n.origin a₀ n.client d
  service : n.service.Sound

variable {a₀ : α} {d : Driver (ClientSession S) α}

theorem joined_of_coherent (hS : S.Inverts)
    (hkeys : keys.initiatorToResponder ≠ keys.responderToInitiator) (h : Coherent n a₀ d)
    (ht : Trusted keys n) :
    ∃ served current inbound outbound, Joined keys n served current inbound outbound := by
  obtain ⟨served, current, hex⟩ := exchanged_of_told h.live.told
  obtain ⟨hsealed, hopened, hseals, hopens⟩ :=
    (Notes.sound_made h.fresh h.live.made).1.lanes ht.client
  obtain ⟨inbound, outbound, hin, hout, hinlane, houtlane, hasked, hanswered⟩ :=
    h.service.lanes ht.service
  have hauthentic := ht.authentic
  rw [notes, hopened, hsealed, hin, hout] at hauthentic
  refine ⟨served, current, inbound, outbound, hex, hsealed, hin, hout, ?_, ?_, hasked, hanswered, ?_⟩
  · refine lane_prefix hS hinlane hseals fun u hu => ?_
    rcases List.mem_append.mp (hauthentic u (List.mem_append_right _ hu)) with h | h
    · exact h
    · exact absurd ((key_of_mem_uses hu).symm.trans (key_of_mem_uses h)) hkeys
  · refine lane_prefix hS hopens houtlane fun u hu => ?_
    rcases List.mem_append.mp (hauthentic u (List.mem_append_left _ hu)) with h | h
    · exact absurd ((key_of_mem_uses h).symm.trans (key_of_mem_uses hu)) hkeys
    · exact h
  · rw [h.live.fifo]
    exact List.prefix_append ..

theorem coherent_fresh (t : τ) (entropy : Entropy) (attester : α) (evidence : Bytes) (application : η)
    (serviceEntropy : Entropy) : Coherent (S := S)
      (fresh t entropy attester evidence application serviceEntropy) attester
      { session := { entropy := entropy }, attester := attester } where
  fresh := rfl
  live := Channel.live_new _ rfl _ attester
  service := .silent ⟨rfl, rfl, rfl, rfl, by simp [fresh], rfl⟩

variable [Application η]

theorem coherent_act (h : Coherent n a₀ d) (a : Act) : ∃ d', Coherent (n.act a) a₀ d' := by
  cases a with
  | client m =>
    obtain ⟨d', h'⟩ := Channel.live_move h.live m
    exact ⟨d', h.fresh, h', h.service⟩
  | deliver r => exact ⟨d, h.fresh, h.live, Visit.sound_deliver h.service r⟩

theorem coherent_after (h : Coherent n a₀ d) (acts : List Act) :
    ∃ d', Coherent (n.after acts) a₀ d' := by
  induction acts generalizing n d with
  | nil => exact ⟨d, h⟩
  | cons a acts ih =>
    obtain ⟨d', h'⟩ := coherent_act h a
    exact ih h'

/-! ## What is not genuine -/

theorem deliver_established {v : Visit S η} (hs : v.session.phase = .established) (r : Request) :
    (∃ u, r = .encrypted u.sealed ∧ (v.deliver r).opened = v.opened ++ [u]) ∨
    ((v.deliver r).session.phase = .closed ∧ (v.deliver r).seen = v.seen) := by
  have hh := v.session.handle_handled r
  have hdeliver : (v.deliver r).session = (v.session.handle r).2 := rfl
  have hseen : (v.deliver r).seen = (v.session.handle r).2.application.seen := rfl
  have hopened : (v.deliver r).opened = v.opened ++ Visit.opening v.session r := rfl
  rw [hdeliver, hseen, hopened]
  generalize v.session.handle r = step at hh ⊢
  obtain ⟨result, session⟩ := step
  cases hh with
  | attests h | greets h | noHandshake h => cases hs.symm.trans h
  | noCipher | notOpened | unexpected => exact .inr ⟨rfl, rfl⟩
  | @serves c _ _ sealed _ _ _ _ _ hc hd | @notSealed c _ _ sealed _ _ _ _ _ hc hd =>
    exact .inl ⟨⟨c.receiveKey, c.received, sealed⟩, rfl, by simp [Visit.opening, hs, hc, hd]⟩

theorem deliver_closed {v : Visit S η} (hs : v.session.phase = .closed) (r : Request) :
    (v.deliver r).session.phase = .closed ∧ (v.deliver r).seen = v.seen := by
  have hh := v.session.handle_handled r
  have hdeliver : (v.deliver r).session = (v.session.handle r).2 := rfl
  have hseen : (v.deliver r).seen = (v.session.handle r).2.application.seen := rfl
  rw [hdeliver, hseen]
  generalize v.session.handle r = step at hh ⊢
  obtain ⟨result, session⟩ := step
  cases hh with
  | unexpected => exact ⟨rfl, rfl⟩
  | attests h | greets h | noHandshake h | noCipher h | notOpened h | serves h | notSealed h =>
    cases hs.symm.trans h

theorem closed_after (hs : n.service.session.phase = .closed) (acts : List Act) :
    (n.after acts).service.session.phase = .closed ∧
      (n.after acts).service.seen = n.service.seen := by
  induction acts generalizing n with
  | nil => exact ⟨hs, rfl⟩
  | cons a acts ih =>
    cases a with
    | client m => exact ih (n := n.act (.client m)) hs
    | deliver r =>
      obtain ⟨hclosed, hseen⟩ := deliver_closed hs r
      obtain ⟨hphase, hrest⟩ := ih (n := n.act (.deliver r)) hclosed
      exact ⟨hphase, hrest.trans hseen⟩

theorem reply_established {e : Event} {d' : Driver (ClientSession S) α} {actions : List Action}
    {q : UInt64} {result : TransportResult} (h : Driver.Step d e d' actions)
    (he : e = .reply q result) (ho : d.outstanding = some q) (hs : d.state = .established) :
    (∃ plain sealed, result = .ok (.message (.encrypted sealed)) ∧
      openings (calls (actions.map Entry.ofAction)) = [⟨plain, sealed⟩]) ∨
    (d'.state = .permanentFailure ∧ successes (actions.map Entry.ofAction) = []) := by
  have hfail (queue : List Pending) (code : ChannelError) :
      successes ((Driver.failActions queue code).map Entry.ofAction) = [] := by
    simp [successes, outcomesOf, Driver.failActions, Entry.ofAction, Entry.outcome?, success?]
  cases h with
  | ignores hne =>
    cases he
    exact absurd ho hne
  | breaks => exact .inr ⟨rfl, hfail _ _⟩
  | notOpened => exact .inr ⟨rfl, hfail _ _⟩
  | @opens q' sealed plain s _ rest _ _ _ hdis =>
    cases he
    refine .inl ⟨plain, sealed, rfl, ?_⟩
    have hnone : openings (calls (rest.map Entry.ofAction)) = [] := by
      cases hdis with
      | idle => rfl
      | sends => rfl
      | fails =>
        simp only [List.map_cons, Entry.ofAction, calls_call, calls_failActions]
        rfl
    rw [List.map_cons, List.map_append, Entry.ofAction, calls_call, calls_append, calls_resolve,
      List.nil_append, ← List.singleton_append, openings_append, hnone]
    rfl
  | refuses _ h | noHandshake _ h | greets _ h | notFinished _ h | establishes _ h =>
    cases hs.symm.trans h
  | rejects | noEvidence | attests | queues | dispatches => cases he

theorem failed_step {e : Event} {d' : Driver (ClientSession S) α} {actions : List Action}
    (h : Driver.Step d e d' actions) (hs : d.state = .permanentFailure) :
    d'.state = .permanentFailure ∧ successes (.handled e :: actions.map Entry.ofAction) = [] := by
  cases h with
  | rejects => exact ⟨hs, rfl⟩
  | ignores => exact ⟨hs, rfl⟩
  | breaks =>
    refine ⟨rfl, ?_⟩
    simp [successes, outcomesOf, Driver.failActions, Entry.ofAction, Entry.outcome?, success?,
      List.filterMap_cons]
  | queues h =>
    rcases h with h | h | ⟨h, -⟩ <;> cases hs.symm.trans h
  | noEvidence h | attests h | dispatches h => cases hs.symm.trans h
  | refuses _ h | noHandshake _ h | greets _ h | notFinished _ h | establishes _ h
  | notOpened _ h | opens _ h => cases hs.symm.trans h

theorem failed_after (h : Coherent n a₀ d) (hs : d.state = .permanentFailure) (acts : List Act) :
    ∃ d', Coherent (n.after acts) a₀ d' ∧ d'.state = .permanentFailure ∧
      (n.after acts).client.successes = n.client.successes := by
  induction acts generalizing n d with
  | nil => exact ⟨d, h, hs, rfl⟩
  | cons a acts ih =>
    cases a with
    | deliver r =>
      exact ih (n := n.act (.deliver r)) ⟨h.fresh, h.live, Visit.sound_deliver h.service r⟩ hs
    | client m =>
      rcases Channel.move_cases h.live m with ⟨hlive, hcourse⟩ | ⟨e, _, -, -, hlive, hcourse⟩
      · obtain ⟨d', h', hs', hsucc⟩ := ih (n := n.act (.client m)) ⟨h.fresh, hlive, h.service⟩ hs
        refine ⟨d', h', hs', hsucc.trans (Channel.successes_of_course ?_ (rfl : successes [] = []))⟩
        rw [List.append_nil]
        exact hcourse
      · obtain ⟨hfailed, hnone⟩ := failed_step (d.handle_step e) hs
        obtain ⟨d', h', hs', hsucc⟩ :=
          ih (n := n.act (.client m)) ⟨h.fresh, hlive, h.service⟩ hfailed
        exact ⟨d', h', hs', hsucc.trans (Channel.successes_of_course hcourse hnone)⟩

/-! ## The theorem -/

theorem opened_after (n : Network S τ α η) (acts : List Act) :
    n.service.opened <+: (n.after acts).service.opened := by
  induction acts generalizing n with
  | nil => exact List.prefix_refl _
  | cons a acts ih =>
    refine List.IsPrefix.trans ?_ (ih (n.act a))
    cases a with
    | client m => exact List.prefix_refl _
    | deliver r => exact List.prefix_append ..

theorem course_after (h : Coherent n a₀ d) (acts : List Act) :
    n.client.course <+: (n.after acts).client.course := by
  induction acts generalizing n d with
  | nil => exact List.prefix_refl _
  | cons a acts ih =>
    cases a with
    | deliver r => exact ih (n := n.act (.deliver r)) ⟨h.fresh, h.live, Visit.sound_deliver h.service r⟩
    | client m =>
      rcases Channel.move_cases h.live m with ⟨hlive, hcourse⟩ | ⟨e, _, -, -, hlive, hcourse⟩
      · have := ih (n := n.act (.client m)) ⟨h.fresh, hlive, h.service⟩
        rwa [show (n.act (.client m)).client.course = n.client.course from hcourse] at this
      · refine List.IsPrefix.trans ?_ (ih (n := n.act (.client m)) ⟨h.fresh, hlive, h.service⟩)
        rw [show (n.act (.client m)).client.course = _ from hcourse]
        exact List.prefix_append ..

theorem closed_of_not_next (hS : S.Inverts)
    (hkeys : keys.initiatorToResponder ≠ keys.responderToInitiator) (h : Coherent n a₀ d)
    (hs : n.service.session.phase = .established) {r : Request}
    (acts : List Act) (ht : Trusted keys ((n.act (.deliver r)).after acts))
    (hr : ¬ RequestAt ((n.act (.deliver r)).after acts) n.service.seen.length r) :
    ((n.act (.deliver r)).after acts).service.session.phase = .closed ∧
      ((n.act (.deliver r)).after acts).service.seen = n.service.seen := by
  rcases deliver_established hs r with ⟨u, rfl, hopened⟩ | ⟨hclosed, hseen⟩
  · obtain ⟨_, h'⟩ := coherent_act h (.deliver (.encrypted u.sealed))
    obtain ⟨_, hfinal⟩ := coherent_after h' acts
    obtain ⟨_, _, inbound, _, hj⟩ := joined_of_coherent hS hkeys hfinal ht
    obtain ⟨_, _, _, _, -, hk, -⟩ := h.service.established hs
    -- Had the service opened the message, it would be a packet of the client's in this very place.
    have hlength : n.service.seen.length = n.service.opened.length := by
      have := congrArg List.length hk.asked
      rw [List.length_map, List.length_map] at this
      rw [hk.opened, length_uses, this]
    have hgrown : n.service.opened ++ [u] <+: uses keys.initiatorToResponder inbound := by
      rw [← hopened, ← hj.opened]
      exact opened_after (n.act (.deliver (.encrypted u.sealed))) acts
    have hplace := getElem?_of_prefix hgrown List.getElem?_concat_length
    rw [uses_getElem?] at hplace
    obtain ⟨p, hp, rfl⟩ := Option.map_eq_some_iff.mp hplace
    refine absurd (requestAt_of_uses hj.sealed ?_) hr
    rw [hlength, getElem?_of_prefix hj.requests hp]
  · obtain ⟨hphase, hrest⟩ := closed_after (n := n.act (.deliver r)) hclosed acts
    exact ⟨hphase, hrest.trans hseen⟩

theorem failed_of_not_next (hS : S.Inverts)
    (hkeys : keys.initiatorToResponder ≠ keys.responderToInitiator) (h : Coherent n a₀ d)
    {q : UInt64} {result : TransportResult} {rest : List Event}
    (he : n.client.events = .reply q result :: rest) (hs : d.state = .established)
    (acts : List Act) (ht : Trusted keys ((n.act (.client .process)).after acts))
    (hr : ¬ ReplyAt ((n.act (.client .process)).after acts) n.client.successes.length result) :
    ((n.act (.client .process)).after acts).client.published = .permanentFailure ∧
      ((n.act (.client .process)).after acts).client.successes = n.client.successes := by
  obtain ⟨hlive, hcourse⟩ := Channel.move_process h.live he
  have h' : Coherent (n.act (.client .process)) a₀ (d.handle (.reply q result)).1 :=
    ⟨h.fresh, hlive, h.service⟩
  rcases reply_established (d.handle_step (.reply q result)) rfl (Channel.due_of_reply h.live he).1 hs
    with ⟨plain, sealed, rfl, hopen⟩ | ⟨hfailed, hnone⟩
  · obtain ⟨_, hfinal⟩ := coherent_after h' acts
    obtain ⟨_, _, _, outbound, hj⟩ := joined_of_coherent hS hkeys hfinal ht
    obtain ⟨_, _, hex⟩ := exchanged_of_told h.live.told
    -- The same with the sides exchanged: the client would have opened a packet of the service's.
    have hlength : n.client.successes.length = (openings (calls n.client.course)).length := by
      rw [Channel.successes_eq, hex.successes, hex.openings, List.length_map, List.length_map]
    have hgrown : openings (calls n.client.course) ++ [⟨plain, sealed⟩] <+: outbound := by
      refine List.IsPrefix.trans ?_ hj.replies
      obtain ⟨more, hmore⟩ := course_after h' acts
      have hnow : (n.act (.client .process)).client.course = _ := hcourse
      rw [← hmore, hnow, calls_append, calls_append, openings_append, openings_append, calls_handled,
        hopen]
      exact List.prefix_append ..
    have hplace := getElem?_of_prefix hgrown List.getElem?_concat_length
    rw [← hlength] at hplace
    exact absurd (replyAt_of_uses hj.replied hplace) hr
  · obtain ⟨d', hfinal, hstate, hrest⟩ := failed_after h' hfailed acts
    refine ⟨hfinal.live.published.trans hstate, hrest.trans ?_⟩
    exact Channel.successes_of_course hcourse hnone

/-- What ends at the first message that is not the genuine next one: the side that got it. -/
structure FailsClosed (n : Network S τ α η) (acts : List Act) : Prop where
  service : ∀ before r rest, acts = before ++ .deliver r :: rest →
    (n.after before).service.session.phase = .established →
    ¬ RequestAt (n.after acts) (n.after before).service.seen.length r →
    (n.after acts).service.session.phase = .closed ∧
      (n.after acts).service.seen = (n.after before).service.seen
  client : ∀ before rest q result events, acts = before ++ .client .process :: rest →
    (n.after before).client.events = .reply q result :: events →
    (n.after before).client.published = .established →
    ¬ ReplyAt (n.after acts) (n.after before).client.successes.length result →
    (n.after acts).client.published = .permanentFailure ∧
      (n.after acts).client.successes = (n.after before).client.successes

/-- **A network can hold the two sides back or bring them to an end, and nothing else**, if what
they open was sealed by them under the same key and nonce. -/
theorem integrity (hS : S.Inverts) {keys : TrafficKeys}
    (hkeys : keys.initiatorToResponder ≠ keys.responderToInitiator) (t : τ) (entropy : Entropy)
    (attester : α) (evidence : Bytes) (application : η) (serviceEntropy : Entropy) (acts : List Act)
    (ht : Trusted keys
      ((fresh (S := S) t entropy attester evidence application serviceEntropy).after acts)) :
    Intact ((fresh (S := S) t entropy attester evidence application serviceEntropy).after acts) ∧
      FailsClosed (fresh (S := S) t entropy attester evidence application serviceEntropy) acts := by
  have hfresh := coherent_fresh (S := S) t entropy attester evidence application serviceEntropy
  generalize fresh (S := S) t entropy attester evidence application serviceEntropy = n at *
  refine ⟨?_, ?_, ?_⟩
  · obtain ⟨d, h⟩ := coherent_after hfresh acts
    obtain ⟨_, _, _, _, hj⟩ := joined_of_coherent hS hkeys h ht
    exact intact_of_joined hj
  · rintro before r rest rfl hs hr
    obtain ⟨d, h⟩ := coherent_after hfresh before
    rw [after_append] at ht hr ⊢
    exact closed_of_not_next hS hkeys h hs rest ht hr
  · rintro before rest q result events rfl he hs hr
    obtain ⟨d, h⟩ := coherent_after hfresh before
    rw [after_append] at ht hr ⊢
    exact failed_of_not_next hS hkeys h he (h.live.published.symm.trans hs) rest ht hr

/-! ### A message of the network's own -/

/-- The scalars 1 and 2, an exchange, and a message that nobody sealed. -/
theorem integrity_forgery : CipherSuite.p256AesGcmSha256.Inverts ∧
    (CipherSuite.scalarKeys 1 2).initiatorToResponder ≠
      (CipherSuite.scalarKeys 1 2).responderToInitiator ∧
    Trusted (CipherSuite.scalarKeys 1 2)
      ((meeting .p256AesGcmSha256 (.small 1) (.small 2)).after
        (forgery .p256AesGcmSha256 (.small 1) (.small 2))) ∧
    ((meeting .p256AesGcmSha256 (.small 1) (.small 2)).after
        (forgery .p256AesGcmSha256 (.small 1) (.small 2))).service.seen = [([1, 2], [1])] ∧
    Intact ((meeting .p256AesGcmSha256 (.small 1) (.small 2)).after
        (forgery .p256AesGcmSha256 (.small 1) (.small 2))) ∧
    FailsClosed (meeting .p256AesGcmSha256 (.small 1) (.small 2))
      (forgery .p256AesGcmSha256 (.small 1) (.small 2)) := by
  have hkeys : (CipherSuite.scalarKeys 1 2).initiatorToResponder ≠
      (CipherSuite.scalarKeys 1 2).responderToInitiator := by
    decide +kernel
  obtain ⟨m⟩ := Meeting.of_scalars CipherSuite.agrees_one_two CipherSuite.draw_one
    CipherSuite.draw_two
  obtain ⟨htrusted, hseen⟩ := trusted_forgery m fun key nonce aad => rfl
  exact ⟨CipherSuite.inverts_p256AesGcmSha256, hkeys, htrusted, hseen,
    integrity CipherSuite.inverts_p256AesGcmSha256 hkeys _ _ _ _ _ _ _ htrusted⟩

end Network

end SealedLink
