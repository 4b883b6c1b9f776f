import SealedLink.Proofs.Channel.Live
import SealedLink.Proofs.Stack.Setup

/-!
# The driver and its errands

Between two errands the driver rests; otherwise it is engaged in one. Each event takes it from one
to the other and never to a failure.
-/

namespace SealedLink

def requestsOf (ws : List Pending) : List Bytes := ws.map (·.request)

@[simp] theorem requestsOf_append (a b : List Pending) :
    requestsOf (a ++ b) = requestsOf a ++ requestsOf b := List.map_append

@[simp] theorem requestsOf_cons (w : Pending) (ws : List Pending) :
    requestsOf (w :: ws) = w.request :: requestsOf ws := rfl

@[simp] theorem requestsOf_nil : requestsOf [] = [] := rfl

@[simp] theorem length_requestsOf (ws : List Pending) : (requestsOf ws).length = ws.length :=
  List.length_map ..

/-! ## What the actions send and resolve -/

def Action.sending? : Action → Option (UInt64 × Request)
  | .send q request => some (q, request)
  | _ => none

def sendings (actions : List Action) : List (UInt64 × Request) :=
  actions.filterMap Action.sending?

@[simp] theorem sendings_append (a b : List Action) :
    sendings (a ++ b) = sendings a ++ sendings b := List.filterMap_append

def resolved (actions : List Action) : List (Pending × Outcome) :=
  outcomesOf (actions.map Entry.ofAction)

@[simp] theorem resolved_append (a b : List Action) :
    resolved (a ++ b) = resolved a ++ resolved b := by
  simp [resolved]

/-! ## Rest and engagement -/

namespace Setup

variable {S : CipherSuite} {α η : Type} [Application η]

/-- Nothing is under way, and there is nothing to do: the writes that were taken are answered. -/
inductive Resting (p : Setup S α η) (d : Driver (ClientSession S) α) (s : ServiceSession S η)
    (done : List Pending) : Prop where
  | fresh (state : d.state = .uninitialized) (outstanding : d.outstanding = none)
      (queue : d.queue = []) (session : d.session = { entropy := p.clientEntropy })
      (attester : d.attester = p.attester) (service : s = p.reception) (first : done = [])
  | idle (state : d.state = .established) (outstanding : d.outstanding = none)
      (queue : d.queue = []) (agreed : p.Agreed d.session s (requestsOf done))

/-- The driver waits for the answer to an errand. -/
inductive Engaged [Attester α] (p : Setup S α η) (d : Driver (ClientSession S) α)
    (e : Errand S η p.config.maxFrameSize p.serviceLimit) (done : List Pending) : Prop where
  | attesting (state : d.state = .performingAttestation)
      (outstanding : d.outstanding = some e.sequence) (queue : d.queue ≠ [])
      (session : d.session = { entropy := p.clientEntropy })
      (verifies : ∃ a, Attester.verify d.attester p.evidence = (true, a))
      (response : e.response = .message (.attest p.evidence))
      (service : e.after = { p.reception with phase := .awaitingHandshake }) (first : done = [])
  | greeting (state : d.state = .performingHandshake) (outstanding : d.outstanding = some e.sequence)
      (queue : d.queue ≠ []) (finishes : p.Finishes d.session e) (first : done = [])
  | busy {w ws} (state : d.state = .established) (outstanding : d.outstanding = some e.sequence)
      (queue : d.queue = w :: ws) (opens : p.Opens d.session e (requestsOf done) w.request)

variable [Attester α] {p : Setup S α η} {d : Driver (ClientSession S) α} {s : ServiceSession S η}
  {e : Errand S η p.config.maxFrameSize p.serviceLimit} {done : List Pending}

theorem Engaged.outstanding (h : p.Engaged d e done) : d.outstanding = some e.sequence := by
  cases h <;> assumption

/-- What a step leads to: the driver rests, or it has sent the request of the next errand. -/
inductive Turned (p : Setup S α η) (s : ServiceSession S η) (done : List Pending) :
    Driver (ClientSession S) α × List Action → Prop where
  | rests {d actions} (h : p.Resting d s done) (silent : sendings actions = []) :
      Turned p s done (d, actions)
  | sends {d actions r} {e : Errand S η p.config.maxFrameSize p.serviceLimit}
      (h : p.Engaged d e done) (before : e.before = s) (written : e.For r)
      (sent : sendings actions = [(e.sequence, r)]) : Turned p s done (d, actions)

theorem Turned.after {step : Driver (ClientSession S) α × List Action} (h : p.Turned s done step)
    {actions : List Action} (hs : sendings actions = []) :
    p.Turned s done (Driver.after actions step) := by
  cases h with
  | rests h silent => exact .rests h (by simp [hs, silent])
  | sends h before written sent => exact .sends h before written (by simp [hs, sent])

theorem Turned.outstanding {step : Driver (ClientSession S) α × List Action}
    (h : p.Turned s done step) (hq : step.1.queue ≠ []) : step.1.outstanding.toList.length = 1 := by
  cases h with
  | rests h =>
    cases h with
    | fresh _ _ hnil => exact absurd hnil hq
    | idle _ _ hnil => exact absurd hnil hq
  | sends h =>
    rw [h.outstanding]
    rfl

/-- How far the two sides are. It grows with each turn. -/
def rank (d : Driver (ClientSession S) α) (done : List Pending) : Nat :=
  match d.state with
  | .uninitialized => 0
  | .performingAttestation => 1
  | .performingHandshake => 2
  | _ => 3 + 2 * done.length + d.outstanding.toList.length

omit [Application η] [Attester α] in
theorem rank_established (hs : d.state = .established) :
    rank d done = 3 + 2 * done.length + d.outstanding.toList.length := by
  rw [rank, hs]

/-- The outcomes of writes that were answered as the application answers them. -/
def settled (p : Setup S α η) (done : List Pending) : List (Pending × Outcome) :=
  (done.zip (Application.answers p.application (requestsOf done))).map fun x => (x.1, .ok x.2)

omit [Attester α] in
theorem settled_concat (p : Setup S α η) (done : List Pending) (w : Pending) :
    p.settled (done ++ [w]) = p.settled done ++ [(w, .ok
      (Application.answer (Application.after p.application (requestsOf done)) w.request).1)] := by
  simp only [settled, requestsOf_append, Application.answers_append]
  rw [List.zip_append (by simp), List.map_append]
  rfl

/-! ## Turns of the driver -/

theorem turned_dispatchNext (hp : p.Works) {rest : List Bytes} (hs : d.state = .established)
    (ho : d.outstanding = none) (h : p.Agreed d.session s (requestsOf done))
    (htakes : p.Takes (requestsOf done ++ requestsOf d.queue ++ rest)) :
    p.Turned s done d.dispatchNext ∧ resolved d.dispatchNext.2 = [] ∧
      d.dispatchNext.1.queue = d.queue ∧ d.dispatchNext.1.state = .established := by
  unfold Driver.dispatchNext
  rw [if_pos ⟨hs, ho⟩]
  cases hq : d.queue with
  | nil =>
    exact ⟨.rests (.idle hs ho hq h) rfl, rfl, hq, hs⟩
  | cons w ws =>
    rw [hq, requestsOf_cons, List.append_assoc, List.cons_append] at htakes
    obtain ⟨hrequest, hanswer, hcount⟩ := htakes.next
    obtain ⟨sealed, session, e, hencrypt, hsequence, hbefore, hfor, hopens⟩ :=
      h.exists_exchange hp d.nextSequence hrequest hanswer hcount
    simp only [hencrypt]
    refine ⟨.sends (.busy hs ?_ rfl hopens) hbefore hfor ?_, rfl, rfl, hs⟩
    · rw [hsequence]
      rfl
    · rw [hsequence]
      rfl

/-- **A driver at rest sends the request of a write that comes**, or attests the peer first. -/
theorem Resting.write (hp : p.Works) (h : p.Resting d s done) (w : Pending) {rest : List Bytes}
    (htakes : p.Takes (requestsOf done ++ requestsOf (d.queue ++ [w]) ++ rest)) :
    p.Turned s done (d.handle (.write w)) ∧ resolved (d.handle (.write w)).2 = [] ∧
      (d.handle (.write w)).1.queue = d.queue ++ [w] ∧
      rank d done < rank (d.handle (.write w)).1 done := by
  cases h with
  | fresh hs ho hq hsession hattester hservice hfirst =>
    obtain ⟨own, a, a', hrequest, hverify, hown⟩ := hp.attests
    obtain ⟨e, hsequence, hresponse, hbefore, hafter, hfor⟩ := exists_attesting hp d.nextSequence hown
    simp only [Driver.handle, Driver.onWrite, hs, Driver.startAttestation, hattester, hrequest]
    refine ⟨.sends (.attesting rfl ?_ (List.append_ne_nil_of_right_ne_nil _ (by simp)) hsession
      ⟨a', hverify⟩ hresponse hafter hfirst) (hbefore.trans hservice.symm) hfor ?_, rfl, rfl, ?_⟩
    · rw [hsequence]
      rfl
    · rw [hsequence]
      rfl
    · simp [rank, hs, Driver.after, Driver.advance, Driver.send]
  | idle hs ho hq hagreed =>
    have hhandle : d.handle (.write w) = { d with queue := d.queue ++ [w] }.dispatchNext := by
      cases d
      cases hs
      rfl
    rw [hhandle]
    obtain ⟨hturned, hresolved, hqueue, hstate⟩ :=
      turned_dispatchNext (d := { d with queue := d.queue ++ [w] }) hp hs ho hagreed htakes
    refine ⟨hturned, hresolved, hqueue, ?_⟩
    have hsome := hturned.outstanding (by simp [hqueue])
    rw [rank_established hs, rank_established hstate, hsome, ho]
    exact Nat.lt_succ_self _

theorem Engaged.write (h : p.Engaged d e done) (w : Pending) :
    d.handle (.write w) = ({ d with queue := d.queue ++ [w] }, []) ∧
      p.Engaged { d with queue := d.queue ++ [w] } e done := by
  cases h with
  | attesting hs ho hq hsession hverifies hresponse hservice hfirst =>
    refine ⟨by simp [Driver.handle, Driver.onWrite, hs], ?_⟩
    exact .attesting hs ho (List.append_ne_nil_of_left_ne_nil hq _) hsession hverifies hresponse
      hservice hfirst
  | greeting hs ho hq hfinishes hfirst =>
    refine ⟨by simp [Driver.handle, Driver.onWrite, hs], ?_⟩
    exact .greeting hs ho (List.append_ne_nil_of_left_ne_nil hq _) hfinishes hfirst
  | @busy w' ws hs ho hq hopens =>
    refine ⟨by simp [Driver.handle, Driver.onWrite, hs, Driver.dispatchNext, ho], ?_⟩
    exact .busy hs ho (by rw [hq]; rfl) hopens

structure Advanced (p : Setup S α η) (d : Driver (ClientSession S) α) (s : ServiceSession S η)
    (done done' : List Pending) (step : Driver (ClientSession S) α × List Action) : Prop where
  turned : p.Turned s done' step
  queue : done' ++ step.1.queue = done ++ d.queue
  settled : p.settled done' = p.settled done ++ resolved step.2
  rank : rank d done < rank step.1 done'

theorem Finishes.advanced (hp : p.Works) (h : p.Finishes d.session e)
    (hs : d.state = .performingHandshake) (ho : d.outstanding = some e.sequence) (hfirst : done = [])
    {rest : List Bytes} (htakes : p.Takes (requestsOf done ++ requestsOf d.queue ++ rest)) :
    p.Advanced d e.after done done (d.handle (.reply e.sequence (.ok e.response))) := by
  obtain ⟨answer, session, hresponse, hfinish, hagreed⟩ := h
  have hhandle : d.handle (.reply e.sequence (.ok e.response)) =
      Driver.after [.call (.finish answer (.ok ())), .publish .established]
        { d with session := session, state := .established, outstanding := none }.dispatchNext := by
    cases d
    cases hs
    cases ho
    simp [Driver.handle, Driver.onReply, hresponse, Driver.onHandshake, hfinish]
  have hagreed : p.Agreed session e.after (requestsOf done) := by
    rw [hfirst]
    exact hagreed
  obtain ⟨hturned, hresolved, hqueue, hstate⟩ := turned_dispatchNext
    (d := { d with session := session, state := .established, outstanding := none }) hp rfl rfl
    hagreed htakes
  rw [hhandle]
  refine ⟨hturned.after rfl, congrArg (done ++ ·) hqueue, ?_, ?_⟩
  · rw [Driver.after, resolved_append, hresolved]
    exact (List.append_nil _).symm
  · have hrank : Setup.rank d done = 2 := by simp [Setup.rank, hs]
    rw [hrank, Driver.after, rank_established hstate]
    omega

theorem Opens.advanced (hp : p.Works) {w : Pending} {ws : List Pending}
    (h : p.Opens d.session e (requestsOf done) w.request) (hs : d.state = .established)
    (ho : d.outstanding = some e.sequence) (hq : d.queue = w :: ws)
    {rest : List Bytes} (htakes : p.Takes (requestsOf done ++ requestsOf d.queue ++ rest)) :
    p.Advanced d e.after done (done ++ [w]) (d.handle (.reply e.sequence (.ok e.response))) := by
  obtain ⟨reply, session, hresponse, hdecrypt, hagreed⟩ := h
  have hhandle : d.handle (.reply e.sequence (.ok e.response)) =
      Driver.after [.call (.decrypt reply (.ok (Application.answer
          (Application.after p.application (requestsOf done)) w.request).1)),
        .resolve w (.ok (Application.answer
          (Application.after p.application (requestsOf done)) w.request).1)]
        { d with session := session, queue := ws, outstanding := none }.dispatchNext := by
    cases d
    cases hs
    cases ho
    cases hq
    simp [Driver.handle, Driver.onReply, hresponse, Driver.onEncrypted, hdecrypt]
  have hagreed : p.Agreed session e.after (requestsOf (done ++ [w])) := by simpa using hagreed
  obtain ⟨hturned, hresolved, hqueue, hstate⟩ := turned_dispatchNext
    (d := { d with session := session, queue := ws, outstanding := none }) hp hs rfl hagreed
    (by simpa [hq] using htakes)
  rw [hhandle]
  refine ⟨hturned.after rfl, ?_, ?_, ?_⟩
  · rw [Driver.after, hqueue, hq, List.append_assoc, List.singleton_append]
  · rw [Driver.after, resolved_append, hresolved, List.append_nil]
    exact settled_concat p done w
  · rw [rank_established hs, Driver.after, rank_established hstate, List.length_append,
      List.length_singleton]
    have : d.outstanding.toList.length ≤ 1 := by cases d.outstanding <;> simp
    omega

/-- **The answer to an errand takes the driver on.** -/
theorem Engaged.reply (hp : p.Works) (h : p.Engaged d e done) {rest : List Bytes}
    (htakes : p.Takes (requestsOf done ++ requestsOf d.queue ++ rest)) :
    ∃ done', p.Advanced d e.after done done' (d.handle (.reply e.sequence (.ok e.response))) := by
  cases h with
  | attesting hs ho hq hsession hverifies hresponse hservice hfirst =>
    obtain ⟨a, hverify⟩ := hverifies
    obtain ⟨message, session, e', hstart, hsequence, hbefore, hfor, hfinishes⟩ :=
      exists_greeting hp d.nextSequence
    rw [← hsession] at hstart
    refine ⟨done, ?_⟩
    simp only [Driver.handle, Driver.onReply, ho, if_true, hs, hresponse, Driver.onAttestation,
      hverify, hstart]
    refine ⟨.sends (.greeting rfl ?_ hq hfinishes hfirst) (hbefore.trans hservice.symm) hfor ?_, rfl,
      (List.append_nil _).symm, ?_⟩
    · rw [hsequence]
      rfl
    · rw [hsequence]
      rfl
    · simp [Setup.rank, hs, Driver.after, Driver.advance, Driver.send]
  | greeting hs ho _ hfinishes hfirst => exact ⟨done, hfinishes.advanced hp hs ho hfirst htakes⟩
  | busy hs ho hq hopens => exact ⟨_, hopens.advanced hp hs ho hq htakes⟩

end Setup

end SealedLink
