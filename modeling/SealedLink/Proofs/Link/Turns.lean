import SealedLink.Proofs.Link.Serves

/-!
# A link takes its requests in turn

The callers of a link send requests while it runs on a wire, between any two of its steps. What has
become of the requests is told in `Account`; a request over the limit changes nothing for the others
(`Serving.agrees`), and a link whose exchange has failed leaves its wire alone (`after_failed`).
-/

namespace SealedLink.Link

/-! ## The callers and the link -/

/-- What the callers of a link see: a request that was sent, with its answer if it had one at once,
or an answer that came later. -/
inductive Event where
  | sent (sequence : UInt64) (request : Request) (atOnce : Option TransportResult)
  | answered (sequence : UInt64) (result : TransportResult)

/-- A link on a wire, and what its callers have seen of it. -/
structure Correspondence where
  link : Link
  wire : Wire
  log : List Event := []

inductive Act where
  | send (sequence : UInt64) (request : Request)
  /-- The exchanges go on up to the horizon. -/
  | pump (horizon : Option Nat)
  | close
  /-- One request is turned away. -/
  | drain
  /-- The link goes on up to the horizon, and to its end when an exchange fails. -/
  | run (horizon : Option Nat)
  /-- Time passes. -/
  | wait (instant : Nat)

/-- A request within the limit, as it is sent. -/
def Event.accepted? (config : LinkConfig) : Event → Option (UInt64 × Bytes)
  | .sent sequence request _ => (form? config request).map (sequence, ·)
  | .answered .. => none

/-- The answer to a request within the limit. -/
def Event.verdict? (config : LinkConfig) : Event → Option (UInt64 × TransportResult)
  | .sent sequence request atOnce =>
    if (form? config request).isSome then atOnce.map (sequence, ·) else none
  | .answered sequence result => some (sequence, result)

/-- The act sends nothing over the limit. -/
def Act.within (config : LinkConfig) : Act → Bool
  | .send _ request => (form? config request).isSome
  | _ => true

/-- The act does not leave a link halfway to its end. -/
def Act.IsWhole : Act → Prop
  | .send .. | .run _ | .wait _ => True
  | .pump _ | .close | .drain => False

namespace Correspondence

def start (config : LinkConfig) (peer : Bytes) (whims : Nat → Whim) : Correspondence where
  link := { config := config }
  wire := { unread := peer, whims := whims }

/-- The callers get the answers of a step of the link. -/
def receive (c : Correspondence) (answers : List (UInt64 × TransportResult)) (link : Link)
    (wire : Wire) : Correspondence where
  link := link
  wire := wire
  log := c.log ++ answers.map fun answer => .answered answer.1 answer.2

def act (c : Correspondence) : Act → Correspondence
  | .send sequence request =>
    let (atOnce, link) := c.link.send sequence request
    { c with link := link, log := c.log ++ [.sent sequence request atOnce] }
  | .pump horizon =>
    let (answers, link, wire) := c.link.pump horizon c.wire
    c.receive answers link wire
  | .close => { c with link := c.link.close }
  | .drain =>
    let (answers, link) := c.link.drain
    c.receive answers link c.wire
  | .run horizon =>
    let (answers, link, wire) := c.link.advance horizon c.wire
    c.receive answers link wire
  | .wait instant => { c with wire := ByteStream.waitUntil c.wire instant }

def after (c : Correspondence) (acts : List Act) : Correspondence := acts.foldl act c

/-- The requests within the limit, in the order in which they were sent. -/
def accepted (config : LinkConfig) (c : Correspondence) : List (UInt64 × Bytes) :=
  c.log.filterMap (Event.accepted? config)

/-- The answers to the requests within the limit, in the order in which they came. -/
def verdicts (config : LinkConfig) (c : Correspondence) : List (UInt64 × TransportResult) :=
  c.log.filterMap (Event.verdict? config)

variable {config : LinkConfig} {peer : Bytes} {c : Correspondence}

theorem after_append (acts more : List Act) :
    c.after (acts ++ more) = (c.after acts).after more := List.foldl_append

/-! ## One act -/

theorem act_send_refused {sequence : UInt64} {request : Request}
    (h : form? c.link.config request = none) :
    c.act (.send sequence request) =
      { c with log := c.log ++ [.sent sequence request (some (.error .serialization))] } := by
  simp only [act, send_eq, h]

theorem accepted_send (sequence : UInt64) (request : Request) :
    (c.act (.send sequence request)).accepted config =
      c.accepted config ++ ((form? config request).map (sequence, ·)).toList := by
  simp only [act, accepted, List.filterMap_append]
  congr 1

theorem verdicts_send (sequence : UInt64) (request : Request) :
    (c.act (.send sequence request)).verdicts config = c.verdicts config ++
      (if (form? config request).isSome then
        (c.link.send sequence request).1.map (sequence, ·) else none).toList := by
  simp only [act, verdicts, List.filterMap_append]
  congr 1

theorem accepted_receive (answers : List (UInt64 × TransportResult)) (link : Link) (wire : Wire) :
    (c.receive answers link wire).accepted config = c.accepted config := by
  simp only [receive, accepted, List.filterMap_append, List.filterMap_map]
  exact List.append_right_eq_self.mpr (List.filterMap_eq_nil_iff.mpr fun _ _ => rfl)

theorem verdicts_receive (answers : List (UInt64 × TransportResult)) (link : Link) (wire : Wire) :
    (c.receive answers link wire).verdicts config = c.verdicts config ++ answers := by
  simp only [receive, verdicts, List.filterMap_append, List.filterMap_map]
  exact congrArg (_ ++ ·) List.filterMap_some

theorem receive_append (answers more : List (UInt64 × TransportResult)) (link link' : Link)
    (wire wire' : Wire) : (c.receive answers link wire).receive more link' wire' =
      c.receive (answers ++ more) link' wire' := by
  simp only [receive, List.append_assoc, List.map_append]

theorem receive_nil (link : Link) : c.receive [] link c.wire = { c with link := link } := by
  simp only [receive, List.map_nil, List.append_nil]

theorem after_drain (steps : Nat) : c.after (List.replicate steps .drain) =
    c.receive (c.link.drainFor steps).1 (c.link.drainFor steps).2 c.wire := by
  induction steps generalizing c with
  | zero => exact (receive_nil c.link).symm
  | succ steps ih =>
    have hfirst := ih (c := c.act .drain)
    rw [Correspondence.act, receive_append] at hfirst
    exact hfirst

theorem act_run (horizon : Option Nat) : ∃ steps, c.act (.run horizon) =
    c.after (.pump horizon :: .close :: List.replicate steps .drain) := by
  refine ⟨(c.link.pump horizon c.wire).2.1.queue.length + 1, ?_⟩
  have hdrain := after_drain (c := (c.act (.pump horizon)).act .close)
    ((c.link.pump horizon c.wire).2.1.queue.length + 1)
  refine Eq.trans ?_ hdrain.symm
  simp only [Correspondence.act, advance, windUp, receive, List.map_append, List.append_assoc]

theorem kept_run {P : Correspondence → Prop} {horizon : Option Nat}
    (pump : ∀ c, P c → P (c.act (.pump horizon))) (close : ∀ c, P c → P (c.act .close))
    (drain : ∀ c, P c → P (c.act .drain)) (h : P c) : P (c.act (.run horizon)) := by
  have hdrains (steps : Nat) {c : Correspondence} (h : P c) :
      P (c.after (List.replicate steps .drain)) := by
    induction steps generalizing c with
    | zero => exact h
    | succ steps ih => exact ih (drain _ h)
  obtain ⟨steps, hrun⟩ := act_run (c := c) horizon
  rw [hrun]
  exact hdrains steps (close _ (pump _ h))

/-! ## What the link does for its callers -/

/-- The link serves the requests within the limit. -/
def Serving (config : LinkConfig) (peer : Bytes) (c : Correspondence) : Prop :=
  Serves config peer (c.accepted config) (c.verdicts config) c.link c.wire

theorem serving_start (whims : Nat → Whim) : Serving config peer (start config peer whims) := by
  have hbetween : Between config peer [] (start config peer whims).wire :=
    ⟨⟨rfl, fun _ h => (List.not_mem_nil h).elim⟩, rfl, rfl⟩
  exact .idle hbetween rfl

theorem Serving.send (h : Serving config peer c) (sequence : UInt64) (request : Request) :
    Serving config peer (c.act (.send sequence request)) := by
  unfold Serving at *
  have hconfig := h.config_eq
  rw [accepted_send, verdicts_send]
  simp only [Correspondence.act, send_eq, hconfig]
  cases form? config request with
  | none => simpa using h
  | some bytes =>
    cases hclosed : c.link.isClosed with
    | true => simpa [closed] using h.refuse hclosed (sequence, bytes)
    | false => simpa [hconfig] using h.enqueue hclosed (sequence, bytes)

theorem Serving.pump (h : Serving config peer c) (horizon : Option Nat) :
    Serving config peer (c.act (.pump horizon)) := by
  unfold Serving at *
  simp only [Correspondence.act, accepted_receive, verdicts_receive]
  exact serves_pump horizon h

theorem Serving.drain (h : Serving config peer c) : Serving config peer (c.act .drain) := by
  unfold Serving at *
  simp only [Correspondence.act, accepted_receive, verdicts_receive]
  exact Serves.drain h

theorem Serving.act (h : Serving config peer c) (a : Act) : Serving config peer (c.act a) := by
  cases a with
  | send sequence request => exact h.send sequence request
  | pump horizon => exact h.pump horizon
  | close => exact Serves.close h
  | drain => exact h.drain
  | run horizon =>
    exact kept_run (fun _ h => h.pump horizon) (fun _ h => Serves.close h) (fun _ h => h.drain) h
  | wait instant => exact h.waitUntil instant

theorem Serving.after (h : Serving config peer c) (acts : List Act) :
    Serving config peer (c.after acts) := by
  induction acts generalizing c with
  | nil => exact h
  | cons a acts ih => exact ih (h.act a)

theorem log_act (a : Act) : c.log <+: (c.act a).log := by
  cases a with
  | send | pump | drain | run => exact List.prefix_append _ _
  | close | wait => exact List.prefix_refl _

theorem log_after (acts : List Act) : c.log <+: (c.after acts).log := by
  induction acts generalizing c with
  | nil => exact List.prefix_refl _
  | cons a acts ih => exact (log_act a).trans ih

/-! ## What has become of the requests -/

/-- What the first of the requests that are not answered may have moved. -/
def underWay (limit : Nat) (rest : Bytes) : List (UInt64 × Bytes) → List Octet
  | [] => []
  | (_, request) :: _ => course limit request rest

/-- What has become of the requests within the limit. The first ones have had a round trip each.
As long as no exchange fails, the others wait; when one has failed, the link goes to its end in
steps, and turns the others away. -/
inductive Account (config : LinkConfig) (peer : Bytes) (c : Correspondence) : Prop where
  | going {done next rest s}
      (ongoing : c.link.hasFailed = false)
      (replied : Replied config.maxFrameSize peer done rest)
      (accepted : c.accepted config = done.map RoundTrip.sending ++ next)
      (verdicts : c.verdicts config = done.map RoundTrip.verdict)
      (waiting : c.link.waiting = next.map Prod.fst)
      (moved : c.wire.moved = done.flatMap RoundTrip.trace ++ s)
      (under : s <+: underWay config.maxFrameSize rest next)
  | closing {queue} (link : c.link = { config := config, state := .closing, queue := queue })
      (severed : Severed config peer (c.accepted config) (c.verdicts config) queue [] c.wire)
  | draining {queue turned}
      (link : c.link = { config := config, state := .draining, queue := queue })
      (severed : Severed config peer (c.accepted config) (c.verdicts config) queue turned c.wire)
  | stopped {turned} (link : c.link = { config := config, state := .stopped })
      (severed : Severed config peer (c.accepted config) (c.verdicts config) [] turned c.wire)

theorem Serving.account (h : Serving config peer c) : Account config peer c := by
  obtain ⟨link, wire, log⟩ := c
  unfold Serving at h
  generalize hverdicts : verdicts config ⟨link, wire, log⟩ = results at h
  cases h with
  | @idle done queue _ hbetween hsends =>
    exact .going rfl hbetween.replied hsends hverdicts rfl
      (hbetween.moved.trans (List.append_nil _).symm) List.nil_prefix
  | busy hmidway hsends hd hb hdeadline =>
    exact .going rfl hmidway.replied hsends hverdicts rfl hmidway.moved ⟨_, hmidway.course.symm⟩
  | closing h => exact .closing rfl (hverdicts ▸ h)
  | draining h => exact .draining rfl (hverdicts ▸ h)
  | stopped h => exact .stopped rfl (hverdicts ▸ h)

theorem once_of_severed {sends : List (UInt64 × Bytes)}
    {verdicts : List (UInt64 × TransportResult)} {queue turned : List (UInt64 × Bytes)} {w : Wire}
    (h : Severed config peer sends verdicts queue turned w) :
    (verdicts.map Prod.fst ++ queue.map Prod.fst).Perm (sends.map Prod.fst) := by
  obtain @⟨done, sequence, request, first, late, _, _, code, -, rfl, rfl, hturned, -, -, -⟩ := h
  have hrest : (turned ++ queue).Perm (first ++ queue ++ late) := by
    refine (hturned.append_right queue).trans ?_
    rw [List.append_assoc, List.append_assoc]
    exact List.perm_append_comm.append_left first
  have hnames := ((hrest.map Prod.fst).cons sequence).append_left (done.map RoundTrip.sequence)
  simpa [RoundTrip.verdict, RoundTrip.sending, closed, Function.comp_def] using hnames

theorem Account.once (h : Account config peer c) :
    ((c.verdicts config).map Prod.fst ++ c.link.waiting).Perm ((c.accepted config).map Prod.fst) := by
  cases h with
  | going _ _ haccepted hverdicts hwaiting _ _ =>
    rw [haccepted, hverdicts, hwaiting]
    simp [RoundTrip.verdict, RoundTrip.sending, Function.comp_def]
  | closing hlink h | draining hlink h | stopped hlink h =>
    rw [hlink]
    exact once_of_severed h

/-! ## The order of the answers -/

/-- The verdicts, and then those who wait, are the requests in order. -/
def Sequenced (config : LinkConfig) (c : Correspondence) : Prop :=
  (c.verdicts config).map Prod.fst ++ c.link.waiting = (c.accepted config).map Prod.fst

theorem Sequenced.receive {answers : List (UInt64 × TransportResult)} {link : Link} {wire : Wire}
    (h : Sequenced config c) (hwaiting : answers.map Prod.fst ++ link.waiting = c.link.waiting) :
    Sequenced config (c.receive answers link wire) := by
  unfold Sequenced at *
  rw [accepted_receive, verdicts_receive, List.map_append, List.append_assoc, ← h, ← hwaiting]
  rfl

theorem Sequenced.send (h : Sequenced config c) (hconfig : c.link.config = config)
    (hclosed : c.link.isClosed = true → c.link.waiting = []) (sequence : UInt64)
    (request : Request) : Sequenced config (c.act (.send sequence request)) := by
  subst hconfig
  unfold Sequenced at *
  rw [accepted_send, verdicts_send]
  simp only [Correspondence.act, send_eq]
  cases form? c.link.config request with
  | none => simpa using h
  | some bytes =>
    cases hstate : c.link.isClosed with
    | true =>
      have hnone := hclosed hstate
      rw [hnone, List.append_nil] at h
      simp [hnone, h]
    | false => simp [waiting_enqueue, ← List.append_assoc, h]

/-- A link that is not halfway to its end has answered in order. -/
structure Orderly (config : LinkConfig) (c : Correspondence) : Prop where
  sequenced : Sequenced config c
  ended : c.link.hasFailed = true → c.link.isClosed = true ∧ c.link.waiting = []

theorem run_ongoing {horizon : Option Nat}
    (h : (c.link.pump horizon c.wire).2.1.hasFailed = false) :
    c.act (.run horizon) = c.act (.pump horizon) := by
  have hadvance : c.link.advance horizon c.wire = c.link.pump horizon c.wire :=
    advance_of_pump rfl h
  simp only [Correspondence.act, hadvance]

theorem Serving.run_failed (hc : Serving config peer c) {horizon : Option Nat}
    (h : (c.link.pump horizon c.wire).2.1.hasFailed = true) :
    (c.act (.run horizon)).link = { config := config, state := .stopped } := by
  have hserves := hc.pump horizon
  have hwound := windUp_failed h (Serves.stopped_queue hserves)
  simp only [Correspondence.act, advance, hwound]
  exact congrArg (fun config => ({ config := config, state := .stopped } : Link))
    (Serves.config_eq hserves)

theorem Serving.orderly_run (hc : Serving config peer c) (h : Sequenced config c)
    (horizon : Option Nat) : Orderly config (c.act (.run horizon)) := by
  refine ⟨kept_run (fun c h => h.receive (waiting_pump horizon c.link c.wire))
    (fun c h => (congrArg (_ ++ ·) (waiting_close c.link)).trans h)
    (fun c h => h.receive (waiting_drain c.link)) h, ?_⟩
  · intro hended
    cases hfailed : (c.link.pump horizon c.wire).2.1.hasFailed with
    | false =>
      rw [run_ongoing hfailed] at hended
      exact absurd hended (by simp [Correspondence.act, receive, hfailed])
    | true =>
      rw [hc.run_failed hfailed]
      exact ⟨rfl, rfl⟩

theorem Orderly.act (h : Orderly config c) (hc : Serving config peer c) {a : Act}
    (ha : a.IsWhole) : Orderly config (c.act a) := by
  cases a with
  | pump | close | drain => exact ha.elim
  | run horizon => exact hc.orderly_run h.sequenced horizon
  | wait instant => exact ⟨h.sequenced, h.ended⟩
  | send sequence request =>
    have hconfig : c.link.config = config := hc.config_eq
    -- A request that is refused at once overtakes nobody.
    have hwaiting (hclosed : c.link.isClosed = true) : c.link.waiting = [] :=
      (h.ended (hasFailed_of_closed hclosed)).2
    refine ⟨h.sequenced.send hconfig hwaiting sequence request, ?_⟩
    intro hended
    simp only [Correspondence.act, send_eq] at hended ⊢
    cases hform : form? c.link.config request with
    | none => simpa [hform] using h.ended (by simpa [hform] using hended)
    | some bytes =>
      have hfailed : c.link.hasFailed = true := by
        cases hclosed : c.link.isClosed <;> simpa [hform, hclosed, hasFailed] using hended
      obtain ⟨hclosed, hnone⟩ := h.ended hfailed
      simp [hclosed, hnone]

theorem Orderly.after (h : Orderly config c) (hc : Serving config peer c) {acts : List Act}
    (hacts : ∀ a ∈ acts, a.IsWhole) : Orderly config (c.after acts) := by
  induction acts generalizing c with
  | nil => exact h
  | cons a acts ih =>
    obtain ⟨ha, hacts⟩ := List.forall_mem_cons.mp hacts
    exact ih (h.act hc ha) (hc.act a) hacts

/-! ## Requests over the limit -/

/-- The same link on the same wire, with the same requests within the limit and answers to them. -/
structure Agrees (config : LinkConfig) (c c' : Correspondence) : Prop where
  link : c.link = c'.link
  wire : c.wire = c'.wire
  accepted : c.accepted config = c'.accepted config
  verdicts : c.verdicts config = c'.verdicts config

theorem Agrees.receive {c' : Correspondence} (h : Agrees config c c')
    (answers : List (UInt64 × TransportResult)) (link : Link) (wire : Wire) :
    Agrees config (c.receive answers link wire) (c'.receive answers link wire) := by
  refine ⟨rfl, rfl, ?_, ?_⟩
  · rw [accepted_receive, accepted_receive, h.accepted]
  · rw [verdicts_receive, verdicts_receive, h.verdicts]

theorem Agrees.act {c' : Correspondence} (h : Agrees config c c') (a : Act) :
    Agrees config (c.act a) (c'.act a) := by
  cases a with
  | send sequence request =>
    refine ⟨?_, ?_, ?_, ?_⟩
    · simp only [Correspondence.act, h.link]
    · simp only [Correspondence.act, h.wire]
    · rw [accepted_send, accepted_send, h.accepted]
    · rw [verdicts_send, verdicts_send, h.verdicts, h.link]
  | pump horizon =>
    simp only [Correspondence.act, h.link, h.wire]
    exact h.receive ..
  | close => exact ⟨congrArg Link.close h.link, h.wire, h.accepted, h.verdicts⟩
  | drain =>
    simp only [Correspondence.act, h.link, h.wire]
    exact h.receive ..
  | run horizon =>
    simp only [Correspondence.act, h.link, h.wire]
    exact h.receive ..
  | wait instant =>
    exact ⟨h.link, congrArg (ByteStream.waitUntil · instant) h.wire, h.accepted, h.verdicts⟩

theorem agrees_of_not_within {a : Act} (hconfig : c.link.config = config)
    (h : a.within config = false) : Agrees config (c.act a) c := by
  cases a with
  | send sequence request =>
    have hform : form? config request = none := by simpa [Act.within] using h
    rw [act_send_refused (by rw [hconfig]; exact hform)]
    refine ⟨rfl, rfl, ?_, ?_⟩
    · simp [accepted, Event.accepted?, hform]
    · simp [verdicts, Event.verdict?, hform]
  | pump | close | drain | run | wait => cases h

theorem Serving.agrees {c' : Correspondence} (hc : Serving config peer c)
    (h : Agrees config c c') (acts : List Act) :
    Agrees config (c.after acts) (c'.after (acts.filter (Act.within config))) := by
  induction acts generalizing c c' with
  | nil => exact h
  | cons a acts ih =>
    cases hwithin : a.within config with
    | true =>
      rw [List.filter_cons_of_pos hwithin]
      exact ih (hc.act a) (h.act a)
    | false =>
      rw [List.filter_cons_of_neg (by simp [hwithin])]
      have hagrees := agrees_of_not_within hc.config_eq hwithin
      exact ih (hc.act a) ⟨hagrees.link.trans h.link, hagrees.wire.trans h.wire,
        hagrees.accepted.trans h.accepted, hagrees.verdicts.trans h.verdicts⟩

/-! ## After the end -/

/-- An exchange has failed, and since a moment the wire has been left alone. -/
structure Silent (w : Wire) (c : Correspondence) : Prop where
  failed : c.link.hasFailed = true
  calls : c.wire.calls = w.calls
  moved : c.wire.moved = w.moved

variable {w : Wire}

theorem Silent.pump (h : Silent w c) (horizon : Option Nat) :
    Silent w (c.act (.pump horizon)) := by
  simp only [Correspondence.act, pump_failed h.failed]
  exact ⟨h.failed, h.calls, h.moved⟩

theorem Silent.close (h : Silent w c) : Silent w (c.act .close) := by
  refine ⟨?_, h.calls, h.moved⟩
  have hfailed := h.failed
  simp only [Correspondence.act, Link.close]
  split
  · rfl
  · exact hfailed

theorem Silent.drain (h : Silent w c) : Silent w (c.act .drain) := by
  refine ⟨?_, h.calls, h.moved⟩
  have hfailed := h.failed
  simp only [Correspondence.act, receive, Link.drain]
  split
  · rfl
  · exact hfailed
  · exact hfailed

theorem Silent.act (h : Silent w c) (a : Act) : Silent w (c.act a) := by
  cases a with
  | send sequence request =>
    refine ⟨?_, h.calls, h.moved⟩
    simp only [Correspondence.act, send_eq]
    split
    · exact h.failed
    · split
      · exact h.failed
      · exact h.failed
  | pump horizon => exact h.pump horizon
  | close => exact h.close
  | drain => exact h.drain
  | run horizon =>
    exact kept_run (fun _ h => Silent.pump h horizon) (fun _ => Silent.close)
      (fun _ => Silent.drain) h
  | wait instant => exact ⟨h.failed, h.calls, h.moved⟩

theorem after_failed (h : c.link.hasFailed = true) (acts : List Act) :
    Silent c.wire (c.after acts) := by
  have hafter {c' : Correspondence} (h : Silent c.wire c') : Silent c.wire (c'.after acts) := by
    induction acts generalizing c' with
    | nil => exact h
    | cons a acts ih => exact ih (h.act a)
  exact hafter ⟨h, rfl, rfl⟩

end Correspondence

end SealedLink.Link
