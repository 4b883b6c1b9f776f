import SealedLink.Proofs.Link.Exchange
import SealedLink.Proofs.Link.Steps

/-!
# What a link has done

After any number of steps a link on a wire is between two exchanges, in one, or at its end
(`Serves`); what was on the wire before is some round trips, and the verdicts so far are theirs.
-/

namespace SealedLink.Link

/-! ## Round trips -/

/-- A request and the frame that answered it. -/
structure RoundTrip where
  sequence : UInt64
  request : Bytes
  reply : Bytes
  response : Response

namespace RoundTrip

def sending (t : RoundTrip) : UInt64 × Bytes := (t.sequence, t.request)

def verdict (t : RoundTrip) : UInt64 × TransportResult := (t.sequence, .ok t.response)

def trace (t : RoundTrip) : List Octet :=
  outs (Frame.encode t.request) ++ inns (Frame.encode t.reply)

structure Sound (limit : Nat) (t : RoundTrip) : Prop where
  request : Frame.Fits limit t.request.length
  reply : Frame.Fits limit t.reply.length
  decoded : Response.decode t.reply = .ok t.response

end RoundTrip

/-- The peer's stream begins with the replies of some round trips. -/
structure Replied (limit : Nat) (peer : Bytes) (done : List RoundTrip) (rest : Bytes) : Prop where
  stream : peer = done.flatMap (fun t => Frame.encode t.reply) ++ rest
  sound : ∀ t ∈ done, t.Sound limit

/-- Why an exchange fails: of itself, by a call that failed or by its deadline. -/
inductive Failure (config : LinkConfig) (request rest : Bytes) (w : Wire) :
    TransportError → Prop where
  | own {code} (h : outcome config.maxFrameSize request rest = .error code)
      (faults : w.faults = []) : Failure config request rest w code
  | fault {e} (faults : w.faults = [e]) : Failure config request rest w (.ofIoError e)
  | late (timed : config.responseTimeout ≠ none) (waited : w.Waited) (faults : w.faults = []) :
      Failure config request rest w .other

variable {config : LinkConfig} {peer request rest : Bytes} {done : List RoundTrip}
  {s t u : List Octet} {w w' : Wire}

/-- Nothing but some round trips has been on the wire. -/
structure Between (config : LinkConfig) (peer : Bytes) (done : List RoundTrip) (w : Wire) :
    Prop where
  replied : Replied config.maxFrameSize peer done w.unread
  moved : w.moved = done.flatMap RoundTrip.trace
  faults : w.faults = []

/-- An exchange after some round trips has moved the first part of its course. -/
structure Midway (config : LinkConfig) (peer : Bytes) (done : List RoundTrip)
    (request rest : Bytes) (s t : List Octet) (w : Wire) : Prop where
  replied : Replied config.maxFrameSize peer done rest
  course : course config.maxFrameSize request rest = s ++ t
  moved : w.moved = done.flatMap RoundTrip.trace ++ s
  unread : rest = readIn s ++ w.unread
  faults : w.faults = []

theorem Between.midway (h : Between config peer done w) (request : Bytes) :
    Midway config peer done request w.unread [] (course config.maxFrameSize request w.unread) w :=
  ⟨h.replied, rfl, by rw [h.moved, List.append_nil], rfl, h.faults⟩

theorem Midway.onward (h : Midway config peer done request rest s (t ++ u) w)
    (moved : w.Moved w' t) : Midway config peer done request rest (s ++ t) u w' where
  replied := h.replied
  course := by rw [h.course, List.append_assoc]
  moved := by rw [moved.moved, h.moved, List.append_assoc]
  unread := by rw [h.unread, moved.unread, readIn_append, List.append_assoc]
  faults := moved.faults.trans h.faults

theorem Midway.between {response : Response} (h : Midway config peer done request rest s [] w)
    (hok : outcome config.maxFrameSize request rest = .ok response) (sequence : UInt64) :
    ∃ reply, Between config peer (done ++ [⟨sequence, request, reply, response⟩]) w := by
  obtain ⟨reply, left, hrequest, hreply, hdecoded, hrest, hcourse⟩ := outcome_ok hok
  have hs : s = outs (Frame.encode request) ++ inns (Frame.encode reply) := by
    rw [← hcourse, h.course, List.append_nil]
  have hleft : w.unread = left := by
    have hunread := h.unread
    rw [hs, readIn_append, readIn_outs, readIn_inns, List.nil_append, hrest] at hunread
    exact (List.append_cancel_left hunread).symm
  refine ⟨reply, ⟨?_, ?_⟩, ?_, h.faults⟩
  · rw [h.replied.stream, hrest, hleft]
    simp
  · intro t ht
    rcases List.mem_append.mp ht with ht | ht
    · exact h.replied.sound t ht
    · rw [List.mem_singleton.mp ht]
      exact ⟨hrequest, hreply, hdecoded⟩
  · rw [h.moved, hs]
    simp [RoundTrip.trace]

/-! ## What a link has done -/

/-- The exchange after some round trips has failed. Of the requests that came later some wait in the
queue and the others were turned away: the first of those that the link took, one after another, and
from when it was closed those that it did not take. -/
inductive Severed (config : LinkConfig) (peer : Bytes) (sends : List (UInt64 × Bytes))
    (verdicts : List (UInt64 × TransportResult)) (queue turned : List (UInt64 × Bytes)) (w : Wire) :
    Prop where
  | intro {done sequence request first late rest s code}
      (hreplied : Replied config.maxFrameSize peer done rest)
      (hsends : sends = done.map RoundTrip.sending ++
        (sequence, request) :: (first ++ queue ++ late))
      (hverdicts : verdicts = done.map RoundTrip.verdict ++
        (sequence, .error code) :: turned.map closed)
      (hturned : turned.Perm (first ++ late))
      (hmoved : w.moved = done.flatMap RoundTrip.trace ++ s)
      (hs : s <+: course config.maxFrameSize request rest)
      (cause : Failure config request rest w code)

/-- What a link has done of what was sent: it is between two exchanges, in one, or at its end. -/
inductive Serves (config : LinkConfig) (peer : Bytes) (sends : List (UInt64 × Bytes)) :
    (verdicts : List (UInt64 × TransportResult)) → Link → Wire → Prop where
  | idle {done queue w} (hbetween : Between config peer done w)
      (hsends : sends = done.map RoundTrip.sending ++ queue) :
      Serves config peer sends (done.map RoundTrip.verdict) { config := config, queue := queue } w
  | busy {done sequence request queue deadline d rest s t left w}
      (hmidway : Midway config peer done request rest s t w)
      (hsends : sends = done.map RoundTrip.sending ++ (sequence, request) :: queue)
      (hd : Dialogue.Yields d w.unread t (outcome config.maxFrameSize request rest) left)
      (hb : Dialogue.Brittle (fun e => .error (.ofIoError e)) d)
      (hdeadline : deadline = none ↔ config.responseTimeout = none) :
      Serves config peer sends (done.map RoundTrip.verdict)
        { config := config, state := .busy sequence deadline d, queue := queue } w
  | closing {verdicts queue w} (h : Severed config peer sends verdicts queue [] w) :
      Serves config peer sends verdicts { config := config, state := .closing, queue := queue } w
  | draining {verdicts queue turned w} (h : Severed config peer sends verdicts queue turned w) :
      Serves config peer sends verdicts { config := config, state := .draining, queue := queue } w
  | stopped {verdicts turned w} (h : Severed config peer sends verdicts [] turned w) :
      Serves config peer sends verdicts { config := config, state := .stopped } w

/-- A run of the link gives the answers that come after some verdicts. -/
def ServesOn (config : LinkConfig) (peer : Bytes) (sends : List (UInt64 × Bytes))
    (verdicts : List (UInt64 × TransportResult))
    (run : List (UInt64 × TransportResult) × Link × Wire) : Prop :=
  Serves config peer sends (verdicts ++ run.1) run.2.1 run.2.2

variable {sends : List (UInt64 × Bytes)} {verdicts : List (UInt64 × TransportResult)} {l : Link}

/-! ## Running a link -/

theorem serves_failed {sequence : UInt64} {queue : List (UInt64 × Bytes)} {code : TransportError}
    (hreplied : Replied config.maxFrameSize peer done rest)
    (hmoved : w.moved = done.flatMap RoundTrip.trace ++ s)
    (hs : s <+: course config.maxFrameSize request rest)
    (cause : Failure config request rest w code) :
    Serves config peer (done.map RoundTrip.sending ++ (sequence, request) :: queue)
      (done.map RoundTrip.verdict ++ [(sequence, .error code)])
      { config := config, state := .closing, queue := queue } w := by
  have hsends : done.map RoundTrip.sending ++ (sequence, request) :: queue =
      done.map RoundTrip.sending ++ (sequence, request) :: ([] ++ queue ++ []) := by
    rw [List.nil_append, List.append_nil]
  exact .closing (.intro hreplied hsends rfl (List.Perm.refl []) hmoved hs cause)

theorem serves_conclude {sequence : UInt64} {left : Bytes} {horizon deadline : Option Nat}
    {queue : List (UInt64 × Bytes)} {result : Progress TransportResult × Wire}
    (hmidway : Midway config peer done request rest s t w)
    (hdeadline : deadline = none ↔ config.responseTimeout = none)
    (h : Attempt deadline w t (outcome config.maxFrameSize request rest) left result)
    (hqueue : ∀ done w', Between config peer done w' →
      ServesOn config peer (done.map RoundTrip.sending ++ queue) (done.map RoundTrip.verdict)
        (runQueue horizon config queue w')) :
    ServesOn config peer (done.map RoundTrip.sending ++ (sequence, request) :: queue)
      (done.map RoundTrip.verdict) (conclude horizon config sequence deadline queue result) := by
  have hcut {u : List Octet} (hu : u <+: t) :
      s ++ u <+: course config.maxFrameSize request rest := by
    rw [hmidway.course]
    exact (List.prefix_append_right_inj s).mpr hu
  cases h with
  | @finished w' moved =>
    rw [← List.append_nil t] at hmidway
    have hend := hmidway.onward moved
    cases hresult : outcome config.maxFrameSize request rest with
    | ok response =>
      obtain ⟨reply, hbetween⟩ := hend.between hresult sequence
      have hserves := hqueue _ _ hbetween
      simpa [ServesOn, conclude, RoundTrip.sending, RoundTrip.verdict] using hserves
    | error code =>
      exact serves_failed hend.replied hend.moved (hcut (List.prefix_refl t))
        (.own hresult hend.faults)
  | @failed e u w' hu moved faults =>
    have hmoved : w'.moved = done.flatMap RoundTrip.trace ++ (s ++ u) := by
      rw [moved, hmidway.moved, List.append_assoc]
    have hfaults : w'.faults = [e] := by rw [faults, hmidway.faults, List.nil_append]
    exact serves_failed hmidway.replied hmoved (hcut hu) (.fault hfaults)
  | @late u w' timed hu moved waited =>
    have hmoved : w'.moved = done.flatMap RoundTrip.trace ++ (s ++ u) := by
      rw [moved.moved, hmidway.moved, List.append_assoc]
    have htimed : config.responseTimeout ≠ none := fun hnone => timed (hdeadline.mpr hnone)
    exact serves_failed hmidway.replied hmoved (hcut hu)
      (.late htimed waited (moved.faults.trans hmidway.faults))
  | @blocked d u v w' hu moved hd hb =>
    subst hu
    simp only [ServesOn, conclude, List.append_nil]
    exact .busy (hmidway.onward moved) rfl hd hb hdeadline

theorem serves_runQueue (horizon : Option Nat) (queue : List (UInt64 × Bytes))
    (h : Between config peer done w) :
    ServesOn config peer (done.map RoundTrip.sending ++ queue) (done.map RoundTrip.verdict)
      (runQueue horizon config queue w) := by
  induction queue generalizing done w with
  | nil =>
    simp only [ServesOn, runQueue, List.append_nil]
    exact .idle h (List.append_nil _).symm
  | cons sending queue ih =>
    obtain ⟨sequence, request⟩ := sending
    obtain ⟨left, hyields⟩ := yields_exchange config.maxFrameSize request w.unread
    have hdeadline : config.responseTimeout.map (ByteStream.clock w + ·) = none ↔
        config.responseTimeout = none := Option.map_eq_none_iff
    rw [runQueue_cons]
    exact serves_conclude (h.midway request) hdeadline
      (attempt_runExchange horizon _ hyields (brittle_exchange _ _)) fun done w' => ih

theorem serves_pump (horizon : Option Nat) (h : Serves config peer sends verdicts l w) :
    ServesOn config peer sends verdicts (l.pump horizon w) := by
  have failed (hfailed : l.hasFailed = true) :
      ServesOn config peer sends verdicts (l.pump horizon w) := by
    rw [pump_failed hfailed]
    simpa [ServesOn] using h
  cases h with
  | idle hbetween hsends =>
    rw [hsends]
    exact serves_runQueue horizon _ hbetween
  | busy hmidway hsends hd hb hdeadline =>
    rw [hsends, pump_busy]
    exact serves_conclude hmidway hdeadline (attempt_runExchange horizon _ hd hb)
      fun done w' => serves_runQueue horizon _
  | closing | draining | stopped => exact failed rfl

/-! ## The end of a link -/

theorem Severed.turn_away {sending : UInt64 × Bytes} {queue turned : List (UInt64 × Bytes)}
    (h : Severed config peer sends verdicts (sending :: queue) turned w) :
    Severed config peer sends (verdicts ++ [closed sending]) queue (turned ++ [sending]) w := by
  obtain @⟨done, sequence, request, first, late, _, _, code, hreplied, hsends, hverdicts, hturned,
    hmoved, hs, cause⟩ := h
  have hall : sends = done.map RoundTrip.sending ++
      (sequence, request) :: (first ++ [sending] ++ queue ++ late) := by
    rw [hsends]
    simp
  have hresults : verdicts ++ [closed sending] = done.map RoundTrip.verdict ++
      (sequence, .error code) :: (turned ++ [sending]).map closed := by
    rw [hverdicts]
    simp
  -- It is turned away after the late ones, and was sent before them.
  have hperm : (turned ++ [sending]).Perm (first ++ [sending] ++ late) := by
    refine (hturned.append_right [sending]).trans ?_
    rw [List.append_assoc, List.append_assoc]
    exact List.perm_append_comm.append_left first
  exact .intro hreplied hall hresults hperm hmoved hs cause

theorem Serves.close (h : Serves config peer sends verdicts l w) :
    Serves config peer sends verdicts l.close w := by
  cases h with
  | idle hbetween hsends => exact .idle hbetween hsends
  | busy hmidway hsends hd hb hdeadline => exact .busy hmidway hsends hd hb hdeadline
  | closing h => exact .draining h
  | draining h => exact .draining h
  | stopped h => exact .stopped h

theorem Serves.drain (h : Serves config peer sends verdicts l w) :
    Serves config peer sends (verdicts ++ l.drain.1) l.drain.2 w := by
  have same (hdrain : l.drain = ([], l)) :
      Serves config peer sends (verdicts ++ l.drain.1) l.drain.2 w := by
    rw [hdrain, List.append_nil]
    exact h
  cases h with
  | @draining _ queue _ _ h =>
    cases queue with
    | nil =>
      rw [Link.drain, List.append_nil]
      exact .stopped h
    | cons sending queue => exact .draining h.turn_away
  | idle | busy | closing | stopped => exact same rfl

theorem Serves.config_eq (h : Serves config peer sends verdicts l w) : l.config = config := by
  cases h <;> rfl

theorem Serves.stopped_queue (h : Serves config peer sends verdicts l w)
    (hstopped : l.state = .stopped) : l.queue = [] := by
  cases h with
  | stopped => rfl
  | idle | busy | closing | draining => cases hstopped

theorem Severed.waitUntil {queue turned : List (UInt64 × Bytes)}
    (h : Severed config peer sends verdicts queue turned w) (instant : Nat) :
    Severed config peer sends verdicts queue turned (ByteStream.waitUntil w instant) := by
  obtain ⟨hreplied, hsends, hverdicts, hturned, hmoved, hs, cause⟩ := h
  refine .intro hreplied hsends hverdicts hturned hmoved hs ?_
  cases cause with
  | own h faults => exact .own h faults
  | fault faults => exact .fault faults
  | late timed waited faults => exact .late timed waited faults

theorem Serves.waitUntil (h : Serves config peer sends verdicts l w) (instant : Nat) :
    Serves config peer sends verdicts l (ByteStream.waitUntil w instant) := by
  cases h with
  | idle h hsends => exact .idle ⟨h.replied, h.moved, h.faults⟩ hsends
  | busy h hsends hd hb hdeadline =>
    exact .busy ⟨h.replied, h.course, h.moved, h.unread, h.faults⟩ hsends hd hb hdeadline
  | closing h => exact .closing (h.waitUntil instant)
  | draining h => exact .draining (h.waitUntil instant)
  | stopped h => exact .stopped (h.waitUntil instant)

/-! ## Taking a request -/

/-- The bytes of a request, if they are within the limit. -/
def form? (config : LinkConfig) (request : Request) : Option Bytes :=
  match Request.encode request with
  | .error _ => none
  | .ok bytes => if config.maxFrameSize < bytes.length then none else some bytes

theorem send_eq (l : Link) (sequence : UInt64) (request : Request) :
    l.send sequence request =
      match form? l.config request with
      | none => (some (.error .serialization), l)
      | some bytes =>
        if l.isClosed then (some (.error .socketClosed), l)
        else (none, { l with queue := l.queue ++ [(sequence, bytes)] }) := by
  unfold send form?
  cases Request.encode request with
  | error e => rfl
  | ok bytes =>
    simp only
    split <;> rfl

theorem Severed.take {queue : List (UInt64 × Bytes)}
    (h : Severed config peer sends verdicts queue [] w) (sending : UInt64 × Bytes) :
    Severed config peer (sends ++ [sending]) verdicts (queue ++ [sending]) [] w := by
  obtain @⟨done, sequence, request, _, _, _, _, _, hreplied, hsends, hverdicts, hturned, hmoved,
    hs, cause⟩ := h
  -- Nobody was turned away yet, so that the request is the last one of the queue.
  obtain ⟨rfl, rfl⟩ := List.append_eq_nil_iff.mp hturned.symm.eq_nil
  have hall : sends ++ [sending] = done.map RoundTrip.sending ++
      (sequence, request) :: ([] ++ (queue ++ [sending]) ++ []) := by
    rw [hsends]
    simp
  exact .intro hreplied hall hverdicts hturned hmoved hs cause

theorem Severed.refuse {queue turned : List (UInt64 × Bytes)}
    (h : Severed config peer sends verdicts queue turned w) (sending : UInt64 × Bytes) :
    Severed config peer (sends ++ [sending]) (verdicts ++ [closed sending]) queue
      (turned ++ [sending]) w := by
  obtain @⟨done, sequence, request, first, late, _, _, code, hreplied, hsends, hverdicts, hturned,
    hmoved, hs, cause⟩ := h
  have hall : sends ++ [sending] = done.map RoundTrip.sending ++
      (sequence, request) :: (first ++ queue ++ (late ++ [sending])) := by
    rw [hsends]
    simp
  have hresults : verdicts ++ [closed sending] = done.map RoundTrip.verdict ++
      (sequence, .error code) :: (turned ++ [sending]).map closed := by
    rw [hverdicts]
    simp
  have hperm : (turned ++ [sending]).Perm (first ++ (late ++ [sending])) := by
    rw [← List.append_assoc]
    exact hturned.append_right [sending]
  exact .intro hreplied hall hresults hperm hmoved hs cause

theorem Serves.enqueue (h : Serves config peer sends verdicts l w) (hopen : l.isClosed = false)
    (sending : UInt64 × Bytes) :
    Serves config peer (sends ++ [sending]) verdicts { l with queue := l.queue ++ [sending] } w := by
  cases h with
  | idle hbetween hsends =>
    exact .idle hbetween (by rw [hsends, List.append_assoc])
  | busy hmidway hsends hd hb hdeadline =>
    exact .busy hmidway (by rw [hsends, List.append_assoc, List.cons_append]) hd hb hdeadline
  | closing h => exact .closing (h.take sending)
  | draining | stopped => cases hopen

theorem Serves.refuse (h : Serves config peer sends verdicts l w) (hclosed : l.isClosed = true)
    (sending : UInt64 × Bytes) :
    Serves config peer (sends ++ [sending]) (verdicts ++ [closed sending]) l w := by
  cases h with
  | idle | busy | closing => cases hclosed
  | draining h => exact .draining (h.refuse sending)
  | stopped h => exact .stopped (h.refuse sending)

end SealedLink.Link
