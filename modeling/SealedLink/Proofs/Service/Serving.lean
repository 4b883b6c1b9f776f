import SealedLink.Noise.Standard
import SealedLink.Proofs.Stack.Errand
import SealedLink.Proofs.Stream.Framing

/-!
# A service is the fold of its session over the frames of the stream

A service answers frame after frame for as long as its session has answers that fit the limit. What
it meets then decides how it ends: `Stops` tells it from what is left of the stream. Neither the
pieces that the stream comes in nor the times at which the service has to wait matter
(`folds_frames`).
-/

namespace SealedLink

namespace Service

open SealedLink.Frame

variable {S : CipherSuite} {η : Type} [Application η] {limit : Nat}
  {s s' s'' : ServiceSession S η}

/-! ## What a service should do -/

/-- A session answers a frame with a reply within the limit. -/
structure Answers (limit : Nat) (s : ServiceSession S η) (frame reply : Bytes)
    (s' : ServiceSession S η) : Prop where
  handled : ∃ request response, Request.decode frame = .ok request ∧
    s.handle request = (.ok response, s') ∧ response.encode = .ok reply
  fits : Fits limit reply.length

/-- A session answers frames one after another. -/
inductive Answered (limit : Nat) : (s : ServiceSession S η) → (frames replies : List Bytes) →
    (s' : ServiceSession S η) → Prop where
  | nothing {s : ServiceSession S η} : Answered limit s [] [] s
  | more {s s' s'' frame reply frames replies} (first : Answers limit s frame reply s')
      (rest : Answered limit s' frames replies s'') :
      Answered limit s (frame :: frames) (reply :: replies) s''

/-- The written form of a response without a message. -/
def blank : Bytes := [MessageType.empty.toByte]

/-- How a service ends on what is left of a stream that it does not answer: what it still writes,
its result, and the bytes that it does not read. -/
inductive Stops (limit : Nat) (s : ServiceSession S η) : (tail : Bytes) → (notice : List Bytes) →
    End S η → (left : Bytes) → Prop where
  | gone : Stops limit s [] [] (.ok s) []
  | cutOff {tail} (h : Ends limit tail (.error (.io .unexpectedEof)) []) :
      Stops limit s tail [] (.error (.io .unexpectedEof)) []
  | oversized {tail size left} (h : Ends limit tail (.error (.codec (.fieldTooLarge size))) left) :
      Stops limit s tail [blank] (.error (.codec (.fieldTooLarge size))) left
  | undecodable {frame rest e} (hframe : Fits limit frame.length)
      (h : Request.decode frame = .error e) :
      Stops limit s (encode frame ++ rest) [blank] (.error (.codec e)) rest
  | rejected {frame rest request e s'} (hframe : Fits limit frame.length)
      (hrequest : Request.decode frame = .ok request) (h : s.handle request = (.error e, s')) :
      Stops limit s (encode frame ++ rest) [blank] (.error e) rest
  /-- A field of the response is too large to be written. -/
  | unwritable {frame rest request response size s'} (hframe : Fits limit frame.length)
      (hrequest : Request.decode frame = .ok request)
      (hhandle : s.handle request = (.ok response, s'))
      (h : response.encode = .error (.fieldTooLarge size)) :
      Stops limit s (encode frame ++ rest) [] (.error (.codec (.fieldTooLarge size))) rest
  | tooLarge {frame rest request response reply s'} (hframe : Fits limit frame.length)
      (hrequest : Request.decode frame = .ok request)
      (hhandle : s.handle request = (.ok response, s')) (hreply : response.encode = .ok reply)
      (h : ¬ Fits limit reply.length) :
      Stops limit s (encode frame ++ rest) [] (.error (.codec (.fieldTooLarge reply.length))) rest

theorem answers_or_stops (s : ServiceSession S η) {frame : Bytes}
    (hframe : Fits limit frame.length) (rest : Bytes) :
    (∃ reply s', Answers limit s frame reply s') ∨
      ∃ notice result, Stops limit s (encode frame ++ rest) notice result rest := by
  cases hrequest : Request.decode frame with
  | error e => exact .inr ⟨_, _, .undecodable hframe hrequest⟩
  | ok request =>
    rcases hhandle : s.handle request with ⟨e | response, s'⟩
    · exact .inr ⟨_, _, .rejected hframe hrequest hhandle⟩
    · cases hreply : response.encode with
      | error e =>
        obtain ⟨size, rfl⟩ := Response.kept.encode_error hreply
        exact .inr ⟨_, _, .unwritable hframe hrequest hhandle hreply⟩
      | ok reply =>
        by_cases hfits : Fits limit reply.length
        · exact .inl ⟨reply, s', ⟨request, response, hrequest, hhandle, hreply⟩, hfits⟩
        · exact .inr ⟨_, _, .tooLarge hframe hrequest hhandle hreply hfits⟩

theorem stops_of_ends (s : ServiceSession S η) {tail left : Bytes} {ending : Except Error Unit}
    (h : Ends limit tail ending left) :
    ∃ notice result, Stops limit s tail notice result left := by
  cases h with
  | clean => exact ⟨_, _, .gone⟩
  | inPrefix hne hshort => exact ⟨_, _, .cutOff (.inPrefix hne hshort)⟩
  | inPayload hsize hcut => exact ⟨_, _, .cutOff (.inPayload hsize hcut)⟩
  | tooLarge hlimit hsize => exact ⟨_, _, .oversized (.tooLarge hlimit hsize)⟩

theorem Answers.unique {frame reply reply' : Bytes} (h : Answers limit s frame reply s')
    (h' : Answers limit s frame reply' s'') : reply = reply' ∧ s' = s'' := by
  obtain ⟨request, response, hrequest, hhandle, hreply⟩ := h.handled
  obtain ⟨request', response', hrequest', hhandle', hreply'⟩ := h'.handled
  obtain rfl := Except.ok.inj (hrequest.symm.trans hrequest')
  obtain ⟨hresponse, rfl⟩ := Prod.mk.inj (hhandle.symm.trans hhandle')
  obtain rfl := Except.ok.inj hresponse
  exact ⟨Except.ok.inj (hreply.symm.trans hreply'), rfl⟩

theorem Stops.not_answers {frame reply rest left : Bytes} {notice : List Bytes}
    {result : End S η} (h : Stops limit s (encode frame ++ rest) notice result left)
    (hframe : Fits limit frame.length) : ¬ Answers limit s frame reply s' := by
  have hopens : Frame.Opens limit (encode frame ++ rest) (.ok (some frame)) rest := .frame hframe
  have hfirst := hopens.first_eq
  generalize encode frame ++ rest = tail at h hfirst
  -- The stream begins with one frame only, the one that is read.
  have hsame {frame' rest' : Bytes} (h' : Frame.Opens limit tail (.ok (some frame')) rest') :
      frame' = frame :=
    Option.some.inj (Except.ok.inj (Prod.mk.inj (h'.first_eq.symm.trans hfirst)).1)
  rintro ⟨⟨request, response, hrequest, hhandle, hreply⟩, hfits⟩
  cases h with
  | gone => cases (Frame.Opens.ended Ends.clean).first_eq.symm.trans hfirst
  | cutOff h => cases (Frame.Opens.ended h).first_eq.symm.trans hfirst
  | oversized h => cases (Frame.Opens.ended h).first_eq.symm.trans hfirst
  | undecodable hframe' h =>
    rw [hsame (.frame hframe')] at h
    cases h.symm.trans hrequest
  | rejected hframe' hrequest' h =>
    rw [hsame (.frame hframe')] at hrequest'
    obtain rfl := Except.ok.inj (hrequest'.symm.trans hrequest)
    cases h.symm.trans hhandle
  | unwritable hframe' hrequest' hhandle' h =>
    rw [hsame (.frame hframe')] at hrequest'
    obtain rfl := Except.ok.inj (hrequest'.symm.trans hrequest)
    cases hhandle'.symm.trans hhandle
    cases h.symm.trans hreply
  | tooLarge hframe' hrequest' hhandle' hreply' h =>
    rw [hsame (.frame hframe')] at hrequest'
    obtain rfl := Except.ok.inj (hrequest'.symm.trans hrequest)
    cases hhandle'.symm.trans hhandle
    cases hreply'.symm.trans hreply
    exact h hfits

/-- The frames of a stream that a session answers, and how the service ends after them. -/
structure Course (limit : Nat) (s : ServiceSession S η) (bytes : Bytes)
    (frames replies : List Bytes) (s' : ServiceSession S η) (notice : List Bytes)
    (result : End S η) (left : Bytes) : Prop where
  within : ∀ frame ∈ frames, Fits limit frame.length
  answered : Answered limit s frames replies s'
  stops : ∃ tail, bytes = frames.flatMap encode ++ tail ∧ Stops limit s' tail notice result left

theorem exists_course (s : ServiceSession S η) {frames : List Bytes} {tail left : Bytes}
    {ending : Except Error Unit} (hframes : ∀ frame ∈ frames, Fits limit frame.length)
    (hends : Ends limit tail ending left) :
    ∃ front replies s' notice result left',
      Course limit s (frames.flatMap encode ++ tail) front replies s' notice result left' := by
  induction frames generalizing s with
  | nil =>
    obtain ⟨notice, result, hstops⟩ := stops_of_ends s hends
    exact ⟨[], [], s, notice, result, left, by simp, .nothing, tail, rfl, hstops⟩
  | cons frame frames ih =>
    obtain ⟨hframe, hframes⟩ := List.forall_mem_cons.mp hframes
    rw [List.flatMap_cons, List.append_assoc]
    rcases answers_or_stops s hframe (frames.flatMap encode ++ tail) with
      ⟨reply, s₁, hfirst⟩ | ⟨notice, result, hstops⟩
    · obtain ⟨front, replies, s', notice, result, left', hwithin, hrest, tail', hbytes, hstops⟩ :=
        ih s₁ hframes
      refine ⟨frame :: front, reply :: replies, s', notice, result, left',
        List.forall_mem_cons.mpr ⟨hframe, hwithin⟩, .more hfirst hrest, tail', ?_, hstops⟩
      rw [hbytes, List.flatMap_cons, List.append_assoc]
    · exact ⟨[], [], s, notice, result, _, by simp, .nothing, _, rfl, hstops⟩

namespace Answered

variable {frames front more replies replies' : List Bytes}

theorem split (h : Answered limit s (front ++ more) replies s'') :
    ∃ s' before after, replies = before ++ after ∧ Answered limit s front before s' ∧
      Answered limit s' more after s'' := by
  induction front generalizing s replies with
  | nil => exact ⟨s, [], replies, rfl, .nothing, h⟩
  | cons frame front ih =>
    cases h with
    | more hfirst hrest =>
      obtain ⟨s', before, after, rfl, hfront, hmore⟩ := ih hrest
      exact ⟨s', _ :: before, after, rfl, .more hfirst hfront, hmore⟩

theorem unique (h : Answered limit s frames replies s')
    (h' : Answered limit s frames replies' s'') : replies = replies' ∧ s' = s'' := by
  induction h generalizing replies' with
  | nothing =>
    cases h' with
    | nothing => exact ⟨rfl, rfl⟩
  | more hfirst _ ih =>
    cases h' with
    | more hfirst' hrest =>
      obtain ⟨rfl, rfl⟩ := hfirst.unique hfirst'
      obtain ⟨rfl, rfl⟩ := ih hrest
      exact ⟨rfl, rfl⟩

theorem length_eq (h : Answered limit s frames replies s') : replies.length = frames.length := by
  induction h with
  | nothing => rfl
  | more _ _ ih => exact congrArg Nat.succ ih

end Answered

namespace Course

variable {bytes left : Bytes} {frames replies notice : List Bytes} {result : End S η}

theorem longest (h : Course limit s bytes frames replies s' notice result left) {front : List Bytes}
    (hfront : front <+: (parse limit bytes).frames) :
    (∃ replies s', Answered limit s front replies s') ↔ front <+: frames := by
  obtain ⟨hwithin, hanswered, tail, hbytes, hstops⟩ := h
  constructor
  · rintro ⟨replies', s'', h⟩
    obtain ⟨hrest, tail', htail, hends⟩ := describes_parse limit tail
    have hall : (parse limit bytes).frames = frames ++ (parse limit tail).frames := by
      rw [hbytes, htail, ← List.append_assoc, ← List.flatMap_append, ← htail]
      rw [parse_encode (List.forall_mem_append.mpr ⟨hwithin, hrest⟩) hends]
    rw [hall] at hfront
    rcases List.prefix_or_prefix_of_prefix hfront (List.prefix_append frames _) with hle | hge
    · exact hle
    · obtain ⟨more, rfl⟩ := hge
      cases more with
      | nil => simp
      | cons frame more =>
        exfalso
        obtain ⟨s₁, before, after, -, hfirst, hmore⟩ := h.split
        obtain ⟨-, rfl⟩ := hanswered.unique hfirst
        cases hmore with
        | more hframe _ =>
          rw [List.prefix_append_right_inj] at hfront
          obtain ⟨later, hlater⟩ := hfront
          rw [← hlater, List.cons_append, List.flatMap_cons, List.append_assoc] at htail
          rw [htail] at hstops
          exact hstops.not_answers (hrest frame (hlater ▸ List.mem_cons_self)) hframe
  · rintro ⟨more, rfl⟩
    obtain ⟨s'', before, -, -, hfront, -⟩ := hanswered.split
    exact ⟨before, s'', hfront⟩

end Course

/-! ## What a turn does -/

open Dialogue

theorem fits_blank (h : 0 < limit) : Fits limit blank.length := ⟨h, by decide⟩

omit [Application η] in
theorem yields_reject (hlimit : 0 < limit) (e : Error) (unread : Bytes) :
    (reject limit e : Dialogue (Turn S η)).Yields unread (outs (encode blank)) (.ended (.error e))
      unread := by
  rw [← List.append_nil (outs _)]
  exact (yields_write (fits_blank hlimit) unread).bind (.done _ _)

theorem yields_turn_frame {frame rest left : Bytes} {trace : List Octet} {a : Turn S η}
    (hframe : Fits limit frame.length) (h : (answer limit s frame).Yields rest trace a left) :
    (turn limit s).Yields (encode frame ++ rest) (inns (encode frame) ++ trace) a left := by
  have hread := (follows_read hframe).yields rest
  rw [readIn_inns] at hread
  exact hread.bind h

theorem yields_turn_answers {frame reply : Bytes} (hframe : Fits limit frame.length)
    (h : Answers limit s frame reply s') (rest : Bytes) :
    (turn limit s).Yields (encode frame ++ rest) (inns (encode frame) ++ outs (encode reply))
      (.next s') rest := by
  obtain ⟨request, response, hrequest, hhandle, hreply⟩ := h.handled
  have hturn := (follows_turn hframe h.fits hrequest hhandle hreply).yields rest
  rwa [readIn_append, readIn_inns, readIn_outs, List.append_nil] at hturn

theorem yields_answer_unfit {frame rest : Bytes} {request : Request} {response : Response}
    {size : Nat} (hrequest : Request.decode frame = .ok request)
    (hhandle : s.handle request = (.ok response, s'))
    (h : (reply limit s' response : Dialogue (Turn S η)) =
      .done (.ended (.error (.codec (.fieldTooLarge size))))) :
    (answer limit s frame).Yields rest [] (.ended (.error (.codec (.fieldTooLarge size))))
      rest := by
  unfold answer
  simp only [hrequest, hhandle, h]
  exact .done _ _

theorem yields_turn_stops (hlimit : 0 < limit) {tail left : Bytes} {notice : List Bytes}
    {result : End S η} (h : Stops limit s tail notice result left) :
    ∃ trace, (turn limit s).Yields tail trace (.ended result) left ∧
      written trace = notice.flatMap encode := by
  cases h with
  | gone =>
    obtain ⟨used, hread⟩ := yields_read_ended (Ends.clean : Ends limit [] (.ok ()) [])
    exact ⟨inns used ++ [], hread.bind (.done _ _), by simp⟩
  | cutOff h =>
    obtain ⟨used, hread⟩ := yields_read_ended h
    exact ⟨inns used ++ [], hread.bind (.done _ _), by simp⟩
  | oversized h =>
    obtain ⟨used, hread⟩ := yields_read_ended h
    exact ⟨_, hread.bind (yields_reject hlimit _ _), by simp⟩
  | @undecodable frame _ _ hframe h =>
    refine ⟨inns (encode frame) ++ outs (encode blank), yields_turn_frame hframe ?_, by simp⟩
    unfold answer
    simp only [h]
    exact yields_reject hlimit _ _
  | @rejected frame _ _ _ _ hframe hrequest h =>
    refine ⟨inns (encode frame) ++ outs (encode blank), yields_turn_frame hframe ?_, by simp⟩
    unfold answer
    simp only [hrequest, h]
    exact yields_reject hlimit _ _
  | unwritable hframe hrequest hhandle h =>
    refine ⟨_, yields_turn_frame hframe (yields_answer_unfit hrequest hhandle ?_), by simp⟩
    unfold reply
    rw [h]
    rfl
  | tooLarge hframe hrequest hhandle hreply h =>
    refine ⟨_, yields_turn_frame hframe (yields_answer_unfit hrequest hhandle ?_), by simp⟩
    unfold reply
    simp only [hreply, write_refused h]
    rfl

/-! ## Turn after turn -/

/-- Where a service is after a turn. -/
def afterTurn (limit : Nat) : Turn S η → Task S η
  | .next s => .running (turn limit s)
  | .ended result => .ended result

section

variable {ς : Type} [ByteStream ς]

theorem start_eq (hlimit : 0 < limit) (s : ServiceSession S η) :
    start limit s = .running (turn limit s) := if_neg (Nat.ne_of_gt hlimit)

theorem advance_zero (task : Task S η) (w : ς) : advance limit 0 task w = (task, w) := by
  cases task <;> rfl

theorem advance_ended (turns : Nat) (result : End S η) (w : ς) :
    advance limit turns (.ended result) w = (.ended result, w) := by
  cases turns <;> rfl

theorem advance_finished {d : Dialogue (Turn S η)} {a : Turn S η} {w w' : ς}
    (h : d.run none w = (.finished a, w')) (turns : Nat) :
    advance limit (turns + 1) (.running d) w = advance limit turns (afterTurn limit a) w' := by
  cases a with
  | next s => simp only [advance, h, afterTurn]
  | ended result => simp only [advance, h, afterTurn, advance_ended]

theorem advance_blocked {d rest : Dialogue (Turn S η)} {w w' : ς}
    (h : d.run none w = (.blocked rest, w')) (turns : Nat) :
    advance limit (turns + 1) (.running d) w = (.running rest, w') := by
  simp only [advance, h]

/-- Goes on with a service again and again, each time for up to a number of turns. -/
def resume (limit : Nat) (polls : List Nat) (task : Task S η) (w : ς) : Task S η × ς :=
  polls.foldl (fun at_ turns => advance limit turns at_.1 at_.2) (task, w)

theorem resume_cons (turns : Nat) (polls : List Nat) (task : Task S η) (w : ς) :
    resume limit (turns :: polls) task w =
      resume limit polls (advance limit turns task w).1 (advance limit turns task w).2 := rfl

theorem resume_append (polls more : List Nat) (task : Task S η) (w : ς) :
    resume limit (polls ++ more) task w =
      resume limit more (resume limit polls task w).1 (resume limit polls task w).2 :=
  List.foldl_append

theorem resume_ended (polls : List Nat) (result : End S η) (w : ς) :
    resume limit polls (.ended result) w = (.ended result, w) := by
  induction polls with
  | nil => rfl
  | cons turns polls ih => rw [resume_cons, advance_ended, ih]

end

theorem advance_answered {frames replies : List Bytes} (h : Answered limit s frames replies s')
    (hframes : ∀ frame ∈ frames, Fits limit frame.length) (turns : Nat) {tail : Bytes} {w : Wire}
    (hw : w.Smooth) (hu : w.unread = frames.flatMap encode ++ tail) :
    ∃ w', advance limit (frames.length + turns) (.running (turn limit s)) w =
        advance limit turns (.running (turn limit s')) w' ∧
      w'.Smooth ∧ w'.unread = tail ∧
      written w'.moved = written w.moved ++ replies.flatMap encode := by
  induction h generalizing w with
  | nothing => exact ⟨w, by rw [List.length_nil, Nat.zero_add], hw, hu, by simp⟩
  | more first _ ih =>
    obtain ⟨hframe, hframes⟩ := List.forall_mem_cons.mp hframes
    rw [List.flatMap_cons, List.append_assoc] at hu
    obtain ⟨w₁, hrun, hmoved, hleft⟩ :=
      Wire.run_smooth (yields_turn_answers hframe first _) none hw hu
    obtain ⟨w', hrest, hw', hu', hwritten⟩ := ih hframes (hmoved.smooth hw) hleft
    refine ⟨w', ?_, hw', hu', ?_⟩
    · rw [List.length_cons, Nat.add_right_comm, advance_finished hrun]
      exact hrest
    · rw [hwritten, hmoved.moved]
      simp

theorem advance_stops (hlimit : 0 < limit) {tail left : Bytes} {notice : List Bytes}
    {result : End S η} (h : Stops limit s tail notice result left) (turns : Nat) {w : Wire}
    (hw : w.Smooth) (hu : w.unread = tail) :
    ∃ w', advance limit (turns + 1) (.running (turn limit s)) w = (.ended result, w') ∧
      written w'.moved = written w.moved ++ notice.flatMap encode ∧ w'.unread = left := by
  obtain ⟨trace, hturn, htrace⟩ := yields_turn_stops hlimit h
  obtain ⟨w', hrun, hmoved, hleft⟩ := Wire.run_smooth hturn none hw hu
  refine ⟨w', ?_, ?_, hleft⟩
  · rw [advance_finished hrun, afterTurn, advance_ended]
  · rw [hmoved.moved, written_append, htrace]

/-! ## Waiting -/

/-- What becomes of a service with a stream of which `unread` is all that will ever come. -/
inductive Task.Yields (limit : Nat) : (task : Task S η) → (unread : Bytes) → (trace : List Octet) →
    End S η → (left : Bytes) → Prop where
  | ended {result : End S η} {left} : Yields limit (.ended result) left [] result left
  | turn {d : Dialogue (Turn S η)} {unread trace a mid later result left}
      (h : d.Yields unread trace a mid)
      (rest : Yields limit (afterTurn limit a) mid later result left) :
      Yields limit (.running d) unread (trace ++ later) result left

theorem Course.yields (hlimit : 0 < limit) {bytes left : Bytes} {frames replies notice : List Bytes}
    {result : End S η} (h : Course limit s bytes frames replies s' notice result left) :
    ∃ trace, Task.Yields limit (.running (turn limit s)) bytes trace result left ∧
      written trace = (replies ++ notice).flatMap encode := by
  obtain ⟨hwithin, hanswered, tail, rfl, hstops⟩ := h
  induction hanswered with
  | nothing =>
    obtain ⟨trace, hturn, htrace⟩ := yields_turn_stops hlimit hstops
    exact ⟨trace ++ [], .turn hturn .ended, by simp [htrace]⟩
  | more first _ ih =>
    obtain ⟨hframe, hframes⟩ := List.forall_mem_cons.mp hwithin
    obtain ⟨trace, hrest, htrace⟩ := ih hframes hstops
    rw [List.flatMap_cons, List.append_assoc]
    exact ⟨_, .turn (yields_turn_answers hframe first _) hrest, by simp [htrace]⟩

/-- A service on its way: a part of the bytes is moved, and it goes on with the others. -/
def Underway (limit : Nat) (w : Wire) (trace : List Octet) (result : End S η) (left : Bytes)
    (task : Task S η) (w' : Wire) : Prop :=
  ∃ before later, trace = before ++ later ∧ w.Moved w' before ∧
    task.Yields limit w'.unread later result left

theorem advance_underway (turns : Nat) {task : Task S η} {trace : List Octet} {result : End S η}
    {left : Bytes} {w : Wire} (hw : w.Steady) (h : task.Yields limit w.unread trace result left) :
    Underway limit w trace result left (advance limit turns task w).1
      (advance limit turns task w).2 := by
  induction turns generalizing task trace w with
  | zero =>
    rw [advance_zero]
    exact ⟨[], trace, rfl, .rfl, h⟩
  | succ turns ih =>
    cases h with
    | ended =>
      rw [advance_ended]
      exact ⟨[], [], rfl, .rfl, .ended⟩
    | @turn d _ first a mid later _ _ h rest =>
      have hrun := Wire.run_steady h none hw rfl
      rcases heq : d.run none w with ⟨progress, w'⟩
      rw [heq] at hrun
      cases hrun with
      | finished moved hleft =>
        rw [advance_finished heq]
        subst hleft
        obtain ⟨before, after, hsplit, hmoved, htask⟩ := ih (moved.steady hw) rest
        exact ⟨first ++ before, after, by rw [hsplit, List.append_assoc], moved.trans hmoved, htask⟩
      | @blocked _ before after _ hsplit moved waited hrest =>
        rw [advance_blocked heq]
        exact ⟨before, after ++ later, by rw [hsplit, List.append_assoc], moved, .turn hrest rest⟩

theorem resume_underway (polls : List Nat) {task : Task S η} {trace : List Octet} {result : End S η}
    {left : Bytes} {w : Wire} (hw : w.Steady) (h : task.Yields limit w.unread trace result left) :
    Underway limit w trace result left (resume limit polls task w).1
      (resume limit polls task w).2 := by
  induction polls generalizing task trace w with
  | nil => exact ⟨[], trace, rfl, .rfl, h⟩
  | cons turns polls ih =>
    obtain ⟨before, later, rfl, hmoved, htask⟩ := advance_underway turns hw h
    obtain ⟨before', later', rfl, hmoved', htask'⟩ := ih (hmoved.steady hw) htask
    rw [resume_cons]
    exact ⟨before ++ before', later', (List.append_assoc ..).symm, hmoved.trans hmoved', htask'⟩

theorem resume_turn {d : Dialogue (Turn S η)} {w : Wire} (hfinishes : w.Finishes d)
    (hw : w.Steady) {trace : List Octet} {a : Turn S η} {left : Bytes}
    (h : d.Yields w.unread trace a left) :
    ∃ polls w', resume limit polls (.running d) w = (afterTurn limit a, w') ∧
      w.Moved w' trace ∧ w'.unread = left := by
  induction hfinishes generalizing trace with
  | @now d w _ w' hrun =>
    have hsteady := Wire.run_steady h none hw rfl
    rw [hrun] at hsteady
    cases hsteady with
    | finished moved hleft =>
      refine ⟨[1], w', ?_, moved, hleft⟩
      rw [resume_cons, advance_finished hrun, advance_zero]
      rfl
  | @later d w d' w₁ hrun _ ih =>
    have hsteady := Wire.run_steady h none hw rfl
    rw [hrun] at hsteady
    cases hsteady with
    | @blocked _ before later _ hsplit moved _ hrest =>
      obtain ⟨polls, w', hpolls, hmoved, hleft⟩ := ih (moved.steady hw) hrest
      refine ⟨1 :: polls, w', ?_, hsplit ▸ moved.trans hmoved, hleft⟩
      rw [resume_cons, advance_blocked hrun]
      exact hpolls

theorem exists_resume {task : Task S η} {unread left : Bytes} {trace : List Octet}
    {result : End S η} (h : task.Yields limit unread trace result left) {w : Wire}
    (hw : w.Steady) (hlively : Wire.Lively w.whims) (hu : w.unread = unread) :
    ∃ polls w', resume limit polls task w = (.ended result, w') := by
  induction h generalizing w with
  | ended => exact ⟨[], w, rfl⟩
  | @turn d unread trace a mid later result left h _ ih =>
    subst hu
    obtain ⟨polls, w₁, hturn, hmoved, hleft⟩ := resume_turn (Wire.finishes hlively d rfl) hw h
    obtain ⟨polls', w', hrest⟩ := ih (hmoved.steady hw) (hmoved.whims ▸ hlively) hleft
    refine ⟨polls ++ polls', w', ?_⟩
    rw [resume_append, hturn]
    exact hrest

/-! ## The theorem -/

/-- What a service does with a stream of some bytes, in whatever pieces the stream comes. -/
structure Folds (limit : Nat) (s : ServiceSession S η) (bytes : Bytes) (frames replies : List Bytes)
    (s' : ServiceSession S η) (notice : List Bytes) (result : End S η) (left : Bytes) : Prop where
  course : Course limit s bytes frames replies s' notice result left
  longest : ∀ front, front <+: (parse limit bytes).frames →
    ((∃ replies s', Answered limit s front replies s') ↔ front <+: frames)
  /-- A turn for each of the first frames has brought the service to the session as they leave it,
  with their replies written. -/
  turns : ∀ cuts n, n ≤ frames.length →
    ∃ s₁ w, Answered limit s (frames.take n) (replies.take n) s₁ ∧
      advance limit n (start limit s) (cut bytes cuts) = (.running (turn limit s₁), w) ∧
      written w.moved = (replies.take n).flatMap encode
  /-- With one turn more the service has ended, and does nothing ever after. -/
  ends : ∀ cuts n, frames.length < n →
    ∃ w, advance limit n (start limit s) (cut bytes cuts) = (.ended result, w) ∧
      written w.moved = (replies ++ notice).flatMap encode ∧ w.unread = left
  /-- Where it has to wait, the service has done a part of this, and once it has ended all of it. -/
  waits : ∀ w : Wire, w.Steady → w.unread = bytes → w.moved = [] → ∀ polls,
    ∃ task w', resume limit polls (start limit s) w = (task, w') ∧
      written w'.moved <+: (replies ++ notice).flatMap encode ∧
      ∀ result', task = .ended result' → result' = result ∧
        written w'.moved = (replies ++ notice).flatMap encode ∧ w'.unread = left
  finishes : ∀ w : Wire, w.Steady → w.unread = bytes → Wire.Lively w.whims →
    ∃ polls, ∀ more, ∃ w', resume limit (polls ++ more) (start limit s) w = (.ended result, w')

namespace Course

variable {bytes left : Bytes} {frames replies notice : List Bytes} {result : End S η}

theorem turns (h : Course limit s bytes frames replies s' notice result left) (hlimit : 0 < limit)
    (cuts : Nat → Nat) {n : Nat} (hn : n ≤ frames.length) :
    ∃ s₁ w, Answered limit s (frames.take n) (replies.take n) s₁ ∧
      advance limit n (start limit s) (cut bytes cuts) = (.running (turn limit s₁), w) ∧
      written w.moved = (replies.take n).flatMap encode := by
  obtain ⟨hwithin, hanswered, tail, hbytes, -⟩ := h
  rw [← List.take_append_drop n frames] at hanswered hbytes
  obtain ⟨s₁, before, after, rfl, hfront, -⟩ := hanswered.split
  have hcount : (frames.take n).length = n := by
    rw [List.length_take]
    omega
  have hbefore : (before ++ after).take n = before :=
    List.take_left' (hfront.length_eq.trans hcount)
  rw [List.flatMap_append, List.append_assoc] at hbytes
  obtain ⟨w, hrun, -, -, hwritten⟩ := advance_answered hfront
    (fun frame hframe => hwithin frame (List.mem_of_mem_take hframe)) 0 (smooth_cut bytes cuts)
    hbytes
  rw [hcount, Nat.add_zero, advance_zero] at hrun
  rw [hbefore, start_eq hlimit]
  exact ⟨s₁, w, hfront, hrun, hwritten⟩

theorem ends (h : Course limit s bytes frames replies s' notice result left) (hlimit : 0 < limit)
    (cuts : Nat → Nat) {n : Nat} (hn : frames.length < n) :
    ∃ w, advance limit n (start limit s) (cut bytes cuts) = (.ended result, w) ∧
      written w.moved = (replies ++ notice).flatMap encode ∧ w.unread = left := by
  obtain ⟨hwithin, hanswered, tail, hbytes, hstops⟩ := h
  obtain ⟨turns, rfl⟩ : ∃ turns, n = frames.length + (turns + 1) :=
    ⟨n - frames.length - 1, by omega⟩
  obtain ⟨w₁, hrun, hw₁, hleft, hwritten⟩ :=
    advance_answered hanswered hwithin (turns + 1) (smooth_cut bytes cuts) hbytes
  obtain ⟨w, hend, hnotice, hunread⟩ := advance_stops hlimit hstops turns hw₁ hleft
  refine ⟨w, ?_, ?_, hunread⟩
  · rw [start_eq hlimit, hrun, hend]
  · rw [hnotice, hwritten, List.flatMap_append]
    rfl

theorem waits (h : Course limit s bytes frames replies s' notice result left) (hlimit : 0 < limit)
    {w : Wire} (hw : w.Steady) (hu : w.unread = bytes) (hmoved : w.moved = []) (polls : List Nat) :
    ∃ task w', resume limit polls (start limit s) w = (task, w') ∧
      written w'.moved <+: (replies ++ notice).flatMap encode ∧
      ∀ result', task = .ended result' → result' = result ∧
        written w'.moved = (replies ++ notice).flatMap encode ∧ w'.unread = left := by
  obtain ⟨trace, htask, htrace⟩ := h.yields hlimit
  rw [← hu, ← start_eq hlimit] at htask
  have hunderway := resume_underway polls hw htask
  generalize resume limit polls (start limit s) w = at_ at hunderway ⊢
  obtain ⟨task, w'⟩ := at_
  obtain ⟨before, later, hsplit, hdone, hrest⟩ := hunderway
  refine ⟨task, w', rfl, ?_, fun result' hend => ?_⟩
  · rw [hdone.moved, hmoved, List.nil_append, ← htrace, hsplit, written_append]
    exact List.prefix_append ..
  · subst hend
    cases hrest with
    | ended =>
      rw [List.append_nil] at hsplit
      refine ⟨rfl, ?_, rfl⟩
      rw [hdone.moved, hmoved, List.nil_append, ← htrace, hsplit]

theorem finishes (h : Course limit s bytes frames replies s' notice result left)
    (hlimit : 0 < limit) {w : Wire} (hw : w.Steady) (hu : w.unread = bytes)
    (hlively : Wire.Lively w.whims) :
    ∃ polls, ∀ more, ∃ w',
      resume limit (polls ++ more) (start limit s) w = (.ended result, w') := by
  obtain ⟨trace, htask, -⟩ := h.yields hlimit
  obtain ⟨polls, w', hpolls⟩ := exists_resume htask hw hlively hu
  refine ⟨polls, fun more => ⟨w', ?_⟩⟩
  rw [start_eq hlimit, resume_append, hpolls, resume_ended]

end Course

/-- **A service is the fold of its session over the frames of the stream**, up to the first one that
it does not answer, and ends there as `Stops` says. -/
theorem folds_frames (hlimit : 0 < limit) (s : ServiceSession S η) (bytes : Bytes) :
    ∃ frames replies s' notice result left,
      Folds limit s bytes frames replies s' notice result left := by
  obtain ⟨hwithin, tail, hbytes, hends⟩ := describes_parse limit bytes
  obtain ⟨frames, replies, s', notice, result, left, hcourse⟩ := exists_course s hwithin hends
  rw [← hbytes] at hcourse
  exact ⟨frames, replies, s', notice, result, left, {
    course := hcourse
    longest := fun _ => hcourse.longest
    turns := fun cuts _ => hcourse.turns hlimit cuts
    ends := fun cuts _ => hcourse.ends hlimit cuts
    waits := fun _ => hcourse.waits hlimit
    finishes := fun _ => hcourse.finishes hlimit }⟩

/-- A client that asks for evidence and then sends a frame that is no message. -/
theorem folds_attest_and_noise : 0 < 16 ∧
    let session : ServiceSession .p256AesGcmSha256 StockApplication :=
      { evidence := [7], application := .echo, entropy := ⟨[1]⟩ }
    ∃ frames replies s' notice result left,
      Folds 16 session (encode [1, 0, 0, 0, 0] ++ encode [0x7f]) frames replies s' notice result
        left :=
  ⟨by decide, folds_frames (by decide) _ _⟩

end Service

end SealedLink
