import SealedLink.Link.Basic
import SealedLink.Proofs.Stream.Framing

/-!
# One exchange of a link

What an exchange makes of the rest of the peer's stream (`yields_exchange`), and what can come of
it on a wire in its time (`attempt_runExchange`).
-/

namespace SealedLink.Link

open Dialogue

/-! ## The exchange and the peer's stream -/

/-- What the next frame of the peer's stream says, or what is wrong with it. -/
def reading (limit : Nat) (rest : Bytes) : TransportResult :=
  match (Frame.first limit rest).1 with
  | .error (.io e) => .error (.ofIoError e)
  | .error _ => .error .deserialization
  | .ok none => .error .socketClosed
  | .ok (some frame) =>
    match Response.decode frame with
    | .error _ => .error .deserialization
    | .ok response => .ok response

/-- The bytes that an exchange moves if nothing cuts it short: a request that no frame can hold
moves none. -/
def course (limit : Nat) (request rest : Bytes) : List Octet :=
  if Frame.Fits limit request.length then
    outs (Frame.encode request) ++ inns (Frame.consumed limit rest)
  else []

def outcome (limit : Nat) (request rest : Bytes) : TransportResult :=
  if Frame.Fits limit request.length then reading limit rest else .error .serialization

theorem yields_exchange (limit : Nat) (request rest : Bytes) :
    ∃ left, Yields (exchange limit request) rest (course limit request rest)
      (outcome limit request rest) left := by
  unfold course outcome
  split
  · rename_i hfits
    refine ⟨(Frame.first limit rest).2, (Frame.yields_write hfits rest).bind ?_⟩
    rw [← List.append_nil (inns _)]
    refine (Frame.yields_first limit rest).bind ?_
    unfold reading
    rcases (Frame.first limit rest).1 with (_ | _ | _ | _ | _) | (_ | frame)
    case ok.some =>
      simp only
      cases Response.decode frame <;> exact .done _ _
    all_goals exact .done _ _
  · rename_i hfits
    refine ⟨rest, ?_⟩
    unfold exchange
    rw [Frame.write_refused hfits]
    exact .done _ _

theorem brittle_exchange (limit : Nat) (request : Bytes) :
    Brittle (fun e => .error (.ofIoError e)) (exchange limit request) := by
  refine (Frame.brittle_write limit request).bind (fun _ => rfl) fun written => ?_
  rcases written with (_ | _ | _ | _ | _) | _
  case ok =>
    refine (Frame.brittle_read limit).bind (fun _ => rfl) fun answer => ?_
    rcases answer with (_ | _ | _ | _ | _) | (_ | frame)
    case ok.some =>
      simp only
      cases Response.decode frame <;> exact .done _
    all_goals exact .done _
  all_goals exact .done _

theorem outcome_ok {limit : Nat} {request rest : Bytes} {response : Response}
    (h : outcome limit request rest = .ok response) :
    ∃ reply left, Frame.Fits limit request.length ∧ Frame.Fits limit reply.length ∧
      Response.decode reply = .ok response ∧ rest = Frame.encode reply ++ left ∧
      course limit request rest = outs (Frame.encode request) ++ inns (Frame.encode reply) := by
  unfold outcome at h
  split at h
  · rename_i hfits
    have hopens := Frame.opens_first limit rest
    unfold reading at h
    rcases hfirst : Frame.first limit rest with ⟨result, left⟩
    rw [hfirst] at hopens h
    rcases result with (_ | _ | _ | _ | _) | (_ | reply)
    case ok.some =>
      obtain ⟨hreply, hrest⟩ := hopens.eq_encode
      have hdecoded : Response.decode reply = .ok response := by
        simp only at h
        cases hdecode : Response.decode reply with
        | error e => rw [hdecode] at h; cases h
        | ok r => rw [hdecode] at h; cases h; rfl
      have hconsumed : Frame.consumed limit rest = Frame.encode reply :=
        Frame.consumed_eq (by rw [hfirst]; exact hrest)
      refine ⟨reply, left, hfits, hreply, hdecoded, hrest, ?_⟩
      rw [course, if_pos hfits, hconsumed]
    all_goals cases h
  · cases h

/-! ## The exchange on a wire -/

/-- What comes of an exchange on a wire: it takes its course, a call fails, its time is over, or it
waits. Only an exchange with a deadline is late, and only a call that was left to wait makes it
so. -/
inductive Attempt (deadline : Option Nat) (w : Wire) (trace : List Octet)
    (result : TransportResult) (left : Bytes) : Progress TransportResult × Wire → Prop where
  | finished {w'} (moved : w.Moved w' trace) :
      Attempt deadline w trace result left (.finished result, w')
  | failed {e s w'} (hs : s <+: trace) (moved : w'.moved = w.moved ++ s)
      (faults : w'.faults = w.faults ++ [e]) :
      Attempt deadline w trace result left (.finished (.error (.ofIoError e)), w')
  | late {s w'} (timed : deadline ≠ none) (hs : s <+: trace) (moved : w.Moved w' s)
      (waited : w'.Waited) :
      Attempt deadline w trace result left (.finished (.error .other), w')
  | blocked {rest s t w'} (hs : trace = s ++ t) (moved : w.Moved w' s)
      (h : Yields rest w'.unread t result left)
      (brittle : Brittle (fun e => .error (.ofIoError e)) rest) :
      Attempt deadline w trace result left (.blocked rest, w')

theorem attempt_runExchange {d : Dialogue TransportResult} {w : Wire} {trace : List Octet}
    {result : TransportResult} {left : Bytes} (horizon deadline : Option Nat)
    (h : Yields d w.unread trace result left)
    (hb : Brittle (fun e => .error (.ofIoError e)) d) :
    Attempt deadline w trace result left (runExchange horizon deadline d w) := by
  have houtcome := Wire.run_yields h hb (earlier deadline horizon) rfl
  unfold runExchange
  generalize d.run (earlier deadline horizon) w = progress at houtcome
  cases houtcome with
  | finished moved hleft => exact .finished moved
  | failed hs moved faults => exact .failed hs moved faults
  | @blocked rest s t w' hs moved waited hy hb =>
    have hbegun : s <+: trace := ⟨t, hs.symm⟩
    have hlate (instant : Nat) (timed : deadline ≠ none) :
        Attempt deadline w trace result left
          (.finished (.error .other), ByteStream.waitUntil w' instant) :=
      .late timed hbegun ⟨moved.moved, moved.unread, moved.faults, moved.whims⟩ waited
    cases deadline with
    | none => exact .blocked hs moved hy hb
    | some deadline =>
      cases horizon with
      | none => exact hlate deadline (by simp)
      | some horizon =>
        simp only
        split
        · exact hlate deadline (by simp)
        · exact .blocked hs moved hy hb

end SealedLink.Link
