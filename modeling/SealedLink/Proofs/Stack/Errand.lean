import SealedLink.Link.Basic
import SealedLink.Service.Serve
import SealedLink.Proofs.Message.Form
import SealedLink.Proofs.Stream.Joined

/-!
# Errands

An errand is one request to a service and its answer: the bytes that go over the stream both ways,
and the session of the service before and after it.
-/

namespace SealedLink

variable {S : CipherSuite} {η : Type} [Application η]

/-! ## The two dialogues of an exchange -/

theorem Link.follows_exchange {limit : Nat} {request answer : Bytes} {response : Response}
    (hrequest : Frame.Fits limit request.length) (hanswer : Frame.Fits limit answer.length)
    (hdecode : Response.decode answer = .ok response) :
    (Link.exchange limit request).Follows
      (outs (Frame.encode request) ++ inns (Frame.encode answer)) (.ok response) := by
  refine (Frame.follows_write hrequest).bind ?_
  rw [← List.append_nil (inns _)]
  refine (Frame.follows_read hanswer).bind ?_
  simp only [hdecode]
  exact .done _

theorem Service.follows_turn {limit : Nat} {request answer : Bytes} {r : Request}
    {response : Response} {s s' : ServiceSession S η} (hrequest : Frame.Fits limit request.length)
    (hanswer : Frame.Fits limit answer.length) (hdecode : Request.decode request = .ok r)
    (hhandle : s.handle r = (.ok response, s')) (hencode : response.encode = .ok answer) :
    (Service.turn limit s).Follows
      (inns (Frame.encode request) ++ outs (Frame.encode answer)) (.next s') := by
  refine (Frame.follows_read hrequest).bind ?_
  simp only [Service.answer, hdecode, hhandle, Service.reply, hencode]
  rw [← List.append_nil (outs _)]
  refine (Frame.follows_write hanswer).bind ?_
  exact .done _

/-! ## Errands -/

/-- An errand under a link's limit and a service's limit for frames. -/
structure Errand (S : CipherSuite) (η : Type) [Application η] (limit serviceLimit : Nat) where
  sequence : UInt64
  request : Bytes
  response : Response
  /-- The bytes that the client sends, and those that it gets back. -/
  forth : Bytes
  back : Bytes
  before : ServiceSession S η
  after : ServiceSession S η
  asks : (Link.exchange limit request).Follows (outs forth ++ inns back) (.ok response)
  answers : (Service.turn serviceLimit before).Follows (inns forth ++ outs back) (.next after)
  back_ne : back ≠ []

/-- A message that fits both sides. -/
def FitsBoth (limit serviceLimit size : Nat) : Prop :=
  Frame.Fits limit size ∧ Frame.Fits serviceLimit size

/-- The errand's request is the written form of a message, and within the limit of the link. -/
structure Errand.For {limit serviceLimit : Nat} (e : Errand S η limit serviceLimit) (r : Message) :
    Prop where
  written : Request.encode r = .ok e.request
  size : e.request.length ≤ limit

theorem exists_errand {limit serviceLimit : Nat} {r answer : Message} {s s' : ServiceSession S η}
    (q : UInt64) (hr : FitsBoth limit serviceLimit r.size)
    (ha : FitsBoth limit serviceLimit answer.size)
    (hhandle : s.handle r = (.ok (.message answer), s')) :
    ∃ e : Errand S η limit serviceLimit, e.sequence = q ∧ e.response = .message answer ∧
      e.before = s ∧ e.after = s' ∧ e.For r := by
  obtain ⟨request, hrequest, -, hrsize⟩ := Message.exists_written hr.1.2
  obtain ⟨back, -, hback, hbsize⟩ := Message.exists_written ha.1.2
  rw [← hrsize] at hr
  rw [← hbsize] at ha
  have hforth := Link.follows_exchange hr.1 ha.1 (Response.kept.decode_eq_ok.mpr hback)
  have hanswers :=
    Service.follows_turn hr.2 ha.2 (Request.kept.decode_eq_ok.mpr hrequest) hhandle hback
  have hne : Frame.encode back ≠ [] := by
    intro hnil
    have := Frame.length_encode back
    rw [hnil] at this
    simp at this
  exact ⟨⟨q, request, .message answer, _, _, s, s', hforth, hanswers, hne⟩, rfl, rfl, rfl, rfl,
    hrequest, hr.1.1⟩

theorem Errand.send_eq {config : LinkConfig} {serviceLimit : Nat} {r : Message}
    {e : Errand S η config.maxFrameSize serviceLimit} (h : e.For r) :
    Link.send { config := config } e.sequence r =
      (none, { config := config, queue := [(e.sequence, e.request)] }) := by
  unfold Link.send
  rw [h.written]
  simp [Nat.not_lt.mpr h.size, Link.isClosed]

end SealedLink
