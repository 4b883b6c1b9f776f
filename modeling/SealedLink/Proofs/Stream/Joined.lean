import SealedLink.Proofs.Stream.Metered

/-!
# Two dialogues over one pair of pipes

What one side has still to write, after what is in the pipe, is what the other side has still to
read. As long as that is so, one of the two sides can always go on.
-/

namespace SealedLink

def PipeEnd.flip (e : PipeEnd) : PipeEnd := ⟨e.outbound, e.inbound, e.now⟩

theorem PipeEnd.Open.flip {e : PipeEnd} (h : e.Open) : e.flip.Open := ⟨h.outbound, h.inbound⟩

/-! ## The shape of a trace -/

/-- Octets of one kind, then octets of the other kind. The second part is there if the first is. -/
def Phased (first second : UInt8 → Octet) (t : List Octet) : Prop :=
  ∃ u v, t = u.map first ++ v.map second ∧ (v = [] → u = [])

/-- A side that asks, and then reads the answer. -/
def Asks (t : List Octet) : Prop := Phased .out .inn t

/-- A side that reads what it is asked, and then answers. -/
def Replies (t : List Octet) : Prop := Phased .inn .out t

theorem Phased.suffix {first second : UInt8 → Octet} {t left : List Octet}
    (h : Phased first second t) (hs : left <:+ t) : Phased first second left := by
  obtain ⟨s, rfl⟩ := hs
  obtain ⟨u, v, heq, hv⟩ := h
  rcases List.append_eq_append_iff.mp heq with ⟨a, hu, ht⟩ | ⟨c, -, ht⟩
  · obtain ⟨u₁, u₂, rfl, -, rfl⟩ := List.map_eq_append_iff.mp hu
    refine ⟨u₂, v, ht, fun h => ?_⟩
    exact (List.append_eq_nil_iff.mp (hv h)).2
  · obtain ⟨v₁, v₂, rfl, -, rfl⟩ := List.map_eq_append_iff.mp ht
    exact ⟨[], v₂, rfl, fun _ => rfl⟩

/-! ## Two sides -/

/-- Two traces that fit together over the pipes of an end: that of the side that holds the end, and
that of its peer. -/
structure Joined (e : PipeEnd) (t peer : List Octet) : Prop where
  isOpen : e.Open
  room : 0 < e.inbound.capacity ∧ 0 < e.outbound.capacity
  forth : e.outbound.buffer ++ written t = readIn peer
  back : e.inbound.buffer ++ written peer = readIn t

theorem Joined.flip {e : PipeEnd} {t peer : List Octet} (h : Joined e t peer) :
    Joined e.flip peer t :=
  ⟨h.isOpen.flip, h.room.symm, h.back, h.forth⟩

theorem Joined.instant {e : PipeEnd} {t peer : List Octet} (h : Joined e t peer) (now : Nat) :
    Joined ⟨e.inbound, e.outbound, now⟩ t peer :=
  ⟨⟨h.isOpen.inbound, h.isOpen.outbound⟩, h.room, h.forth, h.back⟩

theorem Joined.inbound_nil {e : PipeEnd} {peer : List Octet} (h : Joined e [] peer) :
    e.inbound.buffer = [] :=
  (List.append_eq_nil_iff.mp h.back).1

theorem Joined.moved {e e' : PipeEnd} {s t peer : List Octet} (h : Joined e (s ++ t) peer)
    (hm : e.Moved e' s) : Joined e' t peer where
  isOpen := hm.isOpen
  room := by
    rw [hm.inboundCapacity, hm.outboundCapacity]
    exact h.room
  forth := by
    rw [hm.outbound, List.append_assoc, ← written_append, h.forth]
  back := by
    have hback := h.back
    rw [hm.inbound, readIn_append, List.append_assoc] at hback
    exact List.append_cancel_left hback

/-- A side can move the next octet of its trace. -/
def Able (e : PipeEnd) : List Octet → Prop
  | [] => False
  | .inn _ :: _ => e.inbound.buffer ≠ []
  | .out _ :: _ => e.outbound.buffer.length < e.outbound.capacity

theorem Able.instant {e : PipeEnd} {t : List Octet} (h : Able e t) (now : Nat) :
    Able ⟨e.inbound, e.outbound, now⟩ t :=
  match t, h with
  | .inn _ :: _, h => h
  | .out _ :: _, h => h

theorem Able.kept {e e' : PipeEnd} {s t : List Octet} (h : Able e.flip t) (hm : e.Moved e' s) :
    Able e'.flip t := by
  match t, h with
  | .inn _ :: _, h =>
    have hne : e.outbound.buffer ≠ [] := h
    simp only [Able, PipeEnd.flip, hm.outbound]
    exact List.append_ne_nil_of_left_ne_nil hne _
  | .out _ :: _, h =>
    have hlt : e.inbound.buffer.length < e.inbound.capacity := h
    have hlength := congrArg List.length hm.inbound
    rw [List.length_append] at hlength
    simp only [Able, PipeEnd.flip, hm.inboundCapacity]
    omega

/-- **One of the two sides can go on**, if the side that asks has anything left to do. -/
theorem Joined.able {e : PipeEnd} {t peer : List Octet} (h : Joined e t peer) (ht : Asks t)
    (hpeer : Replies peer) (hne : t ≠ []) : Able e t ∨ Able e.flip peer := by
  obtain ⟨u, v, rfl, hv⟩ := ht
  obtain ⟨u', v', rfl, -⟩ := hpeer
  have hforth : e.outbound.buffer ++ written (outs u ++ inns v) = readIn (inns u' ++ outs v') :=
    h.forth
  have hback : e.inbound.buffer ++ written (inns u' ++ outs v') = readIn (outs u ++ inns v) :=
    h.back
  simp only [written_append, written_outs, written_inns, readIn_append, readIn_inns, readIn_outs,
    List.append_nil, List.nil_append] at hforth hback
  have hroom := h.room
  cases u with
  | cons b u =>
    by_cases hfull : e.outbound.buffer.length < e.outbound.capacity
    · exact .inl hfull
    · right
      -- The peer can read what fills the pipe.
      have hsome : e.outbound.buffer ≠ [] := by
        intro hnil
        rw [hnil] at hfull
        exact hfull hroom.2
      obtain ⟨x, u', rfl⟩ : ∃ x xs, u' = x :: xs := by
        apply List.exists_cons_of_ne_nil
        rw [← hforth]
        simp
      exact hsome
  | nil =>
    obtain ⟨x, v, rfl⟩ : ∃ x xs, v = x :: xs := by
      apply List.exists_cons_of_ne_nil
      rintro rfl
      exact hne rfl
    by_cases hempty : e.inbound.buffer = []
    · right
      rw [hempty, List.nil_append] at hback
      subst hback
      cases u' with
      | cons y u' =>
        rw [List.append_nil] at hforth
        have hsome : e.outbound.buffer ≠ [] := by simp [hforth]
        exact hsome
      | nil =>
        have hlt : e.inbound.buffer.length < e.inbound.capacity := by
          rw [hempty]
          exact hroom.1
        exact hlt
    · exact .inl hempty

theorem Joined.done {e : PipeEnd} {peer : List Octet} (h : Joined e [] peer)
    (hpeer : Replies peer) : peer = [] ∧ e.inbound.buffer = [] ∧ e.outbound.buffer = [] := by
  obtain ⟨u, v, rfl, hv⟩ := hpeer
  have hforth : e.outbound.buffer ++ written [] = readIn (inns u ++ outs v) := h.forth
  have hback : e.inbound.buffer ++ written (inns u ++ outs v) = readIn [] := h.back
  simp only [written_append, written_outs, written_inns, readIn_append, readIn_inns, readIn_outs,
    written_nil, readIn_nil, List.append_nil, List.nil_append, List.append_eq_nil_iff] at hforth hback
  obtain rfl := hv hback.2
  rw [hback.2]
  exact ⟨rfl, hback.1, hforth⟩

/-! ## One side goes on -/

/-- What comes of a side that goes on with its dialogue. -/
inductive Went {β : Type} (m : Metered) (t peer : List Octet) (a : β) :
    Progress β × Metered → Prop where
  | finished {m'} (joined : Joined m'.pipes [] peer)
      (kept : Able m.pipes.flip peer → Able m'.pipes.flip peer) :
      Went m t peer a (.finished a, m')
  | blocked {rest left m'} (suffix : left <:+ t) (follows : Dialogue.Follows rest left a)
      (more : left ≠ []) (joined : Joined m'.pipes left peer)
      (kept : Able m.pipes.flip peer → Able m'.pipes.flip peer)
      (onward : left.length < t.length ∨
        left = t ∧ (Able m.pipes t → Able m'.pipes t ∧ m.allowances = [])) :
      Went m t peer a (.blocked rest, m')

theorem not_able_of_waits {m : Metered} {t : List Octet} (h : Dialogue.Waits m t)
    (ha : m.allowances ≠ []) : ¬ Able m.pipes t := by
  cases h with
  | noAllowance h => exact absurd h ha
  | empty h => exact not_not_intro h
  | full h => exact Nat.not_lt.mpr h

theorem Able.unmoved {e e' : PipeEnd} {t : List Octet} (h : Able e t) (hm : e.Moved e' []) :
    Able e' t := by
  have hin : e.inbound.buffer = e'.inbound.buffer := hm.inbound
  have hout : e'.outbound.buffer = e.outbound.buffer := by simpa using hm.outbound
  match t, h with
  | .inn _ :: _, h =>
    simp only [Able, ← hin]
    exact h
  | .out _ :: _, h =>
    simp only [Able, hout, hm.outboundCapacity]
    exact h

theorem Joined.ran {β : Type} {m : Metered} {t peer : List Octet} {a : β}
    {result : Progress β × Metered} (h : Joined m.pipes t peer) (hr : Dialogue.Ran m t a result) :
    Went m t peer a result := by
  cases hr with
  | finished hm =>
    refine .finished (Joined.moved ?_ hm) (·.kept hm)
    rwa [List.append_nil]
  | @blocked s left rest m' hs hm hf hne hw =>
    subst hs
    refine .blocked ⟨s, rfl⟩ hf hne (h.moved hm) (·.kept hm) ?_
    cases s with
    | nil =>
      refine .inr ⟨rfl, fun hable => ⟨hable.unmoved hm, ?_⟩⟩
      cases hallow : m.allowances with
      | nil => rfl
      | cons => exact absurd hable (not_able_of_waits (hw rfl) (by simp [hallow]))
    | cons b s =>
      left
      rw [List.length_append, List.length_cons]
      omega

/-- **A side that goes on keeps the two sides joined**, and moves something if it can. -/
theorem Joined.went {β : Type} {m : Metered} {d : Dialogue β} {t peer : List Octet} {a : β}
    (h : Joined m.pipes t peer) (hd : d.Follows t a) (horizon : Option Nat) :
    Went m t peer a (d.run horizon m) :=
  h.ran (Dialogue.run_follows hd horizon m h.isOpen ⟨_, h.back⟩)

end SealedLink
