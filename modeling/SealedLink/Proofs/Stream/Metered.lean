import SealedLink.Stream.Pipe
import SealedLink.Proofs.Stream.Follows

/-!
# Streams that cut reads and writes into pieces

`Metered` is an end of a pair of pipes that moves as many bytes with a call as the next allowance
says. What a dialogue that follows a trace does with it is told in `run_follows`.
-/

namespace SealedLink

/-- An end of a pair of pipes. An allowance is for one call and lets it move one byte more than it
says; without an allowance a call waits. -/
structure Metered where
  pipes : PipeEnd
  allowances : List Nat

namespace Metered

def read (m : Metered) (limit : Nat) (horizon : Option Nat) : Answer Bytes × Metered :=
  match m.allowances with
  | [] => (.pending, m)
  | a :: rest =>
    let (answer, pipes) := ByteStream.read m.pipes (min limit (a + 1)) horizon
    (answer, ⟨pipes, rest⟩)

def write (m : Metered) (bytes : Bytes) : Answer Nat × Metered :=
  match m.allowances with
  | [] => (.pending, m)
  | a :: rest =>
    let (answer, pipes) := ByteStream.write m.pipes (bytes.take (a + 1))
    (answer, ⟨pipes, rest⟩)

instance : ByteStream Metered where
  read := read
  write := write
  flush m := (.ready (.ok ()), m)
  clock m := m.pipes.now
  waitUntil m instant := ⟨ByteStream.waitUntil m.pipes instant, m.allowances⟩

end Metered

/-! ## What is moved -/

def Octet.out? : Octet → Option UInt8
  | .out b => some b
  | .inn _ => none

def Octet.inn? : Octet → Option UInt8
  | .out _ => none
  | .inn b => some b

def written (trace : List Octet) : Bytes := trace.filterMap Octet.out?

def readIn (trace : List Octet) : Bytes := trace.filterMap Octet.inn?

@[simp] theorem written_append (s t : List Octet) : written (s ++ t) = written s ++ written t :=
  List.filterMap_append ..

@[simp] theorem readIn_append (s t : List Octet) : readIn (s ++ t) = readIn s ++ readIn t :=
  List.filterMap_append ..

@[simp] theorem written_nil : written [] = [] := rfl

@[simp] theorem readIn_nil : readIn [] = [] := rfl

@[simp] theorem written_outs (bytes : Bytes) : written (outs bytes) = bytes := by
  induction bytes with
  | nil => rfl
  | cons b bytes ih => exact congrArg (b :: ·) ih

@[simp] theorem written_inns (bytes : Bytes) : written (inns bytes) = [] := by
  induction bytes with
  | nil => rfl
  | cons b bytes ih => exact ih

@[simp] theorem readIn_inns (bytes : Bytes) : readIn (inns bytes) = bytes := by
  induction bytes with
  | nil => rfl
  | cons b bytes ih => exact congrArg (b :: ·) ih

@[simp] theorem readIn_outs (bytes : Bytes) : readIn (outs bytes) = [] := by
  induction bytes with
  | nil => rfl
  | cons b bytes ih => exact ih

structure PipeEnd.Open (e : PipeEnd) : Prop where
  inbound : e.inbound.closed = false
  outbound : e.outbound.closed = false

/-- An end before and after it has moved the bytes of a trace. -/
structure PipeEnd.Moved (e e' : PipeEnd) (trace : List Octet) : Prop where
  isOpen : e'.Open
  now : e'.now = e.now
  inbound : e.inbound.buffer = readIn trace ++ e'.inbound.buffer
  outbound : e'.outbound.buffer = e.outbound.buffer ++ written trace
  inboundCapacity : e'.inbound.capacity = e.inbound.capacity
  outboundCapacity : e'.outbound.capacity = e.outbound.capacity

theorem PipeEnd.Moved.rfl {e : PipeEnd} (h : e.Open) : e.Moved e [] :=
  ⟨h, by rfl, by rfl, by simp, by rfl, by rfl⟩

theorem PipeEnd.Moved.trans {e e' e'' : PipeEnd} {s t : List Octet} (h : e.Moved e' s)
    (h' : e'.Moved e'' t) : e.Moved e'' (s ++ t) where
  isOpen := h'.isOpen
  now := h'.now.trans h.now
  inbound := by rw [h.inbound, h'.inbound, readIn_append, List.append_assoc]
  outbound := by rw [h'.outbound, h.outbound, written_append, List.append_assoc]
  inboundCapacity := h'.inboundCapacity.trans h.inboundCapacity
  outboundCapacity := h'.outboundCapacity.trans h.outboundCapacity

/-! ## One call -/

namespace Dialogue

/-- Why a dialogue with bytes to move has not moved any. -/
inductive Waits (m : Metered) : List Octet → Prop where
  | noAllowance {trace} (h : m.allowances = []) : Waits m trace
  | empty {b trace} (h : m.pipes.inbound.buffer = []) : Waits m (.inn b :: trace)
  | full {b trace} (h : m.pipes.outbound.capacity ≤ m.pipes.outbound.buffer.length) :
      Waits m (.out b :: trace)

theorem outs_ne_nil {bytes : Bytes} (h : bytes ≠ []) (trace : List Octet) :
    ∃ b t, outs bytes ++ trace = .out b :: t := by
  obtain ⟨b, bs, rfl⟩ := List.exists_cons_of_ne_nil h
  exact ⟨b, _, rfl⟩

theorem inns_ne_nil {bytes : Bytes} (h : bytes ≠ []) (trace : List Octet) :
    ∃ b t, inns bytes ++ trace = .inn b :: t := by
  obtain ⟨b, bs, rfl⟩ := List.exists_cons_of_ne_nil h
  exact ⟨b, _, rfl⟩

end Dialogue

namespace Metered

variable {m : Metered} {bytes : Bytes} {a : Nat} {rest : List Nat}

theorem write_moves (h : m.pipes.Open) (ha : m.allowances = a :: rest) (hb : bytes ≠ [])
    (hroom : m.pipes.outbound.buffer.length < m.pipes.outbound.capacity) :
    ∃ taken left e, bytes = taken ++ left ∧ taken ≠ [] ∧ m.pipes.Moved e (outs taken) ∧
      m.write bytes = (.ready (.ok taken.length), ⟨e, rest⟩) := by
  have hne : m.pipes.outbound.capacity - m.pipes.outbound.buffer.length ≠ 0 := by omega
  generalize hr : m.pipes.outbound.capacity - m.pipes.outbound.buffer.length = room at hne
  let taken := (bytes.take (a + 1)).take room
  let outbound := { m.pipes.outbound with
    buffer := m.pipes.outbound.buffer ++ taken, moved := m.pipes.outbound.moved + taken.length }
  refine ⟨taken, bytes.drop (min room (a + 1)), { m.pipes with outbound := outbound }, ?_, ?_, ?_, ?_⟩
  · simp only [taken, List.take_take]
    exact (List.take_append_drop _ _).symm
  · simp [taken, hb, hne]
  · exact ⟨⟨h.inbound, h.outbound⟩, rfl, by simp, by simp [outbound], rfl, rfl⟩
  · simp only [write, ha, ByteStream.write, Pipe.write, h.outbound, hr, hne, if_false,
      Bool.false_eq_true, outbound, taken]

theorem write_cases (h : m.pipes.Open) (hb : bytes ≠ []) :
    (∃ m', m.write bytes = (.pending, m') ∧ m'.pipes = m.pipes ∧
      ∀ trace, Dialogue.Waits m (outs bytes ++ trace)) ∨
    ∃ taken left e rest, bytes = taken ++ left ∧ taken ≠ [] ∧ m.pipes.Moved e (outs taken) ∧
      m.write bytes = (.ready (.ok taken.length), ⟨e, rest⟩) := by
  cases ha : m.allowances with
  | nil => exact .inl ⟨m, by simp [Metered.write, ha], rfl, fun _ => .noAllowance ha⟩
  | cons a rest =>
    by_cases hroom : m.pipes.outbound.buffer.length < m.pipes.outbound.capacity
    · obtain ⟨taken, left, e, hmoves⟩ := write_moves h ha hb hroom
      exact .inr ⟨taken, left, e, rest, hmoves⟩
    · have hnone : m.pipes.outbound.capacity - m.pipes.outbound.buffer.length = 0 := by omega
      refine .inl ⟨⟨m.pipes, rest⟩, ?_, rfl, fun trace => ?_⟩
      · simp [Metered.write, ha, ByteStream.write, Pipe.write, h.outbound, hnone]
      · obtain ⟨b, t, ht⟩ := Dialogue.outs_ne_nil hb trace
        rw [ht]
        exact .full (Nat.not_lt.mp hroom)

theorem read_moves {more : Bytes} (h : m.pipes.Open) (ha : m.allowances = a :: rest)
    (hb : bytes ≠ []) (hin : m.pipes.inbound.buffer <+: bytes ++ more)
    (hne : m.pipes.inbound.buffer ≠ []) (horizon : Option Nat) :
    ∃ got left e, bytes = got ++ left ∧ got ≠ [] ∧ m.pipes.Moved e (inns got) ∧
      m.read bytes.length horizon = (.ready (.ok got), ⟨e, rest⟩) := by
  let limit := min bytes.length (a + 1)
  let got := m.pipes.inbound.buffer.take limit
  have hfirst : got <+: bytes := by
    obtain ⟨left, hleft⟩ := hin
    have htake : got <+: (bytes ++ more).take limit := by
      rw [← hleft, List.take_append]
      exact List.prefix_append ..
    rw [List.take_append_of_le_length (Nat.min_le_left ..)] at htake
    exact htake.trans (List.take_prefix ..)
  have hgot : got ≠ [] := by
    have : 0 < bytes.length := List.length_pos_iff.mpr hb
    simp only [got, ne_eq, List.take_eq_nil_iff, not_or]
    exact ⟨by omega, hne⟩
  obtain ⟨left, hleft⟩ := hfirst
  let inbound := { m.pipes.inbound with buffer := m.pipes.inbound.buffer.drop limit }
  refine ⟨got, left, { m.pipes with inbound := inbound }, hleft.symm, hgot, ?_, ?_⟩
  · refine ⟨⟨h.inbound, h.outbound⟩, rfl, ?_, by simp, rfl, rfl⟩
    simp only [readIn_inns, got, inbound]
    exact (List.take_append_drop _ _).symm
  · have hempty : m.pipes.inbound.buffer.isEmpty = false := by simpa using hne
    simp only [read, ha, ByteStream.read, Pipe.read, hempty, Bool.false_eq_true, if_false]
    rfl

theorem read_cases {more : Bytes} (h : m.pipes.Open) (hb : bytes ≠ [])
    (hin : m.pipes.inbound.buffer <+: bytes ++ more) (horizon : Option Nat) :
    (∃ m', m.read bytes.length horizon = (.pending, m') ∧ m'.pipes = m.pipes ∧
      ∀ trace, Dialogue.Waits m (inns bytes ++ trace)) ∨
    ∃ got left e rest, bytes = got ++ left ∧ got ≠ [] ∧ m.pipes.Moved e (inns got) ∧
      m.read bytes.length horizon = (.ready (.ok got), ⟨e, rest⟩) := by
  cases ha : m.allowances with
  | nil => exact .inl ⟨m, by simp [Metered.read, ha], rfl, fun _ => .noAllowance ha⟩
  | cons a rest =>
    by_cases hempty : m.pipes.inbound.buffer = []
    · refine .inl ⟨⟨m.pipes, rest⟩, ?_, rfl, fun trace => ?_⟩
      · simp [Metered.read, ha, ByteStream.read, Pipe.read, hempty, h.inbound]
      · obtain ⟨b, t, ht⟩ := Dialogue.inns_ne_nil hb trace
        rw [ht]
        exact .empty hempty
    · obtain ⟨got, left, e, hmoves⟩ := read_moves h ha hb hin hempty horizon
      exact .inr ⟨got, left, e, rest, hmoves⟩

end Metered

/-! ## Running a dialogue -/

namespace Dialogue

variable {β : Type}

/-- What a run does with a dialogue that follows a trace: it moves the first bytes of it. -/
inductive Ran (m : Metered) (trace : List Octet) (a : β) : Progress β × Metered → Prop where
  | finished {m'} (moved : m.pipes.Moved m'.pipes trace) : Ran m trace a (.finished a, m')
  | blocked {s t rest m'} (hs : trace = s ++ t) (moved : m.pipes.Moved m'.pipes s)
      (h : Follows rest t a) (ht : t ≠ []) (waits : s = [] → Waits m t) :
      Ran m trace a (.blocked rest, m')

theorem Ran.after {m m' : Metered} {s t : List Octet} {a : β} {result : Progress β × Metered}
    (hs : s ≠ []) (moved : m.pipes.Moved m'.pipes s) (h : Ran m' t a result) :
    Ran m (s ++ t) a result := by
  cases h with
  | finished hm => exact .finished (moved.trans hm)
  | @blocked u v rest m'' hu hm hf hv _ =>
    refine .blocked (s := s ++ u) (by rw [hu, List.append_assoc]) (moved.trans hm) hf hv ?_
    intro hnil
    exact absurd (List.append_eq_nil_iff.mp hnil).1 hs

theorem run_follows {d : Dialogue β} {trace : List Octet} {a : β} (h : Follows d trace a)
    (horizon : Option Nat) (m : Metered) (hopen : m.pipes.Open)
    (hin : m.pipes.inbound.buffer <+: readIn trace) : Ran m trace a (d.run horizon m) := by
  -- The pipe holds nothing but what the dialogue has still to read, so no read runs past its end.
  induction h generalizing m with
  | done a => exact .finished (.rfl hopen)
  | flush _ ih => exact ih m hopen hin
  | @write bytes next trace a hb h ih =>
    obtain ⟨b, t, ht⟩ := outs_ne_nil hb trace
    unfold run
    rcases Metered.write_cases hopen hb with
      ⟨m', hw, hpipes, hwaits⟩ | ⟨taken, left, e, rest, hsplit, hne, hmoved, hw⟩
    · have hw : ByteStream.write m bytes = (.pending, m') := hw
      simp only [hw]
      exact .blocked (s := []) rfl (by rw [hpipes]; exact .rfl hopen) (.write hb h) (by simp [ht])
        fun _ => hwaits trace
    · have hw : ByteStream.write m bytes = (.ready (.ok taken.length), ⟨e, rest⟩) := hw
      simp only [hw]
      rw [hsplit, outs_append, List.append_assoc]
      refine Ran.after (by simpa using hne) hmoved (ih taken left hsplit hne _ hmoved.isOpen ?_)
      have hsame := hmoved.inbound
      simp only [readIn_outs, List.nil_append] at hsame
      simpa [← hsame] using hin
  | @read bytes next trace a hb h ih =>
    obtain ⟨b, t, ht⟩ := inns_ne_nil hb trace
    have hin' : m.pipes.inbound.buffer <+: bytes ++ readIn trace := by simpa using hin
    unfold run
    rcases Metered.read_cases hopen hb hin' horizon with
      ⟨m', hr, hpipes, hwaits⟩ | ⟨got, left, e, rest, hsplit, hne, hmoved, hr⟩
    · have hr : ByteStream.read m bytes.length horizon = (.pending, m') := hr
      simp only [hr]
      exact .blocked (s := []) rfl (by rw [hpipes]; exact .rfl hopen) (.read hb h) (by simp [ht])
        fun _ => hwaits trace
    · have hr : ByteStream.read m bytes.length horizon = (.ready (.ok got), ⟨e, rest⟩) := hr
      simp only [hr]
      rw [hsplit, inns_append, List.append_assoc]
      refine Ran.after (by simpa using hne) hmoved (ih got left hsplit hne _ hmoved.isOpen ?_)
      have hsame := hmoved.inbound
      simp only [readIn_inns] at hsame
      rw [hsame, hsplit, List.append_assoc, List.prefix_append_right_inj] at hin'
      simpa using hin'

end Dialogue

end SealedLink
