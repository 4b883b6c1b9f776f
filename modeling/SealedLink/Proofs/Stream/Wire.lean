import SealedLink.Proofs.Stream.Yields

/-!
# Wires

A wire is a stream that does with each call what it likes: it moves a few bytes, fails or waits. It
takes note of the bytes that it moves. How far a run of a dialogue gets on a wire is told once, in
`run_stretch`. From it follows what a brittle dialogue comes to (`run_yields`), and what any
dialogue comes to on a wire that never fails (`run_steady`) and on one that does not wait either
(`run_smooth`).
-/

namespace SealedLink

/-- What a wire does with a call. -/
inductive Whim where
  /-- Moves at most this many bytes. A read moves at least one, if one is left. -/
  | moves (most : Nat)
  | fails (e : IoError)
  | waits
  deriving DecidableEq, Repr

structure Wire where
  /-- All that will come from the peer. -/
  unread : Bytes
  /-- The whims, by the number of the call. -/
  whims : Nat → Whim
  calls : Nat := 0
  moved : List Octet := []
  /-- How calls failed. A write that moves nothing fails too. -/
  faults : List IoError := []
  now : Nat := 0

namespace Wire

def called (w : Wire) : Wire := { w with calls := w.calls + 1 }

def fault (w : Wire) (e : IoError) : Wire := { w.called with faults := w.faults ++ [e] }

def hands (w : Wire) (got : Bytes) : Wire :=
  { w.called with unread := w.unread.drop got.length, moved := w.moved ++ inns got }

def takes (w : Wire) (taken : Bytes) : Wire := { w.called with moved := w.moved ++ outs taken }

def read (w : Wire) (limit : Nat) : Answer Bytes × Wire :=
  match w.whims w.calls with
  | .moves most =>
    let got := w.unread.take (min limit (max most 1))
    (.ready (.ok got), w.hands got)
  | .fails e => (.ready (.error e), w.fault e)
  | .waits => (.pending, w.called)

def write (w : Wire) (bytes : Bytes) : Answer Nat × Wire :=
  match w.whims w.calls with
  | .moves 0 => (.ready (.ok 0), w.fault .writeZero)
  | .moves (most + 1) =>
    let taken := bytes.take (most + 1)
    (.ready (.ok taken.length), w.takes taken)
  | .fails e => (.ready (.error e), w.fault e)
  | .waits => (.pending, w.called)

def flush (w : Wire) : Answer Unit × Wire :=
  match w.whims w.calls with
  | .moves _ => (.ready (.ok ()), w.called)
  | .fails e => (.ready (.error e), w.fault e)
  | .waits => (.pending, w.called)

instance : ByteStream Wire where
  read w limit _ := w.read limit
  write := write
  flush := flush
  clock := now
  waitUntil w instant := { w with now := max w.now instant }

/-- A wire that moves something with every call. -/
def Smooth (w : Wire) : Prop := ∀ n, ∃ most, w.whims n = .moves (most + 1)

/-- A wire that never fails, though it may wait. -/
def Steady (w : Wire) : Prop := ∀ n, (∃ most, w.whims n = .moves (most + 1)) ∨ w.whims n = .waits

theorem Smooth.steady {w : Wire} (h : w.Smooth) : w.Steady := fun n => .inl (h n)

theorem Steady.not_stuck {w : Wire} (h : w.Steady) (n : Nat) : w.whims n ≠ .moves 0 := by
  rcases h n with ⟨most, h⟩ | h <;> rw [h] <;> simp

theorem Steady.not_fails {w : Wire} (h : w.Steady) (n : Nat) (e : IoError) :
    w.whims n ≠ .fails e := by
  rcases h n with ⟨most, h⟩ | h <;> rw [h] <;> simp

/-- The last call was left to wait. -/
def Waited (w : Wire) : Prop := ∃ n, w.calls = n + 1 ∧ w.whims n = .waits

theorem Smooth.not_waited {w : Wire} (h : w.Smooth) : ¬ w.Waited := by
  rintro ⟨n, -, hwaits⟩
  obtain ⟨most, hmoves⟩ := h n
  rw [hwaits] at hmoves
  cases hmoves

theorem waited_called {w : Wire} (h : w.whims w.calls = .waits) : w.called.Waited :=
  ⟨w.calls, rfl, h⟩

/-- A wire before and after it has moved the bytes of a trace. -/
structure Moved (w w' : Wire) (trace : List Octet) : Prop where
  moved : w'.moved = w.moved ++ trace
  unread : w.unread = readIn trace ++ w'.unread
  faults : w'.faults = w.faults
  whims : w'.whims = w.whims

theorem Moved.rfl {w : Wire} : w.Moved w [] := ⟨by simp, by simp, by rfl, by rfl⟩

theorem Moved.trans {w w' w'' : Wire} {s t : List Octet} (h : w.Moved w' s) (h' : w'.Moved w'' t) :
    w.Moved w'' (s ++ t) where
  moved := by rw [h'.moved, h.moved, List.append_assoc]
  unread := by rw [h.unread, h'.unread, readIn_append, List.append_assoc]
  faults := h'.faults.trans h.faults
  whims := h'.whims.trans h.whims

theorem Moved.smooth {w w' : Wire} {trace : List Octet} (h : w.Moved w' trace) (hw : w.Smooth) :
    w'.Smooth := by
  intro n
  rw [h.whims]
  exact hw n

theorem Moved.steady {w w' : Wire} {trace : List Octet} (h : w.Moved w' trace) (hw : w.Steady) :
    w'.Steady := by
  intro n
  rw [h.whims]
  exact hw n

theorem moved_called (w : Wire) : w.Moved w.called [] :=
  ⟨by simp [called], by simp [called], by rfl, by rfl⟩

theorem moved_takes (w : Wire) (taken : Bytes) : w.Moved (w.takes taken) (outs taken) :=
  ⟨by rfl, by simp [takes, called], by rfl, by rfl⟩

theorem moved_hands {w : Wire} {got : Bytes} (h : got <+: w.unread) :
    w.Moved (w.hands got) (inns got) where
  moved := by rfl
  unread := by
    obtain ⟨rest, hrest⟩ := h
    rw [readIn_inns, hands, ← hrest, List.drop_left]
  faults := by rfl
  whims := by rfl

/-! ## One call -/

theorem read_cases (w : Wire) {limit : Nat} (hlimit : 0 < limit) (horizon : Option Nat) :
    (∃ got, (got = [] → w.unread = []) ∧ got <+: w.unread.take limit ∧
      ByteStream.read w limit horizon = (.ready (.ok got), w.hands got)) ∨
    (∃ e, w.whims w.calls = .fails e ∧
      ByteStream.read w limit horizon = (.ready (.error e), w.fault e)) ∨
    w.whims w.calls = .waits ∧ ByteStream.read w limit horizon = (.pending, w.called) := by
  simp only [ByteStream.read, read]
  cases w.whims w.calls with
  | moves most =>
    refine .inl ⟨w.unread.take (min limit (max most 1)), fun hnil => ?_, ?_, rfl⟩
    · rw [List.take_eq_nil_iff] at hnil
      exact hnil.resolve_left (by omega)
    · exact List.take_prefix_take_left (Nat.min_le_left ..)
  | fails e => exact .inr (.inl ⟨e, rfl, rfl⟩)
  | waits => exact .inr (.inr ⟨rfl, rfl⟩)

theorem write_cases (w : Wire) {bytes : Bytes} (hb : bytes ≠ []) :
    (∃ taken rest, bytes = taken ++ rest ∧ taken ≠ [] ∧
      ByteStream.write w bytes = (.ready (.ok taken.length), w.takes taken)) ∨
    w.whims w.calls = .moves 0 ∧
      ByteStream.write w bytes = (.ready (.ok 0), w.fault .writeZero) ∨
    (∃ e, w.whims w.calls = .fails e ∧
      ByteStream.write w bytes = (.ready (.error e), w.fault e)) ∨
    w.whims w.calls = .waits ∧ ByteStream.write w bytes = (.pending, w.called) := by
  simp only [ByteStream.write, write]
  cases w.whims w.calls with
  | moves most =>
    cases most with
    | zero => exact .inr (.inl ⟨rfl, rfl⟩)
    | succ most =>
      refine .inl ⟨bytes.take (most + 1), _, (List.take_append_drop (most + 1) bytes).symm, ?_, rfl⟩
      simp [hb]
  | fails e => exact .inr (.inr (.inl ⟨e, rfl, rfl⟩))
  | waits => exact .inr (.inr (.inr ⟨rfl, rfl⟩))

theorem flush_cases (w : Wire) :
    ByteStream.flush w = (.ready (.ok ()), w.called) ∨
    (∃ e, w.whims w.calls = .fails e ∧
      ByteStream.flush w = (.ready (.error e), w.fault e)) ∨
    w.whims w.calls = .waits ∧ ByteStream.flush w = (.pending, w.called) := by
  simp only [ByteStream.flush, flush]
  cases w.whims w.calls with
  | moves most => exact .inl rfl
  | fails e => exact .inr (.inl ⟨e, rfl, rfl⟩)
  | waits => exact .inr (.inr ⟨rfl, rfl⟩)

/-! ## Running a dialogue -/

variable {β : Type}

/-- How far a run gets with what the dialogue yields: to its end, to a call that fails, or to one
that waits. What a brittle dialogue does then is said of every `fail`, so that a run on a wire that
never fails needs none. -/
inductive Stretch (d : Dialogue β) (w : Wire) (trace : List Octet) (a : β) (left : Bytes) :
    Progress β × Wire → Prop where
  | finished {w'} (moved : w.Moved w' trace) (hleft : w'.unread = left) :
      Stretch d w trace a left (.finished a, w')
  | failed {e s w' result} (hs : s <+: trace) (moved : w.Moved w' s) (unsteady : ¬ w'.Steady)
      (brittle : ∀ fail, d.Brittle fail → result = (.finished (fail e), w'.fault e)) :
      Stretch d w trace a left result
  | blocked {rest s t w'} (hs : trace = s ++ t) (moved : w.Moved w' s) (waited : w'.Waited)
      (h : Dialogue.Yields rest w'.unread t a left)
      (brittle : ∀ fail, d.Brittle fail → rest.Brittle fail) :
      Stretch d w trace a left (.blocked rest, w')

theorem Stretch.fault {d : Dialogue β} {w : Wire} {trace : List Octet} {a : β} {left : Bytes}
    {e : IoError} {result : Progress β × Wire} (unsteady : ¬ w.Steady)
    (brittle : ∀ fail, d.Brittle fail → result = (.finished (fail e), w.fault e)) :
    Stretch d w trace a left result :=
  .failed List.nil_prefix .rfl unsteady brittle

theorem Stretch.wait {d : Dialogue β} {w : Wire} {trace : List Octet} {a : β} {left : Bytes}
    (hwaits : w.whims w.calls = .waits) (h : d.Yields w.unread trace a left) :
    Stretch d w trace a left (.blocked d, w.called) :=
  .blocked (s := []) rfl (moved_called w) (waited_called hwaits) h fun _ hb => hb

theorem Stretch.after {d next : Dialogue β} {w w' : Wire} {s t : List Octet} {a : β} {left : Bytes}
    {result : Progress β × Wire} (moved : w.Moved w' s)
    (hb : ∀ fail, d.Brittle fail → next.Brittle fail) (h : Stretch next w' t a left result) :
    Stretch d w (s ++ t) a left result := by
  cases h with
  | finished hm hleft => exact .finished (moved.trans hm) hleft
  | failed hu hm unsteady brittle =>
    exact .failed ((List.prefix_append_right_inj s).mpr hu) (moved.trans hm) unsteady
      fun fail h => brittle fail (hb fail h)
  | @blocked rest u v w'' hu hm waited hy brittle =>
    exact .blocked (s := s ++ u) (by rw [hu, List.append_assoc]) (moved.trans hm) waited hy
      fun fail h => brittle fail (hb fail h)

theorem run_stretch {d : Dialogue β} {unread left : Bytes} {trace : List Octet} {a : β}
    (h : d.Yields unread trace a left) (horizon : Option Nat) {w : Wire} (hu : w.unread = unread) :
    Stretch d w trace a left (d.run horizon w) := by
  induction h generalizing w with
  | done a unread => exact .finished .rfl hu
  | @flush next unread trace a left h ih =>
    unfold Dialogue.run
    rcases w.flush_cases with hf | ⟨e, hfails, hf⟩ | ⟨hwaits, hf⟩
    · simp only [hf]
      exact .after (moved_called w) (fun _ hb => hb.of_flush.2) (ih hu)
    · simp only [hf]
      exact .fault (e := e) (fun hw => hw.not_fails _ e hfails)
        fun _ hb => by rw [hb.of_flush.1, Dialogue.run]
    · simp only [hf]
      exact .wait hwaits (hu ▸ .flush h)
  | @write bytes next unread trace a left hne h ih =>
    unfold Dialogue.run
    rcases w.write_cases hne with
      ⟨taken, rest, hsplit, htaken, ht⟩ | ⟨hstuck, ht⟩ | ⟨e, hfails, ht⟩ | ⟨hwaits, ht⟩
    · obtain ⟨b, bs, rfl⟩ := List.exists_cons_of_ne_nil htaken
      simp only [ht]
      rw [hsplit, outs_append, List.append_assoc]
      exact .after (moved_takes w _) (fun _ hb => hb.of_write.2.2 bs.length)
        (ih (b :: bs) rest hsplit htaken hu)
    · simp only [ht]
      exact .fault (fun hw => hw.not_stuck _ hstuck)
        fun _ hb => by rw [hb.of_write.2.1, Dialogue.run]
    · simp only [ht]
      exact .fault (e := e) (fun hw => hw.not_fails _ e hfails)
        fun _ hb => by rw [hb.of_write.1, Dialogue.run]
    · simp only [ht]
      exact .wait hwaits (hu ▸ .write hne h)
  | @read limit next unread trace a left hlimit hne h ih =>
    unfold Dialogue.run
    subst hu
    rcases w.read_cases hlimit horizon with ⟨got, hnil, hgot, hr⟩ | ⟨e, hfails, hr⟩ | ⟨hwaits, hr⟩
    · have hm := moved_hands (hgot.trans (List.take_prefix ..))
      obtain ⟨rest, hsplit⟩ := hgot
      simp only [hr]
      rw [← hsplit, inns_append, List.append_assoc]
      exact .after hm (fun _ hb => hb.of_read.2 got)
        (ih got rest hsplit.symm (fun hn => hne (hnil hn)) rfl)
    · simp only [hr]
      exact .fault (e := e) (fun hw => hw.not_fails _ e hfails)
        fun _ hb => by rw [hb.of_read.1, Dialogue.run]
    · simp only [hr]
      exact .wait hwaits (.read hlimit hne h)
  | @ended limit next trace a left hlimit h ih =>
    unfold Dialogue.run
    rcases w.read_cases hlimit horizon with ⟨got, -, hgot, hr⟩ | ⟨e, hfails, hr⟩ | ⟨hwaits, hr⟩
    · rw [hu, List.take_nil, List.prefix_nil] at hgot
      subst hgot
      simp only [hr]
      exact .after (moved_hands List.nil_prefix) (fun _ hb => hb.of_read.2 []) (ih hu)
    · simp only [hr]
      exact .fault (e := e) (fun hw => hw.not_fails _ e hfails)
        fun _ hb => by rw [hb.of_read.1, Dialogue.run]
    · simp only [hr]
      exact .wait hwaits (hu ▸ .ended hlimit h)

/-- What a run comes to on a wire: it ends as the dialogue says, or a call fails or waits. -/
inductive Outcome (fail : IoError → β) (w : Wire) (trace : List Octet) (a : β) (left : Bytes) :
    Progress β × Wire → Prop where
  | finished {w'} (moved : w.Moved w' trace) (hleft : w'.unread = left) :
      Outcome fail w trace a left (.finished a, w')
  | failed {e s w'} (hs : s <+: trace) (moved : w'.moved = w.moved ++ s)
      (faults : w'.faults = w.faults ++ [e]) : Outcome fail w trace a left (.finished (fail e), w')
  | blocked {rest s t w'} (hs : trace = s ++ t) (moved : w.Moved w' s) (waited : w'.Waited)
      (h : Dialogue.Yields rest w'.unread t a left) (brittle : Dialogue.Brittle fail rest) :
      Outcome fail w trace a left (.blocked rest, w')

theorem run_yields {fail : IoError → β} {d : Dialogue β} {unread left : Bytes}
    {trace : List Octet} {a : β} (h : d.Yields unread trace a left) (hb : d.Brittle fail)
    (horizon : Option Nat) {w : Wire} (hu : w.unread = unread) :
    Outcome fail w trace a left (d.run horizon w) := by
  have hstretch := run_stretch h horizon hu
  generalize d.run horizon w = result at hstretch
  cases hstretch with
  | finished moved hleft => exact .finished moved hleft
  | @failed e s w' _ hs moved _ brittle =>
    rw [brittle fail hb]
    exact .failed hs moved.moved (congrArg (· ++ [e]) moved.faults)
  | blocked hs moved waited hrest brittle =>
    exact .blocked hs moved waited hrest (brittle fail hb)

/-- What a run comes to on a steady wire: it ends as the dialogue says, or a call waits. -/
inductive Headway (w : Wire) (trace : List Octet) (a : β) (left : Bytes) :
    Progress β × Wire → Prop where
  | finished {w'} (moved : w.Moved w' trace) (hleft : w'.unread = left) :
      Headway w trace a left (.finished a, w')
  | blocked {rest s t w'} (hs : trace = s ++ t) (moved : w.Moved w' s) (waited : w'.Waited)
      (h : Dialogue.Yields rest w'.unread t a left) : Headway w trace a left (.blocked rest, w')

theorem run_steady {d : Dialogue β} {unread left : Bytes} {trace : List Octet} {a : β}
    (h : d.Yields unread trace a left) (horizon : Option Nat) {w : Wire} (hw : w.Steady)
    (hu : w.unread = unread) : Headway w trace a left (d.run horizon w) := by
  have hstretch := run_stretch h horizon hu
  generalize d.run horizon w = result at hstretch
  cases hstretch with
  | finished moved hleft => exact .finished moved hleft
  | failed _ moved unsteady _ => exact absurd (moved.steady hw) unsteady
  | blocked hs moved waited hrest _ => exact .blocked hs moved waited hrest

/-- **On a smooth wire a dialogue does what it is said to do**, whatever pieces the wire cuts. -/
theorem run_smooth {d : Dialogue β} {unread left : Bytes} {trace : List Octet} {a : β}
    (h : d.Yields unread trace a left) (horizon : Option Nat) {w : Wire} (hw : w.Smooth)
    (hu : w.unread = unread) :
    ∃ w', d.run horizon w = (.finished a, w') ∧ w.Moved w' trace ∧ w'.unread = left := by
  have hrun := run_steady h horizon hw.steady hu
  generalize d.run horizon w = result at hrun
  cases hrun with
  | finished moved hleft => exact ⟨_, rfl, moved, hleft⟩
  | blocked _ moved waited _ => exact absurd waited (moved.smooth hw).not_waited

/-! ## Wires that do not wait for ever -/

def Lively (whims : Nat → Whim) : Prop := ∀ n, ∃ m, n ≤ m ∧ whims m ≠ .waits

/-- A dialogue that is run again and again comes to its end. -/
inductive Finishes : Dialogue β → Wire → Prop where
  | now {d w a w'} (h : d.run none w = (.finished a, w')) : Finishes d w
  | later {d w d' w'} (h : d.run none w = (.blocked d', w')) (next : Finishes d' w') :
      Finishes d w

theorem Finishes.of_run_eq {d d' : Dialogue β} {w w' : Wire} (h : Finishes d' w')
    (heq : d.run none w = d'.run none w') : Finishes d w := by
  cases h with
  | now hrun => exact .now (heq.trans hrun)
  | later hrun next => exact .later (heq.trans hrun) next

theorem finishes_of_answered {d : Dialogue β} {whims : Nat → Whim} (hlively : Lively whims)
    (hwaits : ∀ w : Wire, w.whims w.calls = .waits → d.run none w = (.blocked d, w.called))
    (hanswered : ∀ w : Wire, w.whims = whims → whims w.calls ≠ .waits → Finishes d w) {w : Wire}
    (hw : w.whims = whims) : Finishes d w := by
  obtain ⟨m, hm, hmoves⟩ := hlively w.calls
  induction h : m - w.calls generalizing w with
  | zero =>
    obtain rfl : w.calls = m := by omega
    exact hanswered w hw hmoves
  | succ k ih =>
    by_cases hwait : w.whims w.calls = .waits
    · have hcalls : w.called.calls = w.calls + 1 := rfl
      exact .later (hwaits w hwait) (ih (w := w.called) hw (by omega) (by omega))
    · exact hanswered w hw (hw ▸ hwait)

theorem read_waits {w : Wire} (h : w.whims w.calls = .waits) (limit : Nat)
    (horizon : Option Nat) : ByteStream.read w limit horizon = (.pending, w.called) := by
  simp only [ByteStream.read, read, h]

theorem write_waits {w : Wire} (h : w.whims w.calls = .waits) (bytes : Bytes) :
    ByteStream.write w bytes = (.pending, w.called) := by
  simp only [ByteStream.write, write, h]

theorem flush_waits {w : Wire} (h : w.whims w.calls = .waits) :
    ByteStream.flush w = (.pending, w.called) := by
  simp only [ByteStream.flush, flush, h]

theorem read_answered {w : Wire} (h : w.whims w.calls ≠ .waits) (limit : Nat)
    (horizon : Option Nat) :
    ∃ answer w', ByteStream.read w limit horizon = (.ready answer, w') ∧ w'.whims = w.whims := by
  simp only [ByteStream.read, read]
  cases hw : w.whims w.calls with
  | moves most => exact ⟨_, _, rfl, rfl⟩
  | fails e => exact ⟨_, _, rfl, rfl⟩
  | waits => exact (h hw).elim

theorem write_answered {w : Wire} (h : w.whims w.calls ≠ .waits) (bytes : Bytes) :
    ∃ answer w', ByteStream.write w bytes = (.ready answer, w') ∧ w'.whims = w.whims := by
  simp only [ByteStream.write, write]
  cases hw : w.whims w.calls with
  | moves most => cases most <;> exact ⟨_, _, rfl, rfl⟩
  | fails e => exact ⟨_, _, rfl, rfl⟩
  | waits => exact (h hw).elim

theorem flush_answered {w : Wire} (h : w.whims w.calls ≠ .waits) :
    ∃ answer w', ByteStream.flush w = (.ready answer, w') ∧ w'.whims = w.whims := by
  simp only [ByteStream.flush, flush]
  cases hw : w.whims w.calls with
  | moves most => exact ⟨_, _, rfl, rfl⟩
  | fails e => exact ⟨_, _, rfl, rfl⟩
  | waits => exact (h hw).elim

theorem finishes {whims : Nat → Whim} (hlively : Lively whims) (d : Dialogue β) {w : Wire}
    (hw : w.whims = whims) : Finishes d w := by
  induction d generalizing w with
  | done a => exact .now rfl
  | read limit next ih =>
    refine finishes_of_answered hlively (fun w h => ?_) (fun w hw h => ?_) hw
    · simp only [Dialogue.run, read_waits h]
    · subst hw
      obtain ⟨answer, w', hread, hwhims⟩ := read_answered h limit none
      exact (ih answer hwhims).of_run_eq (by simp only [Dialogue.run, hread])
  | write bytes next ih =>
    refine finishes_of_answered hlively (fun w h => ?_) (fun w hw h => ?_) hw
    · simp only [Dialogue.run, write_waits h]
    · subst hw
      obtain ⟨answer, w', hwrite, hwhims⟩ := write_answered h bytes
      exact (ih answer hwhims).of_run_eq (by simp only [Dialogue.run, hwrite])
  | flush next ih =>
    refine finishes_of_answered hlively (fun w h => ?_) (fun w hw h => ?_) hw
    · simp only [Dialogue.run, flush_waits h]
    · subst hw
      obtain ⟨answer, w', hflush, hwhims⟩ := flush_answered h
      exact (ih answer hwhims).of_run_eq (by simp only [Dialogue.run, hflush])

theorem run_whims (horizon : Option Nat) (d : Dialogue β) (w : Wire) :
    (d.run horizon w).2.whims = w.whims := by
  induction d generalizing w with
  | done a => rfl
  | read limit next ih =>
    unfold Dialogue.run
    by_cases h : w.whims w.calls = .waits
    · simp only [read_waits h]
      rfl
    · obtain ⟨answer, w', hread, hwhims⟩ := read_answered h limit horizon
      simp only [hread]
      exact (ih answer w').trans hwhims
  | write bytes next ih =>
    unfold Dialogue.run
    by_cases h : w.whims w.calls = .waits
    · simp only [write_waits h]
      rfl
    · obtain ⟨answer, w', hwrite, hwhims⟩ := write_answered h bytes
      simp only [hwrite]
      exact (ih answer w').trans hwhims
  | flush next ih =>
    unfold Dialogue.run
    by_cases h : w.whims w.calls = .waits
    · simp only [flush_waits h]
      rfl
    · obtain ⟨answer, w', hflush, hwhims⟩ := flush_answered h
      simp only [hflush]
      exact (ih answer w').trans hwhims

end Wire

end SealedLink
