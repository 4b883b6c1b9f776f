import SealedLink.Proofs.Stream.Wire

/-!
# Frames on a stream

What a stream of frames says does not depend on the pieces that it comes in. `Frame.parse` reads
frames off a whole byte string; reading frame after frame from a smooth wire gives the same
(`framing_exact`), and what was written frame after frame is read back.
-/

namespace SealedLink.Frame

/-! ## The frames of a byte string -/

/-- The first frame of a byte string that is there as a whole, and what is left after it. -/
def first (limit : Nat) (bytes : Bytes) : Except Error (Option Bytes) × Bytes :=
  if bytes = [] then (.ok none, [])
  else if bytes.length < Field.prefixSize then (.error (.io .unexpectedEof), [])
  else
    let size := Bytes.toNat (bytes.take Field.prefixSize)
    let body := bytes.drop Field.prefixSize
    if limit < size then (.error (.codec (.fieldTooLarge size)), body)
    else if body.length < size then (.error (.io .unexpectedEof), [])
    else (.ok (some (body.take size)), body.drop size)

/-- How a stream ends that no frame begins: between two frames, inside a frame, or where a frame
over the limit begins. -/
inductive Ends (limit : Nat) : (tail : Bytes) → Except Error Unit → (left : Bytes) → Prop where
  | clean : Ends limit [] (.ok ()) []
  | inPrefix {tail} (hne : tail ≠ []) (h : tail.length < Field.prefixSize) :
      Ends limit tail (.error (.io .unexpectedEof)) []
  | inPayload {size body} (hsize : Fits limit size) (h : body.length < size) :
      Ends limit (Bytes.ofNat Field.prefixSize size ++ body) (.error (.io .unexpectedEof)) []
  | tooLarge {size body} (hlimit : limit < size) (hsize : size < Field.sizeLimit) :
      Ends limit (Bytes.ofNat Field.prefixSize size ++ body)
        (.error (.codec (.fieldTooLarge size))) body

/-- What a byte string begins with: a frame, or the end of the stream. -/
inductive Opens (limit : Nat) : Bytes → Except Error (Option Bytes) → (left : Bytes) → Prop where
  | frame {payload rest} (h : Fits limit payload.length) :
      Opens limit (encode payload ++ rest) (.ok (some payload)) rest
  | ended {tail ending left} (h : Ends limit tail ending left) :
      Opens limit tail (ending.map fun _ => none) left

theorem opens_first (limit : Nat) (bytes : Bytes) :
    Opens limit bytes (first limit bytes).1 (first limit bytes).2 := by
  unfold first
  split
  · rename_i hnil
    rw [hnil]
    exact .ended .clean
  · rename_i hne
    split
    · rename_i hshort
      exact .ended (.inPrefix hne hshort)
    · rename_i hlong
      have hfour : (bytes.take Field.prefixSize).length = Field.prefixSize := by
        rw [List.length_take]
        omega
      -- The size as it is read is written in the same four bytes.
      have hwritten := Bytes.ofNat_toNat (bytes.take Field.prefixSize)
      have hsize := Bytes.toNat_lt (bytes.take Field.prefixSize)
      rw [hfour] at hwritten hsize
      have hbytes := List.take_append_drop Field.prefixSize bytes
      generalize Bytes.toNat (bytes.take Field.prefixSize) = size at *
      generalize bytes.drop Field.prefixSize = body at *
      rw [← hwritten] at hbytes
      rw [← hbytes]
      simp only
      split
      · rename_i hlimit
        exact .ended (.tooLarge hlimit hsize)
      · rename_i hlimit
        have hfits : Fits limit size := ⟨Nat.not_lt.mp hlimit, hsize⟩
        split
        · rename_i hcut
          exact .ended (.inPayload hfits hcut)
        · rename_i hwhole
          have hlength : (body.take size).length = size := by
            rw [List.length_take]
            omega
          have hframe : Bytes.ofNat Field.prefixSize size ++ body =
              encode (body.take size) ++ body.drop size := by
            rw [encode, hlength, List.append_assoc, List.take_append_drop]
          rw [hframe]
          exact .frame (by rwa [hlength])

theorem first_sized {limit size : Nat} (h : size < Field.sizeLimit) (body : Bytes) :
    first limit (Bytes.ofNat Field.prefixSize size ++ body) =
      if limit < size then (.error (.codec (.fieldTooLarge size)), body)
      else if body.length < size then (.error (.io .unexpectedEof), [])
      else (.ok (some (body.take size)), body.drop size) := by
  have hlength := Bytes.length_ofNat Field.prefixSize size
  have hlong : ¬ (Bytes.ofNat Field.prefixSize size ++ body).length < Field.prefixSize := by
    rw [List.length_append]
    omega
  have hne : Bytes.ofNat Field.prefixSize size ++ body ≠ [] := by
    intro hnil
    rw [hnil] at hlong
    exact hlong (by decide)
  unfold first
  rw [if_neg hne, if_neg hlong, List.take_left' hlength, List.drop_left' hlength, Field.toNat_size h]

theorem Opens.first_eq {limit : Nat} {bytes left : Bytes} {result : Except Error (Option Bytes)}
    (h : Opens limit bytes result left) : first limit bytes = (result, left) := by
  cases h with
  | @frame payload rest h =>
    rw [encode, List.append_assoc, first_sized h.2, if_neg (Nat.not_lt.mpr h.1),
      if_neg (by simp), List.take_left, List.drop_left]
  | ended h =>
    cases h with
    | clean => rfl
    | inPrefix hne hshort =>
      unfold first
      rw [if_neg hne, if_pos hshort]
      rfl
    | inPayload hsize hcut =>
      rw [first_sized hsize.2, if_neg (Nat.not_lt.mpr hsize.1), if_pos hcut]
      rfl
    | tooLarge hlimit hsize =>
      rw [first_sized hsize, if_pos hlimit]
      rfl

theorem Opens.eq_encode {limit : Nat} {bytes left payload : Bytes}
    (h : Opens limit bytes (.ok (some payload)) left) :
    Fits limit payload.length ∧ bytes = encode payload ++ left := by
  generalize hr : (.ok (some payload) : Except Error (Option Bytes)) = result at h
  cases h with
  | frame h =>
    cases hr
    exact ⟨h, rfl⟩
  | ended h => cases h <;> cases hr

theorem Opens.shorter {limit : Nat} {bytes left payload : Bytes}
    (h : Opens limit bytes (.ok (some payload)) left) : left.length < bytes.length := by
  rw [h.eq_encode.2, List.length_append, length_encode]
  omega

/-- A stream of frames: the frames within the limit, how it ends after them, and what is left that
is not read. -/
structure Parsed where
  frames : List Bytes
  ending : Except Error Unit
  left : Bytes
  deriving DecidableEq

def parse (limit : Nat) (bytes : Bytes) : Parsed :=
  match _h : first limit bytes with
  | (.ok (some payload), left) =>
    let rest := parse limit left
    ⟨payload :: rest.frames, rest.ending, rest.left⟩
  | (.ok none, left) => ⟨[], .ok (), left⟩
  | (.error e, left) => ⟨[], .error e, left⟩
termination_by bytes.length
decreasing_by
  have hopens := opens_first limit bytes
  rw [_h] at hopens
  exact hopens.shorter

/-- What reading frame after frame gives: every frame, and then the end. -/
def Parsed.results (p : Parsed) : List (Except Error (Option Bytes)) :=
  p.frames.map (fun frame => .ok (some frame)) ++ [p.ending.map fun _ => none]

theorem parse_frame {limit : Nat} {bytes payload left : Bytes}
    (h : first limit bytes = (.ok (some payload), left)) :
    parse limit bytes =
      ⟨payload :: (parse limit left).frames, (parse limit left).ending, (parse limit left).left⟩ := by
  rw [parse]
  split <;> simp_all

theorem parse_ended {limit : Nat} {bytes left : Bytes} {ending : Except Error Unit}
    (h : first limit bytes = (ending.map fun _ => none, left)) :
    parse limit bytes = ⟨[], ending, left⟩ := by
  rw [parse]
  cases ending <;> simp only [Except.map] at h <;> split <;> simp_all

/-- A byte string consists of the frames that are parsed off it and of how it ends. -/
structure Describes (limit : Nat) (bytes : Bytes) (p : Parsed) : Prop where
  fits : ∀ frame ∈ p.frames, Fits limit frame.length
  tail : ∃ tail, bytes = p.frames.flatMap encode ++ tail ∧ Ends limit tail p.ending p.left

theorem describes_parse (limit : Nat) (bytes : Bytes) :
    Describes limit bytes (parse limit bytes) := by
  induction h : bytes.length using Nat.strongRecOn generalizing bytes with
  | _ n ih =>
    have hopens := opens_first limit bytes
    rcases hfirst : first limit bytes with ⟨result, left⟩
    rw [hfirst] at hopens
    cases hopens with
    | frame hfits =>
      obtain ⟨hrest, tail, hbytes, hends⟩ := ih _ (by subst h; exact (Opens.frame hfits).shorter) left rfl
      rw [parse_frame hfirst]
      refine ⟨List.forall_mem_cons.mpr ⟨hfits, hrest⟩, tail, ?_, hends⟩
      rw [List.flatMap_cons, List.append_assoc, ← hbytes]
    | ended hends =>
      rw [parse_ended hfirst]
      exact ⟨fun _ h => (List.not_mem_nil h).elim, bytes, rfl, hends⟩

theorem parse_encode {limit : Nat} {frames : List Bytes} {tail left : Bytes}
    {ending : Except Error Unit} (hfits : ∀ frame ∈ frames, Fits limit frame.length)
    (hends : Ends limit tail ending left) :
    parse limit (frames.flatMap encode ++ tail) = ⟨frames, ending, left⟩ := by
  induction frames with
  | nil => exact parse_ended (Opens.ended hends).first_eq
  | cons frame frames ih =>
    obtain ⟨hframe, hframes⟩ := List.forall_mem_cons.mp hfits
    rw [List.flatMap_cons, List.append_assoc, parse_frame (Opens.frame hframe).first_eq, ih hframes]

theorem parse_eq_iff {limit : Nat} {bytes : Bytes} {p : Parsed} :
    parse limit bytes = p ↔ Describes limit bytes p := by
  constructor
  · rintro rfl
    exact describes_parse limit bytes
  · rintro ⟨hfits, tail, rfl, hends⟩
    exact parse_encode hfits hends

/-! ## One frame from a stream -/

open Dialogue

theorem yields_sized {limit size : Nat} {body left : Bytes} {trace : List Octet}
    {result : Except Error (Option Bytes)} (hsize : size < Field.sizeLimit)
    (h : Yields (if limit < size then .done (.error (.codec (.fieldTooLarge size)))
      else readPayload size) body trace result left) :
    Yields (read limit) (Bytes.ofNat Field.prefixSize size ++ body)
      (inns (Bytes.ofNat Field.prefixSize size) ++ trace) result left := by
  have hlength := Bytes.length_ofNat Field.prefixSize size
  have hnat := Field.toNat_size hsize
  have hfill := yields_fill Field.prefixSize (Bytes.ofNat Field.prefixSize size ++ body) []
  rw [List.reverse_nil, List.nil_append, List.take_left' hlength, List.drop_left' hlength] at hfill
  generalize Bytes.ofNat Field.prefixSize size = start at *
  obtain ⟨b, bytes, rfl⟩ := List.exists_cons_of_length_eq_add_one hlength
  refine hfill.bind ?_
  simp only [hlength, hnat, Nat.lt_irrefl, if_false]
  exact h

theorem yields_readPayload_ended {size : Nat} {body : Bytes} (h : body.length < size) :
    Yields (readPayload size) body (inns body) (.error (.io .unexpectedEof)) [] := by
  have hfill := yields_fill size body []
  rw [List.reverse_nil, List.nil_append, List.take_of_length_le (by omega),
    List.drop_of_length_le (by omega)] at hfill
  unfold readPayload
  rw [← List.append_nil (inns body)]
  refine hfill.bind ?_
  simp only [if_pos h]
  exact .done _ _

theorem yields_read_ended {limit : Nat} {tail left : Bytes} {ending : Except Error Unit}
    (h : Ends limit tail ending left) :
    ∃ used, Yields (read limit) tail (inns used) (ending.map fun _ => none) left := by
  cases h with
  | clean => exact ⟨[], (yields_fill Field.prefixSize [] []).bind (.done _ _)⟩
  | inPrefix hne hshort =>
    have hfill := yields_fill Field.prefixSize tail []
    rw [List.take_of_length_le (by omega), List.drop_of_length_le (by omega), List.reverse_nil,
      List.nil_append] at hfill
    obtain ⟨b, bytes, rfl⟩ := List.exists_cons_of_ne_nil hne
    refine ⟨b :: bytes, ?_⟩
    rw [← List.append_nil (inns _)]
    refine hfill.bind ?_
    simp only [if_pos hshort]
    exact .done _ _
  | @inPayload size body hsize hcut =>
    refine ⟨Bytes.ofNat Field.prefixSize size ++ body, ?_⟩
    rw [inns_append]
    apply yields_sized hsize.2
    rw [if_neg (Nat.not_lt.mpr hsize.1)]
    exact yields_readPayload_ended hcut
  | @tooLarge size body hlimit hsize =>
    refine ⟨Bytes.ofNat Field.prefixSize size, ?_⟩
    rw [← List.append_nil (inns _)]
    apply yields_sized hsize
    rw [if_pos hlimit]
    exact .done _ _

theorem yields_read {limit : Nat} {bytes left : Bytes} {result : Except Error (Option Bytes)}
    (h : Opens limit bytes result left) :
    ∃ used, Yields (read limit) bytes (inns used) result left := by
  cases h with
  | @frame payload _ h =>
    have hread := (follows_read h).yields left
    rw [readIn_inns] at hread
    exact ⟨encode payload, hread⟩
  | ended h => exact yields_read_ended h

/-- The bytes of the first frame, or of what there is in its place. -/
def consumed (limit : Nat) (bytes : Bytes) : Bytes :=
  bytes.take (bytes.length - (first limit bytes).2.length)

theorem consumed_eq {limit : Nat} {bytes used : Bytes} (h : bytes = used ++ (first limit bytes).2) :
    consumed limit bytes = used := by
  have hlength := congrArg List.length h
  rw [List.length_append] at hlength
  rw [consumed, hlength, Nat.add_sub_cancel]
  exact (List.prefix_iff_eq_take.mp ⟨_, h.symm⟩).symm

theorem yields_first (limit : Nat) (bytes : Bytes) :
    Yields (read limit) bytes (inns (consumed limit bytes)) (first limit bytes).1
      (first limit bytes).2 := by
  obtain ⟨used, hyields⟩ := yields_read (opens_first limit bytes)
  have hsplit := hyields.split
  rw [readIn_inns] at hsplit
  rwa [consumed_eq hsplit]

theorem brittle_write (limit : Nat) (payload : Bytes) :
    Brittle (fun e => .error (.io e)) (write limit payload) := by
  unfold write
  split
  · refine (brittle_writeAll _).bind (fun _ => rfl) fun start => ?_
    cases start with
    | error e => exact .done _
    | ok _ =>
      refine (brittle_writeAll _).bind (fun _ => rfl) fun written => ?_
      cases written with
      | error e => exact .done _
      | ok _ => exact .flush (fun _ => rfl) (.done _)
  · exact .done _

theorem brittle_read (limit : Nat) : Brittle (fun e => .error (.io e)) (read limit) := by
  refine (brittle_fill _ _).bind (fun _ => rfl) fun start => ?_
  rcases start with e | (_ | ⟨b, bytes⟩)
  · exact .done _
  · exact .done _
  · simp only
    split
    · exact .done _
    · split
      · exact .done _
      · refine (brittle_fill _ _).bind (fun _ => rfl) fun payload => ?_
        cases payload with
        | error e => exact .done _
        | ok payload =>
          simp only
          split <;> exact .done _

theorem yields_write {limit : Nat} {payload : Bytes} (h : Fits limit payload.length)
    (unread : Bytes) :
    Yields (write limit payload) unread (outs (encode payload)) (.ok ()) unread := by
  have hyields := (follows_write h).yields unread
  rwa [readIn_outs, List.nil_append] at hyields

theorem run_read {limit : Nat} {bytes left : Bytes} {result : Except Error (Option Bytes)}
    (h : Opens limit bytes result left) {w : Wire} (hw : w.Smooth) (hu : w.unread = bytes) :
    ∃ w', (read limit).run none w = (.finished result, w') ∧ w'.Smooth ∧ w'.unread = left := by
  obtain ⟨used, hyields⟩ := yields_read h
  obtain ⟨w', hrun, hmoved, hleft⟩ := Wire.run_smooth hyields none hw hu
  exact ⟨w', hrun, hmoved.smooth hw, hleft⟩

theorem run_write {limit : Nat} {payload : Bytes} (h : Fits limit payload.length) {w : Wire}
    (hw : w.Smooth) :
    ∃ w', (write limit payload).run none w = (.finished (.ok ()), w') ∧ w'.Smooth ∧
      w'.moved = w.moved ++ outs (encode payload) := by
  obtain ⟨w', hrun, hmoved, -⟩ := Wire.run_smooth (yields_write h w.unread) none hw rfl
  exact ⟨w', hrun, hmoved.smooth hw, hmoved.moved⟩

theorem write_refused {limit : Nat} {payload : Bytes} (h : ¬ Fits limit payload.length) :
    write limit payload = .done (.error (.codec (.fieldTooLarge payload.length))) := if_neg h

/-! ## Frame after frame -/

variable {ς : Type} [ByteStream ς]

/-- Reads frame after frame, at most so many, up to the first read that gives none. -/
def readEach (limit : Nat) : (calls : Nat) → ς → List (Progress (Except Error (Option Bytes))) × ς
  | 0, s => ([], s)
  | calls + 1, s =>
    match (read limit).run none s with
    | (.finished (.ok (some frame)), s) =>
      let (results, s) := readEach limit calls s
      (.finished (.ok (some frame)) :: results, s)
    | (result, s) => ([result], s)

/-- Writes frame after frame. -/
def writeEach (limit : Nat) : List Bytes → ς → List (Progress (Except Error Unit)) × ς
  | [], s => ([], s)
  | payload :: payloads, s =>
    let (result, s) := (write limit payload).run none s
    let (results, s) := writeEach limit payloads s
    (result :: results, s)

theorem readEach_parse (limit calls : Nat) {w : Wire} {bytes : Bytes} (hw : w.Smooth)
    (hu : w.unread = bytes) :
    (readEach limit calls w).1 = ((parse limit bytes).results.take calls).map .finished ∧
      ((parse limit bytes).frames.length < calls →
        (readEach limit calls w).2.unread = (parse limit bytes).left) := by
  induction calls generalizing w bytes with
  | zero => exact ⟨rfl, fun h => (Nat.not_lt_zero _ h).elim⟩
  | succ calls ih =>
    have hopens := opens_first limit bytes
    rcases hfirst : first limit bytes with ⟨result, left⟩
    rw [hfirst] at hopens
    obtain ⟨w', hrun, hw', hleft⟩ := run_read hopens hw hu
    unfold readEach
    rw [hrun]
    cases hopens with
    | frame hfits =>
      obtain ⟨hresults, hrest⟩ := ih hw' hleft
      rw [parse_frame hfirst]
      refine ⟨?_, fun h => hrest (Nat.lt_of_succ_lt_succ h)⟩
      simp only [hresults, Parsed.results, List.map_cons, List.cons_append, List.take_succ_cons]
    | @ended _ ending _ hends =>
      rw [parse_ended hfirst]
      refine ⟨?_, fun _ => ?_⟩
      · cases ending <;> simp [Parsed.results, Except.map]
      · cases ending <;> exact hleft

theorem writeEach_fits {limit : Nat} {payloads : List Bytes}
    (hfits : ∀ payload ∈ payloads, Fits limit payload.length) {w : Wire} (hw : w.Smooth) :
    ∃ w', writeEach limit payloads w = (payloads.map fun _ => .finished (.ok ()), w') ∧
      w'.moved = w.moved ++ outs (payloads.flatMap encode) := by
  induction payloads generalizing w with
  | nil => exact ⟨w, rfl, (List.append_nil _).symm⟩
  | cons payload payloads ih =>
    obtain ⟨hpayload, hpayloads⟩ := List.forall_mem_cons.mp hfits
    obtain ⟨w', hrun, hw', hmoved⟩ := run_write hpayload hw
    obtain ⟨w'', hrest, hmoved'⟩ := ih hpayloads hw'
    refine ⟨w'', ?_, ?_⟩
    · unfold writeEach
      simp only [hrun, hrest, List.map_cons]
    · rw [hmoved', hmoved, List.flatMap_cons, outs_append, List.append_assoc]

/-! ## Exactness -/

/-- A wire on which these bytes come and then nothing. A call moves one byte more than its cut says,
if there are as many. -/
def cut (bytes : Bytes) (cuts : Nat → Nat) : Wire where
  unread := bytes
  whims n := .moves (cuts n + 1)

theorem smooth_cut (bytes : Bytes) (cuts : Nat → Nat) : (cut bytes cuts).Smooth :=
  fun n => ⟨cuts n, rfl⟩

/-- The payload is not written, and nothing of it. -/
def Refused (limit : Nat) (payload : Bytes) : Prop :=
  ∀ w : Wire, (write limit payload).run none w =
    (.finished (.error (.codec (.fieldTooLarge payload.length))), w)

/-- Some stream has the payload as its first frame. -/
def Readable (limit : Nat) (payload : Bytes) : Prop :=
  ∃ bytes cuts, ((read limit).run none (cut bytes cuts)).1 = .finished (.ok (some payload))

theorem refused_iff {limit : Nat} {payload : Bytes} :
    Refused limit payload ↔ ¬ Fits limit payload.length := by
  constructor
  · intro h hfits
    obtain ⟨w, hrun, -⟩ := run_write hfits (smooth_cut [] fun _ => 0)
    rw [h] at hrun
    cases hrun
  · intro h w
    rw [write_refused h]
    rfl

theorem readable_iff {limit : Nat} {payload : Bytes} :
    Readable limit payload ↔ Fits limit payload.length := by
  constructor
  · rintro ⟨bytes, cuts, h⟩
    have hopens := opens_first limit bytes
    obtain ⟨w, hrun, -⟩ := run_read hopens (smooth_cut bytes cuts) rfl
    rw [hrun] at h
    rw [Progress.finished.inj h] at hopens
    exact hopens.eq_encode.1
  · intro h
    have hopens : Opens limit (encode payload ++ []) (.ok (some payload)) [] := .frame h
    obtain ⟨w, hrun, -⟩ := run_read hopens (smooth_cut _ fun _ => 0) rfl
    exact ⟨_, _, congrArg Prod.fst hrun⟩

/-- Frames of a limit, whatever pieces a stream cuts them into. -/
structure Exact (limit : Nat) : Prop where
  /-- The parsed frames are those that the bytes consist of, up to their end. -/
  parsed : ∀ bytes p, parse limit bytes = p ↔ Describes limit bytes p
  reads : ∀ bytes cuts calls, (readEach limit calls (cut bytes cuts)).1 =
    ((parse limit bytes).results.take calls).map .finished
  stops : ∀ bytes cuts calls, (parse limit bytes).frames.length < calls →
    (readEach limit calls (cut bytes cuts)).2.unread = (parse limit bytes).left
  /-- What was written is read back, in other pieces, and then the stream has ended. -/
  returns : ∀ payloads : List Bytes, (∀ payload ∈ payloads, Fits limit payload.length) →
    ∀ cuts cuts' calls, payloads.length < calls →
      ∃ w, writeEach limit payloads (cut [] cuts) = (payloads.map fun _ => .finished (.ok ()), w) ∧
        (readEach limit calls (cut (written w.moved) cuts')).1 =
          payloads.map (fun payload => .finished (.ok (some payload))) ++ [.finished (.ok none)]
  refuses : ∀ payload, Refused limit payload ↔ ¬ Readable limit payload
  /-- A frame over the limit is refused as its payload is when it is written; the payload stays on
  the stream. -/
  overlong : ∀ payload rest : Bytes, payload.length < Field.sizeLimit → Refused limit payload →
    ∀ cuts, ∃ w, (read limit).run none (cut (encode payload ++ rest) cuts) =
      (.finished (.error (.codec (.fieldTooLarge payload.length))), w) ∧ w.unread = payload ++ rest

/-- **Reading frames does not depend on the pieces that a stream comes in, and gives back what was
written.** -/
theorem framing_exact (limit : Nat) : Exact limit where
  parsed _ _ := parse_eq_iff
  reads bytes cuts calls := (readEach_parse limit calls (smooth_cut bytes cuts) rfl).1
  stops bytes cuts calls := (readEach_parse limit calls (smooth_cut bytes cuts) rfl).2
  returns payloads hfits cuts cuts' calls hcalls := by
    obtain ⟨w, hrun, hmoved⟩ := writeEach_fits hfits (smooth_cut [] cuts)
    have hwritten : written w.moved = payloads.flatMap encode := by
      rw [hmoved, written_append, written_outs]
      rfl
    have hparse := parse_encode hfits (Ends.clean : Ends limit [] (.ok ()) [])
    rw [List.append_nil] at hparse
    have hread := (readEach_parse limit calls (smooth_cut (written w.moved) cuts') rfl).1
    have hall : (Parsed.mk payloads (.ok ()) []).results.length ≤ calls := by
      simp only [Parsed.results, List.length_append, List.length_map, List.length_singleton]
      omega
    refine ⟨w, hrun, ?_⟩
    rw [hread, cut, hwritten, hparse, List.take_of_length_le hall]
    simp [Parsed.results, Except.map]
  refuses payload := by rw [refused_iff, readable_iff]
  overlong payload rest hsize hrefused cuts := by
    have hlimit : limit < payload.length :=
      Nat.not_le.mp fun hle => refused_iff.mp hrefused ⟨hle, hsize⟩
    have hopens : Opens limit (encode payload ++ rest)
        (.error (.codec (.fieldTooLarge payload.length))) (payload ++ rest) := by
      rw [encode, List.append_assoc]
      exact .ended (.tooLarge hlimit hsize)
    obtain ⟨w, hrun, -, hleft⟩ := run_read hopens (smooth_cut _ cuts) rfl
    exact ⟨w, hrun, hleft⟩

end SealedLink.Frame
