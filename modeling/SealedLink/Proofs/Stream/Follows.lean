import SealedLink.Stream.Frame
import SealedLink.Proofs.Message.Field

/-!
# Dialogues by the bytes that they move

`Follows d trace a` says that a dialogue moves exactly the bytes of a trace and ends with `a`,
however the stream cuts reads and writes into pieces.
-/

namespace SealedLink

/-- A byte that a dialogue writes or reads. -/
inductive Octet where
  | out (b : UInt8)
  | inn (b : UInt8)
  deriving DecidableEq

def outs (bytes : Bytes) : List Octet := bytes.map .out

def inns (bytes : Bytes) : List Octet := bytes.map .inn

@[simp] theorem outs_nil : outs [] = [] := rfl

@[simp] theorem inns_nil : inns [] = [] := rfl

@[simp] theorem outs_append (a b : Bytes) : outs (a ++ b) = outs a ++ outs b := List.map_append

@[simp] theorem inns_append (a b : Bytes) : inns (a ++ b) = inns a ++ inns b := List.map_append

@[simp] theorem outs_eq_nil {bytes : Bytes} : outs bytes = [] ↔ bytes = [] := List.map_eq_nil_iff

@[simp] theorem inns_eq_nil {bytes : Bytes} : inns bytes = [] ↔ bytes = [] := List.map_eq_nil_iff

@[simp] theorem length_outs (bytes : Bytes) : (outs bytes).length = bytes.length := List.length_map ..

@[simp] theorem length_inns (bytes : Bytes) : (inns bytes).length = bytes.length := List.length_map ..

namespace Dialogue

variable {β γ : Type}

inductive Follows : Dialogue β → List Octet → β → Prop where
  | done (a : β) : Follows (.done a) [] a
  | flush {next trace a} (h : Follows (next (.ok ())) trace a) : Follows (.flush next) trace a
  | write {bytes next trace a} (hb : bytes ≠ [])
      (h : ∀ taken rest, bytes = taken ++ rest → taken ≠ [] →
        Follows (next (.ok taken.length)) (outs rest ++ trace) a) :
      Follows (.write bytes next) (outs bytes ++ trace) a
  | read {bytes next trace a} (hb : bytes ≠ [])
      (h : ∀ got rest, bytes = got ++ rest → got ≠ [] →
        Follows (next (.ok got)) (inns rest ++ trace) a) :
      Follows (.read bytes.length next) (inns bytes ++ trace) a

theorem Follows.bind {d : Dialogue β} {f : β → Dialogue γ} {s t : List Octet} {a : β} {b : γ}
    (h : Follows d s a) (hf : Follows (f a) t b) : Follows (d.bind f) (s ++ t) b := by
  induction h with
  | done a => exact hf
  | flush _ ih => exact .flush (ih hf)
  | write hb _ ih =>
    rw [List.append_assoc]
    refine .write hb fun taken rest hsplit hne => ?_
    rw [← List.append_assoc]
    exact ih taken rest hsplit hne hf
  | read hb _ ih =>
    rw [List.append_assoc]
    refine .read hb fun got rest hsplit hne => ?_
    rw [← List.append_assoc]
    exact ih got rest hsplit hne hf

/-! ## Whole byte strings -/

theorem follows_writeAll (bytes : Bytes) : Follows (writeAll bytes) (outs bytes) (.ok ()) := by
  induction h : bytes.length using Nat.strongRecOn generalizing bytes with
  | _ n ih =>
    unfold writeAll
    split
    · rename_i hb
      rw [hb]
      exact .done _
    · rename_i hb
      rw [← List.append_nil (outs bytes)]
      refine .write hb fun taken rest hsplit hne => ?_
      obtain ⟨b, bs, rfl⟩ := List.exists_cons_of_ne_nil hne
      have hdrop : bytes.drop (bs.length + 1) = rest := by
        rw [hsplit]
        exact List.drop_left' rfl
      simp only [List.length_cons, hdrop, List.append_nil]
      have hshorter : rest.length < n := by
        rw [← h, hsplit, List.length_append, List.length_cons]
        omega
      exact ih rest.length hshorter rest rfl

theorem follows_fill (bytes got : Bytes) :
    Follows (fill bytes.length got) (inns bytes) (.ok (got.reverse ++ bytes)) := by
  induction h : bytes.length using Nat.strongRecOn generalizing bytes got with
  | _ n ih =>
    unfold fill
    split
    · rename_i hb
      obtain rfl := List.eq_nil_of_length_eq_zero (h.trans hb)
      rw [List.append_nil]
      exact .done _
    · rename_i hb
      have hne : bytes ≠ [] := by
        rintro rfl
        exact hb h.symm
      rw [← h, ← List.append_nil (inns bytes)]
      refine .read hne fun now rest hsplit hnow => ?_
      obtain ⟨b, bs, rfl⟩ := List.exists_cons_of_ne_nil hnow
      have hlength : bytes.length - (bs.length + 1) = rest.length := by
        rw [hsplit]
        simp
      have hshorter : rest.length < n := by
        rw [← h, hsplit, List.length_append, List.length_cons]
        omega
      have hrest := ih rest.length hshorter rest (bs.reverse ++ b :: got) rfl
      simp only [hlength, List.append_nil]
      have hall : (bs.reverse ++ b :: got).reverse ++ rest = got.reverse ++ bytes := by
        rw [hsplit]
        simp
      rwa [hall] at hrest

end Dialogue

/-! ## Frames -/

namespace Frame

open Dialogue

theorem length_encode (payload : Bytes) : (encode payload).length = payload.length + 4 := by
  simp [encode, Field.prefixSize, Nat.add_comm]

theorem follows_write {limit : Nat} {payload : Bytes} (h : Fits limit payload.length) :
    Follows (write limit payload) (outs (encode payload)) (.ok ()) := by
  unfold write
  rw [if_pos h, encode, outs_append]
  refine (follows_writeAll _).bind ?_
  rw [← List.append_nil (outs payload)]
  refine (follows_writeAll payload).bind ?_
  exact .flush (.done _)

theorem follows_read {limit : Nat} {payload : Bytes} (h : Fits limit payload.length) :
    Follows (read limit) (inns (encode payload)) (.ok (some payload)) := by
  have hsize := Field.toNat_size h.2
  have hlength := Bytes.length_ofNat Field.prefixSize payload.length
  unfold read
  rw [encode, inns_append]
  generalize hp : Bytes.ofNat Field.prefixSize payload.length = start at *
  have hstart := follows_fill start []
  rw [hlength] at hstart
  refine hstart.bind ?_
  obtain ⟨b, bs, rfl⟩ : ∃ b bs, start = b :: bs := by
    cases start with
    | nil => cases hlength
    | cons b bs => exact ⟨b, bs, rfl⟩
  simp only [List.reverse_nil, List.nil_append, hlength, hsize, Nat.lt_irrefl, if_false]
  rw [if_neg (Nat.not_lt.mpr h.1)]
  unfold readPayload
  rw [← List.append_nil (inns payload)]
  refine (follows_fill payload []).bind ?_
  simp only [List.reverse_nil, List.nil_append, Nat.lt_irrefl, if_false]
  exact .done _

end Frame

end SealedLink
