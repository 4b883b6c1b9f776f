import SealedLink.Proofs.Message.Form

/-!
# Each message has one written form

A byte string is read as a message exactly if the message is written as these bytes
(`canonical_messages`).
-/

namespace SealedLink

def Message.Sized (m : Message) : Prop := ∀ field ∈ m.fields, field.length < Field.sizeLimit

def Response.Sized : Response → Prop
  | .message m => m.Sized
  | .empty => True

theorem Response.sized_iff {r : Response} : r.Sized ↔ Form.Sized r.fields := by
  cases r with
  | message m => exact Iff.rfl
  | empty => simp [Sized, Form.Sized, fields]

/-- Writing and reading are two sides of one bijection, between the messages that are sized and the
byte strings that are read. -/
structure Canonical {μ : Type} (encode : μ → Except CodecError Bytes)
    (decode : Bytes → Except CodecError μ) (Sized : μ → Prop) : Prop where
  inverse : ∀ m bs, encode m = .ok bs ↔ decode bs = .ok m
  total : ∀ m, (∃ bs, encode m = .ok bs) ↔ Sized m
  unique : ∀ m bs bs', decode bs = .ok m → decode bs' = .ok m → bs = bs'
  apart : ∀ m m' bs, encode m = .ok bs → encode m' = .ok bs → m = m'

theorem Canonical.of_inverse {μ : Type} {encode : μ → Except CodecError Bytes}
    {decode : Bytes → Except CodecError μ} {Sized : μ → Prop}
    (inverse : ∀ m bs, encode m = .ok bs ↔ decode bs = .ok m)
    (total : ∀ m, (∃ bs, encode m = .ok bs) ↔ Sized m) : Canonical encode decode Sized where
  inverse := inverse
  total := total
  unique m bs bs' h h' := by
    rw [← inverse] at h h'
    exact Except.ok.inj (h.symm.trans h')
  apart m m' bs h h' := by
    rw [inverse] at h h'
    exact Except.ok.inj (h.symm.trans h')

/-- **The written form of messages is a bijection onto the byte strings that are read.** -/
theorem canonical_messages : Canonical Request.encode Request.decode Message.Sized ∧
    Canonical Response.encode Response.decode Response.Sized :=
  ⟨.of_inverse (fun _ _ => Request.kept.decode_eq_ok.symm) fun _ => Request.kept.exists_encode_iff,
    .of_inverse (fun _ _ => Response.kept.decode_eq_ok.symm) fun _ =>
      Response.kept.exists_encode_iff.trans Response.sized_iff.symm⟩

end SealedLink
