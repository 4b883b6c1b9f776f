import SealedLink.Bytes

/-!
# Attestation

Before the handshake a client sends evidence of its own and judges the evidence of the service.
The judgement is the application's; here are the operations that a channel uses and the attesters
that come with the library.
-/

namespace SealedLink

class Attester (α : Type) where
  /-- The evidence to send, if there is any to be had. -/
  request : α → Option Bytes × α
  /-- Whether the peer's evidence is good. -/
  verify : α → (evidence : Bytes) → Bool × α

/-! ## Attesters -/

/-- Sends empty evidence and accepts any. -/
structure InsecureAttester where
  deriving DecidableEq, Repr

instance : Attester InsecureAttester where
  request a := (some [], a)
  verify a _ := (true, a)

structure SilentAttester where
  deriving DecidableEq, Repr

instance : Attester SilentAttester where
  request a := (none, a)
  verify a _ := (true, a)

/-- Sends fixed evidence and leaves the judgement to a function with a memory. -/
structure VerifyingAttester (μ : Type) where
  evidence : Bytes
  memory : μ
  judge : μ → Bytes → Bool × μ

instance {μ : Type} : Attester (VerifyingAttester μ) where
  request a := (some a.evidence, a)
  verify a evidence :=
    let (accepted, memory) := a.judge a.memory evidence
    (accepted, { a with memory := memory })

def InsecureAttester.describe (_ : InsecureAttester) : String := "InsecureAttestationHandler"

def VerifyingAttester.describe {μ : Type} (a : VerifyingAttester μ) : String :=
  "VerifyingAttestationHandler \x7b evidence_len: " ++ toString a.evidence.length ++ ", .. \x7d"

/-! ## Judgements -/

inductive EvidenceRule where
  | always (accepted : Bool)
  | equals (evidence : Bytes)
  | startsWith (start : Bytes)
  | atLeast (size : Nat)
  /-- Accepts the next `count` times, whatever the evidence. -/
  | next (count : Nat)
  deriving DecidableEq, Repr

/-- The verdict of a rule, and the rule for the next time. -/
def EvidenceRule.judge (rule : EvidenceRule) (evidence : Bytes) : Bool × EvidenceRule :=
  match rule with
  | .always accepted => (accepted, rule)
  | .equals expected => (evidence == expected, rule)
  | .startsWith start => (start.isPrefixOf evidence, rule)
  | .atLeast size => (decide (size ≤ evidence.length), rule)
  | .next 0 => (false, rule)
  | .next (count + 1) => (true, .next count)

def EvidenceRule.attester (rule : EvidenceRule) (evidence : Bytes) :
    VerifyingAttester EvidenceRule :=
  { evidence := evidence, memory := rule, judge := EvidenceRule.judge }

end SealedLink
