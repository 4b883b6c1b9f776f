import SealedLink.Proofs.Traffic.Duplex

/-!
# Two transcripts in lockstep

Two sides start from one protocol name, take the same data into their transcripts, and send each
other payloads in any order. A payload that one side encrypts is decrypted on the other, and the two
transcripts are the same after each step (`lockstep_after`).
-/

namespace SealedLink

/-! ## What two sides do together -/

inductive Joint where
  | mixHash (data : Bytes)
  | mixKey (material : Bytes)
  /-- One side encrypts a payload, and the other one decrypts the ciphertext. -/
  | transfer (sender : Role) (payload : Bytes)
  deriving DecidableEq, Repr

namespace Joint

/-- Counts the transfers under a key, from the first key on. -/
def count : Option Nat → Joint → Option Nat
  | _, .mixKey _ => some 0
  | n, .mixHash _ => n
  | n, .transfer _ _ => n.map (· + 1)

/-- The count after a number of steps, the first of them before any key. -/
def counted (js : List Joint) : Option Nat := js.foldl count none

/-- Before a transfer under a key the counter has not come to its end, and the payload is not over
the limit. There are no such bounds where there is no key. -/
def FitsAt (limit : Nat) : Option Nat → Joint → Prop
  | some n, .transfer _ payload => n < 2 ^ 64 - 1 ∧ payload.length ≤ limit
  | _, _ => True

def Fits (limit : Nat) : Option Nat → List Joint → Prop
  | _, [] => True
  | n, j :: js => j.FitsAt limit n ∧ Fits limit (j.count n) js

instance decidableFitsAt (limit : Nat) :
    (n : Option Nat) → (j : Joint) → Decidable (j.FitsAt limit n)
  | some n, .transfer _ payload =>
    inferInstanceAs (Decidable (n < 2 ^ 64 - 1 ∧ payload.length ≤ limit))
  | some _, .mixHash _ | some _, .mixKey _ | none, _ => .isTrue trivial

instance decidableFits (limit : Nat) :
    (n : Option Nat) → (js : List Joint) → Decidable (Fits limit n js)
  | _, [] => .isTrue trivial
  | n, j :: js =>
    have := decidableFits limit (j.count n) js
    inferInstanceAs (Decidable (j.FitsAt limit n ∧ Fits limit (j.count n) js))

theorem fits_append {limit : Nat} {n : Option Nat} {js rest : List Joint} :
    Fits limit n (js ++ rest) ↔ Fits limit n js ∧ Fits limit (js.foldl count n) rest := by
  induction js generalizing n with
  | nil => simp [Fits]
  | cons j js ih => simp only [List.cons_append, Fits, ih, List.foldl_cons, and_assoc]

theorem foldl_count_some (n : Nat) (js : List Joint) : ∃ m, js.foldl count (some n) = some m := by
  induction js generalizing n with
  | nil => exact ⟨n, rfl⟩
  | cons j js ih => cases j <;> exact ih _

theorem counted_eq_none_iff {js : List Joint} :
    counted js = none ↔ ∀ material, .mixKey material ∉ js := by
  unfold counted
  induction js with
  | nil => simp
  | cons j js ih =>
    cases j with
    | mixKey material =>
      obtain ⟨m, hm⟩ := foldl_count_some 0 js
      rw [List.foldl_cons, count, hm]
      refine iff_of_false (by simp) fun h => h material ?_
      exact List.mem_cons_self
    | mixHash data | transfer sender payload => simpa [count] using ih

end Joint

/-- The transcripts of the two sides. -/
abbrev Couple (S : CipherSuite) := Role → SymmetricState S

namespace Couple

variable {S : CipherSuite}

def ofName (S : CipherSuite) (name : Bytes) : Couple S := fun _ => .ofName S name

def act (c : Couple S) : Joint → Couple S
  | .mixHash data => fun r => (c r).mixHash data
  | .mixKey material => fun r =>
    match (c r).mixKey material with
    | .error _ => c r
    | .ok s => s
  | .transfer sender payload =>
    match (c sender).encryptAndHash payload with
    | (.error _, s) => Function.update c sender s
    | (.ok ciphertext, s) =>
      Function.update (Function.update c sender s) sender.peer
        ((c sender.peer).decryptAndHash ciphertext).2

def after (c : Couple S) (js : List Joint) : Couple S := js.foldl act c

end Couple

/-! ## One side -/

namespace SymmetricState

variable {S : CipherSuite} {s s' : SymmetricState S} {payload ciphertext : Bytes}

/-- A transcript that fits its count: whether there is a key, and its counter. -/
structure Counts (s : SymmetricState S) (limit : Nat) (n : Option Nat) : Prop where
  key : s.key.isSome = n.isSome
  nonce : s.nonce = .ofNat (n.getD 0)
  hash : s.hash.length ≤ limit

theorem counts_ofName {limit : Nat} (hlimit : S.SealsUpTo limit) (hsize : hashSize ≤ limit)
    (name : Bytes) : (ofName S name).Counts limit none := by
  refine ⟨rfl, rfl, ?_⟩
  simp only [ofName]
  split
  · simp only [Bytes.padTo, List.length_append, List.length_replicate]
    omega
  · exact hlimit.hashes _

theorem Counts.mixHash {limit : Nat} {n : Option Nat} (hlimit : S.SealsUpTo limit)
    (h : s.Counts limit n) (data : Bytes) : (s.mixHash data).Counts limit n :=
  ⟨h.key, h.nonce, hlimit.hashes _⟩

theorem Counts.keyed {limit : Nat} {n : Option Nat} (h : s.Counts limit n) (material : Bytes) :
    (s.keyed material).Counts limit (some 0) :=
  ⟨rfl, rfl, h.hash⟩

/-- What becomes of a payload that one side encrypts and another one in the same state decrypts. -/
structure Crosses (s s' : SymmetricState S) (n : Option Nat) (payload ciphertext : Bytes) :
    Prop where
  encrypts : s.encryptAndHash payload = (.ok ciphertext, s')
  decrypts : s.decryptAndHash ciphertext = (.ok payload, s')
  keyless : n = none → ciphertext = payload
  keyed : n ≠ none → ciphertext.length = payload.length + 16
  /-- The payload is bound to the transcript before it, and the ciphertext is taken into it. -/
  bound : ∀ key, s.key = some key →
    S.encrypt key (nonceOf s.nonce) s.hash payload = some ciphertext
  taken : s'.hash = S.hash (s.hash ++ ciphertext)

theorem Counts.exists_crosses {limit : Nat} {n : Option Nat} (hS : S.Exact)
    (hlimit : S.SealsUpTo limit) (h : s.Counts limit n) {sender : Role}
    (hfits : Joint.FitsAt limit n (.transfer sender payload)) :
    ∃ ciphertext s', s.Crosses s' n payload ciphertext ∧ s'.Counts limit (n.map (· + 1)) := by
  cases n with
  | none =>
    have hkey : s.key = none := by simpa using h.key
    have hcrosses : s.Crosses (s.mixHash payload) none payload payload :=
      ⟨encryptAndHash_keyless hkey _, decryptAndHash_keyless hkey _, fun _ => rfl, by simp,
        by simp [hkey], rfl⟩
    exact ⟨payload, _, hcrosses, h.mixHash hlimit payload⟩
  | some n =>
    obtain ⟨hn, hp⟩ := hfits
    obtain ⟨key, hkey⟩ := Option.isSome_iff_exists.mp (h.key.trans rfl)
    have hnext : nextCounter s.nonce = .ok (.ofNat (n + 1)) := by
      rw [h.nonce, Option.getD_some]
      exact nextCounter_ofNat (by omega)
    obtain ⟨ciphertext, he⟩ := hlimit.seals key (nonceOf s.nonce) s.hash payload hp h.hash
    have hd := hS.inverts _ _ _ _ _ he
    have hlength := hS.length _ _ _ _ _ he
    let after : SymmetricState S := { s with nonce := .ofNat (n + 1) }.mixHash ciphertext
    have hcrosses : s.Crosses after (some n) payload ciphertext :=
      ⟨encryptAndHash_keyed hkey hnext he, decryptAndHash_keyed hkey hnext hd, by simp,
        fun _ => hlength, by simp [hkey, he], rfl⟩
    exact ⟨ciphertext, after, hcrosses, h.key, rfl, hlimit.hashes _⟩

end SymmetricState

/-! ## Both sides -/

namespace Couple

variable {S : CipherSuite} {c : Couple S} {limit : Nat} {n : Option Nat}

/-- Both transcripts are one and the same, and fit the count. -/
def Together (c : Couple S) (limit : Nat) (n : Option Nat) : Prop :=
  ∃ s, s.Counts limit n ∧ c = fun _ => s

theorem Together.alike (h : c.Together limit n) (r r' : Role) : c r = c r' := by
  obtain ⟨s, -, rfl⟩ := h
  rfl

theorem update_both (s s' : SymmetricState S) (r : Role) :
    Function.update (Function.update (fun _ => s) r s') r.peer s' = fun _ => s' := by
  funext x
  cases r <;> cases x <;> rfl

theorem act_transfer {s s' : SymmetricState S} {payload ciphertext : Bytes}
    (h : s.Crosses s' n payload ciphertext) (sender : Role) :
    act (fun _ => s) (.transfer sender payload) = fun _ => s' := by
  simp only [act, h.encrypts, h.decrypts]
  exact update_both s s' sender

theorem act_mixKey (hK : S.Derives) (s : SymmetricState S) (material : Bytes) :
    act (fun _ => s) (.mixKey material) = fun _ => s.keyed material := by
  funext r
  simp only [act, SymmetricState.mixKey_eq hK]

theorem together_act (hS : S.Exact) (hlimit : S.SealsUpTo limit) (hK : S.Derives) (h : c.Together limit n)
    {j : Joint} (hj : j.FitsAt limit n) : (c.act j).Together limit (j.count n) := by
  obtain ⟨s, hs, rfl⟩ := h
  cases j with
  | mixHash data => exact ⟨_, hs.mixHash hlimit data, rfl⟩
  | mixKey material => exact ⟨_, hs.keyed material, act_mixKey hK s material⟩
  | transfer sender payload =>
    obtain ⟨ciphertext, s', hcrosses, hs'⟩ := hs.exists_crosses hS hlimit hj
    exact ⟨s', hs', act_transfer hcrosses sender⟩

theorem together_after (hS : S.Exact) (hlimit : S.SealsUpTo limit) (hK : S.Derives)
    (h : c.Together limit n) {js : List Joint} (hjs : Joint.Fits limit n js) :
    (c.after js).Together limit (js.foldl Joint.count n) := by
  induction js generalizing c n with
  | nil => exact h
  | cons j js ih => exact ih (together_act hS hlimit hK h hjs.1) hjs.2

theorem after_concat (c : Couple S) (js : List Joint) (j : Joint) :
    c.after (js ++ [j]) = (c.after js).act j := by
  simp only [after, List.foldl_append, List.foldl_cons, List.foldl_nil]

/-- Two transcripts that were the same before are the same after each of some steps. -/
structure Lockstep (c : Couple S) (js : List Joint) : Prop where
  /-- The same chaining key, hash, key and counter. -/
  same : ∀ before, before <+: js → c.after before .initiator = c.after before .responder
  /-- There is a key from the first `mixKey` on, and its counter counts the transfers under it. -/
  counted : ∀ before r, before <+: js →
    (c.after before r).key.isSome = (Joint.counted before).isSome ∧
      (c.after before r).nonce = .ofNat ((Joint.counted before).getD 0)
  /-- Every key is derived, and the traffic keys at the end are the same. -/
  mixed : ∀ before material r, before ++ [.mixKey material] <+: js →
    (c.after before r).mixKey material = .ok (c.after (before ++ [.mixKey material]) r)
  split : ∀ before, before <+: js → ∃ keys,
    (c.after before .initiator).split = .ok keys ∧ (c.after before .responder).split = .ok keys
  crosses : ∀ before sender payload, before ++ [.transfer sender payload] <+: js →
    ∃ ciphertext,
      (c.after before sender).encryptAndHash payload =
        (.ok ciphertext, c.after (before ++ [.transfer sender payload]) sender) ∧
      (c.after before sender.peer).decryptAndHash ciphertext =
        (.ok payload, c.after (before ++ [.transfer sender payload]) sender.peer) ∧
      ((∀ material, .mixKey material ∉ before) → ciphertext = payload) ∧
      (∀ material, .mixKey material ∈ before → ciphertext.length = payload.length + 16) ∧
      (∀ key, (c.after before sender).key = some key → S.encrypt key
        (nonceOf (c.after before sender).nonce) (c.after before sender).hash payload =
          some ciphertext) ∧
      ∀ r, (c.after (before ++ [.transfer sender payload]) r).hash =
        S.hash ((c.after before r).hash ++ ciphertext)

theorem lockstep_ofName (hS : S.Exact) (hlimit : S.SealsUpTo limit) (hK : S.Derives)
    (hsize : hashSize ≤ limit) (name : Bytes) {js : List Joint}
    (hjs : Joint.Fits limit none js) : (ofName S name).Lockstep js := by
  have htogether {before : List Joint} (hbefore : before <+: js) :
      ((ofName S name).after before).Together limit (Joint.counted before) := by
    obtain ⟨rest, rfl⟩ := hbefore
    have hstart := SymmetricState.counts_ofName hlimit hsize name
    exact together_after hS hlimit hK ⟨_, hstart, rfl⟩ (Joint.fits_append.mp hjs).1
  refine ⟨fun before hb => (htogether hb).alike _ _, ?_, ?_, ?_, ?_⟩
  · intro before r hb
    obtain ⟨s, hs, heq⟩ := htogether hb
    rw [heq]
    exact ⟨hs.key, hs.nonce⟩
  · intro before material r hb
    obtain ⟨s, -, heq⟩ := htogether ((List.prefix_append _ _).trans hb)
    rw [after_concat, heq, act_mixKey hK]
    exact SymmetricState.mixKey_eq hK s material
  · intro before hb
    rw [(htogether hb).alike .initiator .responder, SymmetricState.split_eq hK]
    exact ⟨_, rfl, rfl⟩
  · intro before sender payload hb
    obtain ⟨s, hs, heq⟩ := htogether ((List.prefix_append _ _).trans hb)
    obtain ⟨rest, hrest⟩ := hb
    rw [← hrest, List.append_assoc] at hjs
    -- The transfer fits at the count of the steps before it.
    have hfits := (Joint.fits_append.mp hjs).2.1
    obtain ⟨ciphertext, s', hcrosses, -⟩ := hs.exists_crosses hS hlimit hfits
    rw [after_concat, heq, act_transfer hcrosses]
    refine ⟨ciphertext, hcrosses.encrypts, hcrosses.decrypts, ?_, ?_, hcrosses.bound,
      fun _ => hcrosses.taken⟩
    · intro hnone
      exact hcrosses.keyless (Joint.counted_eq_none_iff.mpr hnone)
    · intro material hmem
      apply hcrosses.keyed
      intro hnone
      exact Joint.counted_eq_none_iff.mp hnone material hmem

/-- **Two transcripts of one protocol name stay in lockstep**, whatever both sides take in and
whichever side sends: what one encrypts, the other decrypts. -/
theorem lockstep_after (name : Bytes) {js : List Joint}
    (hjs : Joint.Fits Gcm.sizeLimit none js) : (ofName .p256AesGcmSha256 name).Lockstep js :=
  lockstep_ofName CipherSuite.exact_p256AesGcmSha256 CipherSuite.sealsUpTo_p256AesGcmSha256
    CipherSuite.derives_p256AesGcmSha256 (by decide) name hjs

/-- Both sides send, in the clear and under two keys. -/
def talk : List Joint :=
  [.transfer .initiator [0x41], .mixHash [1, 2], .mixKey [3], .transfer .responder [0x42, 0x43],
    .transfer .initiator [], .mixKey [4, 5], .mixHash [], .transfer .initiator [0x44]]

theorem lockstep_talk : Joint.Fits Gcm.sizeLimit none talk ∧ Joint.counted talk = some 1 ∧
    (ofName .p256AesGcmSha256 [0x4e]).Lockstep talk := by
  have hfits : Joint.Fits Gcm.sizeLimit none talk := by decide
  exact ⟨hfits, rfl, lockstep_after _ hfits⟩

end Couple

end SealedLink
