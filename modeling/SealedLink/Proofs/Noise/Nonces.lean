import Mathlib.Data.List.Nodup
import SealedLink.Noise.Standard
import SealedLink.Proofs.Noise.Payload

/-!
# The nonces of a handshake

A transcript takes data and keys in, and encrypts and decrypts payloads, in any order; any payload
may be refused. Under each key it asks for the nonces 0, 1, 2, ... one after the other, whatever
comes of them, and at the last one it stops (`sparing_after`).
-/

namespace SealedLink

/-! ## Questions to the encryption -/

inductive CipherOp where
  | encrypt
  | decrypt
  deriving DecidableEq, Repr

namespace CipherOp

/-- The error of a text that is refused. -/
def refusal : CipherOp → CryptoError
  | .encrypt => .encryptionFailed
  | .decrypt => .decryptionFailed

/-- Of the text that was given and the one that came out, the ciphertext. -/
def ciphertext (given result : Bytes) : CipherOp → Bytes
  | .encrypt => result
  | .decrypt => given

end CipherOp

/-- One use of the authenticated encryption, whether it is refused or not. -/
structure Query where
  op : CipherOp
  key : Bytes
  nonce : Bytes
  aad : Bytes
  text : Bytes
  deriving DecidableEq, Repr

def CipherSuite.answer (S : CipherSuite) (q : Query) : Option Bytes :=
  match q.op with
  | .encrypt => S.encrypt q.key q.nonce q.aad q.text
  | .decrypt => S.decrypt q.key q.nonce q.aad q.text

/-- The key and the nonce of a query. -/
def Query.slot (q : Query) : Bytes × Bytes := (q.key, q.nonce)

/-- A number of slots under a key, the first of them at the counter `first`. -/
def slots (key : Bytes) (first count : Nat) : List (Bytes × Bytes) :=
  (List.range' first count).map fun i => (key, nonceOf (.ofNat i))

@[simp] theorem length_slots (key : Bytes) (first count : Nat) :
    (slots key first count).length = count := by
  simp [slots]

theorem slots_append (key : Bytes) (first count more : Nat) :
    slots key first count ++ slots key (first + count) more = slots key first (count + more) := by
  unfold slots
  rw [← List.map_append, List.range'_append_1]

theorem nodup_of_slots {qs : List Query} {key : Bytes} {first count : Nat}
    (h : qs.map Query.slot = slots key first count) (hbound : first + count ≤ 2 ^ 64) :
    (qs.map Query.nonce).Nodup := by
  have hnonces : qs.map Query.nonce =
      (List.range' first count).map fun i => nonceOf (.ofNat i) := by
    have hslots := congrArg (List.map Prod.snd) h
    rw [slots, List.map_map, List.map_map] at hslots
    exact hslots
  rw [hnonces]
  apply List.Nodup.map_on _ List.nodup_range'
  intro i hi j hj heq
  rw [List.mem_range'_1] at hi hj
  exact ofNat_inj_of_lt (by omega) (by omega) (nonceOf_inj heq)

namespace SymmetricState

/-! ## Calls -/

inductive Call where
  | mixHash (data : Bytes)
  | mixKey (material : Bytes)
  /-- A payload to encrypt, or a ciphertext to decrypt. -/
  | pass (op : CipherOp) (text : Bytes)
  deriving DecidableEq, Repr

def Call.isPass : Call → Bool
  | .pass _ _ => true
  | .mixHash _ | .mixKey _ => false

/-- How many payloads there are among some calls. -/
def payloads (cs : List Call) : Nat := cs.countP Call.isPass

theorem payloads_cons (c : Call) (cs : List Call) :
    payloads (c :: cs) = payloads [c] + payloads cs := by
  rw [← List.singleton_append]
  exact List.countP_append

variable {S : CipherSuite}

def pass (s : SymmetricState S) (op : CipherOp) (text : Bytes) :
    Except CryptoError Bytes × SymmetricState S :=
  match op with
  | .encrypt => s.encryptAndHash text
  | .decrypt => s.decryptAndHash text

/-- A call with its result; what only takes something in results in nothing. -/
def call (s : SymmetricState S) : Call → Except CryptoError Bytes × SymmetricState S
  | .mixHash data => (.ok [], s.mixHash data)
  | .mixKey material =>
    match s.mixKey material with
    | .error e => (.error e, s)
    | .ok s => (.ok [], s)
  | .pass op text => s.pass op text

/-- The call installs a new key. -/
def Installs (s : SymmetricState S) (c : Call) : Prop :=
  ∃ material, c = .mixKey material ∧ (S.derive s.chainingKey material).isSome

/-- What a call asks the suite. -/
def query? (s : SymmetricState S) : Call → Option Query
  | .mixHash _ | .mixKey _ => none
  | .pass op text =>
    s.key.bind fun key =>
      if s.nonce = lastCounter then none else some ⟨op, key, nonceOf s.nonce, s.hash, text⟩

def after (s : SymmetricState S) (cs : List Call) : SymmetricState S :=
  cs.foldl (fun s c => (s.call c).2) s

/-- No call installs a key. -/
def OneKey (s : SymmetricState S) : List Call → Prop
  | [] => True
  | c :: cs => ¬ s.Installs c ∧ (s.call c).2.OneKey cs

def results (s : SymmetricState S) : List Call → List (Except CryptoError Bytes)
  | [] => []
  | c :: cs => (s.call c).1 :: (s.call c).2.results cs

def queries (s : SymmetricState S) : List Call → List Query
  | [] => []
  | c :: cs => (s.query? c).toList ++ (s.call c).2.queries cs

theorem after_append (s : SymmetricState S) (before rest : List Call) :
    s.after (before ++ rest) = (s.after before).after rest := List.foldl_append

theorem queries_append (s : SymmetricState S) (before rest : List Call) :
    s.queries (before ++ rest) = s.queries before ++ (s.after before).queries rest := by
  induction before generalizing s with
  | nil => rfl
  | cons c before ih => simp only [List.cons_append, queries, ih, List.append_assoc]; rfl

/-! ## One key -/

theorem call_mixKey {s : SymmetricState S} {material chainingKey key : Bytes}
    (h : S.derive s.chainingKey material = some (chainingKey, key)) :
    s.call (.mixKey material) =
      (.ok [], { s with chainingKey := chainingKey, key := some key, nonce := 0 }) := by
  simp only [call, mixKey, h]

theorem call_mixKey_failed {s : SymmetricState S} {material : Bytes}
    (h : S.derive s.chainingKey material = none) :
    s.call (.mixKey material) = (.error .keyDerivationFailed, s) := by
  simp only [call, mixKey, h]

theorem derive_of_not_installs {s : SymmetricState S} {material : Bytes}
    (h : ¬ s.Installs (.mixKey material)) : S.derive s.chainingKey material = none := by
  rw [← Option.not_isSome_iff_eq_none]
  exact fun hsome => h ⟨material, rfl, hsome⟩

/-! ## One payload -/

variable {s s' : SymmetricState S} {key text : Bytes} {op : CipherOp} {c : Call} {q : Query}

/-- What comes of a payload under a key, by the suite's answer. -/
def settle (s : SymmetricState S) (op : CipherOp) (text : Bytes) :
    Option Bytes → Except CryptoError Bytes × SymmetricState S
  | none => (.error op.refusal, { s with nonce := s.nonce + 1 })
  | some result =>
    (.ok result, { s with nonce := s.nonce + 1 }.mixHash (op.ciphertext text result))

theorem pass_keyless (h : s.key = none) (op : CipherOp) (text : Bytes) :
    s.pass op text = (.ok text, s.mixHash text) := by
  cases op with
  | encrypt => exact encryptAndHash_keyless h text
  | decrypt => exact decryptAndHash_keyless h text

theorem pass_exhausted (hkey : s.key = some key) (h : s.nonce = lastCounter) (op : CipherOp)
    (text : Bytes) : s.pass op text = (.error .counterExhaustion, s) := by
  have hnext : nextCounter s.nonce = .error .counterExhaustion := if_pos h
  unfold pass
  cases op with
  | encrypt => simp only [encryptAndHash, hkey, hnext]
  | decrypt => simp only [decryptAndHash, hkey, hnext]

theorem pass_settled (hkey : s.key = some key) (h : s.nonce ≠ lastCounter) (op : CipherOp)
    (text : Bytes) : s.pass op text =
      s.settle op text (S.answer ⟨op, key, nonceOf s.nonce, s.hash, text⟩) := by
  have hnext : nextCounter s.nonce = .ok (s.nonce + 1) := if_neg h
  unfold pass CipherSuite.answer settle
  cases op with
  | encrypt =>
    cases he : S.encrypt key (nonceOf s.nonce) s.hash text with
    | none => exact encryptAndHash_refused hkey hnext he
    | some sealed => exact encryptAndHash_keyed hkey hnext he
  | decrypt =>
    cases hd : S.decrypt key (nonceOf s.nonce) s.hash text with
    | none => exact decryptAndHash_refused hkey hnext hd
    | some plain => exact decryptAndHash_keyed hkey hnext hd

theorem query?_keyless (h : s.key = none) (c : Call) : s.query? c = none := by
  cases c <;> simp [query?, h]

theorem query?_exhausted (h : s.nonce = lastCounter) (c : Call) : s.query? c = none := by
  cases c <;> simp [query?, h]

theorem query?_pass (hkey : s.key = some key) (h : s.nonce ≠ lastCounter) (op : CipherOp)
    (text : Bytes) :
    s.query? (.pass op text) = some ⟨op, key, nonceOf s.nonce, s.hash, text⟩ := by
  simp [query?, hkey, h]

@[simp] theorem settle_key (s : SymmetricState S) (op : CipherOp) (text : Bytes)
    (answer : Option Bytes) : (s.settle op text answer).2.key = s.key := by
  cases answer <;> rfl

@[simp] theorem settle_chainingKey (s : SymmetricState S) (op : CipherOp) (text : Bytes)
    (answer : Option Bytes) : (s.settle op text answer).2.chainingKey = s.chainingKey := by
  cases answer <;> rfl

@[simp] theorem settle_nonce (s : SymmetricState S) (op : CipherOp) (text : Bytes)
    (answer : Option Bytes) : (s.settle op text answer).2.nonce = s.nonce + 1 := by
  cases answer <;> rfl

theorem settle_inj {S' : CipherSuite} {s' : SymmetricState S'} {x y : Option Bytes}
    (h : (s.settle op text x).1 = (s'.settle op text y).1) : x = y := by
  cases x <;> cases y <;> simp_all [settle]

theorem pass_cases (s : SymmetricState S) (op : CipherOp) (text : Bytes) :
    (s.key = none ∧ s.query? (.pass op text) = none ∧ s.pass op text = (.ok text, s.mixHash text)) ∨
    (∃ key, s.key = some key ∧ s.nonce = lastCounter ∧ s.query? (.pass op text) = none ∧
      s.pass op text = (.error .counterExhaustion, s)) ∨
    (∃ key q, s.key = some key ∧ s.nonce ≠ lastCounter ∧ s.query? (.pass op text) = some q ∧
      q.slot = (key, nonceOf s.nonce) ∧ s.pass op text = s.settle op text (S.answer q)) := by
  cases hkey : s.key with
  | none => exact .inl ⟨rfl, query?_keyless hkey _, pass_keyless hkey op text⟩
  | some key =>
    by_cases h : s.nonce = lastCounter
    · exact .inr (.inl ⟨key, rfl, h, query?_exhausted h _, pass_exhausted hkey h op text⟩)
    · exact .inr (.inr ⟨key, _, rfl, h, query?_pass hkey h op text, rfl,
        pass_settled hkey h op text⟩)

/-! ## From one key to the next -/

/-- What some payloads come to from `s` to `s'`, with no new key in between: the queries have the
next slots of the key, one for each payload until the counter is at its end. -/
structure Spends (s : SymmetricState S) (payloads : Nat) (qs : List Query)
    (s' : SymmetricState S) : Prop where
  key : s'.key = s.key
  chainingKey : s'.chainingKey = s.chainingKey
  nonce : s'.nonce.toNat = s.nonce.toNat + qs.length
  keyless : s.key = none → qs = []
  keyed : ∀ key, s.key = some key →
    qs.map Query.slot = slots key s.nonce.toNat (min payloads (2 ^ 64 - 1 - s.nonce.toNat))

theorem Spends.length {payloads : Nat} {qs : List Query} (h : s.Spends payloads qs s')
    (hkey : s.key = some key) : qs.length = min payloads (2 ^ 64 - 1 - s.nonce.toNat) := by
  have hlength := congrArg List.length (h.keyed key hkey)
  simpa using hlength

theorem Spends.nothing (hkey : s'.key = s.key) (hchaining : s'.chainingKey = s.chainingKey)
    (hnonce : s'.nonce = s.nonce) : s.Spends 0 [] s' := by
  refine ⟨hkey, hchaining, by rw [hnonce]; rfl, fun _ => rfl, fun key _ => ?_⟩
  rw [Nat.zero_min]
  rfl

theorem Spends.trans {s'' : SymmetricState S} {p p' : Nat} {qs qs' : List Query}
    (h : s.Spends p qs s') (h' : s'.Spends p' qs' s'') : s.Spends (p + p') (qs ++ qs') s'' := by
  refine ⟨h'.key.trans h.key, h'.chainingKey.trans h.chainingKey, ?_, ?_, ?_⟩
  · rw [h'.nonce, h.nonce, List.length_append, Nat.add_assoc]
  · intro hkey
    rw [h.keyless hkey, h'.keyless (h.key.trans hkey), List.append_nil]
  · intro key hkey
    rw [List.map_append, h.keyed key hkey, h'.keyed key (h.key.trans hkey), h.nonce,
      h.length hkey, slots_append]
    congr 1
    omega

theorem spends_pass (s : SymmetricState S) (op : CipherOp) (text : Bytes) :
    s.Spends 1 (s.query? (.pass op text)).toList (s.pass op text).2 := by
  obtain ⟨hkey, hquery, hpass⟩ | ⟨key, hkey, hlast, hquery, hpass⟩ |
    ⟨key, q, hkey, hlast, hquery, hslot, hpass⟩ := s.pass_cases op text <;> rw [hquery, hpass]
  · exact ⟨rfl, rfl, rfl, fun _ => rfl, fun key hsome => by rw [hkey] at hsome; cases hsome⟩
  · refine ⟨rfl, rfl, rfl, fun _ => rfl, fun key _ => ?_⟩
    rw [hlast, toNat_lastCounter, Nat.sub_self, Nat.min_zero]
    rfl
  · have hroom := toNat_lt_of_ne hlast
    refine ⟨settle_key .., settle_chainingKey .., ?_, fun hnone => ?_, fun key' hkey' => ?_⟩
    · rw [settle_nonce, UInt64.toNat_add]
      exact Nat.mod_eq_of_lt (by simp; omega)
    · rw [hkey] at hnone
      cases hnone
    · obtain rfl : key = key' := Option.some.inj (hkey.symm.trans hkey')
      rw [Nat.min_eq_left (by omega)]
      simp [slots, hslot]

theorem spends_call (hc : ¬ s.Installs c) :
    s.Spends (payloads [c]) (s.query? c).toList (s.call c).2 := by
  cases c with
  | mixHash data => exact .nothing rfl rfl rfl
  | mixKey material =>
    rw [call_mixKey_failed (derive_of_not_installs hc)]
    exact .nothing rfl rfl rfl
  | pass op text => exact spends_pass s op text

/-- **From one key to the next, the nonces are asked for one after the other.** -/
theorem spends_run {cs : List Call} (h : s.OneKey cs) :
    s.Spends (payloads cs) (s.queries cs) (s.after cs) := by
  induction cs generalizing s with
  | nil => exact .nothing rfl rfl rfl
  | cons c cs ih =>
    rw [payloads_cons]
    exact (spends_call h.1).trans (ih h.2)

/-! ## What is asked of the suite -/

/-- The same transcript under another suite. -/
def under (s : SymmetricState S) (S' : CipherSuite) : SymmetricState S' :=
  ⟨s.chainingKey, s.hash, s.key, s.nonce⟩

variable {S' : CipherSuite}

theorem mixHash_under (hhash : S'.hash = S.hash) (data : Bytes) :
    (s.under S').mixHash data = (s.mixHash data).under S' := by
  simp only [under, mixHash, hhash]

theorem mixKey_under (hderive : S'.derive = S.derive) (material : Bytes) :
    (s.under S').mixKey material = (s.mixKey material).map (·.under S') := by
  simp only [under, mixKey, hderive]
  cases S.derive s.chainingKey material <;> rfl

theorem settle_under (hhash : S'.hash = S.hash) (answer : Option Bytes) :
    (s.under S').settle op text answer =
      ((s.settle op text answer).1, (s.settle op text answer).2.under S') := by
  cases answer with
  | none => rfl
  | some result => simp only [settle, under, mixHash, hhash]

theorem query?_under (s : SymmetricState S) (S' : CipherSuite) (c : Call) :
    (s.under S').query? c = s.query? c := by
  cases c <;> rfl

theorem pass_of_query (h : s.query? (.pass op text) = some q) :
    s.pass op text = s.settle op text (S.answer q) := by
  obtain ⟨-, hquery, -⟩ | ⟨-, -, -, hquery, -⟩ | ⟨-, q', -, -, hquery, -, hpass⟩ :=
    s.pass_cases op text <;> rw [h] at hquery
  · cases hquery
  · cases hquery
  · rw [hpass, Option.some.inj hquery]

theorem call_under (hhash : S'.hash = S.hash) (hderive : S'.derive = S.derive)
    (h : ∀ q ∈ s.query? c, S'.answer q = S.answer q) :
    (s.under S').call c = ((s.call c).1, (s.call c).2.under S') := by
  cases c with
  | mixHash data => simp only [call, mixHash_under hhash]
  | mixKey material =>
    simp only [call, mixKey_under hderive]
    cases s.mixKey material <;> rfl
  | pass op text =>
    simp only [call]
    obtain ⟨hkey, -, hpass⟩ | ⟨key, hkey, hlast, -, hpass⟩ | ⟨key, q, -, -, hquery, -, hpass⟩ :=
      s.pass_cases op text <;> rw [hpass]
    · rw [pass_keyless (s := s.under S') hkey, mixHash_under hhash]
    · exact pass_exhausted (s := s.under S') hkey hlast op text
    · rw [pass_of_query ((query?_under ..).trans hquery), h q hquery, settle_under hhash]

theorem answer_of_call_under (h : ((s.under S').call c).1 = (s.call c).1) :
    ∀ q ∈ s.query? c, S'.answer q = S.answer q := by
  intro q hquery
  cases c with
  | mixHash data | mixKey material => cases hquery
  | pass op text =>
    simp only [call] at h
    rw [pass_of_query hquery, pass_of_query ((query?_under ..).trans hquery)] at h
    exact settle_inj h

/-- **The queries of a run are all that its results owe to the suite's encryption.** -/
theorem results_under_iff (hhash : S'.hash = S.hash) (hderive : S'.derive = S.derive)
    {cs : List Call} : (s.under S').results cs = s.results cs ↔
      ∀ q ∈ s.queries cs, S'.answer q = S.answer q := by
  induction cs generalizing s with
  | nil => simp [results, queries]
  | cons c cs ih =>
    unfold results queries
    rw [List.cons.injEq, List.forall_mem_append]
    constructor
    · rintro ⟨hfirst, hrest⟩
      have hanswer := answer_of_call_under hfirst
      rw [call_under hhash hderive hanswer] at hrest
      exact ⟨by simpa using hanswer, ih.mp hrest⟩
    · rintro ⟨hfirst, hrest⟩
      have hanswer : ∀ q ∈ s.query? c, S'.answer q = S.answer q := by simpa using hfirst
      rw [call_under hhash hderive hanswer]
      exact ⟨rfl, ih.mpr hrest⟩

/-! ## Runs -/

/-- What the next call may do to a transcript. -/
structure Careful (s : SymmetricState S) : Prop where
  /-- The counter starts again where a key is installed, and nowhere else. -/
  restarts : ∀ c, (∃ material chainingKey key, c = .mixKey material ∧
      S.derive s.chainingKey material = some (chainingKey, key) ∧ s.call c =
        (.ok [], { s with chainingKey := chainingKey, key := some key, nonce := 0 })) ∨
    ¬ s.Installs c ∧ (s.call c).2.key = s.key ∧
      (s.call c).2.chainingKey = s.chainingKey ∧ s.nonce ≤ (s.call c).2.nonce
  /-- A key that is not derived leaves everything as it is. -/
  underived : ∀ material, S.derive s.chainingKey material = none →
    s.call (.mixKey material) = (.error .keyDerivationFailed, s)
  /-- A refused payload uses up a nonce and changes nothing else; at the end not even that. -/
  refused : ∀ op text e s', s.pass op text = (.error e, s') →
    s.nonce ≠ lastCounter ∧ e = op.refusal ∧ s' = { s with nonce := s.nonce + 1 } ∨
    s.nonce = lastCounter ∧ e = .counterExhaustion ∧ s' = s
  exhausted : s.key ≠ none → s.nonce = lastCounter → ∀ op text,
    s.pass op text = (.error .counterExhaustion, s)

theorem careful (s : SymmetricState S) : s.Careful := by
  refine ⟨?_, fun _ => call_mixKey_failed, ?_, ?_⟩
  · intro c
    by_cases hc : s.Installs c
    · obtain ⟨material, rfl, hsome⟩ := hc
      obtain ⟨⟨chainingKey, key⟩, hkeys⟩ := Option.isSome_iff_exists.mp hsome
      exact .inl ⟨material, chainingKey, key, rfl, hkeys, call_mixKey hkeys⟩
    · have hspends := s.spends_call hc
      refine .inr ⟨hc, hspends.key, hspends.chainingKey, ?_⟩
      rw [UInt64.le_iff_toNat_le, hspends.nonce]
      omega
  · intro op text e s' h
    obtain ⟨-, -, hpass⟩ | ⟨-, -, hlast, -, hpass⟩ | ⟨-, q, -, hlast, -, -, hpass⟩ :=
      s.pass_cases op text <;> rw [hpass] at h
    · cases h
    · cases h
      exact .inr ⟨hlast, rfl, rfl⟩
    · cases hanswer : S.answer q <;> rw [hanswer] at h <;> cases h
      exact .inl ⟨hlast, rfl, rfl⟩
  · intro hkey hlast op text
    obtain ⟨key, hkey⟩ := Option.ne_none_iff_exists'.mp hkey
    exact pass_exhausted hkey hlast op text

/-- How a run uses the suite's encryption. -/
structure Sparing (s : SymmetricState S) (cs : List Call) : Prop where
  /-- The queries are all that the results owe to the suite's encryption. -/
  asks : ∀ S' : CipherSuite, S'.hash = S.hash → S'.derive = S.derive →
    ((s.under S').results cs = s.results cs ↔ ∀ q ∈ s.queries cs, S'.answer q = S.answer q)
  /-- Up to the first key that is mixed in, the queries go on from the counter at the start. -/
  opening : s.OneKey cs → s.Spends (payloads cs) (s.queries cs) (s.after cs)
  /-- From a key on they count up from 0, each nonce once, until the counter is at its end. -/
  numbered : ∀ before material between chainingKey key,
    cs = before ++ .mixKey material :: between →
    S.derive (s.after before).chainingKey material = some (chainingKey, key) →
    (s.after (before ++ [.mixKey material])).OneKey between →
    ∃ asked, s.queries cs = s.queries before ++ asked ∧
      asked.map Query.slot = slots key 0 (min (payloads between) (2 ^ 64 - 1)) ∧
      (asked.map Query.nonce).Nodup ∧ (s.after cs).nonce.toNat = asked.length
  careful : (s.after cs).Careful

/-- **The nonces of a key are used one after the other**, refused or not, up to the last one. -/
theorem sparing_after (s : SymmetricState S) (cs : List Call) : s.Sparing cs := by
  refine ⟨fun S' hhash hderive => results_under_iff hhash hderive, spends_run, ?_, careful _⟩
  rintro before material between chainingKey key rfl hkeys h
  let start : SymmetricState S :=
    { s.after before with chainingKey := chainingKey, key := some key, nonce := 0 }
  have hcall : ((s.after before).call (.mixKey material)).2 = start := by rw [call_mixKey hkeys]
  have hstart : s.after (before ++ [.mixKey material]) = start := by
    rw [after_append]
    exact hcall
  rw [hstart] at h
  have hspends := spends_run h
  have hslots : (start.queries between).map Query.slot =
      slots key 0 (min (payloads between) (2 ^ 64 - 1)) := hspends.keyed key rfl
  refine ⟨start.queries between, ?_, hslots, nodup_of_slots hslots (by omega), ?_⟩
  · rw [queries_append, queries, hcall]
    rfl
  · rw [List.append_cons, after_append, hstart]
    exact hspends.nonce.trans (Nat.zero_add _)

/-- Three ciphertexts that nobody made, the last one under a second key. -/
example : ((ofName .p256AesGcmSha256 []).queries [.mixKey [1], .pass .decrypt [],
    .pass .decrypt [2], .mixKey [3], .pass .decrypt []]).map Query.nonce =
      [nonceOf 0, nonceOf 1, nonceOf 0] := by decide +kernel

end SymmetricState

end SealedLink
