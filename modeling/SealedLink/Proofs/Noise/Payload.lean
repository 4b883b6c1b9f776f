import SealedLink.Noise.Handshake
import SealedLink.Proofs.Traffic.Lane

/-!
# Payloads of a handshake

A payload is encrypted right after a key was mixed into the transcript: under that key, at counter
0, and bound to the hash of all that was said. These three alone decide what a ciphertext is worth.
-/

namespace SealedLink

/-! ## What is asked of a suite -/

/-- A suite that encrypts every text of up to `limit` bytes, and whose hashes are no longer. -/
structure CipherSuite.SealsUpTo (S : CipherSuite) (limit : Nat) : Prop where
  seals : ∀ key nonce aad plain, plain.length ≤ limit → aad.length ≤ limit →
    ∃ sealed, S.encrypt key nonce aad plain = some sealed
  hashes : ∀ data, (S.hash data).length ≤ limit

/-- A suite whose decryption accepts what its encryption makes and nothing else. What it makes is
sixteen bytes longer than the text. -/
structure CipherSuite.Exact (S : CipherSuite) : Prop where
  opens_iff : ∀ key nonce aad plain sealed,
    S.decrypt key nonce aad sealed = some plain ↔ S.encrypt key nonce aad plain = some sealed
  length : ∀ key nonce aad plain sealed,
    S.encrypt key nonce aad plain = some sealed → sealed.length = plain.length + 16

variable {S : CipherSuite}

theorem CipherSuite.Exact.inverts (hS : S.Exact) : S.Inverts :=
  fun _ _ _ _ _ h => (hS.opens_iff _ _ _ _ _).mpr h

/-- A suite that derives key material up to the size of 255 hashes. -/
def CipherSuite.Derives (S : CipherSuite) : Prop :=
  ∀ chainingKey material size, size ≤ 255 * hashSize → (S.expand chainingKey material size).isSome

/-- The two keys that are derived, if they are. -/
def CipherSuite.derived (S : CipherSuite) (chainingKey material : Bytes) : Bytes × Bytes :=
  (S.derive chainingKey material).getD ([], [])

theorem CipherSuite.Derives.derive_eq (hK : S.Derives) (chainingKey material : Bytes) :
    S.derive chainingKey material = some (S.derived chainingKey material) := by
  have hsize : 2 * hashSize ≤ 255 * hashSize := by decide
  obtain ⟨keys, hkeys⟩ := Option.isSome_iff_exists.mp (hK chainingKey material _ hsize)
  rw [CipherSuite.derived, CipherSuite.derive, hkeys]
  rfl

namespace SymmetricState

variable {s s' : SymmetricState S} {key payload ciphertext : Bytes} {e : CryptoError}

/-! ## One payload -/

theorem encryptAndHash_keyless (h : s.key = none) (payload : Bytes) :
    s.encryptAndHash payload = (.ok payload, s.mixHash payload) := by
  simp only [encryptAndHash, h]

theorem decryptAndHash_keyless (h : s.key = none) (ciphertext : Bytes) :
    s.decryptAndHash ciphertext = (.ok ciphertext, s.mixHash ciphertext) := by
  simp only [decryptAndHash, h]

theorem encryptAndHash_keyed {next : UInt64} (h : s.key = some key)
    (hnext : nextCounter s.nonce = .ok next)
    (he : S.encrypt key (nonceOf s.nonce) s.hash payload = some ciphertext) :
    s.encryptAndHash payload = (.ok ciphertext, { s with nonce := next }.mixHash ciphertext) := by
  simp only [encryptAndHash, h, hnext, CipherSuite.encryptAt, he]

theorem decryptAndHash_keyed {next : UInt64} (h : s.key = some key)
    (hnext : nextCounter s.nonce = .ok next)
    (hd : S.decrypt key (nonceOf s.nonce) s.hash ciphertext = some payload) :
    s.decryptAndHash ciphertext = (.ok payload, { s with nonce := next }.mixHash ciphertext) := by
  simp only [decryptAndHash, h, hnext, CipherSuite.decryptAt, hd]

theorem encryptAndHash_refused {next : UInt64} (h : s.key = some key)
    (hnext : nextCounter s.nonce = .ok next)
    (he : S.encrypt key (nonceOf s.nonce) s.hash payload = none) :
    s.encryptAndHash payload = (.error .encryptionFailed, { s with nonce := next }) := by
  simp only [encryptAndHash, h, hnext, CipherSuite.encryptAt, he]

theorem decryptAndHash_refused {next : UInt64} (h : s.key = some key)
    (hnext : nextCounter s.nonce = .ok next)
    (hd : S.decrypt key (nonceOf s.nonce) s.hash ciphertext = none) :
    s.decryptAndHash ciphertext = (.error .decryptionFailed, { s with nonce := next }) := by
  simp only [decryptAndHash, h, hnext, CipherSuite.decryptAt, hd]

/-! ## Keys -/

/-- The transcript after key material was taken in. -/
def keyed (s : SymmetricState S) (material : Bytes) : SymmetricState S :=
  { s with
    chainingKey := (S.derived s.chainingKey material).1
    key := some (S.derived s.chainingKey material).2
    nonce := 0 }

/-- The keys of the traffic. -/
def keys (s : SymmetricState S) : TrafficKeys :=
  ⟨(S.derived s.chainingKey []).1, (S.derived s.chainingKey []).2⟩

theorem mixKey_eq (hK : S.Derives) (s : SymmetricState S) (material : Bytes) :
    s.mixKey material = .ok (s.keyed material) := by
  rw [mixKey, hK.derive_eq]
  rfl

theorem mixPublicKey_eq (hK : S.Derives) (s : SymmetricState S) (publicKey : Bytes) :
    s.mixPublicKey publicKey = .ok ((s.mixHash publicKey).keyed publicKey) :=
  mixKey_eq hK _ _

theorem split_eq (hK : S.Derives) (s : SymmetricState S) : s.split = .ok s.keys := by
  rw [split, hK.derive_eq]
  rfl

/-! ## Right after a key -/

/-- A transcript that a key was just mixed into. -/
structure Fresh (s : SymmetricState S) (key : Bytes) : Prop where
  key : s.key = some key
  nonce : s.nonce = 0

theorem fresh_keyed (s : SymmetricState S) (material : Bytes) :
    (s.keyed material).Fresh (S.derived s.chainingKey material).2 :=
  ⟨rfl, rfl⟩

theorem Fresh.nextCounter (h : s.Fresh key) : nextCounter s.nonce = .ok 1 := by
  rw [h.nonce]
  rfl

/-- The transcript after its first ciphertext under a key. -/
def taken (s : SymmetricState S) (ciphertext : Bytes) : SymmetricState S :=
  { s with nonce := 1 }.mixHash ciphertext

theorem Fresh.encryptAndHash (h : s.Fresh key)
    (he : S.encrypt key (nonceOf 0) s.hash payload = some ciphertext) :
    s.encryptAndHash payload = (.ok ciphertext, s.taken ciphertext) := by
  rw [← h.nonce] at he
  exact encryptAndHash_keyed h.key h.nextCounter he

theorem Fresh.decryptEmpty_none (h : s.Fresh key)
    (hd : S.decrypt key (nonceOf 0) s.hash ciphertext = none) :
    s.decryptEmpty ciphertext = .error .decryptionFailed := by
  rw [← h.nonce] at hd
  rw [decryptEmpty, decryptAndHash_refused h.key h.nextCounter hd]

theorem Fresh.decryptEmpty_some (h : s.Fresh key)
    (hd : S.decrypt key (nonceOf 0) s.hash ciphertext = some payload) :
    s.decryptEmpty ciphertext =
      if payload = [] then .ok (s.taken ciphertext)
      else .error (.unexpectedPayload payload.length) := by
  rw [← h.nonce] at hd
  rw [decryptEmpty, decryptAndHash_keyed h.key h.nextCounter hd]
  simp only [taken, List.isEmpty_iff]

/-! ## What a ciphertext carries -/

/-- The ciphertext is the payload, encrypted under the key of a transcript at counter 0 with the
hash of the transcript as associated data. -/
def Carries (s : SymmetricState S) (payload ciphertext : Bytes) : Prop :=
  ∃ key, s.key = some key ∧ S.encrypt key (nonceOf 0) s.hash payload = some ciphertext

/-- What is wrong with a ciphertext that should carry nothing. -/
inductive Flaw (s : SymmetricState S) (ciphertext : Bytes) : CryptoError → Prop where
  | forged (h : ∀ payload, ¬ s.Carries payload ciphertext) : s.Flaw ciphertext .decryptionFailed
  | burdened {payload : Bytes} (h : s.Carries payload ciphertext) (hp : payload ≠ []) :
      s.Flaw ciphertext (.unexpectedPayload (ciphertext.length - 16))

theorem Carries.length (hS : S.Exact) (h : s.Carries payload ciphertext) :
    ciphertext.length = payload.length + 16 := by
  obtain ⟨key, -, he⟩ := h
  exact hS.length _ _ _ _ _ he

theorem Carries.unique {other : Bytes} (h : s.Carries payload ciphertext)
    (ho : s.Carries payload other) : other = ciphertext := by
  obtain ⟨key, hkey, he⟩ := h
  obtain ⟨key', hkey', he'⟩ := ho
  obtain rfl : key = key' := Option.some.inj (hkey.symm.trans hkey')
  exact Option.some.inj (he'.symm.trans he)

theorem Fresh.carries_iff (hS : S.Exact) (h : s.Fresh key) :
    s.Carries payload ciphertext ↔ S.decrypt key (nonceOf 0) s.hash ciphertext = some payload := by
  rw [hS.opens_iff]
  constructor
  · rintro ⟨key', hkey, he⟩
    obtain rfl : key = key' := Option.some.inj (h.key.symm.trans hkey)
    exact he
  · exact fun he => ⟨key, h.key, he⟩

theorem Fresh.exists_ciphertext {limit : Nat} (hlimit : S.SealsUpTo limit) (h : s.Fresh key)
    (hhash : s.hash.length ≤ limit) (hp : payload.length ≤ limit) :
    ∃ ciphertext, s.Carries payload ciphertext ∧
      s.encryptAndHash payload = (.ok ciphertext, s.taken ciphertext) := by
  obtain ⟨ciphertext, he⟩ := hlimit.seals key (nonceOf 0) s.hash payload hp hhash
  exact ⟨ciphertext, ⟨key, h.key, he⟩, h.encryptAndHash he⟩

theorem Fresh.decryptEmpty_of_carries (hS : S.Inverts) (h : s.Fresh key)
    (hc : s.Carries payload ciphertext) :
    s.decryptEmpty ciphertext =
      if payload = [] then .ok (s.taken ciphertext)
      else .error (.unexpectedPayload payload.length) := by
  obtain ⟨key', hkey, he⟩ := hc
  obtain rfl : key = key' := Option.some.inj (h.key.symm.trans hkey)
  exact h.decryptEmpty_some (hS _ _ _ _ _ he)

/-! ## Judging a ciphertext -/

theorem Fresh.decryptEmpty_ok_iff (hS : S.Exact) (h : s.Fresh key) :
    s.decryptEmpty ciphertext = .ok s' ↔ s.Carries [] ciphertext ∧ s' = s.taken ciphertext := by
  constructor
  · intro hok
    cases hd : S.decrypt key (nonceOf 0) s.hash ciphertext with
    | none =>
      rw [h.decryptEmpty_none hd] at hok
      cases hok
    | some payload =>
      rw [h.decryptEmpty_some hd] at hok
      split at hok
      · rename_i hempty
        subst hempty
        exact ⟨(h.carries_iff hS).mpr hd, (Except.ok.inj hok).symm⟩
      · cases hok
  · rintro ⟨hc, rfl⟩
    rw [h.decryptEmpty_of_carries hS.inverts hc, if_pos rfl]

theorem Fresh.decryptEmpty_error_iff (hS : S.Exact) (h : s.Fresh key) :
    s.decryptEmpty ciphertext = .error e ↔ s.Flaw ciphertext e := by
  constructor
  · intro herror
    cases hd : S.decrypt key (nonceOf 0) s.hash ciphertext with
    | none =>
      rw [h.decryptEmpty_none hd] at herror
      cases herror
      refine .forged fun payload hc => ?_
      rw [h.carries_iff hS, hd] at hc
      cases hc
    | some payload =>
      have hc : s.Carries payload ciphertext := (h.carries_iff hS).mpr hd
      rw [h.decryptEmpty_some hd] at herror
      split at herror
      · cases herror
      · rename_i hne
        cases herror
        -- The error names the payload's size, which the ciphertext's length gives away.
        have hsize : payload.length = ciphertext.length - 16 := by
          rw [hc.length hS, Nat.add_sub_cancel]
        rw [hsize]
        exact .burdened hc hne
  · rintro (hnone | ⟨hc, hne⟩)
    · refine h.decryptEmpty_none (Option.eq_none_iff_forall_ne_some.mpr fun payload hd => ?_)
      exact hnone payload ((h.carries_iff hS).mpr hd)
    · rw [h.decryptEmpty_of_carries hS.inverts hc, if_neg hne, hc.length hS, Nat.add_sub_cancel]

end SymmetricState

end SealedLink
