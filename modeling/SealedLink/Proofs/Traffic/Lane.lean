import SealedLink.Noise.TrafficCipher
import SealedLink.Proofs.Bytes

/-!
# One direction of the traffic

The packets of a direction are sealed, and opened, under one key and one counter after another from
0 on. If every use on the opening side is a use on the sealing side, the opened packets are the
first of the sealed ones.
-/

namespace SealedLink

variable {S : CipherSuite}

/-! ## One step of a cipher -/

theorem nonceOf_inj {a b : UInt64} (h : nonceOf a = nonceOf b) : a = b := by
  apply UInt64.toNat_inj.mp
  exact Bytes.ofNat_inj a.toNat_lt b.toNat_lt (List.append_cancel_left h)

theorem ofNat_inj_of_lt {i j : Nat} (hi : i < 2 ^ 64) (hj : j < 2 ^ 64)
    (h : UInt64.ofNat i = UInt64.ofNat j) : i = j := by
  have hnat := congrArg UInt64.toNat h
  rwa [UInt64.toNat_ofNat_of_lt' hi, UInt64.toNat_ofNat_of_lt' hj] at hnat

theorem toNat_lastCounter : lastCounter.toNat = 2 ^ 64 - 1 := by decide

theorem toNat_lt_of_ne {counter : UInt64} (h : counter ≠ lastCounter) :
    counter.toNat < 2 ^ 64 - 1 := by
  have hlast : counter.toNat ≠ lastCounter.toNat := fun he => h (UInt64.toNat_inj.mp he)
  have hlt := counter.toNat_lt
  rw [toNat_lastCounter] at hlast
  omega

theorem nextCounter_ok {counter next : UInt64} (h : nextCounter counter = .ok next) :
    counter ≠ lastCounter ∧ next = counter + 1 := by
  unfold nextCounter at h
  split at h
  · cases h
  · rename_i hlast
    exact ⟨hlast, (Except.ok.inj h).symm⟩

theorem counter_lt {counter : UInt64} {n : Nat} (hc : counter.toNat = n) (hn : n + 1 < 2 ^ 64) :
    counter ≠ lastCounter ∧ UInt64.ofNat n = counter := by
  refine ⟨?_, by rw [← hc, UInt64.ofNat_toNat]⟩
  rintro rfl
  rw [toNat_lastCounter] at hc
  omega

theorem TrafficCipher.encrypt_ok {c c' : TrafficCipher S} {plain sealed : Bytes}
    (h : c.encrypt plain = (.ok sealed, c')) :
    c.sent ≠ lastCounter ∧ S.encrypt c.sendKey (nonceOf c.sent) [] plain = some sealed ∧
      c' = { c with sent := c.sent + 1 } := by
  unfold TrafficCipher.encrypt CipherSuite.encryptAt at h
  split at h
  · cases h
  · rename_i next hnext
    obtain ⟨hlast, rfl⟩ := nextCounter_ok hnext
    split at h
    · cases h
    · rename_i ciphertext hc
      split at hc <;> cases hc
      cases h
      exact ⟨hlast, ‹_›, rfl⟩

theorem TrafficCipher.decrypt_ok {c c' : TrafficCipher S} {plain sealed : Bytes}
    (h : c.decrypt sealed = (.ok plain, c')) :
    c.received ≠ lastCounter ∧ S.decrypt c.receiveKey (nonceOf c.received) [] sealed = some plain ∧
      c' = { c with received := c.received + 1 } := by
  unfold TrafficCipher.decrypt CipherSuite.decryptAt at h
  split at h
  · cases h
  · rename_i next hnext
    obtain ⟨hlast, rfl⟩ := nextCounter_ok hnext
    split at h
    · cases h
    · rename_i plaintext hp
      split at hp <;> cases hp
      cases h
      exact ⟨hlast, ‹_›, rfl⟩

theorem TrafficCipher.encrypt_refused {c c' : TrafficCipher S} {plain : Bytes} {e : CryptoError}
    (h : c.encrypt plain = (.error e, c')) : c' = c := by
  unfold TrafficCipher.encrypt at h
  split at h
  · cases h
    rfl
  · split at h <;> cases h
    rfl

theorem TrafficCipher.decrypt_refused {c c' : TrafficCipher S} {sealed : Bytes} {e : CryptoError}
    (h : c.decrypt sealed = (.error e, c')) : c' = c := by
  unfold TrafficCipher.decrypt at h
  split at h
  · cases h
    rfl
  · split at h <;> cases h
    rfl

theorem TrafficCipher.encrypt_seals {c : TrafficCipher S} {plain sealed : Bytes}
    (hlast : c.sent ≠ lastCounter)
    (h : S.encrypt c.sendKey (nonceOf c.sent) [] plain = some sealed) :
    c.encrypt plain = (.ok sealed, { c with sent := c.sent + 1 }) := by
  rw [TrafficCipher.encrypt, nextCounter, if_neg hlast]
  simp only [CipherSuite.encryptAt, h]

theorem TrafficCipher.decrypt_opens {c : TrafficCipher S} {plain sealed : Bytes}
    (hlast : c.received ≠ lastCounter)
    (h : S.decrypt c.receiveKey (nonceOf c.received) [] sealed = some plain) :
    c.decrypt sealed = (.ok plain, { c with received := c.received + 1 }) := by
  rw [TrafficCipher.decrypt, nextCounter, if_neg hlast]
  simp only [CipherSuite.decryptAt, h]

/-! ## Packets and their uses of a key -/

@[ext]
structure Packet where
  plain : Bytes
  sealed : Bytes
  deriving DecidableEq

/-- A ciphertext with the key and the counter that it was sealed or opened under. -/
structure Use where
  key : Bytes
  counter : UInt64
  sealed : Bytes
  deriving DecidableEq

/-- The uses of a key for packets one after another. -/
def uses (key : Bytes) (lane : List Packet) : List Use :=
  lane.zipIdx.map fun x => ⟨key, .ofNat x.2, x.1.sealed⟩

def Seals (S : CipherSuite) (key : Bytes) (counter : UInt64) (p : Packet) : Prop :=
  S.encrypt key (nonceOf counter) [] p.plain = some p.sealed

def Opens (S : CipherSuite) (key : Bytes) (counter : UInt64) (p : Packet) : Prop :=
  S.decrypt key (nonceOf counter) [] p.sealed = some p.plain

/-- Decryption gives back what was encrypted. -/
def CipherSuite.Inverts (S : CipherSuite) : Prop :=
  ∀ key nonce aad plain sealed,
    S.encrypt key nonce aad plain = some sealed → S.decrypt key nonce aad sealed = some plain

/-- Each packet is good at its counter, and the counters have not run out. -/
structure Lane (good : UInt64 → Packet → Prop) (lane : List Packet) : Prop where
  good : ∀ i p, lane[i]? = some p → good (.ofNat i) p
  bound : lane.length < 2 ^ 64

theorem lane_nil (good : UInt64 → Packet → Prop) : Lane good [] where
  good _ _ h := nomatch h
  bound := by simp

theorem uses_append (key : Bytes) (lane : List Packet) (p : Packet) :
    uses key (lane ++ [p]) = uses key lane ++ [⟨key, .ofNat lane.length, p.sealed⟩] := by
  simp [uses, List.zipIdx_append]

theorem uses_getElem? (key : Bytes) (lane : List Packet) (i : Nat) :
    (uses key lane)[i]? = lane[i]?.map fun p => ⟨key, .ofNat i, p.sealed⟩ := by
  simp only [uses, List.getElem?_map, List.getElem?_zipIdx, Option.map_map, Nat.zero_add]
  rfl

@[simp] theorem length_uses (key : Bytes) (lane : List Packet) :
    (uses key lane).length = lane.length := by
  simp [uses]

theorem key_of_mem_uses {key : Bytes} {lane : List Packet} {u : Use} (h : u ∈ uses key lane) :
    u.key = key := by
  obtain ⟨⟨_, _⟩, -, rfl⟩ := List.mem_map.mp h
  rfl

theorem mem_uses {key : Bytes} {lane : List Packet} {u : Use} :
    u ∈ uses key lane ↔ ∃ i p, lane[i]? = some p ∧ u = ⟨key, .ofNat i, p.sealed⟩ := by
  unfold uses
  constructor
  · intro h
    obtain ⟨⟨p, i⟩, hp, rfl⟩ := List.mem_map.mp h
    exact ⟨i, p, List.mem_zipIdx_iff_getElem?.mp hp, rfl⟩
  · rintro ⟨i, p, hp, rfl⟩
    exact List.mem_map.mpr ⟨(p, i), List.mem_zipIdx_iff_getElem?.mpr hp, rfl⟩

variable {good : UInt64 → Packet → Prop} {lane : List Packet}

theorem Lane.append {counter : UInt64} {p : Packet} (h : Lane good lane)
    (hc : counter.toNat = lane.length) (hl : counter ≠ lastCounter) (hp : good counter p) :
    Lane good (lane ++ [p]) where
  good i q hq := by
    rcases Nat.lt_or_ge i lane.length with hi | hi
    · rw [List.getElem?_append_left hi] at hq
      exact h.good i q hq
    · have hlt := (List.getElem?_eq_some_iff.mp hq).1
      rw [List.length_append, List.length_singleton] at hlt
      obtain rfl : i = lane.length := by omega
      rw [← hc, UInt64.ofNat_toNat]
      obtain rfl : p = q := by simpa using hq
      exact hp
  bound := by
    have hlt := toNat_lt_of_ne hl
    rw [List.length_append, List.length_singleton]
    omega

theorem Lane.next {counter : UInt64} {p : Packet} (h : Lane good lane)
    (hc : counter.toNat = lane.length) (hl : counter ≠ lastCounter) (hp : good counter p) :
    Lane good (lane ++ [p]) ∧ (counter + 1).toNat = lane.length + 1 ∧
      ∀ key, uses key lane ++ [⟨key, counter, p.sealed⟩] = uses key (lane ++ [p]) := by
  have hlane := h.append hc hl hp
  refine ⟨hlane, ?_, fun key => ?_⟩
  · have hbound := hlane.bound
    rw [List.length_append, List.length_singleton] at hbound
    rw [UInt64.toNat_add, hc]
    exact Nat.mod_eq_of_lt hbound
  · rw [uses_append, ← hc, UInt64.ofNat_toNat]

theorem Lane.seal {key plain sealed : Bytes} {c c' : TrafficCipher S}
    (h : Lane (Seals S key) lane) (hkey : c.sendKey = key) (hc : c.sent.toNat = lane.length)
    (he : c.encrypt plain = (.ok sealed, c')) :
    Lane (Seals S key) (lane ++ [⟨plain, sealed⟩]) ∧
      c'.sent.toNat = (lane ++ [(⟨plain, sealed⟩ : Packet)]).length ∧
      uses key lane ++ [⟨c.sendKey, c.sent, sealed⟩] = uses key (lane ++ [⟨plain, sealed⟩]) ∧
      c' = { c with sent := c.sent + 1 } := by
  obtain ⟨hlast, hseal, rfl⟩ := TrafficCipher.encrypt_ok he
  subst hkey
  obtain ⟨hlane, hsent, huses⟩ := h.next hc hlast (p := ⟨plain, sealed⟩) hseal
  refine ⟨hlane, ?_, huses _, rfl⟩
  rw [List.length_append]
  exact hsent

theorem Lane.open {key plain sealed : Bytes} {c c' : TrafficCipher S}
    (h : Lane (Opens S key) lane) (hkey : c.receiveKey = key)
    (hc : c.received.toNat = lane.length) (hd : c.decrypt sealed = (.ok plain, c')) :
    Lane (Opens S key) (lane ++ [⟨plain, sealed⟩]) ∧
      c'.received.toNat = (lane ++ [(⟨plain, sealed⟩ : Packet)]).length ∧
      uses key lane ++ [⟨c.receiveKey, c.received, sealed⟩] =
        uses key (lane ++ [⟨plain, sealed⟩]) ∧
      c' = { c with received := c.received + 1 } := by
  obtain ⟨hlast, hopen, rfl⟩ := TrafficCipher.decrypt_ok hd
  subst hkey
  obtain ⟨hlane, hreceived, huses⟩ := h.next hc hlast (p := ⟨plain, sealed⟩) hopen
  refine ⟨hlane, ?_, huses _, rfl⟩
  rw [List.length_append]
  exact hreceived

theorem Lane.eq_of_mem_uses {key : Bytes} {i : Nat} {sealed : Bytes} (h : Lane good lane)
    (hi : i < 2 ^ 64) (hm : ⟨key, .ofNat i, sealed⟩ ∈ uses key lane) :
    ∃ p, lane[i]? = some p ∧ p.sealed = sealed := by
  obtain ⟨j, p, hp, he⟩ := mem_uses.mp hm
  obtain ⟨-, hij, rfl⟩ := Use.mk.inj he
  have hj : j < 2 ^ 64 := by
    have := (List.getElem?_eq_some_iff.mp hp).1
    have := h.bound
    omega
  obtain rfl := ofNat_inj_of_lt hi hj hij
  exact ⟨p, hp, rfl⟩

theorem getElem?_of_prefix {β : Type} {l m : List β} {i : Nat} {x : β} (h : l <+: m)
    (hx : l[i]? = some x) : m[i]? = some x := by
  obtain ⟨rest, rfl⟩ := h
  rw [List.getElem?_append_left (List.getElem?_eq_some_iff.mp hx).1, hx]

theorem Lane.of_prefix {front : List Packet} (h : Lane good lane) (hp : front <+: lane) :
    Lane good front where
  good i p hi := h.good i p <| getElem?_of_prefix hp hi
  bound := Nat.lt_of_le_of_lt hp.length_le h.bound

/-- **What is opened is what was sealed first**, if every use on one side is one on the other. -/
theorem lane_prefix {key : Bytes} {opened sealed : List Packet} (hS : S.Inverts)
    (ho : Lane (Opens S key) opened) (hs : Lane (Seals S key) sealed)
    (h : ∀ u ∈ uses key opened, u ∈ uses key sealed) : opened <+: sealed := by
  rw [List.prefix_iff_getElem?]
  intro i hi
  have hp : opened[i]? = some opened[i] := List.getElem?_eq_getElem hi
  have hbound := ho.bound
  -- Both packets stand at the same counter, and the ciphertext decides what is opened there.
  obtain ⟨q, hq, hsame⟩ := hs.eq_of_mem_uses (Nat.lt_trans hi hbound)
    (h _ (mem_uses.mpr ⟨i, opened[i], hp, rfl⟩))
  have hopen : S.decrypt key (nonceOf (.ofNat i)) [] opened[i].sealed = some opened[i].plain :=
    ho.good i _ hp
  have hseal : S.decrypt key (nonceOf (.ofNat i)) [] q.sealed = some q.plain :=
    hS _ _ _ _ _ (hs.good i q hq)
  rw [hsame, hopen] at hseal
  rw [hq, Packet.ext (Option.some.inj hseal).symm hsame]

end SealedLink
