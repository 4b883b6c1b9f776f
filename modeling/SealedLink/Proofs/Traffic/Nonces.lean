import Mathlib.Data.List.Nodup
import SealedLink.Proofs.Traffic.Duplex

/-!
# No nonce twice

Each side numbers what it encrypts from 0 on, and the two sides encrypt under different keys. So no
two encryptions of a run have the same key and the same nonce (`fresh_nonces_after`). A counter that
has come to its end stays there, and every further call is refused.
-/

namespace SealedLink

variable {S : CipherSuite}

/-! ## The end of a counter -/

namespace TrafficCipher

variable {c : TrafficCipher S}

theorem encrypt_exhausted (h : c.sent = lastCounter) (plain : Bytes) :
    c.encrypt plain = (.error .counterExhaustion, c) := by
  rw [encrypt, nextCounter, if_pos h]

theorem decrypt_exhausted (h : c.received = lastCounter) (text : Bytes) :
    c.decrypt text = (.error .counterExhaustion, c) := by
  rw [decrypt, nextCounter, if_pos h]

end TrafficCipher

namespace Party

variable {p : Party S}

theorem call_of_sent_last (h : p.cipher.sent = lastCounter) (c : Call) :
    (p.call c).cipher.sent = lastCounter ∧ (p.call c).sealed = p.sealed := by
  cases c with
  | encrypt plain =>
    rw [call, TrafficCipher.encrypt_exhausted h]
    exact ⟨h, rfl⟩
  | decrypt text =>
    simp only [call]
    split
    · rename_i heq
      rw [TrafficCipher.decrypt_refused heq]
      exact ⟨h, rfl⟩
    · rename_i heq
      obtain ⟨-, -, rfl⟩ := TrafficCipher.decrypt_ok heq
      exact ⟨h, rfl⟩

theorem call_of_received_last (h : p.cipher.received = lastCounter) (c : Call) :
    (p.call c).cipher.received = lastCounter ∧ (p.call c).opened = p.opened := by
  cases c with
  | decrypt text =>
    rw [call, TrafficCipher.decrypt_exhausted h]
    exact ⟨h, rfl⟩
  | encrypt plain =>
    simp only [call]
    split
    · rename_i heq
      rw [TrafficCipher.encrypt_refused heq]
      exact ⟨h, rfl⟩
    · rename_i heq
      obtain ⟨-, -, rfl⟩ := TrafficCipher.encrypt_ok heq
      exact ⟨h, rfl⟩

/-! ## The nonces of one side -/

/-- The key and the nonce of every ciphertext so far. -/
def nonces (p : Party S) : List (Bytes × Bytes) := p.seals.map fun u => (u.key, nonceOf u.counter)

variable {outward inward : Bytes}

theorem Sound.nonces (h : p.Sound outward inward) :
    p.nonces = (List.range p.sealed.length).map fun i => (outward, nonceOf (.ofNat i)) := by
  rw [Party.nonces, h.seals, List.range_eq_range', ← List.zipIdx_map_snd 0 p.sealed, uses]
  simp only [List.map_map]
  rfl

theorem Sound.nodup_nonces (h : p.Sound outward inward) : p.nonces.Nodup := by
  rw [h.nonces]
  apply List.Nodup.map_on _ List.nodup_range
  intro i hi j hj heq
  have hbound := h.sealedLane.bound
  rw [List.mem_range] at hi hj
  exact ofNat_inj_of_lt (by omega) (by omega) (nonceOf_inj (congrArg Prod.snd heq))

theorem Sound.key_of_mem_nonces (h : p.Sound outward inward) {x : Bytes × Bytes}
    (hx : x ∈ p.nonces) : x.1 = outward := by
  rw [h.nonces] at hx
  obtain ⟨i, -, rfl⟩ := List.mem_map.mp hx
  rfl

end Party

/-! ## Both sides -/

namespace Duplex

variable {d : Duplex S} {keys : TrafficKeys}

theorem after_cons (d : Duplex S) (a : Role × Party.Call) (acts : List (Role × Party.Call)) :
    d.after (a :: acts) = (d.act a).after acts := rfl

theorem kept_after {r : Role} {P : Party S → Prop} (h : ∀ p c, P p → P (p.call c))
    (hd : P (d r)) (acts : List (Role × Party.Call)) : P (d.after acts r) := by
  induction acts generalizing d with
  | nil => exact hd
  | cons a acts ih =>
    rw [after_cons]
    apply ih
    by_cases hr : r = a.1
    · subst hr
      rw [act, Function.update_self]
      exact h _ _ hd
    · rw [act, Function.update_of_ne hr]
      exact hd

/-- No side ever encrypts under a key and a nonce that were used before. -/
structure FreshNonces (keys : TrafficKeys) (d : Duplex S) : Prop where
  once : ((d .initiator).nonces ++ (d .responder).nonces).Nodup
  /-- The packet with the number `i` was sealed under the nonce of `i`. -/
  numbered : ∀ r i p, (d r).sealed[i]? = some p →
    (d r).nonces[i]? = some (keys.sendKey r, nonceOf (.ofNat i)) ∧
      S.encrypt (keys.sendKey r) (nonceOf (.ofNat i)) [] p.plain = some p.sealed
  apart : (d .initiator).cipher.sendKey ≠ (d .responder).cipher.sendKey
  /-- The counters are the numbers of packets, so they have not wrapped. -/
  counted : ∀ r, (d r).cipher.sent.toNat = (d r).sealed.length ∧
    (d r).cipher.received.toNat = (d r).opened.length
  sendEnds : ∀ r, (d r).cipher.sent = lastCounter → ∀ later plain,
    (d.after later r).sealed = (d r).sealed ∧
      (d.after later r).cipher.encrypt plain =
        (.error .counterExhaustion, (d.after later r).cipher)
  receiveEnds : ∀ r, (d r).cipher.received = lastCounter → ∀ later text,
    (d.after later r).opened = (d r).opened ∧
      (d.after later r).cipher.decrypt text =
        (.error .counterExhaustion, (d.after later r).cipher)

theorem nodup_nonces (hkeys : keys.initiatorToResponder ≠ keys.responderToInitiator)
    (hd : d.Sound keys) : ((d .initiator).nonces ++ (d .responder).nonces).Nodup := by
  apply (hd .initiator).nodup_nonces.append (hd .responder).nodup_nonces
  intro x hx hx'
  have hkey := (hd .initiator).key_of_mem_nonces hx
  rw [(hd .responder).key_of_mem_nonces hx'] at hkey
  exact hkeys hkey.symm

theorem numbered_of_sound (hd : d.Sound keys) {r : Role} {i : Nat} {p : Packet}
    (hp : (d r).sealed[i]? = some p) :
    (d r).nonces[i]? = some (keys.sendKey r, nonceOf (.ofNat i)) ∧
      S.encrypt (keys.sendKey r) (nonceOf (.ofNat i)) [] p.plain = some p.sealed := by
  refine ⟨?_, (hd r).sealedLane.good i p hp⟩
  have hi := (List.getElem?_eq_some_iff.mp hp).1
  rw [(hd r).nonces, List.getElem?_map, List.getElem?_range hi]
  rfl

theorem sends_no_more {r : Role} (h : (d r).cipher.sent = lastCounter)
    (later : List (Role × Party.Call)) (plain : Bytes) :
    (d.after later r).sealed = (d r).sealed ∧ (d.after later r).cipher.encrypt plain =
      (.error .counterExhaustion, (d.after later r).cipher) := by
  have hkept := kept_after (P := fun p => p.cipher.sent = lastCounter ∧ p.sealed = (d r).sealed)
    (fun p c hp => by
      obtain ⟨hlast, hsame⟩ := Party.call_of_sent_last hp.1 c
      exact ⟨hlast, hsame.trans hp.2⟩) ⟨h, rfl⟩ later
  exact ⟨hkept.2, TrafficCipher.encrypt_exhausted hkept.1 plain⟩

theorem receives_no_more {r : Role} (h : (d r).cipher.received = lastCounter)
    (later : List (Role × Party.Call)) (text : Bytes) :
    (d.after later r).opened = (d r).opened ∧ (d.after later r).cipher.decrypt text =
      (.error .counterExhaustion, (d.after later r).cipher) := by
  have hkept := kept_after
    (P := fun p => p.cipher.received = lastCounter ∧ p.opened = (d r).opened)
    (fun p c hp => by
      obtain ⟨hlast, hsame⟩ := Party.call_of_received_last hp.1 c
      exact ⟨hlast, hsame.trans hp.2⟩) ⟨h, rfl⟩ later
  exact ⟨hkept.2, TrafficCipher.decrypt_exhausted hkept.1 text⟩

/-- **No nonce is used twice under one key**, however the two sides take turns and whatever fails. -/
theorem fresh_nonces_after (S : CipherSuite)
    (hkeys : keys.initiatorToResponder ≠ keys.responderToInitiator)
    (acts : List (Role × Party.Call)) :
    ((new S keys).after acts).FreshNonces keys ∧ Function.Injective nonceOf := by
  have hd := sound_after (S := S) keys acts
  refine ⟨⟨nodup_nonces hkeys hd, fun _ _ _ => numbered_of_sound hd, ?_,
    fun r => ⟨(hd r).sent, (hd r).received⟩, fun _ => sends_no_more, fun _ => receives_no_more⟩,
    fun _ _ => nonceOf_inj⟩
  rw [(hd .initiator).sendKey, (hd .responder).sendKey]
  exact hkeys

/-- Both sides encrypt, one of them twice, with a call in between that fails. -/
def interleaving : List (Role × Party.Call) :=
  [(.initiator, .encrypt [0x41]), (.responder, .encrypt [0x42]), (.initiator, .decrypt []),
    (.initiator, .encrypt [0x43])]

theorem nonces_interleaving (keys : TrafficKeys) :
    ((new .p256AesGcmSha256 keys).after interleaving .initiator).nonces =
      [(keys.initiatorToResponder, nonceOf 0), (keys.initiatorToResponder, nonceOf 1)] ∧
    ((new .p256AesGcmSha256 keys).after interleaving .responder).nonces =
      [(keys.responderToInitiator, nonceOf 0)] := by
  let c : TrafficCipher .p256AesGcmSha256 := .ofKeys _ keys .initiator
  let c' : TrafficCipher .p256AesGcmSha256 := .ofKeys _ keys .responder
  let sent : TrafficCipher .p256AesGcmSha256 := { c with sent := 1 }
  have hzero : (0 : UInt64) ≠ lastCounter := by decide
  have hone : (1 : UInt64) ≠ lastCounter := by decide
  have hlength (b : UInt8) : [b].length < Field.sizeLimit := by
    rw [List.length_singleton]
    decide
  have hseals (key nonce : Bytes) (b : UInt8) :=
    CipherSuite.reliable_p256AesGcmSha256.seals key nonce [] [b] (hlength b) (by decide)
  obtain ⟨first, hfirst, -⟩ := hseals c.sendKey (nonceOf 0) 0x41
  obtain ⟨second, hsecond, -⟩ := hseals c.sendKey (nonceOf 1) 0x43
  obtain ⟨other, hother, -⟩ := hseals c'.sendKey (nonceOf 0) 0x42
  have hfirst : c.encrypt [0x41] = (.ok first, sent) := TrafficCipher.encrypt_seals hzero hfirst
  have hother : c'.encrypt [0x42] = (.ok other, { c' with sent := 1 }) :=
    TrafficCipher.encrypt_seals hzero hother
  have hshort : sent.decrypt [] = (.error .decryptionFailed, sent) := rfl
  have hsecond : sent.encrypt [0x43] = (.ok second, { sent with sent := 2 }) :=
    TrafficCipher.encrypt_seals hone hsecond
  constructor
  · simp [after, interleaving, act, new, Function.update, Party.call, Party.nonces, c, c', hfirst,
      hother, hshort, hsecond]
    exact ⟨⟨rfl, rfl⟩, rfl, rfl⟩
  · simp [after, interleaving, act, new, Function.update, Party.call, Party.nonces, c, c', hfirst,
      hother, hshort, hsecond]
    exact ⟨rfl, rfl⟩

theorem fresh_nonces_interleaving :
    plainKeys.initiatorToResponder ≠ plainKeys.responderToInitiator ∧
    ((new .p256AesGcmSha256 plainKeys).after interleaving .initiator).nonces =
      [(plainKeys.initiatorToResponder, nonceOf 0), (plainKeys.initiatorToResponder, nonceOf 1)] ∧
    ((new .p256AesGcmSha256 plainKeys).after interleaving .responder).nonces =
      [(plainKeys.responderToInitiator, nonceOf 0)] ∧
    ((new .p256AesGcmSha256 plainKeys).after interleaving).FreshNonces plainKeys := by
  have hkeys : plainKeys.initiatorToResponder ≠ plainKeys.responderToInitiator := by decide
  exact ⟨hkeys, (nonces_interleaving plainKeys).1, (nonces_interleaving plainKeys).2,
    (fresh_nonces_after _ hkeys interleaving).1⟩

end Duplex

end SealedLink
