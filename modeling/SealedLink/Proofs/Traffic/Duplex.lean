import Mathlib.Logic.Function.Basic
import SealedLink.Proofs.Noise.Standard

/-!
# Two ciphers that face each other

Each side of the traffic encrypts, and decrypts whatever it is given. If nothing opens that was not
sealed, each side opens what the other one sealed, in order; a text that is refused changes nothing.
-/

namespace SealedLink

/-! ## Roles and keys -/

def Role.peer : Role → Role
  | .initiator => .responder
  | .responder => .initiator

namespace TrafficKeys

variable {keys : TrafficKeys}

theorem receiveKey_eq (keys : TrafficKeys) (r : Role) :
    keys.receiveKey r = keys.sendKey r.peer := by
  cases r <;> rfl

theorem sendKey_inj (h : keys.initiatorToResponder ≠ keys.responderToInitiator) {r r' : Role}
    (hr : keys.sendKey r = keys.sendKey r') : r = r' := by
  cases r <;> cases r'
  · rfl
  · exact absurd hr h
  · exact absurd hr.symm h
  · rfl

end TrafficKeys

variable {S : CipherSuite}

/-! ## One side -/

/-- A cipher with the packets that it sealed and opened, and its uses of the keys. -/
structure Party (S : CipherSuite) where
  cipher : TrafficCipher S
  sealed : List Packet := []
  opened : List Packet := []
  seals : List Use := []
  opens : List Use := []
  deriving DecidableEq

namespace Party

inductive Call where
  | encrypt (plain : Bytes)
  | decrypt (text : Bytes)
  deriving DecidableEq, Repr

/-- Makes a call, and takes note of it if it succeeds: of the packet, and of the key and the counter
that the cipher had before. -/
def call (p : Party S) : Call → Party S
  | .encrypt plain =>
    match p.cipher.encrypt plain with
    | (.error _, cipher) => { p with cipher := cipher }
    | (.ok text, cipher) =>
      { p with
        cipher := cipher
        sealed := p.sealed ++ [⟨plain, text⟩]
        seals := p.seals ++ [⟨p.cipher.sendKey, p.cipher.sent, text⟩] }
  | .decrypt text =>
    match p.cipher.decrypt text with
    | (.error _, cipher) => { p with cipher := cipher }
    | (.ok plain, cipher) =>
      { p with
        cipher := cipher
        opened := p.opened ++ [⟨plain, text⟩]
        opens := p.opens ++ [⟨p.cipher.receiveKey, p.cipher.received, text⟩] }

/-- The packets of both directions stand under their keys, as many as the counters say. -/
structure Sound (p : Party S) (outward inward : Bytes) : Prop where
  sendKey : p.cipher.sendKey = outward
  receiveKey : p.cipher.receiveKey = inward
  sent : p.cipher.sent.toNat = p.sealed.length
  received : p.cipher.received.toNat = p.opened.length
  seals : p.seals = uses outward p.sealed
  opens : p.opens = uses inward p.opened
  sealedLane : Lane (Seals S outward) p.sealed
  openedLane : Lane (Opens S inward) p.opened

end Party

namespace TrafficCipher

theorem decrypt_all_refused {c : TrafficCipher S} {texts : List Bytes}
    (h : ∀ text ∈ texts, ∃ e, (c.decrypt text).1 = .error e) :
    texts.foldl (fun c text => (c.decrypt text).2) c = c := by
  induction texts with
  | nil => rfl
  | cons text texts ih =>
    obtain ⟨⟨e, he⟩, hrest⟩ := List.forall_mem_cons.mp h
    have hsame : (c.decrypt text).2 = c := decrypt_refused (Prod.ext he rfl)
    rw [List.foldl_cons, hsame]
    exact ih hrest

end TrafficCipher

namespace Party

variable {p : Party S} {outward inward : Bytes}

theorem sound_new (keys : TrafficKeys) (r : Role) :
    Sound (S := S) { cipher := .ofKeys S keys r } (keys.sendKey r) (keys.receiveKey r) :=
  ⟨rfl, rfl, rfl, rfl, rfl, rfl, lane_nil _, lane_nil _⟩

theorem sound_encrypt (h : p.Sound outward inward) (plain : Bytes) :
    (p.call (.encrypt plain)).Sound outward inward := by
  simp only [call]
  split
  · rename_i heq
    rw [TrafficCipher.encrypt_refused heq]
    exact h
  · rename_i text cipher heq
    obtain ⟨hlane, hsent, huses, rfl⟩ := h.sealedLane.seal h.sendKey h.sent heq
    refine ⟨h.sendKey, h.receiveKey, hsent, h.received, ?_, h.opens, hlane, h.openedLane⟩
    rw [h.seals, huses]

theorem sound_decrypt (h : p.Sound outward inward) (text : Bytes) :
    (p.call (.decrypt text)).Sound outward inward := by
  simp only [call]
  split
  · rename_i heq
    rw [TrafficCipher.decrypt_refused heq]
    exact h
  · rename_i plain cipher heq
    obtain ⟨hlane, hreceived, huses, rfl⟩ := h.openedLane.open h.receiveKey h.received heq
    refine ⟨h.sendKey, h.receiveKey, h.sent, hreceived, h.seals, ?_, h.sealedLane, hlane⟩
    rw [h.opens, huses]

theorem sound_call (h : p.Sound outward inward) (c : Call) :
    (p.call c).Sound outward inward := by
  cases c with
  | encrypt plain => exact sound_encrypt h plain
  | decrypt text => exact sound_decrypt h text

end Party

/-! ## Both sides -/

abbrev Duplex (S : CipherSuite) := Role → Party S

namespace Duplex

def new (S : CipherSuite) (keys : TrafficKeys) : Duplex S := fun r => { cipher := .ofKeys S keys r }

def act (d : Duplex S) (a : Role × Party.Call) : Duplex S :=
  Function.update d a.1 ((d a.1).call a.2)

def after (d : Duplex S) (acts : List (Role × Party.Call)) : Duplex S := acts.foldl act d

/-- Whatever opened was sealed, by either side, under the same key and counter. -/
def Authentic (d : Duplex S) : Prop :=
  ∀ u ∈ (d .initiator).opens ++ (d .responder).opens,
    u ∈ (d .initiator).seals ++ (d .responder).seals

def Sound (d : Duplex S) (keys : TrafficKeys) : Prop :=
  ∀ r, (d r).Sound (keys.sendKey r) (keys.receiveKey r)

theorem sound_act {d : Duplex S} {keys : TrafficKeys} (h : d.Sound keys)
    (a : Role × Party.Call) : (d.act a).Sound keys := by
  intro r
  by_cases hr : r = a.1
  · subst hr
    rw [act, Function.update_self]
    exact Party.sound_call (h a.1) a.2
  · rw [act, Function.update_of_ne hr]
    exact h r

theorem sound_after (keys : TrafficKeys) (acts : List (Role × Party.Call)) :
    ((new S keys).after acts).Sound keys := by
  suffices h : ∀ d : Duplex S, d.Sound keys → (d.after acts).Sound keys from
    h _ fun r => Party.sound_new keys r
  intro d hd
  induction acts generalizing d with
  | nil => exact hd
  | cons a acts ih => exact ih _ (sound_act hd a)

variable {d : Duplex S} {keys : TrafficKeys}

theorem Authentic.of_opens (h : d.Authentic) {r : Role} {u : Use} (hu : u ∈ (d r).opens) :
    ∃ r', u ∈ (d r').seals := by
  have hmem : u ∈ (d .initiator).opens ++ (d .responder).opens := by
    cases r
    · exact List.mem_append_left _ hu
    · exact List.mem_append_right _ hu
  rcases List.mem_append.mp (h u hmem) with hi | hr
  · exact ⟨.initiator, hi⟩
  · exact ⟨.responder, hr⟩

theorem opens_of_authentic (hkeys : keys.initiatorToResponder ≠ keys.responderToInitiator)
    (hd : d.Sound keys) (h : d.Authentic) (r : Role) :
    ∀ u ∈ uses (keys.receiveKey r) (d r).opened,
      u ∈ uses (keys.receiveKey r) (d r.peer).sealed := by
  intro u hu
  have hkey := key_of_mem_uses hu
  rw [← (hd r).opens] at hu
  obtain ⟨r', hsealed⟩ := h.of_opens hu
  rw [(hd r').seals] at hsealed
  have hsender : r' = r.peer := by
    apply TrafficKeys.sendKey_inj hkeys
    rw [← TrafficKeys.receiveKey_eq, ← hkey, key_of_mem_uses hsealed]
  rw [TrafficKeys.receiveKey_eq, ← hsender]
  exact hsealed

theorem opens_in_order (hS : S.Inverts)
    (hkeys : keys.initiatorToResponder ≠ keys.responderToInitiator) (hd : d.Sound keys)
    (h : d.Authentic) (r : Role) : (d r).opened <+: (d r.peer).sealed := by
  have hsealed := (hd r.peer).sealedLane
  rw [← TrafficKeys.receiveKey_eq] at hsealed
  exact lane_prefix hS (hd r).openedLane hsealed (opens_of_authentic hkeys hd h r)

theorem opens_next (hS : S.Inverts) (hd : d.Sound keys) {r : Role} {p : Packet}
    (hp : (d r.peer).sealed[(d r).opened.length]? = some p) :
    (d r).cipher.decrypt p.sealed =
      (.ok p.plain, { (d r).cipher with received := (d r).cipher.received + 1 }) := by
  -- There is a packet at this counter, so that it is not the last one.
  have hlt := (List.getElem?_eq_some_iff.mp hp).1
  have hbound := (hd r.peer).sealedLane.bound
  obtain ⟨hlast, hplace⟩ := counter_lt (hd r).received (by omega)
  have hseal : Seals S (keys.sendKey r.peer) (d r).cipher.received p :=
    hplace ▸ (hd r.peer).sealedLane.good _ p hp
  refine TrafficCipher.decrypt_opens hlast (hS _ _ _ _ _ ?_)
  rw [(hd r).receiveKey, TrafficKeys.receiveKey_eq]
  exact hseal

/-- What the two sides keep to, whatever they are given. -/
structure Aligned (d : Duplex S) : Prop where
  intact : ∀ r, (d r).opened <+: (d r.peer).sealed
  counted : ∀ r, (d r).cipher.sent.toNat = (d r).sealed.length ∧
    (d r).cipher.received.toNat = (d r).opened.length
  refused : ∀ r text e c, (d r).cipher.decrypt text = (.error e, c) → c = (d r).cipher
  /-- The next packet of the other side opens, after any number of texts that do not. -/
  resumes : ∀ r (texts : List Bytes) p,
    (∀ text ∈ texts, ∃ e, ((d r).cipher.decrypt text).1 = .error e) →
    (d r.peer).sealed[(d r).opened.length]? = some p →
      (texts.foldl (fun c text => (c.decrypt text).2) (d r).cipher).decrypt p.sealed =
        (.ok p.plain, { (d r).cipher with received := (d r).cipher.received + 1 })

/-- **Each side opens what the other one sealed, in order, and nothing puts it out of step**, if
nothing opens that was not sealed under the same key and counter. -/
theorem aligned_after (hS : S.Inverts)
    (hkeys : keys.initiatorToResponder ≠ keys.responderToInitiator)
    (acts : List (Role × Party.Call)) (h : ((new S keys).after acts).Authentic) :
    ((new S keys).after acts).Aligned := by
  have hd := sound_after (S := S) keys acts
  refine ⟨opens_in_order hS hkeys hd h, fun r => ⟨(hd r).sent, (hd r).received⟩, fun _ _ _ _ =>
    TrafficCipher.decrypt_refused, fun r texts p htexts hp => ?_⟩
  rw [TrafficCipher.decrypt_all_refused htexts]
  exact opens_next hS hd hp

/-- A text crosses after one that nobody sealed. -/
def crossing (text : Bytes) : List (Role × Party.Call) :=
  [(.initiator, .encrypt [0x41]), (.responder, .decrypt []), (.responder, .decrypt text)]

theorem crossing_opens (keys : TrafficKeys) : ∃ text,
    ((new .p256AesGcmSha256 keys).after (crossing text)).Authentic ∧
      ((new .p256AesGcmSha256 keys).after (crossing text) .responder).opened = [⟨[0x41], text⟩] := by
  let c : TrafficCipher .p256AesGcmSha256 := .ofKeys _ keys .initiator
  let c' : TrafficCipher .p256AesGcmSha256 := .ofKeys _ keys .responder
  have hkey : c.sendKey = c'.receiveKey := rfl
  have hsent : c.sent = .ofNat 0 := rfl
  have hreceived : c'.received = .ofNat 0 := rfl
  have hplain : ([0x41] : Bytes).length < Field.sizeLimit := by decide
  obtain ⟨text, hseal, hopen, -⟩ :=
    crosses CipherSuite.reliable_p256AesGcmSha256 hkey hsent hreceived (by decide) hplain
  have hshort : c'.decrypt [] = (.error .decryptionFailed, c') := rfl
  refine ⟨text, ?_, ?_⟩
  · simp [Authentic, after, crossing, act, new, Function.update, Party.call, c, c', hseal, hshort,
      hopen]
    exact ⟨rfl, rfl⟩
  · simp [after, crossing, act, new, Function.update, Party.call, c, c', hseal, hshort, hopen]

def plainKeys : TrafficKeys := ⟨List.replicate 32 1, List.replicate 32 2⟩

theorem aligned_crossing : CipherSuite.p256AesGcmSha256.Inverts ∧
    plainKeys.initiatorToResponder ≠ plainKeys.responderToInitiator ∧
    ∃ text, ((new .p256AesGcmSha256 plainKeys).after (crossing text)).Authentic ∧
      ((new .p256AesGcmSha256 plainKeys).after (crossing text) .responder).opened =
        [⟨[0x41], text⟩] ∧
      ((new .p256AesGcmSha256 plainKeys).after (crossing text)).Aligned := by
  have hkeys : plainKeys.initiatorToResponder ≠ plainKeys.responderToInitiator := by decide
  obtain ⟨text, hauthentic, hopened⟩ := crossing_opens plainKeys
  exact ⟨CipherSuite.inverts_p256AesGcmSha256, hkeys, text, hauthentic, hopened,
    aligned_after CipherSuite.inverts_p256AesGcmSha256 hkeys _ hauthentic⟩

end Duplex

end SealedLink
