import SealedLink.Noise.ClientSession
import SealedLink.Proofs.Channel.Calls
import SealedLink.Proofs.Traffic.Lane

/-!
# What a client seals and opens

The calls of a channel to its session, with the keys and counters that the session used in each.
-/

namespace SealedLink

/-! ## Packets in calls -/

namespace Call

def sealing? : Call → Option Packet
  | .encrypt plain (.ok sealed) => some ⟨plain, sealed⟩
  | _ => none

def opening? : Call → Option Packet
  | .decrypt sealed (.ok plain) => some ⟨plain, sealed⟩
  | _ => none

end Call

def sealings (cs : List Call) : List Packet := cs.filterMap Call.sealing?

def openings (cs : List Call) : List Packet := cs.filterMap Call.opening?

@[simp] theorem sealings_append (a b : List Call) : sealings (a ++ b) = sealings a ++ sealings b :=
  List.filterMap_append ..

@[simp] theorem openings_append (a b : List Call) : openings (a ++ b) = openings a ++ openings b :=
  List.filterMap_append ..

/-! ## Notes -/

variable {S : CipherSuite}

def ClientSession.cipher? (s : ClientSession S) : Option (TrafficCipher S) :=
  match s.phase with
  | .established c => some c
  | _ => none

/-- A session with the keys that it agreed on, and its uses of them. -/
structure Notes (S : CipherSuite) where
  session : ClientSession S
  keys : Option TrafficKeys := none
  sealed : List Use := []
  opened : List Use := []

namespace Notes

def agreed (s : ClientSession S) : Option TrafficKeys :=
  s.cipher?.map fun c => ⟨c.sendKey, c.receiveKey⟩

/-- Takes note of a call, under the key and the counter that the session has when it is made. -/
def note (n : Notes S) : Call → Notes S
  | .attestationRequest _ | .verify .. => n
  | .start _ => { n with session := n.session.start.2 }
  | .finish response _ =>
    let session := (n.session.finish response).2
    { n with session := session, keys := (agreed session).or n.keys }
  | .encrypt plain result =>
    { n with
      session := (n.session.encrypt plain).2
      sealed := n.sealed ++ match n.session.cipher?, result with
        | some c, .ok sealed => [⟨c.sendKey, c.sent, sealed⟩]
        | _, _ => [] }
  | .decrypt sealed result =>
    { n with
      session := (n.session.decrypt sealed).2
      opened := n.opened ++ match n.session.cipher?, result with
        | some c, .ok _ => [⟨c.receiveKey, c.received, sealed⟩]
        | _, _ => [] }

def of (s : ClientSession S) (cs : List Call) : Notes S := cs.foldl note { session := s }

theorem of_append (s : ClientSession S) (cs : List Call) (c : Call) :
    of s (cs ++ [c]) = (of s cs).note c := by
  simp [of]

structure Stands (c : TrafficCipher S) (keys : TrafficKeys) (cs : List Call) : Prop where
  sendKey : c.sendKey = keys.initiatorToResponder
  receiveKey : c.receiveKey = keys.responderToInitiator
  sent : c.sent.toNat = (sealings cs).length
  received : c.received.toNat = (openings cs).length

/-- The notes under some keys: the uses are those of the packets of both directions. -/
structure Keyed (n : Notes S) (keys : TrafficKeys) (cs : List Call) : Prop where
  agreed : n.keys = some keys
  sealed : n.sealed = uses keys.initiatorToResponder (sealings cs)
  opened : n.opened = uses keys.responderToInitiator (openings cs)
  seals : Lane (Seals S keys.initiatorToResponder) (sealings cs)
  opens : Lane (Opens S keys.responderToInitiator) (openings cs)
  phase : n.session.phase = .failed ∨ ∃ c, n.session.phase = .established c ∧ Stands c keys cs

structure Silent (n : Notes S) (cs : List Call) : Prop where
  agreed : n.keys = none
  sealed : n.sealed = []
  opened : n.opened = []
  sealings : sealings cs = []
  openings : openings cs = []
  phase : n.session.cipher? = none

inductive Sound (n : Notes S) (cs : List Call) : Prop where
  | silent (h : Silent n cs)
  | keyed (keys : TrafficKeys) (h : Keyed n keys cs)

end Notes

/-! ## Calls on a client's session -/

namespace ClientSession

variable {s : ClientSession S}

theorem withCipher_error {operation : TrafficCipher S → Except CryptoError Bytes × TrafficCipher S}
    {e : CryptoError} {s' : ClientSession S} (h : s.withCipher operation = (.error e, s')) :
    s' = s ∨ s'.phase = .failed := by
  unfold withCipher at h
  split at h
  · cases h
    exact .inl rfl
  · cases h
    exact .inl rfl
  · cases h
    exact .inl rfl
  · split at h <;> cases h
    exact .inr rfl

theorem withCipher_ok {operation : TrafficCipher S → Except CryptoError Bytes × TrafficCipher S}
    {bytes : Bytes} {s' : ClientSession S} (h : s.withCipher operation = (.ok bytes, s')) :
    ∃ c c', s.phase = .established c ∧ operation c = (.ok bytes, c') ∧
      s' = { s with phase := .established c' } := by
  unfold withCipher at h
  split at h
  · cases h
  · cases h
  · cases h
  · rename_i c hc
    split at h <;> cases h
    exact ⟨c, _, hc, ‹_›, rfl⟩

theorem start_done (h : s.phase = .failed ∨ ∃ c, s.phase = .established c) : s.start.2 = s := by
  rcases h with h | ⟨c, h⟩ <;> simp [start, h]

theorem finish_done (h : s.phase = .failed ∨ ∃ c, s.phase = .established c)
    (response : HandshakeMessage) : (s.finish response).2 = s := by
  rcases h with h | ⟨c, h⟩ <;> simp [finish, h]

theorem start_cipher (h : s.cipher? = none) : s.start.2.cipher? = none := by
  unfold start
  split
  · exact h
  · exact h
  · exact h
  · dsimp only
    split <;> rfl

theorem finish_cipher (h : s.cipher? = none) (response : HandshakeMessage) :
    (s.finish response).2.cipher? = none ∨
      ∃ keys, (s.finish response).2.phase = .established (.ofKeys S keys .initiator) := by
  unfold finish
  split
  · exact .inl h
  · exact .inl h
  · exact .inl h
  · split
    · exact .inl rfl
    · exact .inr ⟨_, rfl⟩

end ClientSession

/-! ## The notes are sound -/

namespace Notes

variable {n : Notes S} {cs : List Call} {keys : TrafficKeys}

theorem sealings_same {c : Call} (h : c.sealing? = none) : sealings (cs ++ [c]) = sealings cs := by
  simp [sealings, h]

theorem openings_same {c : Call} (h : c.opening? = none) : openings (cs ++ [c]) = openings cs := by
  simp [openings, h]

theorem Sound.same {c : Call} (h : Sound n cs) {n' : Notes S} (hn : n'.keys = n.keys)
    (hs : n'.sealed = n.sealed) (ho : n'.opened = n.opened) (hseal : c.sealing? = none)
    (hopen : c.opening? = none) (hp : n'.session = n.session ∨ n'.session.phase = .failed) :
    Sound n' (cs ++ [c]) := by
  cases h with
  | silent h =>
    refine .silent ⟨hn.trans h.agreed, hs.trans h.sealed, ho.trans h.opened, ?_, ?_, ?_⟩
    · rw [sealings_same hseal, h.sealings]
    · rw [openings_same hopen, h.openings]
    · rcases hp with hp | hp
      · rw [hp, h.phase]
      · simp [ClientSession.cipher?, hp]
  | keyed keys h =>
    refine .keyed keys ⟨hn.trans h.agreed, ?_, ?_, ?_, ?_, ?_⟩
    · rw [hs, h.sealed, sealings_same hseal]
    · rw [ho, h.opened, openings_same hopen]
    · rw [sealings_same hseal]
      exact h.seals
    · rw [openings_same hopen]
      exact h.opens
    · rcases hp with hp | hp
      · rw [hp]
        rcases h.phase with hf | ⟨c, hc, hst⟩
        · exact .inl hf
        · refine .inr ⟨c, hc, hst.sendKey, hst.receiveKey, ?_, ?_⟩
          · rw [hst.sent, sealings_same hseal]
          · rw [hst.received, openings_same hopen]
      · exact .inl hp

theorem Keyed.done (h : Keyed n keys cs) :
    n.session.phase = .failed ∨ ∃ c, n.session.phase = .established c := by
  rcases h.phase with hf | ⟨c, hc, -⟩
  · exact .inl hf
  · exact .inr ⟨c, hc⟩

theorem sound_start (h : Sound n cs) (result : Except CryptoError HandshakeMessage) :
    Sound (n.note (.start result)) (cs ++ [.start result]) := by
  cases h with
  | silent h =>
    refine .silent ⟨h.agreed, h.sealed, h.opened, ?_, ?_, ClientSession.start_cipher h.phase⟩
    · rw [sealings_same rfl, h.sealings]
    · rw [openings_same rfl, h.openings]
  | keyed keys h =>
    exact (Sound.keyed keys h).same rfl rfl rfl rfl rfl (.inl (ClientSession.start_done h.done))

theorem sound_finish (h : Sound n cs) (response : HandshakeMessage)
    (result : Except CryptoError Unit) :
    Sound (n.note (.finish response result)) (cs ++ [.finish response result]) := by
  cases h with
  | silent h =>
    have hsealings : sealings (cs ++ [.finish response result]) = [] := by
      rw [sealings_same rfl, h.sealings]
    have hopenings : openings (cs ++ [.finish response result]) = [] := by
      rw [openings_same rfl, h.openings]
    rcases ClientSession.finish_cipher h.phase response with hc | ⟨keys, hc⟩
    · refine .silent ⟨?_, h.sealed, h.opened, hsealings, hopenings, hc⟩
      simp [note, agreed, hc, h.agreed]
    · refine .keyed keys ⟨?_, ?_, ?_, ?_, ?_, .inr ⟨_, hc, ?_⟩⟩
      · simp [note, agreed, ClientSession.cipher?, hc, TrafficCipher.ofKeys, TrafficKeys.sendKey,
          TrafficKeys.receiveKey]
      · rw [hsealings]
        exact h.sealed
      · rw [hopenings]
        exact h.opened
      · rw [hsealings]
        exact lane_nil _
      · rw [hopenings]
        exact lane_nil _
      · exact ⟨rfl, rfl, by rw [hsealings]; rfl, by rw [hopenings]; rfl⟩
  | keyed keys h =>
    have hs := ClientSession.finish_done h.done response
    refine (Sound.keyed keys h).same ?_ rfl rfl rfl rfl (.inl hs)
    simp only [note, hs]
    rcases h.phase with hf | ⟨c, hc, hst⟩
    · simp [agreed, ClientSession.cipher?, hf]
    · simp [agreed, ClientSession.cipher?, hc, hst.sendKey, hst.receiveKey, h.agreed]

theorem Sound.established (h : Sound n cs) {c : TrafficCipher S}
    (hc : n.session.phase = .established c) : ∃ keys, Keyed n keys cs ∧ Stands c keys cs := by
  cases h with
  | silent h =>
    have hnone := h.phase
    simp [ClientSession.cipher?, hc] at hnone
  | keyed keys h =>
    rcases h.phase with hf | ⟨c', hc', hst⟩
    · cases hf.symm.trans hc
    · obtain rfl : c' = c := ClientPhase.established.inj (hc'.symm.trans hc)
      exact ⟨keys, h, hst⟩

theorem sound_encrypt (h : Sound n cs) {plain : Bytes} {result : Except CryptoError Bytes}
    {s : ClientSession S} (hs : n.session.encrypt plain = (result, s)) :
    Sound (n.note (.encrypt plain result)) (cs ++ [.encrypt plain result]) := by
  cases result with
  | error e =>
    refine h.same rfl ?_ rfl rfl rfl ?_
    · simp [note]
    · simp only [note, hs]
      exact ClientSession.withCipher_error hs
  | ok sealed =>
    obtain ⟨c, c', hc, hop, rfl⟩ := ClientSession.withCipher_ok hs
    obtain ⟨keys, hk, hst⟩ := h.established hc
    have hsealings : sealings (cs ++ [.encrypt plain (.ok sealed)]) =
        sealings cs ++ [⟨plain, sealed⟩] := sealings_append ..
    have hopenings : openings (cs ++ [.encrypt plain (.ok sealed)]) = openings cs :=
      openings_same rfl
    obtain ⟨hlane, hsent, huses, rfl⟩ := hk.seals.seal hst.sendKey hst.sent hop
    refine .keyed keys ⟨hk.agreed, ?_, ?_, ?_, ?_, .inr ⟨{ c with sent := c.sent + 1 }, ?_, ?_⟩⟩
    · simp only [note, ClientSession.cipher?, hc]
      rw [hk.sealed, hsealings, ← huses]
    · rw [hopenings]
      exact hk.opened
    · rw [hsealings]
      exact hlane
    · rw [hopenings]
      exact hk.opens
    · simp [note, hs]
    · refine ⟨hst.sendKey, hst.receiveKey, ?_, ?_⟩
      · rw [hsealings]
        exact hsent
      · rw [hopenings]
        exact hst.received

theorem sound_decrypt (h : Sound n cs) {sealed : Bytes} {result : Except CryptoError Bytes}
    {s : ClientSession S} (hs : n.session.decrypt sealed = (result, s)) :
    Sound (n.note (.decrypt sealed result)) (cs ++ [.decrypt sealed result]) := by
  cases result with
  | error e =>
    refine h.same rfl rfl ?_ rfl rfl ?_
    · simp [note]
    · simp only [note, hs]
      exact ClientSession.withCipher_error hs
  | ok plain =>
    obtain ⟨c, c', hc, hop, rfl⟩ := ClientSession.withCipher_ok hs
    obtain ⟨keys, hk, hst⟩ := h.established hc
    have hsealings : sealings (cs ++ [.decrypt sealed (.ok plain)]) = sealings cs :=
      sealings_same rfl
    have hopenings : openings (cs ++ [.decrypt sealed (.ok plain)]) =
        openings cs ++ [⟨plain, sealed⟩] := openings_append ..
    obtain ⟨hlane, hreceived, huses, rfl⟩ := hk.opens.open hst.receiveKey hst.received hop
    refine .keyed keys
      ⟨hk.agreed, ?_, ?_, ?_, ?_, .inr ⟨{ c with received := c.received + 1 }, ?_, ?_⟩⟩
    · rw [hsealings]
      exact hk.sealed
    · simp only [note, ClientSession.cipher?, hc]
      rw [hk.opened, hopenings, ← huses]
    · rw [hsealings]
      exact hk.seals
    · rw [hopenings]
      exact hlane
    · simp [note, hs]
    · refine ⟨hst.sendKey, hst.receiveKey, ?_, ?_⟩
      · rw [hsealings]
        exact hst.sent
      · rw [hopenings]
        exact hreceived

theorem sound_note {α : Type} [Attester α] {a a' : α} {c : Call} {s : ClientSession S}
    (h : Sound n cs) (hc : c.Gives n.session a s a') :
    Sound (n.note c) (cs ++ [c]) ∧ (n.note c).session = s := by
  cases hc with
  | attestationRequest | verify => exact ⟨h.same rfl rfl rfl rfl rfl (.inl rfl), rfl⟩
  | start hs => exact ⟨sound_start h _, by simp only [note]; exact congrArg Prod.snd hs⟩
  | finish hs => exact ⟨sound_finish h _ _, by simp only [note]; exact congrArg Prod.snd hs⟩
  | encrypt hs => exact ⟨sound_encrypt h hs, by simp only [note]; exact congrArg Prod.snd hs⟩
  | decrypt hs => exact ⟨sound_decrypt h hs, by simp only [note]; exact congrArg Prod.snd hs⟩

/-- **Notes of calls that were made on a fresh session are sound**, and keep to the session. -/
theorem sound_made {α : Type} [Attester α] {s₀ s : ClientSession S} {a₀ a : α}
    (hs : s₀.cipher? = none) (h : Made s₀ a₀ cs s a) :
    Sound (of s₀ cs) cs ∧ (of s₀ cs).session = s := by
  induction h with
  | none => exact ⟨.silent ⟨rfl, rfl, rfl, rfl, rfl, hs⟩, rfl⟩
  | more _ hc ih =>
    obtain ⟨hsound, hsession⟩ := ih
    rw [of_append]
    exact sound_note hsound (hsession ▸ hc)

end Notes

end SealedLink
