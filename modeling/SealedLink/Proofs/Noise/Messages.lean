import SealedLink.Proofs.Noise.Payload

/-!
# The two messages of a handshake

What each side makes of a secret key, and of a message of the other side: by the message's key and
by its ciphertext, the initiator in this order and the responder in the other one.
-/

namespace SealedLink

open SymmetricState

variable {S : CipherSuite}

/-- The transcript at which a first message is judged. -/
def Responder.transcript (S : CipherSuite) (publicKey : Bytes) : SymmetricState S :=
  ((SymmetricState.initial S).mixHash publicKey).keyed publicKey

theorem Responder.fresh_transcript (S : CipherSuite) (publicKey : Bytes) :
    (transcript S publicKey).Fresh
      (S.derived (SymmetricState.initial S).chainingKey publicKey).2 :=
  fresh_keyed _ _

/-! ## The initiator -/

namespace Initiator

/-- The transcript at which an answer is judged, if its key can be read. -/
def transcript (i : Initiator S) (publicKey : Bytes) (peer : S.PublicKey) : SymmetricState S :=
  ((i.state.mixHash publicKey).keyed publicKey).keyed (S.agree i.secret peer)

/-- Why an answer is refused: its key is judged first. -/
inductive Refuses (i : Initiator S) (m : HandshakeMessage) : CryptoError → Prop where
  | unreadable (hk : S.parse m.publicKey = none) : i.Refuses m .invalidPublicKey
  | flawed {peer e} (hk : S.parse m.publicKey = some peer)
      (hc : (i.transcript m.publicKey peer).Flaw m.ciphertext e) : i.Refuses m e

theorem fresh_transcript (i : Initiator S) (publicKey : Bytes) (peer : S.PublicKey) :
    ∃ key, (i.transcript publicKey peer).Fresh key :=
  ⟨_, fresh_keyed _ _⟩

theorem finish_unreadable {i : Initiator S} {m : HandshakeMessage}
    (hk : S.parse m.publicKey = none) : i.finish m = .error .invalidPublicKey := by
  rw [finish, hk]

theorem finish_readable (hK : S.Derives) {i : Initiator S} {m : HandshakeMessage}
    {peer : S.PublicKey} (hk : S.parse m.publicKey = some peer) :
    i.finish m =
      ((i.transcript m.publicKey peer).decryptEmpty m.ciphertext).map SymmetricState.keys := by
  rw [finish, hk]
  simp only [mixPublicKey_eq hK, mixKey_eq hK, split_eq hK, bind, Except.bind]
  rw [transcript]
  cases SymmetricState.decryptEmpty _ m.ciphertext <;> rfl

theorem finish_error_iff (hS : S.Exact) (hK : S.Derives) (i : Initiator S) {m : HandshakeMessage} {e : CryptoError} :
    i.finish m = .error e ↔ i.Refuses m e := by
  cases hk : S.parse m.publicKey with
  | none =>
    rw [finish_unreadable hk]
    constructor
    · intro he
      cases he
      exact .unreadable hk
    · rintro (_ | ⟨hk', -⟩)
      · rfl
      · cases hk.symm.trans hk'
  | some peer =>
    -- Behind a good key only the ciphertext is judged.
    obtain ⟨_, hfresh⟩ := i.fresh_transcript m.publicKey peer
    have hflaw : i.finish m = .error e ↔ (i.transcript m.publicKey peer).Flaw m.ciphertext e := by
      rw [finish_readable hK hk, ← hfresh.decryptEmpty_error_iff hS]
      cases (i.transcript m.publicKey peer).decryptEmpty m.ciphertext <;> simp [Except.map]
    rw [hflaw]
    constructor
    · exact fun hc => .flawed hk hc
    · rintro (hk' | ⟨hk', hc⟩)
      · cases hk.symm.trans hk'
      · obtain rfl : peer = _ := Option.some.inj (hk.symm.trans hk')
        exact hc

theorem finish_ok_iff (hS : S.Exact) (hK : S.Derives) (i : Initiator S) {m : HandshakeMessage} :
    (∃ keys, i.finish m = .ok keys) ↔ ∃ peer, S.parse m.publicKey = some peer ∧
      (i.transcript m.publicKey peer).Carries [] m.ciphertext := by
  constructor
  · rintro ⟨keys, hok⟩
    cases hk : S.parse m.publicKey with
    | none =>
      rw [finish_unreadable hk] at hok
      cases hok
    | some peer =>
      obtain ⟨_, hfresh⟩ := i.fresh_transcript m.publicKey peer
      rw [finish_readable hK hk] at hok
      cases hd : (i.transcript m.publicKey peer).decryptEmpty m.ciphertext with
      | error e =>
        rw [hd] at hok
        cases hok
      | ok s => exact ⟨peer, rfl, ((hfresh.decryptEmpty_ok_iff hS).mp hd).1⟩
  · rintro ⟨peer, hk, hc⟩
    obtain ⟨_, hfresh⟩ := i.fresh_transcript m.publicKey peer
    rw [finish_readable hK hk, (hfresh.decryptEmpty_ok_iff hS).mpr ⟨hc, rfl⟩]
    exact ⟨_, rfl⟩

theorem start_eq {limit : Nat} (hlimit : S.SealsUpTo limit) (hK : S.Derives) (secret : S.Secret) :
    ∃ ciphertext,
      (Responder.transcript S (S.publicKey secret)).Carries [] ciphertext ∧
      start secret = .ok (⟨(Responder.transcript S (S.publicKey secret)).taken ciphertext, secret⟩,
        ⟨S.publicKey secret, ciphertext⟩) := by
  have hfresh := Responder.fresh_transcript S (S.publicKey secret)
  have hempty : ([] : Bytes).length ≤ limit := Nat.zero_le _
  obtain ⟨ciphertext, hc, he⟩ := hfresh.exists_ciphertext hlimit (hlimit.hashes _) hempty
  refine ⟨ciphertext, hc, ?_⟩
  rw [Responder.transcript] at he ⊢
  simp only [start, mixPublicKey_eq hK, bind, Except.bind, he]
  rfl

end Initiator

/-! ## The responder -/

namespace Responder

/-- Why a first message is refused: its key is judged last. -/
inductive Refuses (S : CipherSuite) (m : HandshakeMessage) : CryptoError → Prop where
  | flawed {e} (hc : (transcript S m.publicKey).Flaw m.ciphertext e) : Refuses S m e
  | unreadable (hc : (transcript S m.publicKey).Carries [] m.ciphertext)
      (hk : S.parse m.publicKey = none) : Refuses S m .invalidPublicKey

variable {m : HandshakeMessage}

theorem accept_eq (hK : S.Derives) (m : HandshakeMessage) : accept (S := S) m = do
    let state ← (transcript S m.publicKey).decryptEmpty m.ciphertext
    match S.parse m.publicKey with
    | none => throw .invalidPublicKey
    | some peer => return (state, peer) := by
  simp only [accept, mixPublicKey_eq hK]
  rfl

theorem accept_flawed (hK : S.Derives) {e : CryptoError}
    (hd : (transcript S m.publicKey).decryptEmpty m.ciphertext = .error e) :
    accept (S := S) m = .error e := by
  rw [accept_eq hK, hd]
  rfl

theorem accept_unreadable (hK : S.Derives) {s : SymmetricState S}
    (hd : (transcript S m.publicKey).decryptEmpty m.ciphertext = .ok s)
    (hk : S.parse m.publicKey = none) : accept (S := S) m = .error .invalidPublicKey := by
  rw [accept_eq hK, hd]
  simp only [bind, Except.bind, hk]
  rfl

theorem accept_readable (hK : S.Derives) {s : SymmetricState S} {peer : S.PublicKey}
    (hd : (transcript S m.publicKey).decryptEmpty m.ciphertext = .ok s)
    (hk : S.parse m.publicKey = some peer) : accept (S := S) m = .ok (s, peer) := by
  rw [accept_eq hK, hd]
  simp only [bind, Except.bind, hk]
  rfl

/-- The transcript at which the answer to an accepted message is encrypted. -/
def answering (state : SymmetricState S) (peer : S.PublicKey) (secret : S.Secret) :
    SymmetricState S :=
  ((state.mixHash (S.publicKey secret)).keyed (S.publicKey secret)).keyed (S.agree secret peer)

theorem answer_eq {limit : Nat} (hlimit : S.SealsUpTo limit) (hK : S.Derives) (state : SymmetricState S)
    (peer : S.PublicKey) (secret : S.Secret) {payload : Bytes} (hp : payload.length ≤ limit) :
    ∃ ciphertext, (answering state peer secret).Carries payload ciphertext ∧
      answer state peer secret payload = .ok (⟨S.publicKey secret, ciphertext⟩,
        ((answering state peer secret).taken ciphertext).keys) := by
  have hfresh : (answering state peer secret).Fresh _ := fresh_keyed _ _
  obtain ⟨ciphertext, hc, he⟩ := hfresh.exists_ciphertext hlimit (hlimit.hashes _) hp
  refine ⟨ciphertext, hc, ?_⟩
  rw [answering] at he ⊢
  simp only [answer, mixPublicKey_eq hK, mixKey_eq hK, bind, Except.bind, he, split_eq hK]
  rfl

theorem respond_cases {limit : Nat} (hlimit : S.SealsUpTo limit) (hK : S.Derives)
    (m : HandshakeMessage) (entropy : Entropy) :
    (∃ e, accept (S := S) m = .error e ∧ respond S m entropy = (.error e, entropy)) ∨
    ∃ state peer answer keys, accept (S := S) m = .ok (state, peer) ∧
      respond S m entropy = (.ok (answer, keys), (S.draw entropy).2) := by
  rw [respond, respondWithPayload]
  cases haccept : accept (S := S) m with
  | error e => exact .inl ⟨e, rfl, rfl⟩
  | ok accepted =>
    obtain ⟨state, peer⟩ := accepted
    have hempty : ([] : Bytes).length ≤ limit := Nat.zero_le _
    obtain ⟨_, -, hanswer⟩ := answer_eq hlimit hK state peer (S.draw entropy).1 hempty
    exact .inr ⟨state, peer, _, _, rfl, Prod.ext hanswer rfl⟩

theorem accept_error_iff (hS : S.Exact) (hK : S.Derives) {e : CryptoError} :
    accept (S := S) m = .error e ↔ Refuses S m e := by
  have hfresh := fresh_transcript S m.publicKey
  constructor
  · intro herror
    cases hd : (transcript S m.publicKey).decryptEmpty m.ciphertext with
    | error e' =>
      rw [accept_flawed hK hd] at herror
      cases herror
      exact .flawed ((hfresh.decryptEmpty_error_iff hS).mp hd)
    | ok s =>
      -- A bad key shows only behind a good ciphertext.
      cases hk : S.parse m.publicKey with
      | none =>
        rw [accept_unreadable hK hd hk] at herror
        cases herror
        exact .unreadable ((hfresh.decryptEmpty_ok_iff hS).mp hd).1 hk
      | some peer =>
        rw [accept_readable hK hd hk] at herror
        cases herror
  · rintro (hc | ⟨hc, hk⟩)
    · exact accept_flawed hK ((hfresh.decryptEmpty_error_iff hS).mpr hc)
    · exact accept_unreadable hK ((hfresh.decryptEmpty_ok_iff hS).mpr ⟨hc, rfl⟩) hk

theorem accept_ok_iff (hS : S.Exact) (hK : S.Derives) {s : SymmetricState S} {peer : S.PublicKey} :
    accept (S := S) m = .ok (s, peer) ↔ S.parse m.publicKey = some peer ∧
      (transcript S m.publicKey).Carries [] m.ciphertext ∧
      s = (transcript S m.publicKey).taken m.ciphertext := by
  have hfresh := fresh_transcript S m.publicKey
  constructor
  · intro hok
    cases hd : (transcript S m.publicKey).decryptEmpty m.ciphertext with
    | error e =>
      rw [accept_flawed hK hd] at hok
      cases hok
    | ok s' =>
      cases hk : S.parse m.publicKey with
      | none =>
        rw [accept_unreadable hK hd hk] at hok
        cases hok
      | some peer' =>
        rw [accept_readable hK hd hk] at hok
        cases hok
        exact ⟨rfl, (hfresh.decryptEmpty_ok_iff hS).mp hd⟩
  · rintro ⟨hk, hc⟩
    exact accept_readable hK ((hfresh.decryptEmpty_ok_iff hS).mpr hc) hk

end Responder

end SealedLink
