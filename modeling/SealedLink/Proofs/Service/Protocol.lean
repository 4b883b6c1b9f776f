import SealedLink.Proofs.Noise.ClientSession
import SealedLink.Proofs.Traffic.Relay

/-!
# What a service's session accepts

A session takes the longest front of its requests that keeps to the protocol. The first request
against it is refused and closes the session for good; nothing but the state changes after that.
-/

namespace SealedLink

variable {S : CipherSuite} {η : Type}

/-! ## Errors -/

theorem ne_notEstablished {e : CryptoError} (h : e.isSequencing = false) :
    Error.crypto e ≠ .crypto .notEstablished := by
  rintro ⟨⟩
  cases h

theorem Responder.accept_error {m : HandshakeMessage} {e : CryptoError}
    (h : accept (S := S) m = .error e) : e.isSequencing = false := by
  rcases bind_eq_error.mp h with hkey | ⟨keyed, -, h⟩
  · exact SymmetricState.mixKey_error hkey
  · rcases bind_eq_error.mp h with hpayload | ⟨state, -, h⟩
    · exact SymmetricState.decryptEmpty_error hpayload
    · split at h
      · cases h
        rfl
      · cases h

/-! ## The protocol -/

/-- A request for evidence, a handshake that is answered, and packets that open under its keys at
one counter after another, as far as they go. -/
inductive Conforms (S : CipherSuite) (entropy : Entropy) : List Request → Prop where
  | nothing : Conforms S entropy []
  | attest {evidence} : Conforms S entropy [.attest evidence]
  | traffic {evidence message answer keys entropy'} (inbound : List Packet)
      (hr : Responder.respond S message entropy = (.ok (answer, keys), entropy'))
      (hopens : Lane (Opens S keys.initiatorToResponder) inbound) :
      Conforms S entropy
        (.attest evidence :: .handshake message :: inbound.map fun p => .encrypted p.sealed)

namespace Conforms

variable {entropy entropy' : Entropy} {front requests : List Request}

theorem of_prefix (h : Conforms S entropy requests) (hp : front <+: requests) :
    Conforms S entropy front := by
  cases h with
  | nothing =>
    rw [List.prefix_nil.mp hp]
    exact .nothing
  | attest =>
    rcases List.prefix_cons_iff.mp hp with rfl | ⟨front', rfl, hp'⟩
    · exact .nothing
    · rw [List.prefix_nil.mp hp']
      exact .attest
  | traffic inbound hr hopens =>
    rcases List.prefix_cons_iff.mp hp with rfl | ⟨front', rfl, hp'⟩
    · exact .nothing
    · rcases List.prefix_cons_iff.mp hp' with rfl | ⟨front'', rfl, hp''⟩
      · exact .attest
      · obtain ⟨packets, hpackets, rfl⟩ := List.prefix_map_iff.mp hp''
        exact .traffic packets hr (hopens.of_prefix hpackets)

theorem greeted {evidence : Bytes} {r : Request}
    (h : Conforms S entropy (.attest evidence :: r :: requests)) :
    ∃ message answer keys entropy' inbound, r = .handshake message ∧
      Responder.respond S message entropy = (.ok (answer, keys), entropy') ∧
      Lane (Opens S keys.initiatorToResponder) inbound ∧
      requests = inbound.map fun p => .encrypted p.sealed := by
  cases h with
  | traffic inbound hr hopens => exact ⟨_, _, _, _, inbound, rfl, hr, hopens, rfl⟩

theorem next {evidence : Bytes} {message answer : HandshakeMessage} {keys : TrafficKeys}
    {inbound : List Packet} {r : Request}
    (h : Conforms S entropy (.attest evidence :: .handshake message ::
      (inbound.map (fun p => .encrypted p.sealed) ++ [r])))
    (hr : Responder.respond S message entropy = (.ok (answer, keys), entropy')) :
    ∃ p, r = .encrypted p.sealed ∧
      Opens S keys.initiatorToResponder (.ofNat inbound.length) p ∧
      inbound.length + 1 < 2 ^ 64 := by
  obtain ⟨_, _, keys', _, packets, heq, hr', hopens, hpackets⟩ := h.greeted
  cases heq
  obtain rfl : keys' = keys := by
    rw [hr] at hr'
    cases hr'
    rfl
  obtain ⟨opened, last, rfl, hopened, hlast⟩ := List.map_eq_append_iff.mp hpackets.symm
  obtain ⟨p, rfl, rfl⟩ := List.map_eq_singleton_iff.mp hlast
  have hlength : opened.length = inbound.length := by
    simpa using congrArg List.length hopened
  refine ⟨p, rfl, ?_, ?_⟩
  · rw [← hlength]
    exact hopens.good _ p List.getElem?_concat_length
  · have := hopens.bound
    rw [List.length_append, hlength] at this
    exact this

theorem longest {rest : List Request} (h : Conforms S entropy front)
    (hstop : ∀ r, [r] <+: rest → ¬ Conforms S entropy (front ++ [r])) {other : List Request}
    (hp : other <+: front ++ rest) : Conforms S entropy other ↔ other <+: front := by
  refine ⟨fun hother => ?_, h.of_prefix⟩
  rcases List.prefix_or_prefix_of_prefix hp (List.prefix_append front rest) with hle | ⟨more, rfl⟩
  · exact hle
  · cases more with
    | nil => simp
    | cons r more =>
      -- A longer front would have the next request in it.
      rw [List.prefix_append_right_inj] at hp
      have hr : [r] <+: r :: more := ⟨more, rfl⟩
      refine absurd (hother.of_prefix ?_) (hstop r (hr.trans hp))
      rw [List.prefix_append_right_inj]
      exact hr

end Conforms

/-! ## Runs of a session -/

/-- A request with its result, and the session before and after it. -/
structure Handling (S : CipherSuite) (η : Type) where
  before : ServiceSession S (Witnessed η)
  request : Request
  result : Except Error Response
  after : ServiceSession S (Witnessed η)

/-- What a request says under the key and the counter that the session opens it with. -/
def Handling.plain? (x : Handling S η) : Option Bytes :=
  match x.request, x.before.cipher with
  | .encrypted sealed, some c => (c.decrypt sealed).1.toOption
  | _, _ => none

/-- What the encrypted requests say. -/
def plains (handlings : List (Handling S η)) : List (Option Bytes) :=
  (handlings.filter fun x => x.request.kind = .encrypted).map Handling.plain?

theorem plains_append (a b : List (Handling S η)) : plains (a ++ b) = plains a ++ plains b := by
  simp [plains]

theorem plains_other {x : Handling S η} (hr : x.request.kind ≠ .encrypted) : plains [x] = [] := by
  simp [plains, hr]

theorem plains_encrypted {x : Handling S η} {c : TrafficCipher S} {sealed plain : Bytes}
    (hr : x.request = .encrypted sealed) (hc : x.before.cipher = some c)
    (hd : (c.decrypt sealed).1 = .ok plain) : plains [x] = [some plain] := by
  simp [plains, Handling.plain?, hr, Message.kind, hc, hd, Except.toOption]

namespace ServiceSession

def fresh (S : CipherSuite) (evidence : Bytes) (application : η) (entropy : Entropy) :
    ServiceSession S (Witnessed η) where
  evidence := evidence
  application := { application := application }
  entropy := entropy

/-- What the application was asked. -/
def asked (s : ServiceSession S (Witnessed η)) : List Bytes := s.application.seen.map (·.1)

/-- No answer of the application is over the limit. -/
def Within (s : ServiceSession S (Witnessed η)) (limit : Nat) : Prop :=
  ∀ x ∈ s.application.seen, x.2.length ≤ limit

variable [Application η]

def history (s : ServiceSession S (Witnessed η)) : List Request → List (Handling S η)
  | [] => []
  | r :: rest => ⟨s, r, (s.handle r).1, (s.handle r).2⟩ :: (s.handle r).2.history rest

def after (s : ServiceSession S (Witnessed η)) (requests : List Request) :
    ServiceSession S (Witnessed η) :=
  requests.foldl (fun s r => (s.handle r).2) s

variable {s : ServiceSession S (Witnessed η)}

theorem seen_handle (s : ServiceSession S (Witnessed η)) (r : Request) :
    s.application.seen <+: (s.handle r).2.application.seen := by
  have hh := s.handle_handled r
  generalize s.handle r = step at hh ⊢
  obtain ⟨result, session⟩ := step
  cases hh with
  | attests | greets | noHandshake | noCipher | notOpened | unexpected =>
    exact List.prefix_refl _
  | serves _ _ _ ha | notSealed _ _ _ ha => exact ⟨_, (Witnessed.seen_answer ha).symm⟩

theorem seen_after (s : ServiceSession S (Witnessed η)) (requests : List Request) :
    s.application.seen <+: (s.after requests).application.seen := by
  induction requests generalizing s with
  | nil => exact List.prefix_refl _
  | cons r rest ih => exact (s.seen_handle r).trans (ih _)

theorem Within.of_after {limit : Nat} {requests : List Request}
    (h : (s.after requests).Within limit) : s.Within limit :=
  fun x hx => h x ((s.seen_after requests).subset hx)

/-! ### Closed sessions -/

theorem handle_close (s : ServiceSession S (Witnessed η)) (r : Request) :
    s.close.handle r = (.error (.unexpectedMessage .closed r.kind), s.close) := by
  cases r <;> rfl

theorem after_close (s : ServiceSession S (Witnessed η)) (requests : List Request) :
    s.close.after requests = s.close := by
  induction requests with
  | nil => rfl
  | cons r rest ih =>
    rw [after, List.foldl_cons, handle_close]
    exact ih

theorem history_close (s : ServiceSession S (Witnessed η)) (requests : List Request) :
    s.close.history requests = requests.map fun r =>
      ⟨s.close, r, .error (.unexpectedMessage .closed r.kind), s.close⟩ := by
  induction requests with
  | nil => rfl
  | cons r rest ih => rw [history, handle_close, ih, List.map_cons]

end ServiceSession

/-! ## Where a session stands -/

/-- A session that has taken some requests and refused none. -/
inductive Standing (entropy : Entropy) (s : ServiceSession S (Witnessed η)) :
    List Request → Prop where
  | waits (hs : s.phase = .awaitingAttestation) (hc : s.cipher = none) (he : s.entropy = entropy)
      (hseen : s.application.seen = []) (hn : s.served = 0) : Standing entropy s []
  | attested {evidence} (hs : s.phase = .awaitingHandshake) (hc : s.cipher = none)
      (he : s.entropy = entropy) (hseen : s.application.seen = []) (hn : s.served = 0) :
      Standing entropy s [.attest evidence]
  | serving {evidence message answer keys c} {inbound outbound : List Packet}
      (hr : Responder.respond S message entropy = (.ok (answer, keys), s.entropy))
      (hs : s.phase = .established) (hc : s.cipher = some c)
      (hst : Visit.Stands c keys inbound outbound)
      (hopens : Lane (Opens S keys.initiatorToResponder) inbound)
      (hseals : Lane (Seals S keys.responderToInitiator) outbound)
      (hseen : s.application.seen.length = inbound.length) (hn : s.served = inbound.length) :
      Standing entropy s
        (.attest evidence :: .handshake message :: inbound.map fun p => .encrypted p.sealed)

namespace Standing

variable {entropy : Entropy} {s : ServiceSession S (Witnessed η)} {front : List Request}
  {r : Request} {limit : Nat}

theorem conforms (h : Standing entropy s front) : Conforms S entropy front := by
  cases h with
  | waits => exact .nothing
  | attested => exact .attest
  | serving hr _ _ _ hopens => exact .traffic _ hr hopens

theorem expected (h : Standing entropy s front) (hc : Conforms S entropy (front ++ [r])) :
    ServiceSession.Expected s.phase r := by
  cases h with
  | waits hs =>
    rw [hs]
    cases hc
    trivial
  | attested hs =>
    obtain ⟨_, _, _, _, _, rfl, -⟩ := hc.greeted
    rw [hs]
    trivial
  | serving hr hs =>
    obtain ⟨p, rfl, -⟩ := hc.next hr
    rw [hs]
    trivial

theorem counted (h : Standing entropy s front) {c : TrafficCipher S}
    (hc : s.cipher = some c) : c.sent.toNat = s.application.seen.length ∧
      c.received.toNat = s.application.seen.length ∧ s.served = s.application.seen.length := by
  cases h with
  | waits _ hnone | attested _ hnone => cases hnone.symm.trans hc
  | serving _ _ hsome hst _ _ hseen hn =>
    obtain rfl := Option.some.inj (hsome.symm.trans hc)
    exact ⟨by rw [hst.sent, hst.even, hseen], by rw [hst.received, hseen], by rw [hn, hseen]⟩

/-! ### One request -/

theorem fitting (h : Standing entropy s front) : s.Fitting := by
  cases h with
  | waits hs hc | attested hs hc | serving _ hs hc => simp [ServiceSession.Fitting, hs, hc]

theorem greet (h : Standing entropy s front) (hs : s.phase = .awaitingHandshake)
    {message answer : HandshakeMessage} {keys : TrafficKeys} {entropy' : Entropy}
    (hr : Responder.respond S message s.entropy = (.ok (answer, keys), entropy')) :
    Standing entropy
      { s with
        entropy := entropy', phase := .established, cipher := some (.ofKeys S keys .responder) }
      (front ++ [.handshake message]) := by
  cases h with
  | waits hs' | serving _ hs' => cases hs.symm.trans hs'
  | @attested evidence _ _ he hseen hn =>
    have hst : Visit.Stands (.ofKeys S keys .responder) keys [] [] := ⟨rfl, rfl, rfl, rfl, rfl⟩
    have hserving : Standing entropy _ (.attest evidence :: .handshake message :: _) :=
      .serving (s := { s with
        entropy := entropy', phase := .established, cipher := some (.ofKeys S keys .responder) })
        (he ▸ hr) rfl rfl hst (lane_nil _) (lane_nil _) (by simp [hseen]) hn
    exact hserving

theorem not_greeted (hlimit : S.SealsUpTo limit) (hK : S.Derives) (h : Standing entropy s front)
    (hs : s.phase = .awaitingHandshake) {message : HandshakeMessage} {e : CryptoError}
    {entropy' : Entropy} (hr : Responder.respond S message s.entropy = (.error e, entropy')) :
    e.isSequencing = false ∧ entropy' = s.entropy ∧
      ¬ Conforms S entropy (front ++ [.handshake message]) := by
  rcases Responder.respond_cases hlimit hK message s.entropy with
    ⟨e', haccept, hrespond⟩ | ⟨_, _, _, _, -, hrespond⟩
  · cases hr.symm.trans hrespond
    refine ⟨Responder.accept_error haccept, rfl, fun hc => ?_⟩
    cases h with
    | waits hs' | serving _ hs' => cases hs.symm.trans hs'
    | attested _ _ he =>
      obtain ⟨_, _, _, _, _, heq, hrespond', -⟩ := hc.greeted
      cases heq
      rw [← he, hrespond] at hrespond'
      cases hrespond'
  · cases hr.symm.trans hrespond

section

variable {c c' c'' : TrafficCipher S} {sealed request answer reply : Bytes}

theorem serve (h : Standing entropy s front) (hc : s.cipher = some c)
    (hd : c.decrypt sealed = (.ok request, c')) (he : c'.encrypt answer = (.ok reply, c''))
    {application : Witnessed η}
    (hseen : application.seen = s.application.seen ++ [(request, answer)]) :
    Standing entropy
      { s with application := application, cipher := some c'', served := s.served + 1 }
      (front ++ [.encrypted sealed]) := by
  cases h with
  | waits _ hnone | attested _ hnone => cases hnone.symm.trans hc
  | @serving evidence message _ keys _ inbound outbound hr hs hsome hst hopens hseals hcalls hn =>
    obtain rfl := Option.some.inj (hsome.symm.trans hc)
    obtain ⟨hturn, hopens', hseals', -⟩ := hst.turn hopens hseals hd he
    have hserving : Standing entropy _ (.attest evidence :: .handshake message :: _) :=
      .serving (s := { s with
        application := application, cipher := some c'', served := s.served + 1 })
        hr hs rfl hturn hopens' hseals' (by simp [hseen, hcalls]) (by simp [hn])
    rw [List.map_append] at hserving
    exact hserving

theorem not_opened (h : Standing entropy s front) (hsome : s.cipher = some c)
    {e : CryptoError} (hd : c.decrypt sealed = (.error e, c')) :
    ¬ Conforms S entropy (front ++ [.encrypted sealed]) := by
  intro hc
  cases h with
  | waits _ hnone | attested _ hnone => cases hnone.symm.trans hsome
  | serving hr _ hsome' hst =>
    obtain rfl := Option.some.inj (hsome'.symm.trans hsome)
    obtain ⟨p, heq, hopen, hbound⟩ := hc.next hr
    cases heq
    have hok := hst.opens_next hopen hbound
    rw [hd] at hok
    cases hok

theorem seals (hlimit : S.SealsUpTo limit) (h : Standing entropy s front)
    (hc : s.cipher = some c) (hd : c.decrypt sealed = (.ok request, c'))
    (ha : answer.length ≤ limit) : ∃ reply, (c'.encrypt answer).1 = .ok reply := by
  cases h with
  | waits _ hnone | attested _ hnone => cases hnone.symm.trans hc
  | serving _ _ hsome hst =>
    obtain rfl := Option.some.inj (hsome.symm.trans hc)
    exact hst.seals_next hlimit hd ha

end

/-- A request is taken, or refused for being against the protocol. -/
inductive Verdict (entropy : Entropy) (front : List Request) (s : ServiceSession S (Witnessed η))
    (r : Request) : Except Error Response → ServiceSession S (Witnessed η) → Prop where
  | taken {m s'} (hm : m.kind = r.kind) (h : Standing entropy s' (front ++ [r]))
      (hasked : s'.asked.map some = s.asked.map some ++ plains [⟨s, r, .ok (.message m), s'⟩]) :
      Verdict entropy front s r (.ok (.message m)) s'
  | refused {e : Error} (he : e ≠ .crypto .notEstablished)
      (hr : ¬ Conforms S entropy (front ++ [r])) : Verdict entropy front s r (.error e) s.close

theorem verdict [Application η] (hlimit : S.SealsUpTo limit) (hK : S.Derives)
    (h : Standing entropy s front) (hw : (s.handle r).2.Within limit) :
    Verdict entropy front s r (s.handle r).1 (s.handle r).2 := by
  have hh := s.handle_handled r
  generalize s.handle r = step at hh hw ⊢
  obtain ⟨result, session⟩ := step
  dsimp only at hh hw ⊢
  cases hh with
  | attests hs =>
    cases h with
    | waits _ hc he hseen hn =>
      refine .taken rfl (.attested rfl hc he hseen hn) ?_
      rw [plains_other (by simp [Message.kind]), List.append_nil]
      rfl
    | attested hs' | serving _ hs' => cases hs.symm.trans hs'
  | greets hs hr =>
    refine .taken rfl (h.greet hs hr) ?_
    rw [plains_other (by simp [Message.kind]), List.append_nil]
    rfl
  | noHandshake hs hr =>
    obtain ⟨he, rfl, hnot⟩ := h.not_greeted hlimit hK hs hr
    exact .refused (ne_notEstablished he) hnot
  | noCipher hs hc =>
    have hsome := h.fitting.mpr hs
    rw [hc] at hsome
    cases hsome
  | serves hs hc hd ha he =>
    have hseen := Witnessed.seen_answer ha
    refine .taken rfl (h.serve hc hd he hseen) ?_
    rw [plains_encrypted rfl hc (congrArg Prod.fst hd)]
    simp [ServiceSession.asked, hseen]
  | notOpened hs hc hd =>
    exact .refused (ne_notEstablished (TrafficCipher.decrypt_error hd)) (h.not_opened hc hd)
  | @notSealed c c' c'' sealed request answer application e hs hc hd ha he =>
    have hanswer : answer.length ≤ limit :=
      hw (request, answer) (by simp [ServiceSession.close, Witnessed.seen_answer ha])
    obtain ⟨reply, hreply⟩ := h.seals hlimit hc hd hanswer
    rw [he] at hreply
    cases hreply
  | unexpected hr => exact .refused (by simp) fun hc => hr (h.expected hc)

/-! ### A run -/

/-- What is left after some requests were taken: nothing, or a request against the protocol and
whatever comes after it. -/
inductive Ending [Application η] (entropy : Entropy) (front : List Request)
    (s : ServiceSession S (Witnessed η)) :
    List (Handling S η) → ServiceSession S (Witnessed η) → Prop where
  | all : Ending entropy front s [] s
  | stops {r : Request} {e rest} (he : e ≠ .crypto .notEstablished)
      (hr : ¬ Conforms S entropy (front ++ [r])) :
      Ending entropy front s (⟨s, r, .error e, s.close⟩ :: s.close.history rest) s.close

namespace Ending

variable [Application η] {refused : List (Handling S η)} {final : ServiceSession S (Witnessed η)}

theorem refuses (h : Ending entropy front s refused final) : ∀ x ∈ refused,
    (∃ e, x.result = .error e ∧ e ≠ .crypto .notEstablished) ∧ x.after = x.before.close := by
  cases h with
  | all => simp
  | stops he =>
    refine List.forall_mem_cons.mpr ⟨⟨⟨_, rfl, he⟩, rfl⟩, ?_⟩
    rw [ServiceSession.history_close]
    simp [ServiceSession.close]

theorem forever (h : Ending entropy front s refused final) : ∀ x ∈ refused.tail,
    x.before.phase = .closed ∧ x.result = .error (.unexpectedMessage .closed x.request.kind) := by
  cases h with
  | all => simp
  | stops =>
    rw [List.tail_cons, ServiceSession.history_close]
    simp [ServiceSession.close]

theorem against (h : Ending entropy front s refused final) {r : Request}
    (hr : [r] <+: refused.map (·.request)) : ¬ Conforms S entropy (front ++ [r]) := by
  cases h with
  | all => cases List.prefix_nil.mp hr
  | stops _ hnot =>
    rw [List.map_cons, List.cons_prefix_cons] at hr
    rw [hr.1]
    exact hnot

theorem final_eq (h : Ending entropy front s refused final) : final = s ∨ final = s.close := by
  cases h with
  | all => exact .inl rfl
  | stops => exact .inr rfl

end Ending

/-- Some requests were taken from a session on, which led to another one. -/
structure Takes (entropy : Entropy) (front : List Request) (s s' : ServiceSession S (Witnessed η))
    (taken : List (Handling S η)) : Prop where
  stands : Standing entropy s' (front ++ taken.map (·.request))
  answers : ∀ x ∈ taken, ∃ m, x.result = .ok (.message m) ∧ m.kind = x.request.kind
  asked : s'.asked.map some = s.asked.map some ++ plains taken

theorem run [Application η] (hlimit : S.SealsUpTo limit) (hK : S.Derives)
    (h : Standing entropy s front) (requests : List Request) (hw : (s.after requests).Within limit) :
    ∃ taken refused s', s.history requests = taken ++ refused ∧ Takes entropy front s s' taken ∧
      Ending entropy (front ++ taken.map (·.request)) s' refused (s.after requests) := by
  -- The front grows with each request that is taken; a refusal ends the induction.
  induction requests generalizing s front with
  | nil =>
    refine ⟨[], [], s, rfl, ⟨?_, by simp, by simp [plains]⟩, .all⟩
    rw [List.map_nil, List.append_nil]
    exact h
  | cons r rest ih =>
    have hafter : s.after (r :: rest) = (s.handle r).2.after rest := rfl
    have hhistory : s.history (r :: rest) =
      ⟨s, r, (s.handle r).1, (s.handle r).2⟩ :: (s.handle r).2.history rest := rfl
    rw [hafter] at hw ⊢
    rw [hhistory]
    have hverdict := h.verdict hlimit hK (r := r) hw.of_after
    generalize s.handle r = step at hw hverdict ⊢
    obtain ⟨result, session⟩ := step
    dsimp only at hw hverdict ⊢
    cases hverdict with
    | @taken m _ hm hstanding hasked =>
      obtain ⟨taken, refused, s', hall, ht, hending⟩ := ih hstanding hw
      have hfront : front ++ ((⟨s, r, .ok (.message m), session⟩ :: taken).map (·.request)) =
          front ++ [r] ++ taken.map (·.request) := by simp
      refine ⟨_ :: taken, refused, s', by rw [hall, List.cons_append], ⟨?_, ?_, ?_⟩, ?_⟩
      · rw [hfront]
        exact ht.stands
      · exact List.forall_mem_cons.mpr ⟨⟨m, rfl, hm⟩, ht.answers⟩
      · rw [ht.asked, hasked, List.append_assoc, ← plains_append, List.singleton_append]
      · rw [hfront]
        exact hending
    | @refused e he hr =>
      refine ⟨[], _, s, rfl, ⟨?_, by simp, by simp [plains]⟩, ?_⟩
      · rw [List.map_nil, List.append_nil]
        exact h
      · rw [List.map_nil, List.append_nil, ServiceSession.after_close]
        exact .stops he hr

end Standing

/-! ## The theorem -/

/-- What becomes of the requests of a session: the first ones are taken, the others refused. -/
structure Settles [Application η] (s : ServiceSession S (Witnessed η)) (requests : List Request)
    (taken refused : List (Handling S η)) : Prop where
  all : s.history requests = taken ++ refused
  longest : ∀ front, front <+: requests →
    (Conforms S s.entropy front ↔ front <+: taken.map (·.request))
  answers : ∀ x ∈ taken, ∃ m, x.result = .ok (.message m) ∧ m.kind = x.request.kind
  /-- A refusal closes the session and changes nothing else. -/
  refuses : ∀ x ∈ refused, (∃ e, x.result = .error e ∧ e ≠ .crypto .notEstablished) ∧
    x.after = x.before.close
  forever : ∀ x ∈ refused.tail, x.before.phase = .closed ∧
    x.result = .error (.unexpectedMessage .closed x.request.kind)
  /-- At every point of the run there is a cipher if and only if the session is established. -/
  present : ∀ front, front <+: requests →
    ((s.after front).cipher.isSome ↔ (s.after front).phase = .established)
  counted : ∀ c, (s.after requests).cipher = some c →
    c.sent.toNat = (s.after requests).asked.length ∧
    c.received.toNat = (s.after requests).asked.length ∧
    (s.after requests).served = (s.after requests).asked.length
  /-- The application is asked once for each encrypted request that is taken. -/
  asked : (s.after requests).asked.map some = plains taken

namespace ServiceSession

variable [Application η]

theorem fitting_after {s : ServiceSession S (Witnessed η)} (h : s.Fitting)
    (requests : List Request) : (s.after requests).Fitting := by
  induction requests generalizing s with
  | nil => exact h
  | cons r rest ih => exact ih (fitting_handle h r)

theorem requests_history (s : ServiceSession S (Witnessed η)) (requests : List Request) :
    (s.history requests).map (·.request) = requests := by
  induction requests generalizing s with
  | nil => rfl
  | cons r rest ih => rw [history, List.map_cons, ih]

/-- **A session takes the longest front of its requests that keeps to the protocol**, and is closed
by the next one, if the suite derives keys and encrypts all that the application answers. -/
theorem settles_history {limit : Nat} (hlimit : S.SealsUpTo limit) (hK : S.Derives)
    (evidence : Bytes) (application : η) (entropy : Entropy) (requests : List Request)
    (hw : ((fresh S evidence application entropy).after requests).Within limit) :
    ∃ taken refused, Settles (fresh S evidence application entropy) requests taken refused := by
  have hfresh : Standing entropy (fresh S evidence application entropy) [] :=
    .waits rfl rfl rfl rfl rfl
  obtain ⟨taken, refused, s, hall, ht, hending⟩ := hfresh.run hlimit hK requests hw
  have hrequests : taken.map (·.request) ++ refused.map (·.request) = requests := by
    rw [← List.map_append, ← hall, requests_history]
  have hasked : ((fresh S evidence application entropy).after requests).asked = s.asked := by
    rcases hending.final_eq with hfinal | hfinal
    · rw [hfinal]
    · rw [hfinal]
      rfl
  refine ⟨taken, refused, hall, fun front hfront => ?_, ht.answers, hending.refuses,
    hending.forever, fun front _ => fitting_after hfresh.fitting front, fun c hc => ?_,
    hasked ▸ ht.asked⟩
  · rw [← hrequests] at hfront
    exact ht.stands.conforms.longest (fun r hr => hending.against hr) hfront
  · rcases hending.final_eq with hfinal | hfinal
    · rw [hfinal] at hc ⊢
      simpa [asked] using ht.stands.counted hc
    · rw [hfinal] at hc
      cases hc

/-- A handshake, one packet, and two requests for evidence that come too late. -/
def overstaying (message : HandshakeMessage) (sealed : Bytes) : List Request :=
  [.attest [], .handshake message, .encrypted sealed, .attest [], .attest []]

theorem after_overstaying {e e' : Entropy} {keys : TrafficKeys} (m : Meeting S e e' keys) :
    (fresh S [7] (StockApplication.counter 0) e').after (overstaying m.message m.traffic.sealed) =
      m.farewell.close := by
  have hattest : (fresh S [7] (StockApplication.counter 0) e').handle (.attest []) =
      (.ok (.message (.attest [7])), Meeting.reception S e' .awaitingHandshake) := rfl
  have hlate : m.farewell.handle (.attest []) =
      (.error (.unexpectedMessage .established .attest), m.farewell.close) := rfl
  simp only [after, overstaying, List.foldl_cons, List.foldl_nil, hattest, m.handle_message,
    m.handle_sealed, hlate, handle_close]

open CipherSuite in
/-- The scalars 1 and 2, and an application that counts. -/
theorem settles_overstaying : p256AesGcmSha256.SealsUpTo Gcm.sizeLimit ∧
    p256AesGcmSha256.Derives ∧
    ∃ message sealed,
      let start := fresh p256AesGcmSha256 [7] (StockApplication.counter 0) (.small 2)
      let requests := overstaying message sealed
      (start.after requests).Within Gcm.sizeLimit ∧ (start.after requests).asked = [[1, 2]] ∧
        ∃ taken refused, Settles start requests taken refused := by
  obtain ⟨m⟩ := Meeting.of_scalars agrees_one_two draw_one draw_two
  have hafter := after_overstaying m
  have hseen : m.farewell.close.application.seen = [([1, 2], [1])] := rfl
  have hw : ((fresh p256AesGcmSha256 [7] (StockApplication.counter 0) (.small 2)).after
      (overstaying m.message m.traffic.sealed)).Within Gcm.sizeLimit := by
    rw [hafter, Within, hseen]
    decide
  refine ⟨sealsUpTo_p256AesGcmSha256, derives_p256AesGcmSha256, m.message, m.traffic.sealed, hw, ?_,
    settles_history sealsUpTo_p256AesGcmSha256 derives_p256AesGcmSha256 [7]
      (StockApplication.counter 0) (.small 2) _ hw⟩
  rw [hafter]
  rfl

end ServiceSession

end SealedLink
