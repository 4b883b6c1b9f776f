import SealedLink.Service.Session

/-!
# What a service's session can do with a message

`ServiceSession.Handled` has one constructor for each way in which a message is answered or refused.
-/

namespace SealedLink.ServiceSession

variable {S : CipherSuite} {η : Type}

/-- The messages that a phase waits for. -/
def Expected : ServicePhase → Request → Prop
  | .awaitingAttestation, .attest _ => True
  | .awaitingHandshake, .handshake _ => True
  | .established, .encrypted _ => True
  | _, _ => False

inductive Handled [Application η] (s : ServiceSession S η) :
    Request → Except Error Response → ServiceSession S η → Prop where
  | attests {evidence} (hs : s.phase = .awaitingAttestation) :
      Handled s (.attest evidence) (.ok (.message (.attest s.evidence)))
        { s with phase := .awaitingHandshake }
  | greets {message answer keys entropy} (hs : s.phase = .awaitingHandshake)
      (hr : Responder.respond S message s.entropy = (.ok (answer, keys), entropy)) :
      Handled s (.handshake message) (.ok (.message (.handshake answer)))
        { s with
          entropy := entropy, phase := .established, cipher := some (.ofKeys S keys .responder) }
  | noHandshake {message e entropy} (hs : s.phase = .awaitingHandshake)
      (hr : Responder.respond S message s.entropy = (.error e, entropy)) :
      Handled s (.handshake message) (.error (.crypto e)) { s with entropy := entropy }.close
  | noCipher {sealed} (hs : s.phase = .established) (hc : s.cipher = none) :
      Handled s (.encrypted sealed) (.error (.crypto .notEstablished)) s.close
  | serves {c c' c'' sealed request answer application reply} (hs : s.phase = .established)
      (hc : s.cipher = some c) (hd : c.decrypt sealed = (.ok request, c'))
      (ha : Application.answer s.application request = (answer, application))
      (he : c'.encrypt answer = (.ok reply, c'')) :
      Handled s (.encrypted sealed) (.ok (.message (.encrypted reply)))
        { s with application := application, cipher := some c'', served := s.served + 1 }
  | notOpened {c c' sealed e} (hs : s.phase = .established) (hc : s.cipher = some c)
      (hd : c.decrypt sealed = (.error e, c')) :
      Handled s (.encrypted sealed) (.error (.crypto e)) s.close
  | notSealed {c c' c'' sealed request answer application e} (hs : s.phase = .established)
      (hc : s.cipher = some c) (hd : c.decrypt sealed = (.ok request, c'))
      (ha : Application.answer s.application request = (answer, application))
      (he : c'.encrypt answer = (.error e, c'')) :
      Handled s (.encrypted sealed) (.error (.crypto e)) { s with application := application }.close
  | unexpected {r} (hr : ¬ Expected s.phase r) :
      Handled s r (.error (.unexpectedMessage s.phase r.kind)) s.close

variable [Application η]

theorem respond_handled (s : ServiceSession S η) (message : HandshakeMessage)
    (hs : s.phase = .awaitingHandshake) :
    Handled s (.handshake message) (closeOnError (s.respond message)).1
      (closeOnError (s.respond message)).2 := by
  unfold respond
  split
  · rename_i hr
    exact .noHandshake hs hr
  · rename_i hr
    exact .greets hs hr

theorem serve_handled (s : ServiceSession S η) (sealed : Bytes) (hs : s.phase = .established) :
    Handled s (.encrypted sealed) (closeOnError (s.serve sealed)).1
      (closeOnError (s.serve sealed)).2 := by
  unfold serve
  split
  · rename_i hc
    exact .noCipher hs hc
  · rename_i hc
    split
    · rename_i hd
      exact .notOpened hs hc hd
    · rename_i hd
      dsimp only
      split
      · rename_i he
        exact .notSealed hs hc hd rfl he
      · rename_i he
        exact .serves hs hc hd rfl he

/-- **Every message is handled in one of the ways of `Handled`.** -/
theorem handle_handled (s : ServiceSession S η) (r : Request) :
    Handled s r (s.handle r).1 (s.handle r).2 := by
  unfold handle dispatch
  split
  · rename_i hs
    exact .attests hs
  · rename_i hs
    exact respond_handled s _ hs
  · rename_i hs
    exact serve_handled s _ hs
  · rename_i ha hh he
    refine .unexpected ?_
    intro hr
    unfold Expected at hr
    split at hr
    · exact ha _ ‹_› rfl
    · exact hh _ ‹_› rfl
    · exact he _ ‹_› rfl
    · exact hr

/-! ## Phases and ciphers -/

/-- The ciphers are there in the established phase alone. -/
def Fitting (s : ServiceSession S η) : Prop := s.cipher.isSome ↔ s.phase = .established

omit [Application η] in
theorem fitting_close (s : ServiceSession S η) : s.close.Fitting := by
  simp [Fitting, close]

theorem fitting_handle {s : ServiceSession S η} (h : s.Fitting) (r : Request) :
    (s.handle r).2.Fitting := by
  have hh := s.handle_handled r
  generalize s.handle r = step at hh ⊢
  obtain ⟨result, session⟩ := step
  dsimp only at hh ⊢
  cases hh with
  | attests hs => simp_all [Fitting]
  | greets => simp [Fitting]
  | serves hs => simp [Fitting, hs]
  | noHandshake | noCipher | notOpened | notSealed | unexpected => exact fitting_close _

end SealedLink.ServiceSession
