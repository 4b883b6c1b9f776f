import SealedLink.Noise.ClientSession
import SealedLink.Proofs.Except

/-!
# A client's session fails closed

A session makes one handshake and then carries traffic. A call at the wrong time is refused and
leaves the session as it is; any other failure is the last thing that the session does.
-/

namespace SealedLink

/-! ## Errors -/

/-- The errors of a call at the wrong time. -/
def CryptoError.isSequencing : CryptoError → Bool
  | .handshakeAlreadyStarted | .handshakeNotStarted | .notEstablished | .sessionUnusable => true
  | _ => false

section

variable {S : CipherSuite} {e : CryptoError}

theorem nextCounter_error {counter : UInt64} (h : nextCounter counter = .error e) :
    e.isSequencing = false := by
  unfold nextCounter at h
  split at h
  · cases h
    rfl
  · cases h

namespace CipherSuite

theorem encryptAt_error {key aad plaintext : Bytes} {counter : UInt64}
    (h : S.encryptAt key counter aad plaintext = .error e) : e.isSequencing = false := by
  unfold encryptAt at h
  split at h
  · cases h
  · cases h
    rfl

theorem decryptAt_error {key aad ciphertext : Bytes} {counter : UInt64}
    (h : S.decryptAt key counter aad ciphertext = .error e) : e.isSequencing = false := by
  unfold decryptAt at h
  split at h
  · cases h
  · cases h
    rfl

end CipherSuite

namespace SymmetricState

variable {s s' : SymmetricState S}

theorem encryptAndHash_error {plaintext : Bytes}
    (h : s.encryptAndHash plaintext = (.error e, s')) : e.isSequencing = false := by
  unfold encryptAndHash at h
  split at h
  · cases h
  · split at h
    · cases h
      exact nextCounter_error ‹_›
    · split at h
      · cases h
        exact CipherSuite.encryptAt_error ‹_›
      · cases h

theorem decryptAndHash_error {ciphertext : Bytes}
    (h : s.decryptAndHash ciphertext = (.error e, s')) : e.isSequencing = false := by
  unfold decryptAndHash at h
  split at h
  · cases h
  · split at h
    · cases h
      exact nextCounter_error ‹_›
    · split at h
      · cases h
        exact CipherSuite.decryptAt_error ‹_›
      · cases h

theorem mixKey_error {material : Bytes} (h : s.mixKey material = .error e) :
    e.isSequencing = false := by
  unfold mixKey at h
  split at h
  · cases h
    rfl
  · cases h

theorem split_error (h : s.split = .error e) : e.isSequencing = false := by
  unfold split at h
  split at h
  · cases h
    rfl
  · cases h

theorem decryptEmpty_error {ciphertext : Bytes} (h : s.decryptEmpty ciphertext = .error e) :
    e.isSequencing = false := by
  unfold decryptEmpty at h
  split at h
  · cases h
    exact decryptAndHash_error ‹_›
  · split at h
    · cases h
    · cases h
      rfl

end SymmetricState

theorem Initiator.start_error {secret : S.Secret} (h : Initiator.start secret = .error e) :
    e.isSequencing = false := by
  rcases bind_eq_error.mp h with hkey | ⟨keyed, -, h⟩
  · exact SymmetricState.mixKey_error hkey
  · split at h
    · cases h
      exact SymmetricState.encryptAndHash_error ‹_›
    · cases h

theorem Initiator.finish_error {i : Initiator S} {response : HandshakeMessage}
    (h : i.finish response = .error e) : e.isSequencing = false := by
  unfold Initiator.finish at h
  split at h
  · cases h
    rfl
  · rcases bind_eq_error.mp h with hkey | ⟨keyed, -, h⟩
    · exact SymmetricState.mixKey_error hkey
    · rcases bind_eq_error.mp h with hshared | ⟨shared, -, h⟩
      · exact SymmetricState.mixKey_error hshared
      · rcases bind_eq_error.mp h with hpayload | ⟨final, -, h⟩
        · exact SymmetricState.decryptEmpty_error hpayload
        · exact SymmetricState.split_error h

theorem TrafficCipher.encrypt_error {c c' : TrafficCipher S} {plaintext : Bytes}
    (h : c.encrypt plaintext = (.error e, c')) : e.isSequencing = false := by
  unfold TrafficCipher.encrypt at h
  split at h
  · cases h
    exact nextCounter_error ‹_›
  · split at h
    · cases h
      exact CipherSuite.encryptAt_error ‹_›
    · cases h

theorem TrafficCipher.decrypt_error {c c' : TrafficCipher S} {ciphertext : Bytes}
    (h : c.decrypt ciphertext = (.error e, c')) : e.isSequencing = false := by
  unfold TrafficCipher.decrypt at h
  split at h
  · cases h
    exact nextCounter_error ‹_›
  · split at h
    · cases h
      exact CipherSuite.decryptAt_error ‹_›
    · cases h

end

/-! ## Calls -/

/-- A call of a session. -/
inductive SessionCall where
  | start
  | finish (response : HandshakeMessage)
  | encrypt (plaintext : Bytes)
  | decrypt (ciphertext : Bytes)
  deriving DecidableEq, Repr

inductive SessionAnswer where
  | message (message : HandshakeMessage)
  | finished
  | text (text : Bytes)
  deriving DecidableEq, Repr

def SessionCall.isTraffic : SessionCall → Bool
  | .encrypt _ | .decrypt _ => true
  | .start | .finish _ => false

namespace ClientPhase

variable {S : CipherSuite}

/-- The calls that are in time. -/
def Expects : ClientPhase S → SessionCall → Prop
  | .notStarted, .start => True
  | .inProgress _, .finish _ => True
  | .established _, .encrypt _ => True
  | .established _, .decrypt _ => True
  | _, _ => False

/-- The error of a call that is not in time. -/
def refusal : ClientPhase S → SessionCall → CryptoError
  | .failed, _ => .sessionUnusable
  | _, .start => .handshakeAlreadyStarted
  | _, .finish _ => .handshakeNotStarted
  | _, _ => .notEstablished

theorem isSequencing_refusal (p : ClientPhase S) (call : SessionCall) :
    (p.refusal call).isSequencing = true := by
  cases p <;> cases call <;> rfl

end ClientPhase

namespace ClientSession

variable {S : CipherSuite}

def call (s : ClientSession S) : SessionCall → Except CryptoError SessionAnswer × ClientSession S
  | .start => (s.start.1.map .message, s.start.2)
  | .finish response => ((s.finish response).1.map fun _ => .finished, (s.finish response).2)
  | .encrypt plaintext => ((s.encrypt plaintext).1.map .text, (s.encrypt plaintext).2)
  | .decrypt ciphertext => ((s.decrypt ciphertext).1.map .text, (s.decrypt ciphertext).2)

/-- What can come of a call. -/
inductive Answered (s : ClientSession S) :
    SessionCall → Except CryptoError SessionAnswer → ClientSession S → Prop where
  | refuses {call} (hr : ¬ s.phase.Expects call) :
      Answered s call (.error (s.phase.refusal call)) s
  | starts {secret entropy handshake message} (hp : s.phase = .notStarted)
      (hd : S.draw s.entropy = (secret, entropy))
      (hs : Initiator.start secret = .ok (handshake, message)) :
      Answered s .start (.ok (.message message)) ⟨entropy, .inProgress handshake⟩
  | finishes {handshake response keys} (hp : s.phase = .inProgress handshake)
      (hf : handshake.finish response = .ok keys) :
      Answered s (.finish response) (.ok .finished)
        { s with phase := .established (.ofKeys S keys .initiator) }
  | seals {c c' plaintext ciphertext} (hp : s.phase = .established c)
      (hc : c.encrypt plaintext = (.ok ciphertext, c')) :
      Answered s (.encrypt plaintext) (.ok (.text ciphertext)) { s with phase := .established c' }
  | opens {c c' ciphertext plaintext} (hp : s.phase = .established c)
      (hc : c.decrypt ciphertext = (.ok plaintext, c')) :
      Answered s (.decrypt ciphertext) (.ok (.text plaintext)) { s with phase := .established c' }
  | breaks {call e entropy} (hp : s.phase.Expects call) (he : e.isSequencing = false) :
      Answered s call (.error e) ⟨entropy, .failed⟩

theorem call_of_not_expects {s : ClientSession S} {call : SessionCall}
    (h : ¬ s.phase.Expects call) : s.call call = (.error (s.phase.refusal call), s) := by
  obtain ⟨entropy, phase⟩ := s
  cases phase <;> cases call <;> first | rfl | exact absurd trivial h

section

variable (s : ClientSession S)

theorem start_answered (hp : s.phase = .notStarted) (he : s.phase.Expects .start) :
    Answered s .start (s.call .start).1 (s.call .start).2 := by
  unfold call start
  rw [hp]
  dsimp only
  split
  · exact .breaks he (Initiator.start_error ‹_›)
  · exact .starts hp rfl ‹_›

theorem finish_answered {handshake : Initiator S} {response : HandshakeMessage}
    (hp : s.phase = .inProgress handshake) (he : s.phase.Expects (.finish response)) :
    Answered s (.finish response) (s.call (.finish response)).1 (s.call (.finish response)).2 := by
  unfold call finish
  rw [hp]
  dsimp only
  split
  · exact .breaks he (Initiator.finish_error ‹_›)
  · exact .finishes hp ‹_›

theorem withCipher_answered {c : TrafficCipher S} {call : SessionCall}
    {operation : TrafficCipher S → Except CryptoError Bytes × TrafficCipher S}
    (hp : s.phase = .established c) (he : s.phase.Expects call)
    (herror : ∀ e c', operation c = (.error e, c') → e.isSequencing = false)
    (hok : ∀ text c', operation c = (.ok text, c') →
      Answered s call (.ok (.text text)) { s with phase := .established c' }) :
    Answered s call ((s.withCipher operation).1.map .text) (s.withCipher operation).2 := by
  unfold withCipher
  rw [hp]
  dsimp only
  split
  · exact .breaks he (herror _ _ ‹_›)
  · exact hok _ _ ‹_›

theorem call_answered (call : SessionCall) : Answered s call (s.call call).1 (s.call call).2 := by
  by_cases he : s.phase.Expects call
  · have hcase := he
    cases hp : s.phase <;> cases call <;> rw [hp] at hcase <;> try exact hcase.elim
    · exact s.start_answered hp he
    · exact s.finish_answered hp he
    · exact s.withCipher_answered hp he (fun _ _ => TrafficCipher.encrypt_error)
        (fun _ _ => .seals hp)
    · exact s.withCipher_answered hp he (fun _ _ => TrafficCipher.decrypt_error)
        (fun _ _ => .opens hp)
  · rw [call_of_not_expects he]
    exact .refuses he

end

end ClientSession

/-! ## Histories -/

/-- One call with its result, and the session before and after it. -/
structure Attempt (S : CipherSuite) where
  before : ClientSession S
  call : SessionCall
  result : Except CryptoError SessionAnswer
  after : ClientSession S

variable {S : CipherSuite}

def ClientSession.history (s : ClientSession S) : List SessionCall → List (Attempt S)
  | [] => []
  | call :: calls => ⟨s, call, (s.call call).1, (s.call call).2⟩ :: (s.call call).2.history calls

/-- The calls that succeeded. -/
def granted (attempts : List (Attempt S)) : List SessionCall :=
  (attempts.filter fun x => x.result.isOk).map Attempt.call

theorem granted_ok {before after : ClientSession S} {call : SessionCall} {answer : SessionAnswer}
    (rest : List (Attempt S)) :
    granted (⟨before, call, .ok answer, after⟩ :: rest) = call :: granted rest := rfl

theorem granted_error {before after : ClientSession S} {call : SessionCall} {e : CryptoError}
    (rest : List (Attempt S)) :
    granted (⟨before, call, .error e, after⟩ :: rest) = granted rest := rfl

/-- At most one start, then at most one finish, then the traffic. -/
inductive OneShot : List SessionCall → Prop where
  | none : OneShot []
  | started : OneShot [.start]
  | finished {response traffic} (ht : ∀ call ∈ traffic, call.isTraffic = true) :
      OneShot (.start :: .finish response :: traffic)

theorem OneShot.more {response : HandshakeMessage} {call : SessionCall} {calls : List SessionCall}
    (h : OneShot (.start :: .finish response :: calls)) (hc : call.isTraffic = true) :
    OneShot (.start :: .finish response :: call :: calls) := by
  cases h with
  | finished ht => exact .finished (List.forall_mem_cons.mpr ⟨hc, ht⟩)

namespace ClientPhase

/-- How a phase can change. -/
inductive Moves : ClientPhase S → ClientPhase S → Prop where
  | stays {p} : Moves p p
  | starts {handshake} : Moves .notStarted (.inProgress handshake)
  | finishes {handshake cipher} : Moves (.inProgress handshake) (.established cipher)
  | carries {cipher cipher'} : Moves (.established cipher) (.established cipher')
  | fails {p} : Moves p .failed

/-- What can still succeed from a phase on. -/
def Leaves : ClientPhase S → List SessionCall → Prop
  | .notStarted, calls => OneShot calls
  | .inProgress _, calls => OneShot (.start :: calls)
  | .established _, calls => ∀ response, OneShot (.start :: .finish response :: calls)
  | .failed, calls => calls = []

theorem leaves_nil (p : ClientPhase S) : p.Leaves [] := by
  cases p with
  | notStarted => exact .none
  | inProgress => exact .started
  | established => exact fun _ => .finished (by simp)
  | failed => rfl

end ClientPhase

namespace ClientSession

theorem leaves_history (s : ClientSession S) (calls : List SessionCall) :
    s.phase.Leaves (granted (s.history calls)) := by
  -- What succeeds after the first call depends on the phase that this call leads to.
  induction calls generalizing s with
  | nil => exact s.phase.leaves_nil
  | cons call calls ih =>
    have hanswered := s.call_answered call
    have hrest := ih (s.call call).2
    rw [history]
    generalize s.call call = step at hanswered hrest ⊢
    obtain ⟨result, after⟩ := step
    dsimp only at hanswered
    cases hanswered with
    | refuses =>
      rw [granted_error]
      exact hrest
    | starts hp =>
      rw [hp, granted_ok]
      exact hrest
    | finishes hp =>
      rw [hp, granted_ok]
      exact hrest _
    | seals hp | opens hp =>
      rw [hp, granted_ok]
      exact fun response => (hrest response).more rfl
    | breaks =>
      rw [granted_error, show granted _ = [] from hrest]
      exact s.phase.leaves_nil

theorem mem_history {s : ClientSession S} {calls : List SessionCall} {x : Attempt S}
    (h : x ∈ s.history calls) : Answered x.before x.call x.result x.after := by
  induction calls generalizing s with
  | nil => cases h
  | cons call calls ih =>
    rcases List.mem_cons.mp h with rfl | h
    · exact s.call_answered call
    · exact ih h

theorem history_failed {s : ClientSession S} (hs : s.phase = .failed) (calls : List SessionCall) :
    ∀ x ∈ s.history calls, x.result = .error .sessionUnusable ∧ x.after = s := by
  induction calls with
  | nil => simp [history]
  | cons call calls ih =>
    have hcall : s.call call = (.error .sessionUnusable, s) := by
      have hnot : ¬ s.phase.Expects call := by simp [hs, ClientPhase.Expects]
      rw [call_of_not_expects hnot, hs]
      rfl
    rw [history, hcall]
    exact List.forall_mem_cons.mpr ⟨⟨rfl, rfl⟩, ih⟩

theorem history_split {s : ClientSession S} {calls : List SessionCall}
    {front rest : List (Attempt S)} {x : Attempt S} (h : s.history calls = front ++ x :: rest) :
    ∃ later, rest = x.after.history later := by
  induction calls generalizing s front with
  | nil => simp [history] at h
  | cons call calls ih =>
    cases front with
    | nil =>
      obtain ⟨rfl, rfl⟩ := List.cons.inj h
      exact ⟨calls, rfl⟩
    | cons y front => exact ih (List.cons.inj h).2

end ClientSession

/-! ## The theorem -/

/-- A call succeeds, is refused at the wrong time, or breaks the session. -/
inductive Attempt.Ends (x : Attempt S) : Prop where
  | succeeds {answer} (hr : x.result = .ok answer)
  | refused {e} (hr : x.result = .error e) (he : e.isSequencing = true) (hs : x.after = x.before)
  | broken {e} (hr : x.result = .error e) (he : e.isSequencing = false)
      (hs : x.after.phase = .failed)

/-- What is true of the calls of a session. -/
structure FailsForGood (attempts : List (Attempt S)) : Prop where
  ends : ∀ x ∈ attempts, x.Ends
  /-- A call is refused if it is not in time, and only then. -/
  timely : ∀ x ∈ attempts, x.before.phase.Expects x.call ↔
    ∀ e, x.result = .error e → e.isSequencing = false
  moves : ∀ x ∈ attempts, x.before.phase.Moves x.after.phase
  once : OneShot (granted attempts)
  /-- After a failure every call is refused. -/
  forever : ∀ front x rest, attempts = front ++ x :: rest → x.after.phase = .failed →
    ∀ y ∈ rest, y.result = .error .sessionUnusable ∧ y.after = x.after

section

variable {s s' : ClientSession S} {call : SessionCall} {result : Except CryptoError SessionAnswer}

theorem ends_of_answered (h : s.Answered call result s') : Attempt.Ends ⟨s, call, result, s'⟩ := by
  cases h with
  | refuses => exact .refused rfl (ClientPhase.isSequencing_refusal ..) rfl
  | starts | finishes | seals | opens => exact .succeeds rfl
  | breaks _ he => exact .broken rfl he rfl

theorem timely_of_answered (h : s.Answered call result s') :
    s.phase.Expects call ↔ ∀ e, result = .error e → e.isSequencing = false := by
  cases h with
  | refuses hr =>
    refine iff_of_false hr ?_
    intro hnone
    have hsequencing := hnone _ rfl
    rw [ClientPhase.isSequencing_refusal] at hsequencing
    cases hsequencing
  | starts hp | finishes hp | seals hp | opens hp =>
    refine iff_of_true ?_ (by simp)
    rw [hp]
    trivial
  | breaks hp he =>
    refine iff_of_true hp ?_
    intro e heq
    cases heq
    exact he

theorem moves_of_answered (h : s.Answered call result s') : s.phase.Moves s'.phase := by
  cases h with
  | refuses => exact .stays
  | starts hp =>
    rw [hp]
    exact .starts
  | finishes hp =>
    rw [hp]
    exact .finishes
  | seals hp | opens hp =>
    rw [hp]
    exact .carries
  | breaks => exact .fails

end

/-- **A session makes one handshake, and its first failure is its last act.** -/
theorem failsForGood_history (S : CipherSuite) (e : Entropy) (calls : List SessionCall) :
    FailsForGood (({ entropy := e } : ClientSession S).history calls) where
  ends x hx := ends_of_answered (ClientSession.mem_history hx)
  timely x hx := timely_of_answered (ClientSession.mem_history hx)
  moves x hx := moves_of_answered (ClientSession.mem_history hx)
  once := ClientSession.leaves_history { entropy := e } calls
  forever := by
    intro front x rest hsplit hfailed y hy
    obtain ⟨later, rfl⟩ := ClientSession.history_split hsplit
    exact ClientSession.history_failed hfailed later y hy

end SealedLink
