import SealedLink.Proofs.Channel.Discipline
import SealedLink.Proofs.Channel.Outcomes
import SealedLink.Proofs.Channel.Protocol

/-!
# Transcripts

What a channel does with given requests if one thing is done after the other: each send is answered
before anything else happens. The log of a run that is over reads the same, however writes, answers
and the steps of the driver came in between each other.
-/

namespace SealedLink

/-! ## One thing after the other -/

structure Transcript where
  calls : List Call := []
  sends : List Request := []
  /-- The answers to the first writes. -/
  opened : List Bytes := []
  state : ChannelState
  /-- The code of the failure that the other writes get. -/
  failure : Option ChannelError := none

namespace Transcript

def failed (code : ChannelError) : Transcript :=
  { state := .permanentFailure, failure := some code }

def call (c : Call) (t : Transcript) : Transcript := { t with calls := c :: t.calls }

def send (request : Request) (t : Transcript) : Transcript := { t with sends := request :: t.sends }

def resolve (opened : Bytes) (t : Transcript) : Transcript :=
  { t with opened := opened :: t.opened }

end Transcript

section

open Transcript

variable {σ α : Type} [CipherSession σ] [Attester α] (reply : Nat → TransportResult)

/-- Requests are exchanged one by one; the next send is answered with `reply j`. -/
def exchangeAll : (s : σ) → (j : Nat) → List Bytes → Transcript
  | _, _, [] => { state := .established }
  | s, j, p :: ps =>
    match CipherSession.encrypt s p with
    | (.error e, _) => call (.encrypt p (.error e)) (failed .encryptionFailed)
    | (.ok sealed, s) =>
      call (.encrypt p (.ok sealed)) <| send (.encrypted sealed) <|
        match reply j with
        | .ok (.message (.encrypted answer)) =>
          match CipherSession.decrypt s answer with
          | (.error e, _) => call (.decrypt answer (.error e)) (failed .decryptionFailed)
          | (.ok opened, s) =>
            call (.decrypt answer (.ok opened)) <| resolve opened <| exchangeAll s (j + 1) ps
        | _ => failed .networkError

/-- The handshake was sent. -/
def conclude (s : σ) (ps : List Bytes) : Transcript :=
  match reply 1 with
  | .ok (.message (.handshake response)) =>
    match CipherSession.finish s response with
    | (.error e, _) => call (.finish response (.error e)) (failed .handshakeFailed)
    | (.ok (), s) => call (.finish response (.ok ())) <| exchangeAll reply s 2 ps
  | _ => failed .handshakeFailed

/-- The evidence was sent. -/
def judge (s : σ) (a : α) (ps : List Bytes) : Transcript :=
  match reply 0 with
  | .ok (.message (.attest answer)) =>
    match Attester.verify a answer with
    | (false, _) => call (.verify answer false) (failed .attestationFailed)
    | (true, _) =>
      call (.verify answer true) <|
        match CipherSession.start s with
        | (.error e, _) => call (.start (.error e)) (failed .handshakeFailed)
        | (.ok message, s) =>
          call (.start (.ok message)) <| send (.handshake message) <| conclude reply s ps
  | _ => failed .attestationFailed

/-- What becomes of requests when the `j`-th send is answered with `reply j`. -/
def transcript (s : σ) (a : α) : List Bytes → Transcript
  | [] => { state := .uninitialized }
  | p :: ps =>
    match Attester.request a with
    | (none, _) => call (.attestationRequest none) (failed .attestationFailed)
    | (some evidence, a) =>
      call (.attestationRequest (some evidence)) <| send (.attest evidence) <|
        judge reply s a (p :: ps)

end

/-! ## Logs read as transcripts -/

namespace Transcript

/-- An entry in front of a transcript. -/
def enter : Entry → Transcript → Transcript
  | .called c, t => t.call c
  | .sent _ request, t => t.send request
  | .resolved _ (.ok opened), t => t.resolve opened
  | _, t => t

def read (log : List Entry) (t : Transcript) : Transcript := log.foldr enter t

theorem read_append (before after : List Entry) (t : Transcript) :
    read (before ++ after) t = read before (read after t) := List.foldr_append ..

end Transcript

/-- The answers that writes have got. -/
def openedIn (log : List Entry) : List Bytes := (outcomesOf log).filterMap (·.2.toOption)

theorem openedIn_append (a b : List Entry) : openedIn (a ++ b) = openedIn a ++ openedIn b := by
  rw [openedIn, outcomesOf_append, List.filterMap_append]
  rfl

theorem Transcript.read_eq (log : List Entry) (t : Transcript) : read log t =
    { t with
      calls := SealedLink.calls log ++ t.calls
      sends := requestsIn log ++ t.sends
      opened := openedIn log ++ t.opened } := by
  induction log with
  | nil => rfl
  | cons e log ih =>
    rw [← List.singleton_append, read_append, ih, calls_append, requestsIn_append, openedIn_append]
    rcases e with _ | _ | _ | _ | _ | ⟨_, _ | _⟩ <;> rfl

theorem Transcript.read_deeds (log : List Entry) (t : Transcript) :
    read (deeds log) t = read log t := by
  rw [read_eq, read_eq, calls_deeds, requestsIn_deeds, openedIn, outcomesOf_deeds]
  rfl

theorem openedIn_aftermath (dropped : List Pending) (code : ChannelError) (late : List Pending) :
    openedIn (aftermath dropped code late) = [] := by
  simp [openedIn, aftermath, outcomesOf, List.filterMap_cons, Entry.outcome?, Function.comp_def,
    Except.toOption]

theorem Transcript.read_aftermath (dropped : List Pending) (code : ChannelError)
    (late : List Pending) (t : Transcript) : read (aftermath dropped code late) t = t := by
  rw [read_eq, calls_aftermath, requestsIn_aftermath, openedIn_aftermath]
  rfl

/-! ## Logs in accord with the collaborators -/

section

variable {σ α : Type} [CipherSession σ] [Attester α] {s₀ s : σ} {a₀ a : α}

/-- Calls give what the session and the attester say, and the next replies are `reply j`,
`reply (j + 1)` and so on. -/
def Accords (reply : Nat → TransportResult) : σ → α → Nat → List Entry → Prop
  | _, _, _, [] => True
  | s, a, j, .called c :: log => ∃ s' a', c.Gives s a s' a' ∧ Accords reply s' a' j log
  | s, a, j, .handled (.reply _ result) :: log => reply j = result ∧ Accords reply s a (j + 1) log
  | s, a, j, _ :: log => Accords reply s a j log

variable {reply : Nat → TransportResult}

theorem Accords.left {before after : List Entry} {j : Nat}
    (h : Accords reply s a j (before ++ after)) : Accords reply s a j before := by
  induction before generalizing s a j with
  | nil => trivial
  | cons e before ih =>
    rcases e with _ | ⟨_ | _⟩ | _ | _ | _ | _
    case handled.reply => exact ⟨h.1, ih h.2⟩
    case called =>
      obtain ⟨s', a', hc, h⟩ := h
      exact ⟨s', a', hc, ih h⟩
    all_goals exact ih h

theorem accords_of_made {log : List Entry} {j : Nat} (h : Made s₀ a₀ (calls log) s a)
    (hreply : ∀ i x, (answersIn log)[i]? = some x → reply (j + i) = x.2) :
    Accords reply s₀ a₀ j log := by
  induction log generalizing s₀ a₀ j with
  | nil => trivial
  | cons e log ih =>
    rcases e with _ | ⟨_ | ⟨q, result⟩⟩ | c | _ | _ | _
    case handled.reply =>
      refine ⟨hreply 0 (q, result) rfl, ih h fun i x hx => ?_⟩
      rw [Nat.add_assoc, Nat.add_comm 1 i]
      exact hreply (i + 1) x hx
    case called =>
      obtain ⟨s₁, a₁, hc, hrest⟩ := h.uncons
      exact ⟨s₁, a₁, hc, ih hrest hreply⟩
    all_goals exact ih h hreply

/-! ### Entries that go with a transcript

One lemma for each thing that is done: a log that begins with its entries tells the session and the
attester what they must have answered.
-/

open Transcript

variable {log : List Entry} {w : Pending} {ps : List Bytes} {j : Nat}

theorem transcript_attestation {x : Attestation} (p : Bytes)
    (h : Accords reply s a 0 (x.entries ++ log)) :
    ∃ a' : α, Accords reply s a' 0 log ∧
      transcript reply s a (p :: ps) = read x.entries (judge reply s a' (p :: ps)) := by
  obtain ⟨_, a', hc, h⟩ := h
  cases hc with
  | attestationRequest hrequest =>
    refine ⟨a', h, ?_⟩
    simp only [transcript, hrequest]
    rfl

theorem transcript_greeting {x : Greeting} (p : Bytes)
    (h : Accords reply s a 0 (x.entries ++ log)) :
    ∃ (s' : σ) (a' : α), Accords reply s' a' 1 log ∧
      transcript reply s a (p :: ps) = read x.entries (conclude reply s' (p :: ps)) := by
  rw [Greeting.entries, List.append_assoc] at h
  obtain ⟨a₁, h, htranscript⟩ := transcript_attestation p h
  obtain ⟨hreply, _, _, hverify, _, _, hstart, h⟩ := h
  cases hverify with
  | verify hverify =>
    cases hstart with
    | start hstart =>
      refine ⟨_, _, h, ?_⟩
      rw [htranscript, Greeting.entries, read_append]
      simp only [judge, hreply, hverify, hstart]
      rfl

theorem transcript_opening {x : Opening} (p : Bytes)
    (h : Accords reply s a 0 (x.entries ++ log)) :
    ∃ (s' : σ) (a' : α), Accords reply s' a' 2 log ∧
      transcript reply s a (p :: ps) = read x.entries (exchangeAll reply s' 2 (p :: ps)) := by
  rw [Opening.entries, List.append_assoc] at h
  obtain ⟨s₁, a₁, h, htranscript⟩ := transcript_greeting p h
  obtain ⟨hreply, _, _, hfinish, h⟩ := h
  cases hfinish with
  | finish hfinish =>
    refine ⟨_, _, h, ?_⟩
    rw [htranscript, Opening.entries, read_append]
    simp only [conclude, hreply, hfinish]
    rfl

theorem exchangeAll_exchange {x : Exchange} (ps : List Bytes)
    (h : Accords reply s a j (x.entries ++ log)) :
    ∃ s' : σ, Accords reply s' a (j + 1) log ∧ exchangeAll reply s j (x.write.request :: ps) =
      read x.entries (exchangeAll reply s' (j + 1) ps) := by
  obtain ⟨_, _, hencrypt, hreply, _, _, hdecrypt, h⟩ := h
  cases hencrypt with
  | encrypt hencrypt =>
    cases hdecrypt with
    | decrypt hdecrypt =>
      refine ⟨_, h, ?_⟩
      simp only [exchangeAll, hencrypt, hreply, hdecrypt]
      rfl

theorem exchangeAll_served (served : List Exchange) (ps : List Bytes)
    (h : Accords reply s a j (served.flatMap Exchange.entries ++ log)) :
    ∃ s' : σ, Accords reply s' a (j + served.length) log ∧
      exchangeAll reply s j (served.map (·.write.request) ++ ps) =
        read (served.flatMap Exchange.entries) (exchangeAll reply s' (j + served.length) ps) := by
  induction served generalizing s j with
  | nil => exact ⟨s, h, rfl⟩
  | cons x served ih =>
    rw [List.flatMap_cons, List.append_assoc] at h
    obtain ⟨s₁, h, hexchange⟩ := exchangeAll_exchange (served.map (·.write.request) ++ ps) h
    obtain ⟨s₂, h, hserved⟩ := ih h
    have hcount : j + 1 + served.length = j + (x :: served).length := by
      rw [List.length_cons]
      omega
    rw [hcount] at h hserved
    refine ⟨s₂, h, ?_⟩
    rw [List.map_cons, List.cons_append, hexchange, hserved, List.flatMap_cons, read_append]

theorem transcript_traffic {o : Opening} {served : List Exchange} (ps : List Bytes)
    (h : Accords reply s a 0 (o.entries ++ served.flatMap Exchange.entries ++ log))
    (hps : served.map (·.write.request) ++ ps ≠ []) :
    ∃ (s' : σ) (a' : α), Accords reply s' a' (2 + served.length) log ∧
      transcript reply s a (served.map (·.write.request) ++ ps) =
        read (o.entries ++ served.flatMap Exchange.entries)
          (exchangeAll reply s' (2 + served.length) ps) := by
  obtain ⟨p, ps', hp⟩ := List.exists_cons_of_ne_nil hps
  rw [List.append_assoc] at h
  obtain ⟨s₁, a₁, h, hopening⟩ := transcript_opening p h
  obtain ⟨s₂, h, hserved⟩ := exchangeAll_served served ps h
  exact ⟨s₂, a₁, h, by rw [hp, hopening, ← hp, hserved, read_append]⟩

/-! ### How it breaks -/

variable {cause : List Entry} {code : ChannelError}

theorem judge_breaks {x : Attestation} (hb : Breaks (.attesting x) w cause code)
    (h : Accords reply s a 0 cause) : judge reply s a ps = read cause (failed code) := by
  cases hb with
  | reply _ hr =>
    obtain ⟨rfl, -⟩ := h
    unfold judge
    split
    · rename_i hreply
      simp [hreply, Driver.Expected, Story.state] at hr
    · rfl
  | refused =>
    obtain ⟨hreply, _, _, hverify, -⟩ := h
    cases hverify with
    | verify hverify =>
      simp only [judge, hreply, hverify]
      rfl
  | noHandshake =>
    obtain ⟨hreply, _, _, hverify, _, _, hstart, -⟩ := h
    cases hverify with
    | verify hverify =>
      cases hstart with
      | start hstart =>
        simp only [judge, hreply, hverify, hstart]
        rfl

theorem conclude_breaks {x : Greeting} (hb : Breaks (.greeting x) w cause code)
    (h : Accords reply s a 1 cause) : conclude reply s ps = read cause (failed code) := by
  cases hb with
  | reply _ hr =>
    obtain ⟨rfl, -⟩ := h
    unfold conclude
    split
    · rename_i hreply
      simp [hreply, Driver.Expected, Story.state] at hr
    · rfl
  | notFinished =>
    obtain ⟨hreply, _, _, hfinish, -⟩ := h
    cases hfinish with
    | finish hfinish =>
      simp only [conclude, hreply, hfinish]
      rfl

theorem exchangeAll_breaks {o : Opening} {served : List Exchange} {current : Option Sending}
    (hb : Breaks (.traffic o served current) w cause code)
    (h : Accords reply s a j ((current.map Sending.entries).getD [] ++ cause)) :
    exchangeAll reply s j (w.request :: ps) =
      read ((current.map Sending.entries).getD [] ++ cause) (failed code) := by
  cases hb with
  | notSealed =>
    obtain ⟨_, _, hencrypt, -⟩ := h
    cases hencrypt with
    | encrypt hencrypt =>
      simp only [exchangeAll, hencrypt]
      rfl
  | notOpened =>
    obtain ⟨_, _, hencrypt, hreply, _, _, hdecrypt, -⟩ := h
    cases hencrypt with
    | encrypt hencrypt =>
      cases hdecrypt with
      | decrypt hdecrypt =>
        simp only [exchangeAll, hencrypt, hreply, hdecrypt]
        rfl
  | reply hq hr hw =>
    cases current with
    | none => cases hq
    | some x =>
      obtain rfl : x.write = w := hw x rfl
      obtain ⟨_, _, hencrypt, rfl, -⟩ := h
      cases hencrypt with
      | encrypt hencrypt =>
        simp only [exchangeAll, hencrypt]
        split
        · rename_i hreply
          simp [hreply, Driver.Expected, Story.state] at hr
        · rfl

theorem transcript_breaks {story : Story} (hb : Breaks story w cause code)
    (h : Accords reply s a 0 (story.entries ++ cause)) :
    transcript reply s a (story.served.map (·.write.request) ++ w.request :: ps) =
      read (story.entries ++ cause) (failed code) := by
  cases story with
  | fresh =>
    cases hb with
    | reply hq => cases hq
    | noEvidence =>
      obtain ⟨_, _, hc, -⟩ := h
      cases hc with
      | attestationRequest hrequest =>
        simp only [Story.served, List.map_nil, List.nil_append, transcript, hrequest]
        rfl
  | attesting x =>
    obtain ⟨a₁, h, htranscript⟩ := transcript_attestation w.request h
    exact (htranscript.trans (congrArg _ (judge_breaks hb h))).trans (read_append ..).symm
  | greeting x =>
    obtain ⟨s₁, a₁, h, htranscript⟩ := transcript_greeting w.request h
    exact (htranscript.trans (congrArg _ (conclude_breaks hb h))).trans (read_append ..).symm
  | traffic o served current =>
    rw [Story.entries, List.append_assoc (o.entries ++ _)] at h ⊢
    obtain ⟨s₁, a₁, h, htranscript⟩ := transcript_traffic (w.request :: ps) h (by simp)
    rw [Story.served, htranscript, exchangeAll_breaks hb h, ← read_append]

theorem transcript_idle {story : Story} (hidle : story.outstanding = none)
    (hbegun : story.served = [] → story.state = .uninitialized)
    (h : Accords reply s a 0 story.entries) :
    transcript reply s a (story.served.map (·.write.request)) =
      read story.entries { state := story.state } := by
  cases story with
  | fresh => rfl
  | attesting | greeting => cases hidle
  | traffic o served current =>
    cases current with
    | some => cases hidle
    | none =>
      have hserved : served ≠ [] := fun hnil => nomatch hbegun hnil
      obtain ⟨s₁, a₁, -, htranscript⟩ := transcript_traffic [] h (by simpa using hserved)
      rw [List.append_nil] at htranscript
      rw [Story.served, htranscript, Story.entries, Option.map_none, Option.getD_none,
        List.append_nil]
      rfl

end

end SealedLink
