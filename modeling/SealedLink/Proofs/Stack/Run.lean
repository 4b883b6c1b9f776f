import SealedLink.Proofs.Stack.Engaged

/-!
# Runs of a channel and a service

A run is a list of acts in any order: writes, work with futures and handles, events taken by the
driver, and either side of the line going on with any allowances. `Sound` holds all through it.
-/

namespace SealedLink

/-! ## Links keep account of their callbacks -/

namespace Link

def held (l : Link) : List UInt64 :=
  (match l.state with
    | .busy q _ _ => [q]
    | _ => []) ++ l.queue.map (·.1)

theorem held_send (l : Link) (q : UInt64) (request : Request) :
    (l.send q request).2.held = l.held ++ if (l.send q request).1.isNone then [q] else [] := by
  unfold send
  split
  · simp
  · split
    · simp
    · split
      · simp
      · simp [held]

end Link

instance : Accounts Link where
  held := Link.held
  held_send := Link.held_send

/-! ## The transport of a channel -/

namespace Channel

variable {τ σ α : Type}

theorem keeps_performAll [Transport τ] (actions : List Action) (c : Channel τ σ α) :
    (actions.foldl perform c).transport =
        (sendings actions).foldl (fun t x => (Transport.send t x.1 x.2).2) c.transport ∧
      (actions.foldl perform c).handles = c.handles := by
  induction actions generalizing c with
  | nil => exact ⟨rfl, rfl⟩
  | cons a actions ih =>
    obtain ⟨htransport, hhandles⟩ := ih (c.perform a)
    rw [List.foldl_cons, htransport, hhandles]
    cases a with
    | call => exact ⟨rfl, rfl⟩
    | publish => exact ⟨rfl, rfl⟩
    | resolve w outcome =>
      have hkeeps := keeps_tolerates.resolve c w outcome
      rw [perform, hkeeps.transport, hkeeps.handles]
      exact ⟨rfl, rfl⟩
    | send q request =>
      have hstep : Keeps { c with transport := (Transport.send c.transport q request).2 }
          (c.perform (.send q request)) := by
        simp only [perform]
        split
        · exact ⟨(keeps_post ..).transport, (keeps_post ..).handles⟩
        · exact ⟨rfl, rfl⟩
      rw [hstep.transport, hstep.handles]
      exact ⟨rfl, rfl⟩

end Channel

section

variable {S : CipherSuite} {α : Type} {c : Channel Link (ClientSession S) α}

theorem answered_eq (h : c.accepting = true) (link : Link)
    (answers : List (UInt64 × TransportResult)) :
    answered c link answers = { c with
      transport := link
      events := c.events ++ answers.map fun answer => .reply answer.1 answer.2 } := by
  unfold answered
  induction answers using List.reverseRecOn with
  | nil => simp
  | append_singleton answers answer ih =>
    rw [List.foldl_concat, ih]
    simp [Channel.deliver, Channel.post, h]

theorem effect_answered (h : c.accepting = true) {link : Link}
    {answers : List (UInt64 × TransportResult)}
    (hheld : link.held ++ answers.map (·.1) = c.transport.held) :
    Channel.Effect c (answered c link answers) [] := by
  rw [answered_eq h]
  have hreplies : (answers.map fun answer => Event.reply answer.1 answer.2).filterMap Event.reply? =
      answers.map (·.1) := by
    rw [List.filterMap_map]
    exact congrFun List.filterMap_eq_map answers
  have hwrites : (answers.map fun answer => Event.reply answer.1 answer.2).filterMap Event.write? =
      [] := by
    rw [List.filterMap_map, List.filterMap_eq_nil_iff]
    exact fun _ _ => rfl
  refine ⟨rfl, rfl, List.prefix_append .., by simp [Channel.course, Channel.history],
    ⟨[], by simp [Channel.submitted, Channel.history], ?_, rfl, rfl⟩, ?_, rfl⟩
  · simp [Channel.waiting, List.filterMap_append, hwrites]
  · simp only [Channel.due, List.filterMap_append, hreplies, sequences_nil, List.append_nil]
    rw [show Accounts.held c.transport = c.transport.held from rfl, ← hheld]
    simp only [Accounts.held, List.append_assoc]
    exact List.perm_append_comm.append_left _

end

/-! ## Acts -/

namespace Loopback

inductive Act where
  | write (request : Bytes) (plan : Plan)
  | writeFuture (request : Bytes)
  | poll (number : Nat)
  | dropFuture (number : Nat)
  | cloneHandle
  | dropHandle
  | process
  /-- The link goes on, with an allowance for each call to the stream. -/
  | carry (allowances : List Nat)
  /-- The service goes on, with an allowance for each call to the stream. -/
  | serve (allowances : List Nat)
  | wait (duration : Nat)

variable {S : CipherSuite} {α η : Type} [Attester α] [Application η]

def act (l : Loopback S α η) : Act → Loopback S α η
  | .write request plan => { l with channel := l.channel.write request plan }
  | .writeFuture request => { l with channel := l.channel.writeFuture request }
  | .poll number => { l with channel := (l.channel.poll number).2 }
  | .dropFuture number => { l with channel := (l.channel.dropFuture number).2 }
  | .cloneHandle => { l with channel := l.channel.cloneHandle }
  | .dropHandle => { l with channel := l.channel.dropHandle }
  | .process => { l with channel := l.channel.processNext.getD l.channel }
  | .carry allowances => l.carry allowances
  | .serve allowances => l.serve allowances
  | .wait duration => { l with now := l.now + duration }

/-- No deadline passes in an act. -/
def Timely (l : Loopback S α η) : Act → Prop
  | .carry allowances => l.InTime allowances
  | _ => True

end Loopback

end SealedLink
