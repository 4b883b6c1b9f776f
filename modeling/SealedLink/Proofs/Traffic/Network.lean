import SealedLink.Proofs.Channel.Live
import SealedLink.Proofs.Traffic.Client
import SealedLink.Proofs.Traffic.Service

/-!
# Networks

A client and a service with a network between them that does what it likes.
-/

namespace SealedLink

variable {S : CipherSuite} {τ α η : Type}

/-- A client and a service. The network between them is the list of what happens to them. -/
structure Network (S : CipherSuite) (τ α η : Type) where
  origin : ClientSession S
  client : Channel (Held τ) (ClientSession S) α
  service : Visit S η

namespace Network

inductive Act where
  /-- Anything that happens to the client, answers of any content included. -/
  | client (m : Move)
  | deliver (r : Request)

def fresh (t : τ) (entropy : Entropy) (attester : α) (evidence : Bytes) (application : η)
    (serviceEntropy : Entropy) : Network S τ α η where
  origin := { entropy := entropy }
  client := .new ⟨t, []⟩ { entropy := entropy } attester
  service :=
    { session :=
        { evidence := evidence, application := ⟨application, []⟩, entropy := serviceEntropy } }

def notes (n : Network S τ α η) : Notes S := .of n.origin (calls n.client.course)

/-- The keys are agreed on, and whatever was opened was sealed under the same key and nonce. -/
structure Trusted (keys : TrafficKeys) (n : Network S τ α η) : Prop where
  client : ∀ k, n.notes.keys = some k → k = keys
  service : ∀ k, n.service.keys = some k → k = keys
  authentic : ∀ u ∈ n.notes.opened ++ n.service.opened, u ∈ n.notes.sealed ++ n.service.sealed

variable [Transport τ] [Attester α] [Application η]

def act (n : Network S τ α η) : Act → Network S τ α η
  | .client m => { n with client := n.client.move m }
  | .deliver r => { n with service := n.service.deliver r }

def after (n : Network S τ α η) (acts : List Act) : Network S τ α η := acts.foldl act n

theorem after_append (n : Network S τ α η) (before rest : List Act) :
    n.after (before ++ rest) = (n.after before).after rest := List.foldl_append

end Network

end SealedLink
