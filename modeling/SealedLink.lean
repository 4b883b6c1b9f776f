import SealedLink.Channel.Scripted
import SealedLink.Loopback
import SealedLink.Noise.Standard
import SealedLink.Stream.Scripted
import SealedLink.Proofs.Channel.Telling
import SealedLink.Proofs.Channel.Calls
import SealedLink.Proofs.Channel.Run
import SealedLink.Proofs.Channel.Live
import SealedLink.Proofs.Channel.Discipline
import SealedLink.Proofs.Channel.Outcomes
import SealedLink.Proofs.Channel.Phases
import SealedLink.Proofs.Channel.Teardown
import SealedLink.Proofs.Channel.Protocol
import SealedLink.Proofs.Channel.Transcript
import SealedLink.Proofs.Channel.Schedules
import SealedLink.Proofs.Traffic.Client
import SealedLink.Proofs.Service.SessionStep
import SealedLink.Proofs.Traffic.Service
import SealedLink.Proofs.Traffic.Exchanges
import SealedLink.Proofs.Traffic.Integrity
import SealedLink.Proofs.Stream.Follows
import SealedLink.Proofs.Stream.Metered
import SealedLink.Proofs.Except
import SealedLink.Proofs.Message.Field
import SealedLink.Proofs.Message.Form
import SealedLink.Proofs.Noise.Agreement
import SealedLink.Proofs.Stack.Errand
import SealedLink.Proofs.Stack.Line
import SealedLink.Proofs.Stack.Engaged
import SealedLink.Proofs.Stack.Run
import SealedLink.Proofs.Stack.Sound
import SealedLink.Proofs.Noise.Standard
import SealedLink.Proofs.Stack.Delivery
import SealedLink.Proofs.Stack.Schedule
import SealedLink.Proofs.Traffic.Relay
import SealedLink.Proofs.Crypto.P256
import SealedLink.Proofs.Stack.Rounds
import SealedLink.Proofs.Channel.Potential
import SealedLink.Proofs.Channel.Task
import SealedLink.Proofs.Channel.TeardownOrder
import SealedLink.Proofs.Channel.Establishment
import SealedLink.Proofs.Noise.ClientSession
import SealedLink.Proofs.Noise.Handshake
import SealedLink.Proofs.Service.Protocol
import SealedLink.Proofs.Traffic.Duplex
import SealedLink.Proofs.Message.Canonical
import SealedLink.Proofs.Traffic.Nonces
import SealedLink.Proofs.Stream.Yields
import SealedLink.Proofs.Stream.Wire
import SealedLink.Proofs.Stream.Framing
import SealedLink.Proofs.Link.Steps
import SealedLink.Proofs.Link.Exchange
import SealedLink.Proofs.Link.Serves
import SealedLink.Proofs.Link.Turns
import SealedLink.Proofs.Link.Answers
import SealedLink.Proofs.Message.Refusals
import SealedLink.Proofs.Service.Serving
import SealedLink.Proofs.Channel.Visible
import SealedLink.Proofs.Channel.Transparent
import SealedLink.Proofs.Channel.Workload
import SealedLink.Proofs.Message.OneForm
import SealedLink.Proofs.Noise.Lockstep
import SealedLink.Proofs.Noise.PeerKeys
import SealedLink.Proofs.Noise.Nonces
