import Quietwire.Support.Octet
import Quietwire.Support.Transaction
import Quietwire.Support.Machine
import Quietwire.Support.Derivation
import Quietwire.Support.Eviction
import Quietwire.Support.Framing
import Quietwire.Support.Descent
import Quietwire.Crypto.Primitives
import Quietwire.Crypto.Hkdf
import Quietwire.Crypto.Hybrid
import Quietwire.Packet.Cell
import Quietwire.Packet.Codec
import Quietwire.Packet.Relaying
import Quietwire.X3dh.Handshake
import Quietwire.X3dh.Refusal
import Quietwire.X3dh.Transcript
import Quietwire.Ratchet.Wire
import Quietwire.Ratchet.Chain
import Quietwire.Ratchet.Skipped
import Quietwire.Ratchet.Session
import Quietwire.Ratchet.SessionSpec
import Quietwire.Ratchet.Conversation
import Quietwire.Ratchet.Atomicity
import Quietwire.Ratchet.Eras
import Quietwire.Ratchet.Transition
import Quietwire.Ratchet.Calls
import Quietwire.Ratchet.Lockstep
import Quietwire.Ratchet.LockstepSealing
import Quietwire.Ratchet.Origin
import Quietwire.Ratchet.LockstepOpening
import Quietwire.Ratchet.LockstepStepping
import Quietwire.Ratchet.Reachable
import Quietwire.Ratchet.Ahead
import Quietwire.Ratchet.Outstanding
import Quietwire.Ratchet.Deliverable
import Quietwire.Ratchet.Exchange
import Quietwire.Ratchet.Schedule
import Quietwire.Ratchet.Accounted
import Quietwire.Ratchet.Stocked
import Quietwire.Symbolic.Primitives
import Quietwire.Symbolic.Conversation
import Quietwire.Symbolic.Schedules
import Quietwire.Ratchet.Budget
import Quietwire.Symbolic.Dialogue
import Quietwire.Ratchet.Agreement
import Quietwire.Ratchet.Completeness
import Quietwire.Ratchet.KeyUse
import Quietwire.Ratchet.Continuation
import Quietwire.Ratchet.StoreBounds
import Quietwire.Ratchet.Pending
import Quietwire.Ratchet.StoreOrder
import Quietwire.Ratchet.Reordering
import Quietwire.Ratchet.Refusal
import Quietwire.Ratchet.Replay
import Quietwire.Ratchet.Verdict
import Quietwire.Ratchet.Outgoing
import Quietwire.Ratchet.Unblocking
import Quietwire.Ratchet.WorkBounds
import Quietwire.Reference.Party
import Quietwire.Reference.Bytes
import Quietwire.Reference.PartySpec
import Quietwire.Reference.Pair
import Quietwire.Reference.Simulation
import Quietwire.Reference.Refinement
import Quietwire.Secrecy.Attacker
import Quietwire.Secrecy.Knowledge
import Quietwire.Symbolic.Rounds
import Quietwire.Secrecy.ForwardSecrecy
import Quietwire.Secrecy.PostCompromise
import Quietwire.Symbolic.Hybrid
import Quietwire.X3dh.Agreement
import Quietwire.Reference.Handshake
import Quietwire.Reference.Vectors
import Quietwire.Secrecy.Handshake
import Quietwire.Network.Ladder
import Quietwire.Network.Sessions
import Quietwire.Network.Honest
import Quietwire.Network.Agreement
import Quietwire.Network.Confirmation
import Quietwire.Secrecy.Taint
import Quietwire.Network.Attacker
import Quietwire.AtRest.Hierarchy
import Quietwire.AtRest.Calls
import Quietwire.AtRest.Exposure
import Quietwire.Fuzz.Steady
import Quietwire.Fuzz.Sessions
import Quietwire.Fuzz.RatchetSession
import Quietwire.Fuzz.Tracking
import Quietwire.Fuzz.Stepping
import Quietwire.Symbolic.Tampering
import Quietwire.Fuzz.Conversing
import Quietwire.Fuzz.RatchetHeader
import Quietwire.Fuzz.Injecting
import Quietwire.Fuzz.Handshakes
import Quietwire.Memtest.FreedBlock
import Quietwire.Memtest.Scanner
import Quietwire.Memtest.Requests
import Quietwire.Memtest.Watches
import Quietwire.Settings.Json
import Quietwire.Settings.Dumps
import Quietwire.Settings.Index
import Quietwire.Settings.Drift
import Quietwire.Settings.Conformance
import Quietwire.Timing.Gate
