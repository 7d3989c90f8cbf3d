import IrcServer.Library.Transition
import IrcServer.Library.Simulation
import IrcServer.Library.Purge
import IrcServer.Library.Framing
import IrcServer.Library.Search
import IrcServer.Library.Ownership
import IrcServer.Library.Scan
import IrcServer.Model.Bytes
import IrcServer.Model.Parser
import IrcServer.Model.State
import IrcServer.Model.Queue
import IrcServer.Model.Commands
import IrcServer.Model.Modes
import IrcServer.Model.Loop
import IrcServer.Model.Service
import IrcServer.Model.Launch
import IrcServer.Model.Startup
import IrcServer.Spec.History
import IrcServer.Spec.Queue
import IrcServer.Spec.Effect
import IrcServer.Spec.Notice
import IrcServer.Spec.Network
import IrcServer.Spec.Runs
import IrcServer.Spec.Table
import IrcServer.Spec.Wire
import IrcServer.Proof.Dispatch
import IrcServer.Spec.Step
import IrcServer.Proof.Step
import IrcServer.Spec.Change
import IrcServer.Proof.Table
import IrcServer.Proof.Clients
import IrcServer.Proof.Authority
import IrcServer.Proof.Operated
import IrcServer.Proof.Addressing
import IrcServer.Proof.Outgoing
import IrcServer.Proof.History
import IrcServer.Proof.Verbs
import IrcServer.Proof.Registration
import IrcServer.Proof.Invitation
import IrcServer.Proof.Refusal
import IrcServer.Proof.Acceptance
import IrcServer.Proof.Delivery
import IrcServer.Proof.Buffers
import IrcServer.Proof.Chunks
import IrcServer.Proof.Normal
import IrcServer.Proof.Admission
import IrcServer.Proof.Nicknames
import IrcServer.Proof.Isolation
import IrcServer.Proof.Spoofing
import IrcServer.Proof.Launch
import IrcServer.Proof.Polling
import IrcServer.Proof.Stream
import IrcServer.Proof.Sockets
import IrcServer.Proof.Decoding
import IrcServer.Proof.Telling
import IrcServer.Proof.Listing
import IrcServer.Proof.Membership
import IrcServer.Proof.Views
import IrcServer.Proof.Departure
import IrcServer.Proof.Pass
import IrcServer.Proof.Settings
import IrcServer.Proof.Topics
import IrcServer.Proof.Locking
import IrcServer.Proof.Limits
import IrcServer.Proof.Restrictions
import IrcServer.Proof.Renaming
import IrcServer.Proof.Kicking
import IrcServer.Proof.NamesReply
import IrcServer.Proof.Abstraction
import IrcServer.Proof.Enactment
import IrcServer.Proof.Enrolment
import IrcServer.Proof.Refinement
import IrcServer.Proof.Replay
import IrcServer.Spec.Rename
import IrcServer.Spec.Locality
import IrcServer.Spec.Relay
import IrcServer.Proof.Relay
import IrcServer.Proof.Descriptors
import IrcServer.Proof.Locality
import IrcServer.Proof.Draining
import IrcServer.Proof.Replica
import IrcServer.Proof.Strangers
import IrcServer.Proof.Startup
import IrcServer.Spec.Secrets
import IrcServer.Proof.Secrets
import IrcServer.Proof.Lockout
import IrcServer.Library.Latch
import IrcServer.Spec.Handshake
import IrcServer.Proof.Handshake
