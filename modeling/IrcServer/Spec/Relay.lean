import IrcServer.Library.Framing
import IrcServer.Library.Simulation
import IrcServer.Model.Launch
import IrcServer.Spec.Network

/-! # The relay

The server as its sockets see it: connections open and close, bytes come in, cut
anyhow, and bytes go out. The relay is the network together with the line that each
connection has begun; `Process.inputs` says what a run of the program gives it.
-/

namespace IrcServer

open Framing Transition

inductive Input (ι : Type*) where
  | connect (x : ι)
  | bytes (x : ι) (data : Bytes)
  | close (x : ι)
  deriving DecidableEq

structure Relay (ι : Type*) where
  /-- The network, and what everybody has been told. -/
  state : Network ι × (ι → List Notice)
  /-- What a connection has sent since its last line feed. -/
  pending : ι → Bytes

namespace Relay

variable {ι : Type*}

def start (password : Bytes) : Relay ι := ⟨(Network.start password, fun _ => []), fun _ => []⟩

/-- What an input is to the network: bytes count when a line feed ends their line. -/
def actions (relay : Relay ι) : Input ι → List (Action ι)
  | .connect x => [.connect x]
  | .bytes x data =>
      (split LF (relay.pending x ++ data)).1.map fun line => .line x (Parser.parse (dropCR line))
  | .close x => [.close x]

def spoken (relay : Relay ι) (x : ι) : Bytes := ((relay.state.2 x).map Notice.render).flatten

variable [DecidableEq ι]

def begun (relay : Relay ι) : Input ι → ι → Bytes
  | .connect x => Function.update relay.pending x []
  | .bytes x data => Function.update relay.pending x (split LF (relay.pending x ++ data)).2
  | .close _ => relay.pending

noncomputable def take (relay : Relay ι) (input : Input ι) : Relay ι :=
  ⟨(relay.actions input).foldl Network.deliver relay.state, relay.begun input⟩

end Relay

/-! ## What the program lets in -/

def Call.inputs (server : Machine) : Call → List (Input Int)
  | .connect accepted fcntl =>
      if accepted = -1 then []
      else if fcntl = -1 then [.connect accepted, .close accepted]
      else [.connect accepted]
  | .handleUser client recv =>
      match recv with
      | .ok [] => [.close (server.clientAt client).fd]
      | .ok data => [.bytes (server.clientAt client).fd data]
      | .error .wouldBlock => []
      | .error .other => [.close (server.clientAt client).fd]
  | .handleSend client send =>
      if (IrcServer.handleSend (client + 1) send server).1 then
        [.close (server.clientAt client).fd]
      else []
  | .disconnect client => [.close (server.clientAt client).fd]

def turnCalls (results : Results) (i : Nat) (server : Machine) : List Call :=
  if revents i server = 0 then []
  else if (server.fds.getD i ⟨-1, 0, 0⟩).fd = server.fd then
    if hasAny (revents i server) POLLIN then [.connect results.accepted results.fcntl] else []
  else
    let (gone, received) := receive results i server
    (if hasAny (revents i server) POLLIN then [.handleUser (i - 1) results.recv] else []) ++
      if gone then []
      else if hasAny (revents i received) (POLLERR ||| POLLHUP ||| POLLNVAL) then [.disconnect (i - 1)]
      else if hasAny (revents i received) POLLOUT then [.handleSend (i - 1) results.send]
      else []

def Tick.calls (p : Process) : Tick → List Call
  | .turn results =>
      match p.phase with
      | .scanning i => if i < p.server.fds.length then turnCalls results i p.server else []
      | _ => []
  | _ => []

def Tick.inputs (p : Process) (tick : Tick) : List (Input Int) :=
  trace serve Call.inputs p.server (tick.calls p)

def Process.inputs : Process → List Tick → List (Input Int) := trace advance Tick.inputs

end IrcServer
