import IrcServer.Library.Scan
import IrcServer.Model.Service

/-! # `Server::launch`, `Server::shutdown` and the destructor

The outer loop polls, and the inner loop goes through the poll table while the calls it
makes add and remove entries. A signal, or a failed `poll`, ends the outer loop; then
the destructor runs. A step of the program is one return of `poll`, one turn of the
inner loop, or one of the ways out.
-/

namespace IrcServer

/-! ## One turn of the inner loop -/

/-- What the system calls of one turn return; the results of calls that are not made are not
used. -/
structure Results where
  accepted : Int
  fcntl : Int
  recv : Except Errno Bytes
  send : Except Errno Nat
  deriving DecidableEq

def hasAny (bits flags : BitVec 16) : Bool := bits &&& flags != 0

def revents (i : Nat) (server : Machine) : BitVec 16 := (server.fds.getD i ⟨-1, 0, 0⟩).revents

/-- The first `if` for a client: `handle_user(i)`, when there is input. -/
def receive (results : Results) (i : Nat) (server : Machine) : Bool × Machine :=
  if hasAny (revents i server) POLLIN then handleUser i results.recv server else (false, server)

/-- The rest of the turn: an error on the socket, or `handle_send(i)`. The index to go on with,
and the server. -/
def answer (results : Results) (i : Nat) (server : Machine) : Nat × Machine :=
  if hasAny (revents i server) (POLLERR ||| POLLHUP ||| POLLNVAL) then (i, disconnect i server)
  else if hasAny (revents i server) POLLOUT then
    let (gone, server) := handleSend i results.send server
    (if gone then i else i + 1, server)
  else (i + 1, server)

/-- The body of the inner loop for entry `i`: the index to go on with, and the server. -/
def turn (results : Results) (i : Nat) (server : Machine) : Nat × Machine :=
  if revents i server = 0 then (i + 1, server)
  else if (server.fds.getD i ⟨-1, 0, 0⟩).fd = server.fd then
    (i + 1, if hasAny (revents i server) POLLIN then connect results.accepted results.fcntl server
      else server)
  else
    let (gone, server) := receive results i server
    if gone then (i, server) else answer results i server

/-- The inner loop: the turns it makes and the server after it. `results k` is what the calls of
turn `k` return. -/
def scan (results : Nat → Results) (fuel : Nat) (server : Machine) :
    Option (List (Scan.Turn Machine Results) × Machine) :=
  Scan.loop (·.fds.length) turn fuel results 0 server

def admissible (results : Results) (i : Nat) (server : Machine) : Bool :=
  acceptable server results.accepted &&
    sendable ((receive results i server).2.clientAt (i - 1)) results.send

/-- `poll` writes `revents`, and nothing else. -/
def setRevents (revents : List (BitVec 16)) (server : Machine) : Machine :=
  { server with fds := server.fds.mapIdx fun i p => { p with revents := revents.getD i 0 } }

/-! ## The ways out -/

def shutdownMessage : Bytes := text " -_- Server shutting down" ++ crlf

/-- The first loop of `shutdown`, over the entries from index 1 on. The result of `send` is not
looked at; `taken` says how many bytes it takes for a descriptor. -/
def farewell (taken : Int → Nat) (server : Machine) : Machine :=
  (server.fds.drop 1).foldl (fun server p =>
    (server.record (.sent p.fd (shutdownMessage.take (taken p.fd)))).record (.closed p.fd)) server

/-- `while (this->fds.size() > 1) disconnect(1);`, which makes the table shorter each time. -/
def disconnectAll : Nat → Machine → Machine
  | 0, server => server
  | fuel + 1, server =>
      if 1 < server.fds.length then disconnectAll fuel (disconnect 1 server) else server

def shutdown (taken : Int → Nat) (server : Machine) : Machine :=
  let server := farewell taken server
  let server := disconnectAll server.fds.length server
  let server := { server with channels := [], clients := [], fds := [] }
  if server.fd = -1 then server else { server.record (.closed server.fd) with fd := -1 }

/-- `~Server()`. -/
def destroy (server : Machine) : Machine :=
  let server := (server.fds.drop 1).foldl (fun server p => server.record (.closed p.fd)) server
  if server.fd = -1 then server else server.record (.closed server.fd)

/-! ## The program -/

inductive Phase where
  /-- At the head of the outer loop. -/
  | polling
  /-- At the head of the inner loop. -/
  | scanning (i : Nat)
  /-- `launch` has returned, or has thrown. -/
  | left
  /-- The destructor has run. -/
  | destroyed
  deriving Repr, DecidableEq

structure Process where
  server : Machine
  phase : Phase

def Process.start (fd : Int) (passwd : Bytes) : Process := ⟨Machine.start fd passwd, .polling⟩

def Process.Running (p : Process) : Prop := p.phase = .polling ∨ ∃ i, p.phase = .scanning i

inductive Tick where
  /-- `poll` returns with these `revents`. -/
  | poll (revents : List (BitVec 16))
  /-- `poll` fails with `EINTR`. -/
  | interrupted
  /-- `poll` fails otherwise, and `launch` throws. -/
  | failed
  /-- The inner loop makes a turn, or ends. -/
  | turn (results : Results)
  /-- The signal has come, and `launch` returns after `shutdown()`. -/
  | shutdown (taken : Int → Nat)
  | destructor

def advance (p : Process) : Tick → Option Process
  | .poll revents =>
      if p.phase = .polling then some ⟨setRevents revents p.server, .scanning 0⟩ else none
  | .interrupted => if p.phase = .polling then some p else none
  | .failed => if p.phase = .polling then some ⟨p.server, .left⟩ else none
  | .turn results =>
      match p.phase with
      | .scanning i =>
          if i < p.server.fds.length then
            if admissible results i p.server then
              let (i, server) := turn results i p.server
              some ⟨server, .scanning i⟩
            else none
          else some ⟨p.server, .polling⟩
      | _ => none
  | .shutdown taken =>
      if p.phase = .polling then some ⟨shutdown taken p.server, .left⟩ else none
  | .destructor => if p.phase = .left then some ⟨destroy p.server, .destroyed⟩ else none

/-! ## The operations in any order -/

/-- `poll` and the four calls of the inner loop. -/
inductive Operation where
  | poll (revents : List (BitVec 16))
  | call (call : Call)

def operate (server : Machine) : Operation → Option Machine
  | .poll revents => some (setRevents revents server)
  | .call call => serve server call

def Launched (s : Machine) : Prop :=
  ∃ fd passwd operations, Transition.run operate (Machine.start fd passwd) operations = some s

end IrcServer
