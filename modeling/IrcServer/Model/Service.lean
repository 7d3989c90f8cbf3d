import IrcServer.Library.Transition
import IrcServer.Model.Loop

/-! # The calls of the event loop

`launch` handles a poll entry by one of four calls. Seen from outside, the server is
the transition system of these calls; inside a call that receives bytes, any number of
lines may be dispatched.
-/

namespace IrcServer

/-- A call of `launch` for one poll entry. `client` is a position of the client table. -/
inductive Call where
  | connect (accepted fcntl : Int)
  | handleUser (client : Nat) (recv : Except Errno Bytes)
  | handleSend (client : Nat) (send : Except Errno Nat)
  /-- `POLLERR`, `POLLHUP` or `POLLNVAL`. -/
  | disconnect (client : Nat)
  deriving DecidableEq

/-- The state after a call; `none` when the call cannot happen in this state. -/
def serve (server : Machine) : Call → Option Machine
  | .connect accepted fcntl =>
      if acceptable server accepted then some (connect accepted fcntl server) else none
  | .handleUser client recv =>
      if client < server.clients.length then some (handleUser (client + 1) recv server).2 else none
  | .handleSend client send =>
      if client < server.clients.length ∧ sendable (server.clientAt client) send then
        some (handleSend (client + 1) send server).2
      else none
  | .disconnect client =>
      if client < server.clients.length then some (disconnect (client + 1) server) else none

def Served (s : Machine) : Prop :=
  ∃ fd passwd calls, Transition.run serve (Machine.start fd passwd) calls = some s

end IrcServer
