import IrcServer.Library.Ownership
import IrcServer.Model.Launch

/-! # `main` and the constructor

The constructor opens the listening socket, and closes it again before it throws. An
object whose constructor has thrown has no destructor run. `main` turns every exception
into a message and the exit status 1.
-/

namespace IrcServer

open Ownership

/-! ## The constructor -/

structure Syscalls where
  socket : Int
  setsockopt : Int
  fcntl : Int
  bind : Int
  listen : Int
  deriving Repr, DecidableEq

/-- The members that the constructor writes, the `sin_port` that has been given to `bind`, and the
descriptors opened and closed so far. -/
structure Opening where
  fd : Int := -1
  port : Int
  passwd : Bytes
  fds : List PollFd := []
  sinPort : Option Bytes := none
  uses : List (Use Int) := []

/-- A thrown exception is its `what()`; only the descriptors are left of the object. -/
abbrev Attempt := Except (Bytes × List (Use Int)) Opening

/-- `close(this->fd); this->fd = -1; throw std::runtime_error(what);` -/
def giveUp (what : String) (server : Opening) : Attempt :=
  .error (text what, server.uses ++ [.release server.fd])

def openSocket (calls : Syscalls) (server : Opening) : Attempt :=
  let server := { server with fd := calls.socket }
  if server.fd = -1 then .error (text "failed to open socket!", server.uses)
  else
    let server := { server with uses := server.uses ++ [.acquire server.fd] }
    if calls.setsockopt = -1 then giveUp "socket option failed!" server
    else if calls.fcntl = -1 then giveUp "fcntl failed!" server
    else .ok server

/-- The 16 low bits, the high byte first. -/
def htons (port : Int) : Bytes :=
  [UInt8.ofNat (port.toNat / 256), UInt8.ofNat port.toNat]

def binding (calls : Syscalls) (server : Opening) : Attempt :=
  let server := { server with sinPort := some (htons server.port) }
  if calls.bind = -1 then giveUp "binding failed!" server else .ok server

def listening (calls : Syscalls) (server : Opening) : Attempt :=
  if calls.listen = -1 then giveUp "listening failed!" server else .ok server

def pollSetup (server : Opening) : Opening :=
  { server with fds := server.fds ++ [⟨server.fd, POLLIN, 0⟩] }

def construct (calls : Syscalls) (port : Int) (passwd : Bytes) : Attempt :=
  let server : Opening := { port := port, passwd := passwd }
  if server.port < 1 ∨ server.port > 65535 then .error (text "invalid port!", server.uses)
  else do
    let server ← openSocket calls server
    let server ← binding calls server
    let server ← listening calls server
    return pollSetup server

def Opening.machine (server : Opening) : Machine where
  fd := server.fd
  passwd := server.passwd
  fds := server.fds
  clients := []
  channels := []
  history := []

/-! ## `main` -/

/-- `poll` has failed, and `launch` has thrown. -/
def Tick.throws : Tick → Bool
  | .failed => true
  | _ => false

/-- How the program ends: the exit status, what `main` has written to `std::cerr`, the descriptors of
the constructor, and what `launch` and the destructor have done. -/
structure Exit where
  status : Nat
  message : Bytes
  startup : List (Use Int)
  history : List Entry

/-- `ticks` is what happens from the call of `launch` to the end of the destructor. -/
def main (av : List Bytes) (calls : Syscalls) (ticks : List Tick) : Option Exit :=
  match av with
  | [_, port, passwd] =>
      match construct calls (atoi port) passwd with
      | .error (what, uses) => some ⟨1, text "Error: " ++ what ++ [LF], uses, []⟩
      | .ok server =>
          (Transition.run advance ⟨server.machine, .polling⟩ ticks).bind fun p =>
            if p.phase = .destroyed then
              if ticks.any Tick.throws then
                some ⟨1, text "Error: poll failed!" ++ [LF], server.uses, p.server.history⟩
              else some ⟨0, [], server.uses, p.server.history⟩
            else none
  | _ => some ⟨1, text "Please specify port && passwd" ++ [LF], [], []⟩

end IrcServer
