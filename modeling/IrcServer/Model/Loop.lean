import IrcServer.Model.Modes

/-! # The event loop

Dispatching a line, the four operations of `launch` on one poll entry, and the
step function over their outcomes. The results of the system calls are arguments.
As in the source, `i` is a position of the poll table, and entry `i` belongs to
`clients[i - 1]`.
-/

namespace IrcServer

/-! ## `dispatchCommand` -/

def dispatchCommand (client : Nat) (line : Bytes) (server : Machine) : Machine :=
  let message := Parser.parse line
  let command := message.cmd.map toUpper
  if command = text "PASS" then passHundler client message server
  else if command = text "NICK" then nickHundler client message server
  else if command = text "USER" then userHandler client message server
  else if command = text "JOIN" then joinHandler client message server
  else if command = text "PRIVMSG" then privmsgHandler client message server
  else if command = text "TOPIC" then topicHandler client message server
  else if command = text "KICK" then kickHandler client message server
  else if command = text "INVITE" then inviteHandler client message server
  else if command = text "MODE" then modes client message server
  else if !command.isEmpty then
    server.sendingQueue client (replyCmd 421 (server.clientAt client) command)
  else server

/-- One line handed to `dispatchCommand`, noted in the history. -/
def dispatchLine (client : Nat) (line : Bytes) (server : Machine) : Machine :=
  dispatchCommand client line (server.record (.line (server.clientAt client).fd line))

/-! ## Connections -/

/-- `connect()`: `accepted` and `fcntl` are what the two calls return. -/
def connect (accepted fcntl : Int) (server : Machine) : Machine :=
  if accepted = -1 then server
  else if fcntl = -1 then (server.record (.accepted accepted)).record (.closed accepted)
  else
    { server with
      fds := server.fds ++ [⟨accepted, POLLIN, 0⟩]
      clients := server.clients ++ [{ fd := accepted }]
      history := server.history ++ [.accepted accepted] }

/-- The loop of `leave_chanels` from index `i` on. It erases from the vector it walks over, and
then does not advance. `fuel` bounds the number of rounds. -/
def leaveLoop (fd : Int) : Nat → Nat → List Channel → List Channel
  | 0, _, channels => channels
  | fuel + 1, i, channels =>
      if h : i < channels.length then
        let channel := ((channels[i].removeMember fd).removeInvite fd).removeOperator fd
        let channels := channels.set i channel
        if channel.isEmpty then leaveLoop fd fuel i (channels.eraseIdx i)
        else leaveLoop fd fuel (i + 1) channels
      else channels

def leaveChanels (fd : Int) (channels : List Channel) : List Channel :=
  leaveLoop fd channels.length 0 channels

def disconnect (i : Nat) (server : Machine) : Machine :=
  let fdClient := (server.fds.getD i ⟨-1, 0, 0⟩).fd
  { server with
    channels := leaveChanels fdClient server.channels
    fds := server.fds.eraseIdx i
    clients := server.clients.eraseIdx (i - 1)
    history := server.history ++ [.closed fdClient] }

/-! ## Input -/

/-- `if (!msg.empty() && msg[msg.size() - 1] == '\r') msg.erase(msg.size() - 1);` -/
def dropCR (msg : Bytes) : Bytes :=
  if msg.getLast? = some CR then msg.dropLast else msg

/-- The `while` of `extract_msg`. Every round takes at least one byte out of the receive buffer,
so its length bounds the number of rounds. -/
def extractLoop (i : Nat) : Nat → Machine → Machine
  | 0, server => server
  | fuel + 1, server =>
      let client := server.clientAt (i - 1)
      match client.buffer.findIdx? (· == LF) with
      | none => server
      | some pos =>
          let msg := client.buffer.take pos
          let server := server.setClient (i - 1) { client with buffer := client.buffer.drop (pos + 1) }
          extractLoop i fuel (dispatchLine (i - 1) (dropCR msg) server)

def extractMsg (i : Nat) (server : Machine) : Machine :=
  extractLoop i (server.clientAt (i - 1)).buffer.length server

/-- `errno` after a failed call: `EAGAIN` or `EWOULDBLOCK`, or anything else. -/
inductive Errno where
  | wouldBlock
  | other
  deriving Repr, DecidableEq

/-- `handle_user(i)`, given what `recv` returns; the result says whether the client is gone. -/
def handleUser (i : Nat) (recv : Except Errno Bytes) (server : Machine) : Bool × Machine :=
  match recv with
  | .ok [] => (true, disconnect i server)
  | .ok data =>
      let client := server.clientAt (i - 1)
      (false, extractMsg i (server.setClient (i - 1) (client.appendBuff data)))
  | .error .wouldBlock => (false, server)
  | .error .other => (true, disconnect i server)

/-! ## Output -/

def clearPollout (i : Nat) (server : Machine) : Machine :=
  { server with fds := server.fds.modify i fun p => { p with events := p.events &&& ~~~POLLOUT } }

/-- `handle_send(i)`, given what `send` returns for the whole send buffer. -/
def handleSend (i : Nat) (send : Except Errno Nat) (server : Machine) : Bool × Machine :=
  let client := server.clientAt (i - 1)
  if !client.sendData then (false, clearPollout i server)
  else
    match send with
    | .ok 0 => (true, disconnect i server)
    | .ok bytes =>
        let fdClient := (server.fds.getD i ⟨-1, 0, 0⟩).fd
        let server := server.record (.sent fdClient (client.sendBuffer.take bytes))
        let client := { client with sendBuffer := client.sendBuffer.drop bytes }
        let server := server.setClient (i - 1) client
        (false, if !client.sendData then clearPollout i server else server)
    | .error .wouldBlock => (false, server)
    | .error .other => (true, disconnect i server)

/-! ## Steps -/

/-- What can happen to the server between two looks at its state. `client` is a position of the
client table. -/
inductive Event where
  /-- `connect()` with the results of `accept` and `fcntl`. -/
  | connect (accepted fcntl : Int)
  /-- The receive buffer of a client is appended to, or a line is cut out of it. -/
  | buffer (client : Nat) (contents : Bytes)
  /-- One line of a client is dispatched. -/
  | command (client : Nat) (line : Bytes)
  /-- `handle_send` with the result of `send`, when the client stays. -/
  | flush (client : Nat) (send : Except Errno Nat)
  /-- A client is disconnected, for whatever cause. -/
  | disconnect (client : Nat)
  deriving DecidableEq

/-- What is assumed of `send`: it takes no more than it was offered. -/
def sendable (client : Client) : Except Errno Nat → Bool
  | .ok bytes => decide (bytes ≤ client.sendBuffer.length)
  | .error _ => true

/-- What is assumed of `accept`: a failure, or a non-negative `int` that is not open. -/
def acceptable (server : Machine) (accepted : Int) : Bool :=
  decide (accepted = -1) ||
    (decide (0 ≤ accepted) && decide (accepted < 2 ^ 31) &&
      !(server.fds.map (·.fd)).contains accepted)

/-- One step; `none` when the event cannot happen in this state. The client is in the table, and
a dispatched line, being cut at line feeds, has none in it. -/
def step (server : Machine) : Event → Option Machine
  | .connect accepted fcntl =>
      if acceptable server accepted then some (connect accepted fcntl server) else none
  | .buffer client contents =>
      if client < server.clients.length then
        some (server.setClient client { server.clientAt client with buffer := contents })
      else none
  | .command client line =>
      if client < server.clients.length ∧ LF ∉ line then some (dispatchLine client line server)
      else none
  | .flush client send =>
      if client < server.clients.length ∧ sendable (server.clientAt client) send ∧
          (handleSend (client + 1) send server).1 = false then
        some (handleSend (client + 1) send server).2
      else none
  | .disconnect client =>
      if client < server.clients.length then some (disconnect (client + 1) server) else none

end IrcServer
