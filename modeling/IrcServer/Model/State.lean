import IrcServer.Library.Search
import IrcServer.Model.Bytes

/-! # Clients, channels and the server

The records follow the classes of the source. `Machine` adds one history variable
to the server: what the program has accepted, dispatched, queued, sent and closed so
far. No function of the program reads it.
-/

namespace IrcServer

/-! ## `Client` -/

structure Client where
  fd : Int
  nickname : Bytes := []
  username : Bytes := []
  passRecived : Bool := false
  nicknameReceived : Bool := false
  registered : Bool := false
  buffer : Bytes := []
  userRecived : Bool := false
  sendBuffer : Bytes := []
  deriving Repr, DecidableEq

namespace Client

def setNickname (c : Client) (nickname : Bytes) : Client := { c with nickname := nickname }

def setUsername (c : Client) (username : Bytes) : Client := { c with username := username }

def setRegistered (c : Client) (registered : Bool) : Client := { c with registered := registered }

def setPassIsRecived (c : Client) (registered : Bool) : Client := { c with passRecived := registered }

def setNicknameIsReceived (c : Client) (received : Bool) : Client :=
  { c with nicknameReceived := received }

def setUserIsRecived (c : Client) (received : Bool) : Client := { c with userRecived := received }

def appendBuff (c : Client) (data : Bytes) : Client := { c with buffer := c.buffer ++ data }

def appendSendBuff (c : Client) (data : Bytes) : Client :=
  { c with sendBuffer := c.sendBuffer ++ data }

def sendData (c : Client) : Bool := !c.sendBuffer.isEmpty

end Client

/-! ## `Channel` -/

structure Channel where
  name : Bytes
  topic : Bytes := []
  memberFds : List Int := []
  operatorFds : List Int := []
  invitedFds : List Int := []
  inviteOnly : Bool := false
  changeTopic : Bool := false
  key : Bytes := []
  limit : Int := 0
  deriving Repr, DecidableEq

namespace Channel

def hasMember (ch : Channel) (fd : Int) : Bool := ch.memberFds.contains fd

def addMember (ch : Channel) (fd : Int) : Channel :=
  if ch.hasMember fd then ch else { ch with memberFds := ch.memberFds ++ [fd] }

/-- Two loops, each erasing the first occurrence. -/
def removeMember (ch : Channel) (fd : Int) : Channel :=
  { ch with memberFds := ch.memberFds.erase fd, operatorFds := ch.operatorFds.erase fd }

def isEmpty (ch : Channel) : Bool := ch.memberFds.isEmpty

def isOperator (ch : Channel) (fd : Int) : Bool := ch.operatorFds.contains fd

def addOperator (ch : Channel) (fd : Int) : Channel :=
  if ch.isOperator fd then ch else { ch with operatorFds := ch.operatorFds ++ [fd] }

def isInvited (ch : Channel) (fd : Int) : Bool := ch.invitedFds.contains fd

def addInvite (ch : Channel) (fd : Int) : Channel :=
  if ch.isInvited fd then ch else { ch with invitedFds := ch.invitedFds ++ [fd] }

def removeInvite (ch : Channel) (fd : Int) : Channel :=
  { ch with invitedFds := ch.invitedFds.erase fd }

def removeOperator (ch : Channel) (fd : Int) : Channel :=
  { ch with operatorFds := ch.operatorFds.erase fd }

def hasKey (ch : Channel) : Bool := !ch.key.isEmpty

def removeKey (ch : Channel) : Channel := { ch with key := [] }

def hasLimit (ch : Channel) : Bool := decide (0 < ch.limit)

def removeLimit (ch : Channel) : Channel := { ch with limit := 0 }

@[simp] theorem hasMember_iff (ch : Channel) (fd : Int) :
    ch.hasMember fd = true ↔ fd ∈ ch.memberFds := by simp [hasMember]

@[simp] theorem isOperator_iff (ch : Channel) (fd : Int) :
    ch.isOperator fd = true ↔ fd ∈ ch.operatorFds := by simp [isOperator]

@[simp] theorem isInvited_iff (ch : Channel) (fd : Int) :
    ch.isInvited fd = true ↔ fd ∈ ch.invitedFds := by simp [isInvited]

@[simp] theorem isEmpty_iff (ch : Channel) : ch.isEmpty = true ↔ ch.memberFds = [] := by
  simp [isEmpty]

theorem addMember_of_not_mem {ch : Channel} {fd : Int} (h : fd ∉ ch.memberFds) :
    ch.addMember fd = { ch with memberFds := ch.memberFds ++ [fd] } := by
  rw [addMember, if_neg (by simpa using h)]

theorem addOperator_of_not_mem {ch : Channel} {fd : Int} (h : fd ∉ ch.operatorFds) :
    ch.addOperator fd = { ch with operatorFds := ch.operatorFds ++ [fd] } := by
  rw [addOperator, if_neg (by simpa using h)]

section AddInvite

variable (ch : Channel) (fd : Int)

@[simp] theorem addInvite_name : (ch.addInvite fd).name = ch.name := by
  unfold addInvite
  split <;> rfl

@[simp] theorem addInvite_topic : (ch.addInvite fd).topic = ch.topic := by
  unfold addInvite
  split <;> rfl

@[simp] theorem addInvite_memberFds : (ch.addInvite fd).memberFds = ch.memberFds := by
  unfold addInvite
  split <;> rfl

@[simp] theorem addInvite_operatorFds : (ch.addInvite fd).operatorFds = ch.operatorFds := by
  unfold addInvite
  split <;> rfl

@[simp] theorem mem_addInvite (x : Int) :
    x ∈ (ch.addInvite fd).invitedFds ↔ x ∈ ch.invitedFds ∨ x = fd := by
  unfold addInvite
  split
  · next hinvited =>
      have hmem : fd ∈ ch.invitedFds := by simpa using hinvited
      exact ⟨Or.inl, fun h => h.elim id fun heq => heq ▸ hmem⟩
  · simp

end AddInvite

end Channel

/-! ## `Server` -/

/-- The bits of `events` and `revents` the program uses. -/
def POLLIN : BitVec 16 := 0x001#16
def POLLOUT : BitVec 16 := 0x004#16
def POLLERR : BitVec 16 := 0x008#16
def POLLHUP : BitVec 16 := 0x010#16
def POLLNVAL : BitVec 16 := 0x020#16

structure PollFd where
  fd : Int
  events : BitVec 16
  revents : BitVec 16
  deriving Repr, DecidableEq

structure Server where
  fd : Int
  passwd : Bytes
  fds : List PollFd
  clients : List Client
  channels : List Channel
  deriving Repr, DecidableEq

inductive Entry where
  | accepted (fd : Int)
  | line (fd : Int) (contents : Bytes)
  | queued (fd : Int) (message : Bytes)
  | sent (fd : Int) (bytes : Bytes)
  | closed (fd : Int)
  deriving Repr, DecidableEq

structure Machine extends Server where
  history : List Entry
  deriving Repr, DecidableEq

/-- The state after the constructor: only the listening socket is polled. -/
def Machine.start (fd : Int) (passwd : Bytes) : Machine where
  fd := fd
  passwd := passwd
  fds := [⟨fd, POLLIN, 0⟩]
  clients := []
  channels := []
  history := []

namespace Server

/-- `clients[i]`; the program never indexes past the end. -/
def clientAt (s : Server) (i : Nat) : Client := s.clients.getD i { fd := -1 }

def channelAt (s : Server) (k : Nat) : Channel := s.channels.getD k { name := [] }

theorem clientAt_of_getElem? {s : Server} {i : Nat} {c : Client} (h : s.clients[i]? = some c) :
    s.clientAt i = c := by
  simp [clientAt, h]

theorem channelAt_of_getElem? {s : Server} {k : Nat} {ch : Channel}
    (h : s.channels[k]? = some ch) : s.channelAt k = ch := by
  simp [channelAt, h]

end Server

namespace Machine

def setChannel (s : Machine) (k : Nat) (ch : Channel) : Machine :=
  { s with channels := s.channels.set k ch }

/-- `client` is overwritten through a reference to `clients[i]`. -/
def setClient (s : Machine) (i : Nat) (c : Client) : Machine :=
  { s with clients := s.clients.set i c }

def record (s : Machine) (entry : Entry) : Machine :=
  { s with history := s.history ++ [entry] }

end Machine

end IrcServer
