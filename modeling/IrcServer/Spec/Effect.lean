import IrcServer.Spec.Queue

/-! # What one line can do

The possible effects of a dispatched line, each with the conditions under which it
occurs: a refusal, an answer to a query, a step of the registration, a private
message, an invitation, or a channel event that is announced to the members. An
effect is a new record for the sender, a new channel table and the calls of
`sending_queue`, and nothing else.
-/

namespace IrcServer

/-- The command word as the dispatcher compares it. -/
def Message.command (message : Message) : Bytes := message.cmd.map toUpper

theorem Message.not_other {message : Message} {word other : Bytes} (h : message.command = word)
    (h' : message.command = other) (hne : word ≠ other) : False :=
  hne (h.symm.trans h')

structure Message.Clean (message : Message) : Prop where
  command : LF ∉ message.command
  param : ∀ k, LF ∉ message.param k

/-- The error replies, and the two notices that refuse to leave a channel without operator. -/
inductive Refusal (c : Client) : Bytes → Prop
  | numeric (code : Nat) (cmd : Bytes) (error : 400 ≤ code ∧ code < 500)
      (known : replyCmd code c cmd ≠ []) (clean : LF ∉ cmd) : Refusal c (replyCmd code c cmd)
  | lastKick : Refusal c (kickNotice c)
  | lastMode : Refusal c (modeNotice c)

/-! ## Channel events -/

/-- An accepted channel command: the channel, the descriptors its event line is queued to, the
line, and the further replies to the sender. -/
structure Announcement where
  channel : Bytes
  recipients : List Int
  line : Bytes
  replies : List Bytes

def Channel.founded (name : Bytes) (fd : Int) : Channel :=
  { name := name, memberFds := [fd], operatorFds := [fd] }

def Channel.joined (ch : Channel) (fd : Int) : Channel :=
  { ch with memberFds := ch.memberFds ++ [fd] }

def namesReply (c : Client) (ch : Channel) (clients : List Client) : Bytes :=
  text ":ircserv 353 " ++ c.nickname ++ text " = " ++ ch.name ++ text " :" ++
    joinNames ch clients ++ crlf

def endOfNames (c : Client) (ch : Channel) : Bytes :=
  text ":ircserv 366 " ++ c.nickname ++ text " " ++ ch.name ++ text " :End of /NAMES list" ++ crlf

/-- `ch` is the channel after the addition. -/
def joinAnnouncement (c : Client) (ch : Channel) (clients : List Client) : Announcement where
  channel := ch.name
  recipients := ch.memberFds
  line := joinMessage c ch.name
  replies := [namesReply c ch clients, endOfNames c ch]

structure Admits (ch : Channel) (c : Client) (message : Message) : Prop where
  outside : c.fd ∉ ch.memberFds
  invited : ch.inviteOnly = true → c.fd ∈ ch.invitedFds
  key : ch.key ≠ [] → 2 ≤ message.params.length ∧ message.param 1 = ch.key
  limit : 0 < ch.limit → toInt32 ch.memberFds.length < ch.limit

/-- The mode changes that need no target: the changed channel and the announced change. -/
inductive ModeChange (message : Message) (ch : Channel) : Channel → Bytes → Prop
  | inviteOnly (h : message.param 1 = text "+i" ∨ message.param 1 = text "-i") :
      ModeChange message ch { ch with inviteOnly := decide (message.param 1 = text "+i") }
        (message.param 1)
  | changeTopic (h : message.param 1 = text "+t" ∨ message.param 1 = text "-t") :
      ModeChange message ch { ch with changeTopic := decide (message.param 1 = text "+t") }
        (message.param 1)
  | key (h : message.param 1 = text "+k") (three : 3 ≤ message.params.length) :
      ModeChange message ch { ch with key := message.param 2 } (text "+k " ++ message.param 2)
  | noKey (h : message.param 1 = text "-k") (three : 3 ≤ message.params.length) :
      ModeChange message ch { ch with key := [] } (text "-k")
  | limit (h : message.param 1 = text "+l") (three : 3 ≤ message.params.length)
      (digits : message.param 2 ≠ [] ∧ (message.param 2).all isDigit = true)
      (positive : 0 < atoi (message.param 2)) :
      ModeChange message ch { ch with limit := atoi (message.param 2) }
        (text "+l " ++ message.param 2)
  | noLimit (h : message.param 1 = text "-l") :
      ModeChange message ch { ch with limit := 0 } (text "-l")

/-- `ch`, at position `k`, is the channel the first parameter names, and the sender is
registered. -/
structure Addresses (s : Server) (c : Client) (message : Message) (command : String) (k : Nat)
    (ch : Channel) : Prop where
  command : message.command = text command
  registered : c.registered = true
  found : s.channels[k]? = some ch
  name : ch.name = message.param 0

structure Targets (s : Server) (nick : Bytes) (target : Nat) (d : Client) : Prop where
  found : s.clients[target]? = some d
  nickname : d.nickname = nick

/-- The accepted channel commands: the channel table they leave and what they announce. -/
inductive Announces (s : Server) (c : Client) (message : Message) :
    List Channel → Announcement → Prop
  | create (command : message.command = text "JOIN") (registered : c.registered = true)
      (valid : validChannelName (message.param 0) = true)
      (fresh : ∀ ch ∈ s.channels, ch.name ≠ message.param 0) :
      Announces s c message (s.channels ++ [Channel.founded (message.param 0) c.fd])
        (joinAnnouncement c (Channel.founded (message.param 0) c.fd) s.clients)
  | join (k : Nat) (ch : Channel) (at_ : Addresses s c message "JOIN" k ch)
      (admits : Admits ch c message) :
      Announces s c message (s.channels.set k (ch.joined c.fd))
        (joinAnnouncement c (ch.joined c.fd) s.clients)
  | privmsg (k : Nat) (ch : Channel) (at_ : Addresses s c message "PRIVMSG" k ch)
      (two : 2 ≤ message.params.length) (body : message.param 1 ≠ [])
      (member : c.fd ∈ ch.memberFds) :
      Announces s c message s.channels
        ⟨ch.name, ch.memberFds.filter (· ≠ c.fd),
          privmsgMessage c ch.name (message.param 1), []⟩
  | topic (k : Nat) (ch : Channel) (at_ : Addresses s c message "TOPIC" k ch)
      (two : 2 ≤ message.params.length) (member : c.fd ∈ ch.memberFds)
      (allowed : ch.changeTopic = true → c.fd ∈ ch.operatorFds) :
      Announces s c message (s.channels.set k { ch with topic := message.param 1 })
        ⟨ch.name, (ch.memberFds.filter (· ≠ c.fd)) ++ [c.fd],
          topicMessage c ch.name (message.param 1), []⟩
  | kick (k : Nat) (ch : Channel) (at_ : Addresses s c message "KICK" k ch)
      (two : 2 ≤ message.params.length) (operator : c.fd ∈ ch.operatorFds)
      (target : Nat) (d : Client) (targets : Targets s (message.param 1) target d)
      (member : d.fd ∈ ch.memberFds)
      (keeps : ¬ (d.fd ∈ ch.operatorFds ∧ ch.operatorFds.length = 1 ∧ 1 < ch.memberFds.length)) :
      Announces s c message
        (if (ch.removeMember d.fd).memberFds = [] then s.channels.eraseIdx k
          else s.channels.set k (ch.removeMember d.fd))
        ⟨ch.name, ch.memberFds, kickMessage c ch.name (message.param 1)
          (if message.params.length > 2 then message.param 2 else c.nickname), []⟩
  | mode (k : Nat) (ch ch' : Channel) (change : Bytes) (at_ : Addresses s c message "MODE" k ch)
      (operator : c.fd ∈ ch.operatorFds) (changes : ModeChange message ch ch' change) :
      Announces s c message (s.channels.set k ch')
        ⟨ch.name, ch.memberFds, modeMessage c ch.name change, []⟩
  | grant (k : Nat) (ch : Channel) (at_ : Addresses s c message "MODE" k ch)
      (operator : c.fd ∈ ch.operatorFds) (plus : message.param 1 = text "+o")
      (three : 3 ≤ message.params.length)
      (target : Nat) (d : Client) (targets : Targets s (message.param 2) target d)
      (member : d.fd ∈ ch.memberFds) (ordinary : d.fd ∉ ch.operatorFds) :
      Announces s c message
        (s.channels.set k { ch with operatorFds := ch.operatorFds ++ [d.fd] })
        ⟨ch.name, ch.memberFds,
          modeMessage c ch.name (text "+o" ++ text " " ++ message.param 2), []⟩
  | revoke (k : Nat) (ch : Channel) (at_ : Addresses s c message "MODE" k ch)
      (operator : c.fd ∈ ch.operatorFds) (minus : message.param 1 = text "-o")
      (three : 3 ≤ message.params.length)
      (target : Nat) (d : Client) (targets : Targets s (message.param 2) target d)
      (member : d.fd ∈ ch.memberFds) (special : d.fd ∈ ch.operatorFds)
      (several : ch.operatorFds.length ≠ 1) :
      Announces s c message (s.channels.set k (ch.removeOperator d.fd))
        ⟨ch.name, ch.memberFds,
          modeMessage c ch.name (text "-o" ++ text " " ++ message.param 2), []⟩

/-! ## All effects -/

def Client.renamed (c : Client) (nick : Bytes) : Client :=
  { c with
    nickname := nick
    nicknameReceived := true
    registered := c.registered || c.userRecived }

def nickReplies (c : Client) (nick : Bytes) : List Bytes :=
  if c.registered then [text "NICK :" ++ nick]
  else if c.userRecived then [replyCmd 1 (c.renamed nick) []]
  else []

def Client.introduced (c : Client) (username : Bytes) : Client :=
  { c with username := username, userRecived := true, registered := c.nicknameReceived }

def userReplies (c : Client) (username : Bytes) : List Bytes :=
  if c.nicknameReceived then [replyCmd 1 (c.introduced username) []] else []

def topicReply (c : Client) (ch : Channel) : Bytes :=
  if ch.topic.isEmpty then replyCmd 331 c ch.name
  else text ":ircserv 332 " ++ c.nickname ++ text " " ++ ch.name ++ text " :" ++ ch.topic ++ crlf

def Announcement.sends (a : Announcement) (clients : List Client) (sender : Nat) :
    List (Nat × Bytes) :=
  (Machine.positions clients a.recipients).map (·, a.line) ++ a.replies.map (sender, ·)

/-- The effects of a line of the client `c` at position `i`: its new record, the new channel
table and the calls of `sending_queue`. -/
inductive Dispatched (s : Server) (i : Nat) (c : Client) (message : Message) :
    Client → List Channel → List (Nat × Bytes) → Prop
  | silent : Dispatched s i c message c s.channels []
  | refused (m : Bytes) (refusal : Refusal c m) : Dispatched s i c message c s.channels [(i, m)]
  | answered (k : Nat) (ch : Channel) (at_ : Addresses s c message "TOPIC" k ch)
      (one : message.params.length = 1) :
      Dispatched s i c message c s.channels [(i, topicReply c ch)]
  | passed (command : message.command = text "PASS") (unregistered : c.registered = false)
      (given : message.params ≠ []) (password : s.passwd = message.param 0) :
      Dispatched s i c message { c with passRecived := true } s.channels []
  | nick (command : message.command = text "NICK") (pass : c.passRecived = true)
      (valid : checkNickValid (message.param 0) = true)
      (unused : ∀ d ∈ s.clients, d.nickname = message.param 0 → d.fd = c.fd) :
      Dispatched s i c message (c.renamed (message.param 0)) s.channels
        ((nickReplies c (message.param 0)).map (i, ·))
  | user (command : message.command = text "USER") (unregistered : c.registered = false)
      (pass : c.passRecived = true) (four : 4 ≤ message.params.length) :
      Dispatched s i c message (c.introduced (message.param 0)) s.channels
        ((userReplies c (message.param 0)).map (i, ·))
  | whispered (command : message.command = text "PRIVMSG") (registered : c.registered = true)
      (two : 2 ≤ message.params.length) (body : message.param 1 ≠ [])
      (nick : (message.param 0).head? ≠ some hash)
      (target : Nat) (d : Client) (targets : Targets s (message.param 0) target d) :
      Dispatched s i c message c s.channels
        [(target, privmsgMessage c (message.param 0) (message.param 1))]
  | invited (command : message.command = text "INVITE") (registered : c.registered = true)
      (two : 2 ≤ message.params.length)
      (k : Nat) (ch : Channel) (found : s.channels[k]? = some ch)
      (name : ch.name = message.param 1) (operator : c.fd ∈ ch.operatorFds)
      (target : Nat) (d : Client) (targets : Targets s (message.param 0) target d)
      (outside : d.fd ∉ ch.memberFds) :
      Dispatched s i c message c (s.channels.set k (ch.addInvite d.fd))
        [(target, inviteMessage c (message.param 0) ch.name),
          (i, replyCmd 341 c (message.param 0 ++ text " " ++ ch.name))]
  | announced (channels : List Channel) (a : Announcement)
      (announces : Announces s c message channels a) :
      Dispatched s i c message c channels (a.sends s.clients i)

def Machine.settle (i : Nat) (c : Client) (channels : List Channel) (sends : List (Nat × Bytes))
    (s : Machine) : Machine :=
  Machine.sendEach sends { s with clients := s.clients.set i c, channels := channels }

end IrcServer
