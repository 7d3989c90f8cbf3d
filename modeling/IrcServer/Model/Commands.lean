import IrcServer.Model.Parser
import IrcServer.Model.Queue

/-! # The command handlers

`client` is the position of the sender in the client table, the model of the
reference `Client &client`. A pointer into one of the two tables is a position as
well. Every handler returns the machine after its last statement.
-/

namespace IrcServer

open Search

/-! ## PASS, NICK and USER -/

def passHundler (client : Nat) (message : Message) (server : Machine) : Machine :=
  let c := server.clientAt client
  if c.registered then server.sendingQueue client (replyCmd 462 c (text "PASS"))
  else if message.params.isEmpty then server.sendingQueue client (replyCmd 461 c (text "PASS"))
  else if server.passwd = message.param 0 then server.setClient client (c.setPassIsRecived true)
  else server.sendingQueue client (replyCmd 464 c (text "PASS"))

def checkSpecailChar (c : UInt8) : Bool := (text "[]\\`_^\x7b\x7d|").contains c

def checkNickValid (nick : Bytes) : Bool :=
  match nick with
  | [] => false
  | first :: rest =>
      (isAlpha first || checkSpecailChar first) && decide (nick.length ≤ 9) &&
        rest.all fun c => isAlnum c || checkSpecailChar c || c == hyphen

def nickHundler (client : Nat) (message : Message) (server : Machine) : Machine :=
  let c := server.clientAt client
  if !c.passRecived then
    server.sendingQueue client (replyCmd 451 c (text "NICK :You have not registered"))
  else if message.params.isEmpty then
    server.sendingQueue client (replyCmd 431 c (text ":No nickname given"))
  else
    let newNick := message.param 0
    if !checkNickValid newNick then server.sendingQueue client (replyCmd 432 c newNick)
    else if server.clients.any fun d => decide (d.nickname = newNick) && decide (d.fd ≠ c.fd) then
      server.sendingQueue client (replyCmd 433 c newNick)
    else
      let server := server.setClient client (c.setNickname newNick)
      let server :=
        if c.registered then server.sendingQueue client (text "NICK :" ++ newNick) else server
      let server :=
        server.setClient client ((server.clientAt client).setNicknameIsReceived true)
      let c := server.clientAt client
      if c.userRecived && !c.registered then
        let c := c.setRegistered true
        (server.setClient client c).sendingQueue client (replyCmd 1 c [])
      else server

def userHandler (client : Nat) (message : Message) (server : Machine) : Machine :=
  let c := server.clientAt client
  if c.registered then server.sendingQueue client (replyCmd 462 c (text "USER"))
  else if !c.passRecived then
    server.sendingQueue client (replyCmd 451 c (text "USER :You have not registered"))
  else if message.params.length < 4 then
    server.sendingQueue client (replyCmd 461 c (text "USER"))
  else
    let c := (c.setUsername (message.param 0)).setUserIsRecived true
    let server := server.setClient client c
    if c.nicknameReceived then
      let c := c.setRegistered true
      (server.setClient client c).sendingQueue client (replyCmd 1 c [])
    else server

/-! ## JOIN -/

def validChannelName (channelName : Bytes) : Bool :=
  match channelName with
  | [] => false
  | first :: rest =>
      decide (2 ≤ channelName.length) && first == hash &&
        rest.all fun c => !(c == space || c == comma || c == colon || c == CR || c == LF)

/-- `channels[i].getName() == channelName`. -/
def named (channelName : Bytes) (ch : Channel) : Bool := decide (ch.name = channelName)

/-- `clients[i].getNickname() == nick`. -/
def nicknamed (nick : Bytes) (c : Client) : Bool := decide (c.nickname = nick)

/-- The loop that builds the names reply: `" "` between entries, `"@"` before operators. -/
def joinNames (channel : Channel) (clients : List Client) : Bytes :=
  channel.memberFds.foldl (fun names member =>
    clients.foldl (fun names c =>
      if c.fd = member then
        (if names.isEmpty then names else names ++ text " ") ++
          (if channel.isOperator member then text "@" else []) ++ c.nickname
      else names) names) []

def joinMessage (c : Client) (channelName : Bytes) : Bytes :=
  text ":" ++ c.nickname ++ text " JOIN :" ++ channelName ++ crlf

/-- The part of `joinHandler` after the channel has been found or created at position `k`. -/
def joinChannel (client : Nat) (message : Message) (k : Nat) (server : Machine) : Machine :=
  let c := server.clientAt client
  let channelName := message.param 0
  let channel := server.channelAt k
  if channel.hasMember c.fd then server.sendingQueue client (replyCmd 443 c channelName)
  else if channel.inviteOnly && !channel.isInvited c.fd then
    server.sendingQueue client (replyCmd 473 c channelName)
  else if channel.hasKey &&
      (decide (message.params.length < 2) || decide (message.param 1 ≠ channel.key)) then
    server.sendingQueue client (replyCmd 475 c channelName)
  else if channel.hasLimit && decide (toInt32 channel.memberFds.length ≥ channel.limit) then
    server.sendingQueue client (replyCmd 471 c channelName)
  else
    let firstMember := channel.isEmpty
    let channel := channel.addMember c.fd
    let channel := if firstMember then channel.addOperator c.fd else channel
    let server := server.setChannel k channel
    let server := server.sendMembers (fun _ => true) channel.memberFds (joinMessage c channelName)
    let names := joinNames channel server.clients
    let server := server.sendingQueue client
      (text ":ircserv 353 " ++ c.nickname ++ text " = " ++ channelName ++ text " :" ++ names ++ crlf)
    server.sendingQueue client
      (text ":ircserv 366 " ++ c.nickname ++ text " " ++ channelName ++
        text " :End of /NAMES list" ++ crlf)

def joinHandler (client : Nat) (message : Message) (server : Machine) : Machine :=
  let c := server.clientAt client
  if !c.registered then server.sendingQueue client (replyCmd 451 c (text "JOIN"))
  else if message.params.isEmpty then server.sendingQueue client (replyCmd 461 c (text "JOIN"))
  else
    let channelName := message.param 0
    if !validChannelName channelName then
      server.sendingQueue client (replyCmd 403 c channelName)
    else
      match lastMatch (named channelName) server.channels with
      | some k => joinChannel client message k server
      | none =>
          joinChannel client message server.channels.length
            { server with channels := server.channels ++ [{ name := channelName }] }

/-! ## PRIVMSG and TOPIC -/

def privmsgMessage (c : Client) (target body : Bytes) : Bytes :=
  text ":" ++ c.nickname ++ text " PRIVMSG " ++ target ++ text " :" ++ body ++ crlf

def privmsgHandler (client : Nat) (message : Message) (server : Machine) : Machine :=
  let c := server.clientAt client
  if !c.registered then server.sendingQueue client (replyCmd 451 c (text "PRIVMSG"))
  else if message.params.isEmpty then server.sendingQueue client (replyCmd 411 c [])
  else if message.params.length < 2 ∨ (message.param 1).isEmpty then
    server.sendingQueue client (replyCmd 412 c [])
  else
    let target := message.param 0
    let wireMessage := privmsgMessage c target (message.param 1)
    if target.head? = some hash then
      match lastMatch (named target) server.channels with
      | none => server.sendingQueue client (replyCmd 403 c target)
      | some k =>
          let channel := server.channelAt k
          if !channel.hasMember c.fd then server.sendingQueue client (replyCmd 404 c target)
          else server.sendMembers (· ≠ c.fd) channel.memberFds wireMessage
    else
      match lastMatch (nicknamed target) server.clients with
      | none => server.sendingQueue client (replyCmd 401 c target)
      | some recipient => server.sendingQueue recipient wireMessage

def topicMessage (c : Client) (channelName newTopic : Bytes) : Bytes :=
  text ":" ++ c.nickname ++ text " TOPIC " ++ channelName ++ text " :" ++ newTopic ++ crlf

def topicHandler (client : Nat) (message : Message) (server : Machine) : Machine :=
  let c := server.clientAt client
  if !c.registered then server.sendingQueue client (replyCmd 451 c (text "TOPIC"))
  else if message.params.isEmpty then server.sendingQueue client (replyCmd 461 c (text "TOPIC"))
  else
    let channelName := message.param 0
    match lastMatch (named channelName) server.channels with
    | none => server.sendingQueue client (replyCmd 403 c channelName)
    | some k =>
        let channel := server.channelAt k
        if message.params.length = 1 then
          if channel.topic.isEmpty then server.sendingQueue client (replyCmd 331 c channelName)
          else
            server.sendingQueue client
              (text ":ircserv 332 " ++ c.nickname ++ text " " ++ channelName ++ text " :" ++
                channel.topic ++ crlf)
        else if !channel.hasMember c.fd then
          server.sendingQueue client (replyCmd 442 c channelName)
        else if channel.changeTopic && !channel.isOperator c.fd then
          server.sendingQueue client (replyCmd 482 c channelName)
        else
          let newTopic := message.param 1
          let wireMessage := topicMessage c channelName newTopic
          let server := server.setChannel k { channel with topic := newTopic }
          let server :=
            server.sendMembers (· ≠ c.fd) channel.memberFds wireMessage
          server.sendingQueue client wireMessage

/-! ## KICK and INVITE -/

def kickNotice (c : Client) : Bytes :=
  text ":ircserv NOTICE " ++ c.nickname ++ text " :You cannot kick the last channel operator" ++ crlf

def kickMessage (c : Client) (channelName targetNick reason : Bytes) : Bytes :=
  text ":" ++ c.nickname ++ text " KICK " ++ channelName ++ text " " ++ targetNick ++ text " :" ++
    reason ++ crlf

def kickHandler (client : Nat) (message : Message) (server : Machine) : Machine :=
  let c := server.clientAt client
  if !c.registered then server.sendingQueue client (replyCmd 451 c (text "KICK"))
  else if message.params.length < 2 then server.sendingQueue client (replyCmd 461 c (text "KICK"))
  else
    let channelName := message.param 0
    let targetNick := message.param 1
    match lastMatch (named channelName) server.channels with
    | none => server.sendingQueue client (replyCmd 403 c channelName)
    | some channelIndex =>
        let channel := server.channelAt channelIndex
        if !channel.isOperator c.fd then server.sendingQueue client (replyCmd 482 c channelName)
        else
          match lastMatch (nicknamed targetNick) server.clients with
          | none => server.sendingQueue client (replyCmd 401 c targetNick)
          | some target =>
              let targetFd := (server.clientAt target).fd
              if !channel.hasMember targetFd then
                server.sendingQueue client (replyCmd 441 c (targetNick ++ text " " ++ channelName))
              else if channel.isOperator targetFd && decide (channel.operatorFds.length = 1) &&
                  decide (channel.memberFds.length > 1) then
                server.sendingQueue client (kickNotice c)
              else
                let reason := if message.params.length > 2 then message.param 2 else c.nickname
                let server := server.sendMembers (fun _ => true) channel.memberFds
                  (kickMessage c channelName targetNick reason)
                let channel := channel.removeMember targetFd
                let server := server.setChannel channelIndex channel
                if channel.isEmpty then
                  { server with channels := server.channels.eraseIdx channelIndex }
                else server

def inviteMessage (c : Client) (targetNick channelName : Bytes) : Bytes :=
  text ":" ++ c.nickname ++ text " INVITE " ++ targetNick ++ text " :" ++ channelName ++ crlf

def inviteHandler (client : Nat) (message : Message) (server : Machine) : Machine :=
  let c := server.clientAt client
  if !c.registered then server.sendingQueue client (replyCmd 451 c (text "INVITE"))
  else if message.params.length < 2 then
    server.sendingQueue client (replyCmd 461 c (text "INVITE"))
  else
    let targetNick := message.param 0
    let channelName := message.param 1
    match lastMatch (nicknamed targetNick) server.clients with
    | none => server.sendingQueue client (replyCmd 401 c targetNick)
    | some target =>
        let targetFd := (server.clientAt target).fd
        match lastMatch (named channelName) server.channels with
        | none => server.sendingQueue client (replyCmd 403 c channelName)
        | some k =>
            let channel := server.channelAt k
            if !channel.isOperator c.fd then
              server.sendingQueue client (replyCmd 482 c channelName)
            else if channel.hasMember targetFd then
              server.sendingQueue client (replyCmd 443 c (targetNick ++ text " " ++ channelName))
            else
              let server := server.setChannel k (channel.addInvite targetFd)
              let server := server.sendingQueue target (inviteMessage c targetNick channelName)
              server.sendingQueue client (replyCmd 341 c (targetNick ++ text " " ++ channelName))

end IrcServer
