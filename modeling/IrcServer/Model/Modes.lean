import IrcServer.Model.Commands

/-! # MODE

Five functions are tried in turn. Each returns `none` when the mode string is not
its own, the `false` of the source, and otherwise the machine it leaves. The log
lines written to the standard output are left out.
-/

namespace IrcServer

open Search

/-- `":<nick> MODE <channel> <change>"`. -/
def modeMessage (c : Client) (channelName change : Bytes) : Bytes :=
  text ":" ++ c.nickname ++ text " MODE " ++ channelName ++ text " " ++ change ++ crlf

/-- Store the changed channel at its position and tell its members. -/
def announce (c : Client) (k : Nat) (channel : Channel) (change : Bytes) (server : Machine) :
    Machine :=
  (server.setChannel k channel).notification channel.memberFds
    (modeMessage c channel.name change)

def inviteOnly (client : Nat) (message : Message) (k : Nat) (server : Machine) :
    Option Machine :=
  let c := server.clientAt client
  let channel := server.channelAt k
  let mode := message.param 1
  if mode ≠ text "+i" ∧ mode ≠ text "-i" then none
  else
    let channel := { channel with inviteOnly := decide (mode = text "+i") }
    some (announce c k channel mode server)

def letSChangeTheTopic (client : Nat) (message : Message) (k : Nat) (server : Machine) :
    Option Machine :=
  let c := server.clientAt client
  let channel := server.channelAt k
  let mode := message.param 1
  if mode ≠ text "+t" ∧ mode ≠ text "-t" then none
  else
    let channel := { channel with changeTopic := decide (mode = text "+t") }
    some (announce c k channel mode server)

def secretKey (client : Nat) (message : Message) (k : Nat) (server : Machine) : Option Machine :=
  let c := server.clientAt client
  let channel := server.channelAt k
  let mode := message.param 1
  if mode ≠ text "+k" ∧ mode ≠ text "-k" then none
  else if message.params.length < 3 then
    some (server.sendingQueue client (replyCmd 461 c (text "MODE")))
  else
    let key := message.param 2
    if mode = text "+k" then
      some (announce c k { channel with key := key } (text "+k " ++ key) server)
    else
      some (announce c k channel.removeKey (text "-k") server)

def limitedUsage (client : Nat) (message : Message) (k : Nat) (server : Machine) :
    Option Machine :=
  let c := server.clientAt client
  let channel := server.channelAt k
  let mode := message.param 1
  if mode ≠ text "+l" ∧ mode ≠ text "-l" then none
  else if mode = text "-l" then
    some (announce c k channel.removeLimit (text "-l") server)
  else if message.params.length < 3 then
    some (server.sendingQueue client (replyCmd 461 c (text "MODE")))
  else
    let limitStr := message.param 2
    if limitStr.isEmpty || !limitStr.all isDigit then
      some (server.sendingQueue client (replyCmd 461 c (text "MODE")))
    else
      let limit := atoi limitStr
      if limit ≤ 0 then
        some (server.sendingQueue client (replyCmd 461 c (text "MODE")))
      else
        some (announce c k { channel with limit := limit } (text "+l " ++ limitStr) server)

def modeNotice (c : Client) : Bytes :=
  text ":ircserv NOTICE " ++ c.nickname ++
    text " :You cannot remove the last channel operator" ++ crlf

def operators (client : Nat) (message : Message) (k : Nat) (server : Machine) : Option Machine :=
  let c := server.clientAt client
  let channel := server.channelAt k
  let mode := message.param 1
  if mode ≠ text "+o" ∧ mode ≠ text "-o" then none
  else if message.params.length < 3 then
    some (server.sendingQueue client (replyCmd 461 c (text "MODE")))
  else
    let userNick := message.param 2
    match server.clients.findIdx? (nicknamed userNick) with
    | none => some (server.sendingQueue client (replyCmd 401 c userNick))
    | some target =>
        let targetFd := (server.clientAt target).fd
        if !channel.hasMember targetFd then
          some (server.sendingQueue client
            (replyCmd 441 c (userNick ++ text " " ++ channel.name)))
        else if mode = text "+o" then
          if channel.isOperator targetFd then some server
          else some (announce c k (channel.addOperator targetFd) (mode ++ text " " ++ userNick) server)
        else if !channel.isOperator targetFd then some server
        else if channel.operatorFds.length = 1 then
          some (server.sendingQueue client (modeNotice c))
        else
          some (announce c k (channel.removeOperator targetFd) (mode ++ text " " ++ userNick) server)

def modes (client : Nat) (message : Message) (server : Machine) : Machine :=
  let c := server.clientAt client
  if !c.registered then server.sendingQueue client (replyCmd 451 c (text "MODE"))
  else if message.params.length < 2 then server.sendingQueue client (replyCmd 461 c (text "MODE"))
  else
    let channelName := message.param 0
    match server.channels.findIdx? (named channelName) with
    | none => server.sendingQueue client (replyCmd 403 c channelName)
    | some k =>
        let channel := server.channelAt k
        if !channel.isOperator c.fd then server.sendingQueue client (replyCmd 482 c channelName)
        else
          match (inviteOnly client message k server <|> letSChangeTheTopic client message k server
            <|> secretKey client message k server <|> limitedUsage client message k server
            <|> operators client message k server) with
          | some server => server
          | none => server.sendingQueue client (replyCmd 472 c (message.param 1))

end IrcServer
