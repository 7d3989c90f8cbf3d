import IrcServer.Model.State

/-! # Output: `sending_queue`, the numeric replies and the delivery loops

A handler never writes to a socket. It appends to send buffers through
`sending_queue`, directly or in a loop over the members of a channel.
-/

namespace IrcServer

/-! ## `replyCmd` -/

/-- `":ircserv <code> <nickname>"`, the common head of every numeric reply. -/
def replyHead (code : String) (c : Client) : Bytes :=
  text ":ircserv " ++ text code ++ text " " ++ c.nickname

def replyCmd (code : Nat) (c : Client) (cmd : Bytes) : Bytes :=
  match code with
  | 1 => replyHead "001" c ++ text " :Welcome to the Internet Relay Network " ++ c.nickname ++ crlf
  | 331 => replyHead "331" c ++ text " " ++ cmd ++ text " :No topic is set" ++ crlf
  | 332 => replyHead "332" c ++ text " " ++ cmd ++ text " :Topic" ++ crlf
  | 341 => replyHead "341" c ++ text " " ++ cmd ++ text " :Inviting" ++ crlf
  | 353 => replyHead "353" c ++ text " " ++ cmd ++ text " :Names" ++ crlf
  | 366 => replyHead "366" c ++ text " " ++ cmd ++ text " :End of /NAMES list" ++ crlf
  | 324 => replyHead "324" c ++ text " " ++ cmd ++ text " :Channel mode" ++ crlf
  | 401 => replyHead "401" c ++ text " " ++ cmd ++ text " :No such nick/channel" ++ crlf
  | 403 => replyHead "403" c ++ text " " ++ cmd ++ text " :No such channel" ++ crlf
  | 404 => replyHead "404" c ++ text " " ++ cmd ++ text " :Cannot send to channel" ++ crlf
  | 421 => replyHead "421" c ++ text " " ++ cmd ++ text " :Unknown command" ++ crlf
  | 431 => replyHead "431" c ++ text " :No nickname given" ++ crlf
  | 432 => replyHead "432" c ++ text " " ++ cmd ++ text " :Erroneous nickname" ++ crlf
  | 433 => replyHead "433" c ++ text " " ++ cmd ++ text " :Nickname is already in use" ++ crlf
  | 441 => replyHead "441" c ++ text " " ++ cmd ++ text " :They aren't on that channel" ++ crlf
  | 442 => replyHead "442" c ++ text " " ++ cmd ++ text " :You're not on that channel" ++ crlf
  | 443 => replyHead "443" c ++ text " " ++ cmd ++ text " :is already on channel" ++ crlf
  | 451 => replyHead "451" c ++ text " :You have not registered" ++ crlf
  | 411 => replyHead "411" c ++ text " :No recipient given (PRIVMSG)" ++ crlf
  | 412 => replyHead "412" c ++ text " :No text to send" ++ crlf
  | 461 => replyHead "461" c ++ text " " ++ cmd ++ text " :Not enough parameters" ++ crlf
  | 462 => replyHead "462" c ++ text " :Unauthorized command (already registered)" ++ crlf
  | 464 => replyHead "464" c ++ text " :Password incorrect" ++ crlf
  | 471 => replyHead "471" c ++ text " " ++ cmd ++ text " :Cannot join channel (+l)" ++ crlf
  | 472 => replyHead "472" c ++ text " " ++ cmd ++ text " :is unknown mode char to me" ++ crlf
  | 473 => replyHead "473" c ++ text " " ++ cmd ++ text " :Cannot join channel (+i)" ++ crlf
  | 475 => replyHead "475" c ++ text " " ++ cmd ++ text " :Cannot join channel (+k)" ++ crlf
  | 482 => replyHead "482" c ++ text " " ++ cmd ++ text " :You're not channel operator" ++ crlf
  | _ => []

/-! ## `sending_queue` and the delivery loops -/

namespace Machine

/-- The reference `client` is a position of the client table; the loop over the poll table
finds the entry one further and sets its `POLLOUT` bit. -/
def sendingQueue (s : Machine) (client : Nat) (message : Bytes) : Machine :=
  if message.isEmpty then s
  else
    { s with
      clients := s.clients.modify client (·.appendSendBuff message)
      fds := s.fds.modify (client + 1) fun p => { p with events := p.events ||| POLLOUT }
      history := s.history ++ [.queued (s.clientAt client).fd message] }

/-- `for member: for j: if (clients[j].getFd() == member && …) sending_queue(clients[j], message)`,
the loop of JOIN, PRIVMSG, TOPIC and KICK. `chosen` is the further condition on the descriptor. -/
def sendMembers (chosen : Int → Bool) (members : List Int) (message : Bytes) (s : Machine) :
    Machine :=
  members.foldl (fun s member =>
    (List.range s.clients.length).foldl (fun s j =>
      if (s.clientAt j).fd = member ∧ chosen (s.clientAt j).fd then s.sendingQueue j message
      else s) s) s

/-- The loop of the mode changes, which leaves the inner loop at the first match. -/
def notification (members : List Int) (message : Bytes) (s : Machine) : Machine :=
  members.foldl (fun s member =>
    match s.clients.findIdx? fun c => decide (c.fd = member) with
    | some j => s.sendingQueue j message
    | none => s) s

end Machine

end IrcServer
