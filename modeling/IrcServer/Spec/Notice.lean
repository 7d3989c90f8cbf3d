import IrcServer.Library.Framing
import IrcServer.Spec.Effect

/-! # Notices

What the server says, before it is written out as a line. A notice names clients by
their nicknames; `render` gives the bytes that are queued.
-/

namespace IrcServer

open Framing

inductive Notice where
  /-- A numeric reply to `nick`; `arg` is what the reply repeats of the command. -/
  | numeric (code : Nat) (nick arg : Bytes)
  /-- The members of a channel, each with whether it is an operator. -/
  | names (nick channel : Bytes) (members : List (Bytes × Bool))
  | endOfNames (nick channel : Bytes)
  | topicIs (nick channel topic : Bytes)
  /-- The channel would be left without an operator, by KICK and by MODE. -/
  | lastKick (nick : Bytes)
  | lastMode (nick : Bytes)
  | renamed (nick : Bytes)
  | joined (source channel : Bytes)
  | said (source target body : Bytes)
  | titled (source channel topic : Bytes)
  | kicked (source channel nick reason : Bytes)
  | invited (source nick channel : Bytes)
  | moded (source channel change : Bytes)
  deriving DecidableEq

/-- The message functions read nothing of a client but its nickname. -/
def addressee (nick : Bytes) : Client := { fd := -1, nickname := nick }

def nameList (members : List (Bytes × Bool)) : Bytes :=
  [space].intercalate (members.map fun p => (if p.2 then text "@" else []) ++ p.1)

def Notice.render : Notice → Bytes
  | .numeric code nick arg => replyCmd code (addressee nick) arg
  | .names nick channel members =>
      text ":ircserv 353 " ++ nick ++ text " = " ++ channel ++ text " :" ++ nameList members ++ crlf
  | .endOfNames nick channel =>
      text ":ircserv 366 " ++ nick ++ text " " ++ channel ++ text " :End of /NAMES list" ++ crlf
  | .topicIs nick channel topic =>
      text ":ircserv 332 " ++ nick ++ text " " ++ channel ++ text " :" ++ topic ++ crlf
  | .lastKick nick => kickNotice (addressee nick)
  | .lastMode nick => modeNotice (addressee nick)
  | .renamed nick => text "NICK :" ++ nick
  | .joined source channel => joinMessage (addressee source) channel
  | .said source target body => privmsgMessage (addressee source) target body
  | .titled source channel topic => topicMessage (addressee source) channel topic
  | .kicked source channel nick reason => kickMessage (addressee source) channel nick reason
  | .invited source nick channel => inviteMessage (addressee source) nick channel
  | .moded source channel change => modeMessage (addressee source) channel change

theorem replyCmd_addressee (code : Nat) (c : Client) (cmd : Bytes) :
    replyCmd code (addressee c.nickname) cmd = replyCmd code c cmd := by
  unfold replyCmd
  split <;> rfl

/-- The numeric replies that repeat nothing of the command. -/
theorem replyCmd_bare {code : Nat} (h : code ∈ [1, 411, 412, 431, 451, 462, 464]) (c : Client)
    (cmd : Bytes) : replyCmd code c cmd = replyCmd code c [] := by
  simp only [List.mem_cons, List.not_mem_nil, or_false] at h
  rcases h with rfl | rfl | rfl | rfl | rfl | rfl | rfl <;> rfl

end IrcServer
