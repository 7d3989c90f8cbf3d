import IrcServer.Spec.Step

/-! # What one line can do to the channel table

The channel table changes in one of three ways: a channel is created, one channel
is changed, or the last member of a channel kicks itself out. Which client may cause
which change is part of the statement.
-/

namespace IrcServer

/-- The channel a message names: the second parameter of INVITE, the first of all others. -/
def Message.channelName (message : Message) : Bytes :=
  if message.command = text "INVITE" then message.param 1 else message.param 0

inductive Channel.Change (s : Server) (c : Client) (message : Message) (ch : Channel) :
    Channel → Prop
  | joined (command : message.command = text "JOIN") (admits : Admits ch c message) :
      Channel.Change s c message ch (ch.joined c.fd)
  | titled (command : message.command = text "TOPIC") (member : c.fd ∈ ch.memberFds)
      (allowed : ch.changeTopic = true → c.fd ∈ ch.operatorFds) :
      Channel.Change s c message ch { ch with topic := message.param 1 }
  | kicked (command : message.command = text "KICK") (operator : c.fd ∈ ch.operatorFds)
      (target : Nat) (d : Client) (targets : Targets s (message.param 1) target d)
      (member : d.fd ∈ ch.memberFds)
      (keeps : ¬ (d.fd ∈ ch.operatorFds ∧ ch.operatorFds.length = 1 ∧ 1 < ch.memberFds.length))
      (left : (ch.removeMember d.fd).memberFds ≠ []) :
      Channel.Change s c message ch (ch.removeMember d.fd)
  | moded (command : message.command = text "MODE") (operator : c.fd ∈ ch.operatorFds)
      (ch' : Channel) (change : Bytes) (changes : ModeChange message ch ch' change) :
      Channel.Change s c message ch ch'
  | granted (command : message.command = text "MODE") (operator : c.fd ∈ ch.operatorFds)
      (plus : message.param 1 = text "+o") (target : Nat) (d : Client)
      (targets : Targets s (message.param 2) target d) (member : d.fd ∈ ch.memberFds)
      (ordinary : d.fd ∉ ch.operatorFds) :
      Channel.Change s c message ch { ch with operatorFds := ch.operatorFds ++ [d.fd] }
  | revoked (command : message.command = text "MODE") (operator : c.fd ∈ ch.operatorFds)
      (target : Nat) (d : Client) (targets : Targets s (message.param 2) target d)
      (special : d.fd ∈ ch.operatorFds) (several : ch.operatorFds.length ≠ 1) :
      Channel.Change s c message ch (ch.removeOperator d.fd)
  | invited (command : message.command = text "INVITE") (operator : c.fd ∈ ch.operatorFds)
      (target : Nat) (d : Client) (targets : Targets s (message.param 0) target d)
      (outside : d.fd ∉ ch.memberFds) :
      Channel.Change s c message ch (ch.addInvite d.fd)

inductive TableChange (s : Server) (c : Client) (message : Message) : List Channel → Prop
  | same : TableChange s c message s.channels
  | created (command : message.command = text "JOIN") (registered : c.registered = true)
      (valid : validChannelName message.channelName = true)
      (fresh : ∀ ch ∈ s.channels, ch.name ≠ message.channelName) :
      TableChange s c message (s.channels ++ [Channel.founded message.channelName c.fd])
  | changed (registered : c.registered = true) (k : Nat) (ch ch' : Channel)
      (found : s.channels[k]? = some ch) (name : ch.name = message.channelName)
      (change : Channel.Change s c message ch ch') :
      TableChange s c message (s.channels.set k ch')
  | destroyed (registered : c.registered = true) (command : message.command = text "KICK")
      (k : Nat) (ch : Channel)
      (found : s.channels[k]? = some ch) (name : ch.name = message.channelName)
      (operator : c.fd ∈ ch.operatorFds) (target : Nat) (d : Client)
      (targets : Targets s (message.param 1) target d)
      (last : (ch.removeMember d.fd).memberFds = []) :
      TableChange s c message (s.channels.eraseIdx k)

theorem channelName_of_command {message : Message} {word : String}
    (h : message.command = text word) (hword : text word ≠ text "INVITE") :
    message.channelName = message.param 0 := by
  rw [Message.channelName, if_neg (h ▸ hword)]

section Addressed

variable {s : Server} {c : Client} {message : Message} {word : String} {k : Nat} {ch : Channel}

theorem Addresses.names (at_ : Addresses s c message word k ch)
    (hword : text word ≠ text "INVITE") : ch.name = message.channelName :=
  at_.name.trans (channelName_of_command at_.command hword).symm

theorem Addresses.changed (at_ : Addresses s c message word k ch)
    (hword : text word ≠ text "INVITE") {ch' : Channel}
    (change : Channel.Change s c message ch ch') :
    TableChange s c message (s.channels.set k ch') :=
  .changed at_.registered k ch ch' at_.found (at_.names hword) change

end Addressed

theorem Announces.tableChange {s : Server} {c : Client} {message : Message}
    {channels : List Channel} {a : Announcement} (h : Announces s c message channels a) :
    TableChange s c message channels := by
  cases h with
  | create command registered valid fresh =>
      have hname := channelName_of_command command (by decide)
      rw [← hname] at valid fresh ⊢
      exact .created command registered valid fresh
  | join k ch at_ admits => exact at_.changed (by decide) (.joined at_.command admits)
  | privmsg => exact .same
  | topic k ch at_ two member allowed =>
      exact at_.changed (by decide) (.titled at_.command member allowed)
  | kick k ch at_ two operator target d targets member keeps =>
      split
      · next last =>
          exact .destroyed at_.registered at_.command k ch at_.found (at_.names (by decide))
            operator target d targets last
      · next left =>
          exact at_.changed (by decide)
            (.kicked at_.command operator target d targets member keeps left)
  | mode k ch ch' change at_ operator changes =>
      exact at_.changed (by decide) (.moded at_.command operator ch' change changes)
  | grant k ch at_ operator plus three target d targets member ordinary =>
      exact at_.changed (by decide)
        (.granted at_.command operator plus target d targets member ordinary)
  | revoke k ch at_ operator minus three target d targets member special several =>
      exact at_.changed (by decide)
        (.revoked at_.command operator target d targets special several)

theorem Dispatched.tableChange {s : Server} {i : Nat} {c : Client} {message : Message}
    {c' : Client} {channels : List Channel} {sends : List (Nat × Bytes)}
    (h : Dispatched s i c message c' channels sends) : TableChange s c message channels := by
  cases h with
  | invited command registered two k ch found name operator target d targets outside =>
      have hname : message.channelName = message.param 1 := if_pos command
      exact .changed registered k ch _ found (name.trans hname.symm)
        (.invited command operator target d targets outside)
  | announced channels a announces => exact announces.tableChange
  | _ => exact .same

/-! ## One channel -/

inductive Channel.Origin (s : Machine) (e : Event) (ch' : Channel) : Prop
  | kept (hch : ch' ∈ s.channels)
  | left (i : Nat) (c : Client) (event : e = .disconnect i) (hc : s.clients[i]? = some c)
      (ch : Channel) (hch : ch ∈ s.channels) (same : ch' = ch.leave c.fd)
  | founded (i : Nat) (line : Bytes) (event : e = .command i line) (c : Client)
      (hc : s.clients[i]? = some c) (registered : c.registered = true)
      (command : (Parser.parse line).command = text "JOIN")
      (valid : validChannelName ((Parser.parse line).param 0) = true)
      (fresh : ∀ ch ∈ s.channels, ch.name ≠ (Parser.parse line).param 0)
      (same : ch' = Channel.founded ((Parser.parse line).param 0) c.fd)
  | changed (i : Nat) (line : Bytes) (event : e = .command i line) (clean : LF ∉ line) (c : Client)
      (hc : s.clients[i]? = some c) (registered : c.registered = true) (k : Nat) (ch : Channel)
      (found : s.channels[k]? = some ch) (name : ch.name = (Parser.parse line).channelName)
      (change : Channel.Change s.toServer c (Parser.parse line) ch ch')

theorem Stepped.channel_origin {s s' : Machine} {e : Event} (h : Stepped s e s') {ch' : Channel}
    (hch' : ch' ∈ s'.channels) : Channel.Origin s e ch' := by
  cases h with
  | unconnected => exact .kept hch'
  | dropped => exact .kept hch'
  | connected => exact .kept hch'
  | buffered => exact .kept hch'
  | flushed => exact .kept hch'
  | disconnected i c hc =>
      obtain ⟨hmem, _⟩ := List.mem_filter.mp hch'
      obtain ⟨ch, hch, same⟩ := List.mem_map.mp hmem
      exact .left i c rfl hc ch hch same.symm
  | dispatched i c hc line clean c' channels sends effect =>
      rw [Machine.settle_channels] at hch'
      cases effect.tableChange with
      | same => exact .kept hch'
      | created command registered valid fresh =>
          rw [channelName_of_command command (by decide)] at hch' valid fresh
          rcases List.mem_append.mp hch' with hch' | hch'
          · exact .kept hch'
          · exact .founded i line rfl c hc registered command valid fresh
              (List.mem_singleton.mp hch')
      | changed registered k ch new found name change =>
          rcases List.mem_or_eq_of_mem_set hch' with hch' | rfl
          · exact .kept hch'
          · exact .changed i line rfl clean c hc registered k ch found name change
      | destroyed => exact .kept (List.mem_of_mem_eraseIdx hch')

end IrcServer
