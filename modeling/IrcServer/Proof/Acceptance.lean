import IrcServer.Proof.Addressing
import IrcServer.Proof.Clients

/-! # Every accepted command is carried out

`Proof.Dispatch` shows that a line has one of the listed effects. Here is the other
direction for the channel commands, for private messages and for invitations: when
their conditions hold, the line has that effect and no other.
-/

namespace IrcServer

open Search Machine

/-! ## Lookups -/

section Lookup

variable {s : Machine}

/-- A nickname that somebody has chosen is held once. -/
theorem Invariant.nickname_once (invariant : Invariant s) {nick : Bytes} (hne : nick ≠ []) :
    AtMostOne (nicknamed nick) s.clients := by
  intro j k x y hj hk hx hy
  have hxnick : x.nickname = nick := by simpa [nicknamed] using hx
  have hynick : y.nickname = nick := by simpa [nicknamed] using hy
  have hfd := invariant.identities.unique x (List.mem_of_getElem? hj) y (List.mem_of_getElem? hk)
    (hxnick.trans hynick.symm) (hxnick ▸ hne)
  exact invariant.table.fd_position hj hk hfd

theorem Invariant.member_nickname (invariant : Invariant s) {ch : Channel} (hch : ch ∈ s.channels)
    {d : Client} (hd : d ∈ s.clients) (member : d.fd ∈ ch.memberFds) : d.nickname ≠ [] := by
  obtain ⟨x, hx, hfd, hreg⟩ := invariant.identities.members ch hch d.fd member
  obtain rfl := invariant.table.same_client hx hd hfd
  have sound := invariant.identities.sound x hx
  exact sound.received.mp (sound.registered.mp hreg).1

theorem Table.channel_lookup (table : Table s.toServer) {k : Nat} {ch : Channel}
    (hk : s.channels[k]? = some ch) {name : Bytes} (hname : ch.name = name) :
    lastMatch (named name) s.channels = some k ∧ s.channels.findIdx? (named name) = some k := by
  have hone : AtMostOne (named name) s.channels := atMostOne_of_nodup table.names name
  exact ⟨hone.lastMatch_eq hk (by simpa [named] using hname),
    hone.findIdx?_eq hk (by simpa [named] using hname)⟩

theorem Invariant.client_lookup (invariant : Invariant s) {nick : Bytes} (hne : nick ≠ [])
    {target : Nat} {d : Client} (targets : Targets s.toServer nick target d) :
    lastMatch (nicknamed nick) s.clients = some target ∧
      s.clients.findIdx? (nicknamed nick) = some target := by
  have hnick : nicknamed nick d = true := by simpa [nicknamed] using targets.nickname
  have hone := invariant.nickname_once hne
  exact ⟨hone.lastMatch_eq targets.found hnick, hone.findIdx?_eq targets.found hnick⟩

end Lookup

section Handlers

variable {s : Machine} {i : Nat} {c : Client} {message : Message} {k : Nat} {ch : Channel}

theorem privmsgHandler_announces (invariant : Invariant s) (hc : s.clients[i]? = some c)
    (at_ : Addresses s.toServer c message "PRIVMSG" k ch) (two : 2 ≤ message.params.length)
    (body : message.param 1 ≠ []) (member : c.fd ∈ ch.memberFds) :
    privmsgHandler i message s =
      s.settle i c s.channels (Announcement.sends ⟨ch.name, ch.memberFds.filter (· ≠ c.fd),
        privmsgMessage c ch.name (message.param 1), []⟩ s.clients i) := by
  have valid := (invariant.table.consistent ch (List.mem_of_getElem? at_.found)).valid
  have hhash : (message.param 0).head? = some hash := at_.name ▸ (validChannelName_bytes valid).1
  have hlookup := (invariant.table.channel_lookup at_.found at_.name).1
  have hgiven : message.params.isEmpty = false := by
    rw [List.isEmpty_eq_false_iff, ← List.length_pos_iff]
    omega
  have hshort : ¬ (message.params.length < 2 ∨ (message.param 1).isEmpty = true) := by
    rintro (h | h)
    · omega
    · exact body (List.isEmpty_iff.mp h)
  have hmember : ch.hasMember c.fd = true := by simpa using member
  unfold privmsgHandler
  simp only [Server.clientAt_of_getElem? hc, at_.registered, hgiven, hshort, hhash, hlookup,
    Server.channelAt_of_getElem? at_.found, hmember, Bool.not_true, Bool.false_eq_true, if_false,
    if_true]
  rw [settle_same hc, sendMembers_eq _ _ _ _ invariant.table.clients_nodup]
  simp [Announcement.sends, at_.name]

theorem privmsgHandler_whispers (invariant : Invariant s) (hc : s.clients[i]? = some c)
    (registered : c.registered = true) (two : 2 ≤ message.params.length)
    (body : message.param 1 ≠ []) (nick : (message.param 0).head? ≠ some hash)
    (hne : message.param 0 ≠ []) {target : Nat} {d : Client}
    (targets : Targets s.toServer (message.param 0) target d) :
    privmsgHandler i message s =
      s.settle i c s.channels [(target, privmsgMessage c (message.param 0) (message.param 1))] := by
  have hlookup := (invariant.client_lookup hne targets).1
  have hgiven : message.params.isEmpty = false := by
    rw [List.isEmpty_eq_false_iff, ← List.length_pos_iff]
    omega
  have hshort : ¬ (message.params.length < 2 ∨ (message.param 1).isEmpty = true) := by
    rintro (h | h)
    · omega
    · exact body (List.isEmpty_iff.mp h)
  unfold privmsgHandler
  simp only [Server.clientAt_of_getElem? hc, registered, hgiven, hshort, nick, hlookup,
    Bool.not_true, Bool.false_eq_true, if_false]
  rw [settle_same hc]
  rfl

theorem topicHandler_announces (invariant : Invariant s) (hc : s.clients[i]? = some c)
    (at_ : Addresses s.toServer c message "TOPIC" k ch) (two : 2 ≤ message.params.length)
    (member : c.fd ∈ ch.memberFds) (allowed : ch.changeTopic = true → c.fd ∈ ch.operatorFds) :
    topicHandler i message s =
      s.settle i c (s.channels.set k { ch with topic := message.param 1 })
        (Announcement.sends ⟨ch.name, (ch.memberFds.filter (· ≠ c.fd)) ++ [c.fd],
          topicMessage c ch.name (message.param 1), []⟩ s.clients i) := by
  have hlookup := (invariant.table.channel_lookup at_.found at_.name).1
  have hgiven : message.params.isEmpty = false := by
    rw [List.isEmpty_eq_false_iff, ← List.length_pos_iff]
    omega
  have hmore : message.params.length ≠ 1 := by omega
  have hmember : ch.hasMember c.fd = true := by simpa using member
  have hallowed : (ch.changeTopic && !ch.isOperator c.fd) = false := by
    cases ht : ch.changeTopic with
    | false => rfl
    | true => simpa using allowed ht
  unfold topicHandler
  simp only [Server.clientAt_of_getElem? hc, at_.registered, hgiven, hmore, hlookup,
    Server.channelAt_of_getElem? at_.found, hmember, hallowed, Bool.not_true, Bool.false_eq_true,
    if_false]
  rw [settle_same hc, sendMembers_eq _ _ _ _
    (by simpa [setChannel] using invariant.table.clients_nodup)]
  simp [Announcement.sends, at_.name, positions_append,
    positions_self hc invariant.table.clients_nodup, sendEach_append, sendEach_cons, setChannel]

theorem kickHandler_announces (invariant : Invariant s) (hc : s.clients[i]? = some c)
    (at_ : Addresses s.toServer c message "KICK" k ch) (two : 2 ≤ message.params.length)
    (operator : c.fd ∈ ch.operatorFds) {target : Nat} {d : Client}
    (targets : Targets s.toServer (message.param 1) target d) (member : d.fd ∈ ch.memberFds)
    (keeps : ¬ (d.fd ∈ ch.operatorFds ∧ ch.operatorFds.length = 1 ∧ 1 < ch.memberFds.length)) :
    kickHandler i message s =
      s.settle i c
        (if (ch.removeMember d.fd).memberFds = [] then s.channels.eraseIdx k
          else s.channels.set k (ch.removeMember d.fd))
        (Announcement.sends ⟨ch.name, ch.memberFds, kickMessage c ch.name (message.param 1)
          (if message.params.length > 2 then message.param 2 else c.nickname), []⟩ s.clients i) := by
  have hlookup := (invariant.table.channel_lookup at_.found at_.name).1
  have hnick : message.param 1 ≠ [] := targets.nickname ▸ invariant.member_nickname
    (List.mem_of_getElem? at_.found) (List.mem_of_getElem? targets.found) member
  have htarget := (invariant.client_lookup hnick targets).1
  have hshort : ¬ message.params.length < 2 := by omega
  have hoperator : ch.isOperator c.fd = true := by simpa using operator
  have hmember : ch.hasMember d.fd = true := by simpa using member
  have hkeeps : (ch.isOperator d.fd && decide (ch.operatorFds.length = 1) &&
      decide (ch.memberFds.length > 1)) = false := by
    rw [Bool.eq_false_iff]
    intro h
    simp only [Bool.and_eq_true, Channel.isOperator_iff, decide_eq_true_eq] at h
    exact keeps ⟨h.1.1, h.1.2, h.2⟩
  unfold kickHandler
  simp only [Server.clientAt_of_getElem? hc, at_.registered, hshort, hlookup,
    Server.channelAt_of_getElem? at_.found, hoperator, htarget,
    Server.clientAt_of_getElem? targets.found, hmember, hkeeps, Bool.not_true, Bool.false_eq_true,
    if_false]
  rw [settle_same hc, ← sendEach_channels_commute, sendMembers_eq _ _ _ _
    invariant.table.clients_nodup]
  by_cases hempty : (ch.removeMember d.fd).memberFds = []
  · simp [Announcement.sends, setChannel, hempty, at_.name, Channel.isEmpty, List.eraseIdx_set_eq]
  · simp [Announcement.sends, setChannel, hempty, at_.name, Channel.isEmpty]

theorem inviteHandler_invites (invariant : Invariant s) (hc : s.clients[i]? = some c)
    (registered : c.registered = true) (two : 2 ≤ message.params.length)
    (hk : s.channels[k]? = some ch) (hname : ch.name = message.param 1)
    (operator : c.fd ∈ ch.operatorFds) (hne : message.param 0 ≠ []) {target : Nat} {d : Client}
    (targets : Targets s.toServer (message.param 0) target d) (outside : d.fd ∉ ch.memberFds) :
    inviteHandler i message s =
      s.settle i c (s.channels.set k (ch.addInvite d.fd))
        [(target, inviteMessage c (message.param 0) ch.name),
          (i, replyCmd 341 c (message.param 0 ++ text " " ++ ch.name))] := by
  have hlookup := (invariant.table.channel_lookup hk hname).1
  have htarget := (invariant.client_lookup hne targets).1
  have hshort : ¬ message.params.length < 2 := by omega
  have hoperator : ch.isOperator c.fd = true := by simpa using operator
  have houtside : ch.hasMember d.fd = false := by simpa [Channel.hasMember] using outside
  unfold inviteHandler
  simp only [Server.clientAt_of_getElem? hc, registered, hshort, htarget, hlookup,
    Server.clientAt_of_getElem? targets.found, Server.channelAt_of_getElem? hk, hoperator, houtside,
    Bool.not_true, Bool.false_eq_true, if_false]
  rw [settle_same hc, hname]
  rfl

/-! ## MODE -/

/-- MODE of an operator leaves what the first of the five functions that answers leaves. -/
theorem modes_answer (invariant : Invariant s) (hc : s.clients[i]? = some c)
    (at_ : Addresses s.toServer c message "MODE" k ch) (operator : c.fd ∈ ch.operatorFds)
    (two : 2 ≤ message.params.length) {s' : Machine}
    (answer : (inviteOnly i message k s <|> letSChangeTheTopic i message k s
      <|> secretKey i message k s <|> limitedUsage i message k s
      <|> operators i message k s) = some s') :
    modes i message s = s' := by
  have hlookup := (invariant.table.channel_lookup at_.found at_.name).2
  have hshort : ¬ message.params.length < 2 := by omega
  have hoperator : ch.isOperator c.fd = true := by simpa using operator
  unfold modes
  simp only [Server.clientAt_of_getElem? hc, at_.registered, hshort, hlookup,
    Server.channelAt_of_getElem? at_.found, hoperator, answer, Bool.not_true, Bool.false_eq_true,
    if_false]

theorem inviteOnly_none (h : message.param 1 ≠ text "+i" ∧ message.param 1 ≠ text "-i") :
    inviteOnly i message k s = none := if_pos h

theorem letSChangeTheTopic_none (h : message.param 1 ≠ text "+t" ∧ message.param 1 ≠ text "-t") :
    letSChangeTheTopic i message k s = none := if_pos h

theorem secretKey_none (h : message.param 1 ≠ text "+k" ∧ message.param 1 ≠ text "-k") :
    secretKey i message k s = none := if_pos h

theorem limitedUsage_none (h : message.param 1 ≠ text "+l" ∧ message.param 1 ≠ text "-l") :
    limitedUsage i message k s = none := if_pos h

theorem two_of_param_ne (h : message.param 1 ≠ []) : 2 ≤ message.params.length := by
  by_contra hshort
  have hout : message.params[1]? = none := List.getElem?_eq_none (by omega)
  rw [Message.param, List.getD_eq_getElem?_getD, hout] at h
  exact h rfl

theorem two_of_param {mode : String} (h : message.param 1 = text mode) (hne : text mode ≠ []) :
    2 ≤ message.params.length :=
  two_of_param_ne (h ▸ hne)

theorem modes_changes (invariant : Invariant s) (hc : s.clients[i]? = some c)
    (at_ : Addresses s.toServer c message "MODE" k ch) (operator : c.fd ∈ ch.operatorFds)
    {ch' : Channel} {change : Bytes} (changes : ModeChange message ch ch' change) :
    modes i message s = announce c k ch' change s := by
  have hclient := Server.clientAt_of_getElem? hc
  have hchannel := Server.channelAt_of_getElem? at_.found
  cases changes with
  | inviteOnly h =>
      have two : 2 ≤ message.params.length :=
        h.elim (two_of_param · (by decide)) (two_of_param · (by decide))
      refine modes_answer invariant hc at_ operator two ?_
      have hanswer : inviteOnly i message k s = some _ := if_neg (by tauto)
      rw [hanswer, hclient, hchannel]
      rfl
  | changeTopic h =>
      have two : 2 ≤ message.params.length :=
        h.elim (two_of_param · (by decide)) (two_of_param · (by decide))
      refine modes_answer invariant hc at_ operator two ?_
      have hnone : inviteOnly i message k s = none := inviteOnly_none (by
        rcases h with h | h
        · rw [h]
          decide
        · rw [h]
          decide)
      have hanswer : letSChangeTheTopic i message k s = some _ := if_neg (by tauto)
      rw [hnone, hanswer, hclient, hchannel]
      rfl
  | key h three =>
      refine modes_answer invariant hc at_ operator (by omega) ?_
      rw [inviteOnly_none (by rw [h]; decide), letSChangeTheTopic_none (by rw [h]; decide)]
      simp only [secretKey, h, hclient, hchannel]
      rw [if_neg (by decide), if_neg (by omega), if_pos trivial]
      rfl
  | noKey h three =>
      refine modes_answer invariant hc at_ operator (by omega) ?_
      rw [inviteOnly_none (by rw [h]; decide), letSChangeTheTopic_none (by rw [h]; decide)]
      simp only [secretKey, h, hclient, hchannel]
      rw [if_neg (by decide), if_neg (by omega), if_neg (by decide)]
      rfl
  | limit h three digits positive =>
      refine modes_answer invariant hc at_ operator (by omega) ?_
      have hdigits : ¬ ((message.param 2).isEmpty || !(message.param 2).all isDigit) = true := by
        simp [digits.1, digits.2]
      rw [inviteOnly_none (by rw [h]; decide), letSChangeTheTopic_none (by rw [h]; decide),
        secretKey_none (by rw [h]; decide)]
      simp only [limitedUsage, h, hclient, hchannel]
      rw [if_neg (by decide), if_neg (by decide), if_neg (by omega), if_neg hdigits,
        if_neg (by omega)]
      rfl
  | noLimit h =>
      refine modes_answer invariant hc at_ operator (two_of_param h (by decide)) ?_
      rw [inviteOnly_none (by rw [h]; decide), letSChangeTheTopic_none (by rw [h]; decide),
        secretKey_none (by rw [h]; decide)]
      simp only [limitedUsage, h, hclient, hchannel]
      rw [if_neg (by decide), if_pos trivial]
      rfl

theorem operators_answer (invariant : Invariant s) (hc : s.clients[i]? = some c)
    (at_ : Addresses s.toServer c message "MODE" k ch) (operator : c.fd ∈ ch.operatorFds)
    (h : message.param 1 = text "+o" ∨ message.param 1 = text "-o")
    (three : 3 ≤ message.params.length) {s' : Machine}
    (answer : operators i message k s = some s') : modes i message s = s' := by
  refine modes_answer invariant hc at_ operator (by omega) ?_
  have hother : ∀ mode ∈ [text "+i", text "-i", text "+t", text "-t", text "+k", text "-k",
      text "+l", text "-l"], message.param 1 ≠ mode := by
    intro mode hmode
    rcases h with h | h
    · rw [h]
      revert mode
      decide
    · rw [h]
      revert mode
      decide
  rw [inviteOnly_none ⟨hother _ (by decide), hother _ (by decide)⟩,
    letSChangeTheTopic_none ⟨hother _ (by decide), hother _ (by decide)⟩,
    secretKey_none ⟨hother _ (by decide), hother _ (by decide)⟩,
    limitedUsage_none ⟨hother _ (by decide), hother _ (by decide)⟩, answer]
  rfl

theorem modes_grants (invariant : Invariant s) (hc : s.clients[i]? = some c)
    (at_ : Addresses s.toServer c message "MODE" k ch) (operator : c.fd ∈ ch.operatorFds)
    (plus : message.param 1 = text "+o") (three : 3 ≤ message.params.length) {target : Nat}
    {d : Client} (targets : Targets s.toServer (message.param 2) target d)
    (member : d.fd ∈ ch.memberFds) (ordinary : d.fd ∉ ch.operatorFds) :
    modes i message s =
      announce c k { ch with operatorFds := ch.operatorFds ++ [d.fd] }
        (text "+o" ++ text " " ++ message.param 2) s := by
  have hnick : message.param 2 ≠ [] := targets.nickname ▸ invariant.member_nickname
    (List.mem_of_getElem? at_.found) (List.mem_of_getElem? targets.found) member
  have htarget := (invariant.client_lookup hnick targets).2
  have hmember : ch.hasMember d.fd = true := by simpa using member
  have hordinary : ch.isOperator d.fd = false := by simpa [Channel.isOperator] using ordinary
  refine operators_answer invariant hc at_ operator (.inl plus) three ?_
  simp only [operators, Server.clientAt_of_getElem? hc, Server.channelAt_of_getElem? at_.found, plus,
    htarget, Server.clientAt_of_getElem? targets.found, hmember, hordinary,
    Channel.addOperator_of_not_mem ordinary, Bool.not_true, Bool.false_eq_true, if_false]
  rw [if_neg (by decide), if_neg (by omega), if_pos trivial]

theorem modes_revokes (invariant : Invariant s) (hc : s.clients[i]? = some c)
    (at_ : Addresses s.toServer c message "MODE" k ch) (operator : c.fd ∈ ch.operatorFds)
    (minus : message.param 1 = text "-o") (three : 3 ≤ message.params.length) {target : Nat}
    {d : Client} (targets : Targets s.toServer (message.param 2) target d)
    (member : d.fd ∈ ch.memberFds) (special : d.fd ∈ ch.operatorFds)
    (several : ch.operatorFds.length ≠ 1) :
    modes i message s =
      announce c k (ch.removeOperator d.fd) (text "-o" ++ text " " ++ message.param 2) s := by
  have hnick : message.param 2 ≠ [] := targets.nickname ▸ invariant.member_nickname
    (List.mem_of_getElem? at_.found) (List.mem_of_getElem? targets.found) member
  have htarget := (invariant.client_lookup hnick targets).2
  have hmember : ch.hasMember d.fd = true := by simpa using member
  have hspecial : ch.isOperator d.fd = true := by simpa using special
  refine operators_answer invariant hc at_ operator (.inr minus) three ?_
  simp only [operators, Server.clientAt_of_getElem? hc, Server.channelAt_of_getElem? at_.found, minus,
    htarget, Server.clientAt_of_getElem? targets.found, hmember, hspecial, several, Bool.not_true,
    Bool.false_eq_true, if_false]
  rw [if_neg (by decide), if_neg (by omega), if_neg (by decide)]

end Handlers

/-! ## The dispatcher -/

section Dispatch

variable {s : Machine} {i : Nat} {c : Client} {line : Bytes}

theorem dispatchCommand_privmsg (command : (Parser.parse line).command = text "PRIVMSG") :
    dispatchCommand i line s = privmsgHandler i (Parser.parse line) s := by
  have hword : (Parser.parse line).cmd.map toUpper = text "PRIVMSG" := command
  simp only [dispatchCommand, hword]
  rfl

theorem dispatchCommand_topic (command : (Parser.parse line).command = text "TOPIC") :
    dispatchCommand i line s = topicHandler i (Parser.parse line) s := by
  have hword : (Parser.parse line).cmd.map toUpper = text "TOPIC" := command
  simp only [dispatchCommand, hword]
  rfl

theorem dispatchCommand_kick (command : (Parser.parse line).command = text "KICK") :
    dispatchCommand i line s = kickHandler i (Parser.parse line) s := by
  have hword : (Parser.parse line).cmd.map toUpper = text "KICK" := command
  simp only [dispatchCommand, hword]
  rfl

theorem dispatchCommand_mode (command : (Parser.parse line).command = text "MODE") :
    dispatchCommand i line s = modes i (Parser.parse line) s := by
  have hword : (Parser.parse line).cmd.map toUpper = text "MODE" := command
  simp only [dispatchCommand, hword]
  rfl

theorem dispatchCommand_invite (command : (Parser.parse line).command = text "INVITE") :
    dispatchCommand i line s = inviteHandler i (Parser.parse line) s := by
  have hword : (Parser.parse line).cmd.map toUpper = text "INVITE" := command
  simp only [dispatchCommand, hword]
  rfl

/-- An accepted channel command leaves the announced channel table and queues the announcement. -/
theorem Announces.dispatched (invariant : Invariant s) (hc : s.clients[i]? = some c)
    {channels : List Channel} {a : Announcement}
    (announces : Announces s.toServer c (Parser.parse line) channels a) :
    dispatchCommand i line s = s.settle i c channels (a.sends s.clients i) := by
  have table := invariant.table
  cases announces with
  | create command registered valid fresh =>
      rw [dispatchCommand_join command,
        joinHandler_founds hc table.clients_nodup registered valid fresh]
  | join k ch at_ admits =>
      rw [dispatchCommand_join at_.command, joinHandler_found hc table at_.registered at_.found
        at_.name, joinChannel_joins hc table at_.found at_.name admits]
  | privmsg k ch at_ two body member =>
      rw [dispatchCommand_privmsg at_.command,
        privmsgHandler_announces invariant hc at_ two body member]
  | topic k ch at_ two member allowed =>
      rw [dispatchCommand_topic at_.command,
        topicHandler_announces invariant hc at_ two member allowed]
  | kick k ch at_ two operator target d targets member keeps =>
      rw [dispatchCommand_kick at_.command,
        kickHandler_announces invariant hc at_ two operator targets member keeps]
  | mode k ch ch' change at_ operator changes =>
      rw [dispatchCommand_mode at_.command, modes_changes invariant hc at_ operator changes]
      cases changes <;> exact announce_eq hc _ _ rfl rfl
  | grant k ch at_ operator plus three target d targets member ordinary =>
      rw [dispatchCommand_mode at_.command,
        modes_grants invariant hc at_ operator plus three targets member ordinary]
      exact announce_eq hc _ _ rfl rfl
  | revoke k ch at_ operator minus three target d targets member special several =>
      rw [dispatchCommand_mode at_.command,
        modes_revokes invariant hc at_ operator minus three targets member special several]
      exact announce_eq hc _ _ rfl rfl

end Dispatch

end IrcServer
