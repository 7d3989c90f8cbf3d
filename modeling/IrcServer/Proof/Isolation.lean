import IrcServer.Proof.Delivery

/-! # Clients that are not registered

The handlers ask whether their sender is registered, never whether a receiver is. A
connection that has sent PASS and NICK can be found by its nickname: a PRIVMSG and an
INVITE reach it. Nothing else that others do does.
-/

namespace IrcServer

open Search Machine Transition

structure Isolated (s s' : Machine) (j : Nat) (d : Client) : Prop where
  buffer : (s'.clientAt j).fd = d.fd ∧ (s'.clientAt j).sendBuffer = d.sendBuffer
  members : ∀ ch' ∈ s'.channels, d.fd ∈ ch'.memberFds →
    ∃ ch ∈ s.channels, ch.name = ch'.name ∧ d.fd ∈ ch.memberFds
  operators : ∀ ch' ∈ s'.channels, d.fd ∈ ch'.operatorFds →
    ∃ ch ∈ s.channels, ch.name = ch'.name ∧ d.fd ∈ ch.operatorFds
  invited : ∀ ch' ∈ s'.channels, d.fd ∈ ch'.invitedFds →
    ∃ ch ∈ s.channels, ch.name = ch'.name ∧ d.fd ∈ ch.invitedFds

/-- A private message, or an invitation by an operator, to the nickname of `d`. -/
inductive Reaches (s : Server) (c d : Client) (message : Message) : Prop
  | whispers (command : message.command = text "PRIVMSG") (registered : c.registered = true)
      (body : message.param 1 ≠ []) (nick : d.nickname = message.param 0)
  | invites (command : message.command = text "INVITE") (ch : Channel) (hch : ch ∈ s.channels)
      (name : ch.name = message.param 1) (operator : c.fd ∈ ch.operatorFds)
      (nick : d.nickname = message.param 0)

/-! ## Who is reached -/

section Line

variable {s : Server} {i : Nat} {c : Client} {message : Message} {c' : Client}
  {channels : List Channel} {sends : List (Nat × Bytes)}

theorem messagesFor_eq_nil {j : Nat} (h : ∀ call ∈ sends, call.1 ≠ j) : messagesFor j sends = [] := by
  rw [messagesFor, List.map_eq_nil_iff, List.filter_eq_nil_iff]
  intro call hcall
  simpa using h call hcall

/-- A client that is a member of no channel is sent something by others only if it is reached. -/
theorem Dispatched.reaches (effect : Dispatched s i c message c' channels sends) (table : Table s)
    (hc : s.clients[i]? = some c) {j : Nat} {d : Client} (hd : s.clients[j]? = some d)
    (hji : j ≠ i) (outside : ∀ ch ∈ s.channels, d.fd ∉ ch.memberFds) :
    messagesFor j sends = [] ∨ Reaches s c d message := by
  have mine : ∀ replies : List Bytes, messagesFor j (replies.map (i, ·)) = [] := fun replies => by
    rw [messagesFor_replies, if_neg hji]
  have same : ∀ {nick : Bytes} {x : Client}, Targets s nick j x → d.nickname = nick := by
    intro nick x targets
    obtain rfl := Option.some.inj (hd.symm.trans targets.found)
    exact targets.nickname
  cases effect with
  | silent => exact Or.inl rfl
  | passed => exact Or.inl rfl
  | refused m => exact Or.inl (mine [m])
  | answered k ch => exact Or.inl (mine [topicReply c ch])
  | nick => exact Or.inl (mine _)
  | user => exact Or.inl (mine _)
  | whispered command registered two body nick target x targets =>
      by_cases htarget : target = j
      · subst htarget
        exact Or.inr (.whispers command registered body (same targets))
      · exact Or.inl (messagesFor_eq_nil (by simpa using htarget))
  | invited command registered two k ch found name operator target x targets =>
      by_cases htarget : target = j
      · subst htarget
        exact Or.inr (.invites command ch (List.mem_of_getElem? found) name operator (same targets))
      · exact Or.inl (messagesFor_eq_nil (by simpa using ⟨htarget, Ne.symm hji⟩))
  | announced channels a announces =>
      have hfd : d.fd ≠ c.fd := fun heq => hji (table.fd_position hd hc heq)
      have unaddressed : d.fd ∉ a.recipients := by
        rw [announces.recipients_iff table]
        rintro ⟨⟨ch, hch, _, hmember⟩ | ⟨_, hself⟩, _⟩
        · exact outside ch hch hmember
        · exact hfd hself
      left
      rw [announces.messagesFor_eq table hd, if_neg unaddressed, if_neg hji, List.append_nil]

theorem Channel.Change.invitees {ch ch' : Channel} (change : Channel.Change s c message ch ch')
    {fd : Int} (hfd : fd ∈ ch'.invitedFds) :
    fd ∈ ch.invitedFds ∨ message.command = text "INVITE" ∧ c.fd ∈ ch.operatorFds ∧
      ∃ d ∈ s.clients, d.fd = fd ∧ d.nickname = message.param 0 := by
  cases change with
  | moded command operator ch' change changes => cases changes <;> exact Or.inl hfd
  | invited command operator target d targets outside =>
      rcases (ch.mem_addInvite d.fd fd).mp hfd with hfd | hfd
      · exact Or.inl hfd
      · exact Or.inr ⟨command, operator, d, List.mem_of_getElem? targets.found, hfd.symm,
          targets.nickname⟩
  | _ => exact Or.inl hfd

end Line

section Step

variable {s s' : Machine} {i j : Nat} {c d : Client} {line : Bytes}

theorem Invariant.outside (invariant : Invariant s) (hd : d ∈ s.clients)
    (unregistered : d.registered = false) : ∀ ch ∈ s.channels, d.fd ∉ ch.memberFds := by
  intro ch hch hmember
  obtain ⟨x, hx, hfd, hreg⟩ := invariant.identities.members ch hch d.fd hmember
  rw [invariant.table.same_client hx hd hfd, unregistered] at hreg
  cases hreg

theorem isolated_of_not_reaches (invariant : Invariant s) (hc : s.clients[i]? = some c)
    (hd : s.clients[j]? = some d) (hji : j ≠ i) (unregistered : d.registered = false)
    (hstep : step s (.command i line) = some s')
    (unreached : ¬ Reaches s.toServer c d (Parser.parse line)) : Isolated s s' j d := by
  have table := invariant.table
  have outside := invariant.outside (List.mem_of_getElem? hd) unregistered
  have hfd : d.fd ≠ c.fd := fun heq => hji (table.fd_position hd hc heq)
  have stepped := step_stepped table hstep
  have table' := table.step hstep
  have outside' : ∀ ch' ∈ s'.channels, d.fd ∉ ch'.memberFds := by
    intro ch' hch' hmember
    cases stepped.channel_origin hch' with
    | kept hch => exact outside ch' hch hmember
    | left _ _ event => cases event
    | founded k line' event x hx registered command valid fresh same =>
        cases event
        obtain rfl := Option.some.inj (hc.symm.trans hx)
        rw [same] at hmember
        exact hfd (List.mem_singleton.mp hmember)
    | changed k line' event clean x hx registered k' ch found name change =>
        cases event
        obtain rfl := Option.some.inj (hc.symm.trans hx)
        rcases change.members hmember with hmember | hself
        · exact outside ch (List.mem_of_getElem? found) hmember
        · exact hfd hself
  constructor
  · cases stepped with
    | dispatched _ x hx _ clean c' channels sends effect =>
        obtain rfl := Option.some.inj (hc.symm.trans hx)
        have hnone := (effect.reaches table hc hd hji outside).resolve_right unreached
        have hafter := settle_other (s := s.record (.line c.fd line)) i c' channels sends hji hd
        rw [Server.clientAt_of_getElem? hafter, hnone]
        exact ⟨rfl, List.append_nil _⟩
  · exact fun ch' hch' hmember => absurd hmember (outside' ch' hch')
  · intro ch' hch' hop
    exact absurd ((table'.consistent ch' hch').operators_members d.fd hop) (outside' ch' hch')
  · intro ch' hch' hinvited
    cases stepped.channel_origin hch' with
    | kept hch => exact ⟨ch', hch, rfl, hinvited⟩
    | left _ _ event => cases event
    | founded k line' event x hx registered command valid fresh same =>
        rw [same] at hinvited
        cases hinvited
    | changed k line' event clean x hx registered k' ch found name change =>
        cases event
        obtain rfl := Option.some.inj (hc.symm.trans hx)
        have hch := List.mem_of_getElem? found
        rcases change.invitees hinvited with hold | ⟨command, operator, y, hy, hyfd, hnick⟩
        · exact ⟨ch, hch, change.name_eq.symm, hold⟩
        · obtain rfl := table.same_client hy (List.mem_of_getElem? hd) hyfd
          have hname : (Parser.parse line).channelName = (Parser.parse line).param 1 := if_pos command
          exact absurd (.invites command ch hch (name.trans hname) operator hnick) unreached

/-- A nickname does not look like the name of a channel. -/
theorem checkNickValid_head {nick : Bytes} (valid : checkNickValid nick = true) :
    nick.head? ≠ some hash := by
  cases nick with
  | nil => simp
  | cons first rest =>
      simp only [checkNickValid, Bool.and_eq_true] at valid
      rintro ⟨⟩
      exact absurd valid.1.1 (by decide)

theorem Reaches.not_isolated (invariant : Invariant s) (hc : s.clients[i]? = some c)
    (hd : s.clients[j]? = some d) (hji : j ≠ i) (unregistered : d.registered = false)
    (hstep : step s (.command i line) = some s')
    (reaches : Reaches s.toServer c d (Parser.parse line)) : ¬ Isolated s s' j d := by
  have hdmem := List.mem_of_getElem? hd
  have sound := invariant.identities.sound d hdmem
  have outside := invariant.outside hdmem unregistered
  -- whatever is queued to `d` lengthens its send buffer
  have lengthened : ∀ (channels : List Channel) (sends : List (Nat × Bytes)),
      s' = (s.record (.line c.fd line)).settle i c channels sends →
      (messagesFor j sends).flatten ≠ [] → ¬ Isolated s s' j d := by
    rintro channels sends rfl hne isolated
    have hafter := settle_other (s := s.record (.line c.fd line)) i c channels sends hji hd
    have hbuffer := isolated.buffer.2
    rw [Server.clientAt_of_getElem? hafter] at hbuffer
    exact hne (List.append_right_eq_self.mp hbuffer)
  have logged : Invariant (s.record (.line c.fd line)) := ⟨invariant.table, invariant.identities⟩
  cases reaches with
  | whispers command registered body nick =>
      have two := two_of_param_ne body
      have hne := Parser.param_zero_ne_nil two
      have hhead := checkNickValid_head (sound.valid (nick ▸ hne))
      have targets : Targets s.toServer ((Parser.parse line).param 0) j d := ⟨hd, nick⟩
      refine lengthened s.channels
        [(j, privmsgMessage c ((Parser.parse line).param 0) ((Parser.parse line).param 1))] ?_ ?_
      · rw [(step_command hc hstep).2, dispatchCommand_privmsg command]
        exact privmsgHandler_whispers (s := s.record (.line c.fd line)) logged hc registered two body
          (nick ▸ hhead) hne targets
      · simp [messagesFor, privmsgMessage_eq, wireLine_ne_nil]
  | invites command ch hch name operator nick =>
      obtain ⟨k, hk⟩ := List.mem_iff_getElem?.mp hch
      have consistent := invariant.table.consistent ch hch
      have hparam : (Parser.parse line).param 1 ≠ [] := by
        rintro hnil
        have valid := consistent.valid
        rw [name, hnil] at valid
        cases valid
      have two := two_of_param_ne hparam
      have hne := Parser.param_zero_ne_nil two
      have targets : Targets s.toServer ((Parser.parse line).param 0) j d := ⟨hd, nick⟩
      have registered : c.registered = true := by
        by_contra hreg
        exact invariant.outside (List.mem_of_getElem? hc) (by simpa using hreg) ch hch
          (consistent.operators_members c.fd operator)
      refine lengthened (s.channels.set k (ch.addInvite d.fd))
        [(j, inviteMessage c ((Parser.parse line).param 0) ch.name),
          (i, replyCmd 341 c ((Parser.parse line).param 0 ++ text " " ++ ch.name))] ?_ ?_
      · rw [(step_command hc hstep).2, dispatchCommand_invite command]
        exact inviteHandler_invites (s := s.record (.line c.fd line)) logged hc registered two hk
          name operator hne targets (outside ch hch)
      · simp [messagesFor, Ne.symm hji, inviteMessage_eq, wireLine_ne_nil]

/-- A line of somebody else leaves a client that is not registered alone exactly if it is neither
a private message nor an invitation to its nickname. -/
theorem isolated_iff_not_reached (h : Reachable s) (hc : s.clients[i]? = some c)
    (hd : s.clients[j]? = some d) (distinct : i ≠ j) (unregistered : d.registered = false)
    (hstep : step s (.command i line) = some s') :
    Isolated s s' j d ↔ ¬ Reaches s.toServer c d (Parser.parse line) := by
  constructor
  · intro isolated reaches
    exact reaches.not_isolated h.invariant hc hd (Ne.symm distinct) unregistered hstep isolated
  · exact isolated_of_not_reaches h.invariant hc hd (Ne.symm distinct) unregistered hstep

end Step

def halfRegisteredRun : List Event :=
  [.connect 4 0, .connect 5 0] ++ registration 0 "kaw" ++
    [.command 1 (text "PASS pw"), .command 1 (text "NICK akira")]

theorem isolated_iff_not_reached_sample :
    Isolated (stateAfter halfRegisteredRun)
        (stateAfter (halfRegisteredRun ++ [.command 0 (text "JOIN #42")])) 1
        ((stateAfter halfRegisteredRun).clientAt 1) ↔
      ¬ Reaches (stateAfter halfRegisteredRun).toServer ((stateAfter halfRegisteredRun).clientAt 0)
        ((stateAfter halfRegisteredRun).clientAt 1) (Parser.parse (text "JOIN #42")) := by
  have hc : (stateAfter halfRegisteredRun).clients[0]? = some _ := clientAt_table (by decide)
  have hd : (stateAfter halfRegisteredRun).clients[1]? = some _ := clientAt_table (by decide)
  exact isolated_iff_not_reached (stateAfter_reachable halfRegisteredRun) hc hd (by decide)
    (by decide) (step_stateAfter halfRegisteredRun (.command 0 (text "JOIN #42")) (by decide))

/-- The half registered client is sent a private message. -/
theorem not_isolated_reachable : ¬ ∀ (s s' : Machine) (i j : Nat) (c d : Client) (line : Bytes),
    Reachable s → s.clients[i]? = some c → s.clients[j]? = some d → i ≠ j → d.registered = false →
      step s (.command i line) = some s' → Isolated s s' j d := by
  intro h
  have hc : (stateAfter halfRegisteredRun).clients[0]? = some _ := clientAt_table (by decide)
  have hd : (stateAfter halfRegisteredRun).clients[1]? = some _ := clientAt_table (by decide)
  have hstep := step_stateAfter halfRegisteredRun (.command 0 (text "PRIVMSG akira :hi")) (by decide)
  have isolated := h _ _ 0 1 _ _ _ (stateAfter_reachable halfRegisteredRun) hc hd (by decide)
    (by decide) hstep
  exact absurd isolated.buffer.2 (by decide)

end IrcServer
