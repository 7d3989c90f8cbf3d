import IrcServer.Proof.Abstraction
import IrcServer.Proof.Delivery

/-! # A line does to the tables what it does to the network

Every handler is walked through together with its part of `Network.respond`. `Follows`
says that they agree: the record of the sender, the one channel that changes, and what is
queued to everybody connected. Here are the commands that change no members: PASS, NICK,
USER, PRIVMSG and TOPIC.
-/

namespace IrcServer

open Search Machine Network

structure Enacts (s : Machine) (reaction : Reaction Int) (c' : Client) (channels : List Channel)
    (sends : List (Nat × Bytes)) : Prop where
  account : c'.account = reaction.account
  unchanged : reaction.change = none → channels = s.channels
  changed : ∀ name after, reaction.change = some (name, after) → Stores s name after channels
  outbox : ∀ j d, s.clients[j]? = some d →
    messagesFor j sends = (reaction.outbox d.fd).map Notice.render

theorem Client.Sound.account_unregistered {c : Client} (sound : c.Sound) :
    (!c.registered) = true ↔ ¬ c.account.Registered := by
  rw [sound.account_registered]
  simp

theorem outside_iff {ch : Channel} {fd : Int} :
    (!ch.hasMember fd) = true ↔ fd ∉ ch.memberFds := by
  rw [Bool.not_eq_true', Bool.eq_false_iff, ne_eq, ch.hasMember_iff]

theorem ordinary_iff {ch : Channel} {fd : Int} :
    (!ch.isOperator fd) = true ↔ fd ∉ ch.operatorFds := by
  rw [Bool.not_eq_true', Bool.eq_false_iff, ne_eq, ch.isOperator_iff]

/-- A handler leaves the machine as the reaction says. -/
def Follows (s : Machine) (i : Nat) (c : Client) (message : Message) (reaction : Reaction Int)
    (t : Machine) : Prop :=
  ∃ c' channels sends, Dispatched s.toServer i c message c' channels sends ∧
    t = s.settle i c' channels sends ∧ Enacts s reaction c' channels sends

theorem messagesFor_single (j k : Nat) (m : Bytes) :
    messagesFor j [(k, m)] = if j = k then [m] else [] := by
  by_cases h : k = j
  · simp [messagesFor, h]
  · simp [messagesFor, h, Ne.symm h]

section Follows

variable {s : Machine} {i : Nat} {c : Client} {message : Message} {reaction : Reaction Int}
  {t : Machine}

/-- Both sides branch, on conditions that say the same. -/
theorem Follows.ite {p q : Prop} {_ : Decidable p} {_ : Decidable q} {reaction' : Reaction Int}
    {t' : Machine} (same : q ↔ p) (yes : p → Follows s i c message reaction t)
    (no : ¬ p → Follows s i c message reaction' t') :
    Follows s i c message (if p then reaction else reaction') (if q then t else t') := by
  by_cases h : p
  · rw [if_pos h, if_pos (same.mpr h)]
    exact yes h
  · rw [if_neg h, if_neg fun hq => h (same.mp hq)]
    exact no h

variable (table : Table s.toServer) (hc : s.clients[i]? = some c)

include hc

theorem settle_single {j : Nat} {m : Bytes} :
    s.settle i c s.channels [(j, m)] = s.sendingQueue j m :=
  settle_same hc s.channels [(j, m)]

theorem Follows.silence : Follows s i c message (Network.silence c.account) s :=
  ⟨c, s.channels, [], .silent, (settle_same hc s.channels []).symm,
    ⟨rfl, fun _ => rfl, fun _ _ h => (Option.some_ne_none _ h.symm).elim, fun _ _ _ => rfl⟩⟩

include table

theorem messagesFor_reply {j : Nat} {d : Client} (hd : s.clients[j]? = some d) {notice : Notice}
    {m : Bytes} (h : notice.render = m) :
    messagesFor j [(i, m)] =
      ((reply c.fd c.account notice).outbox d.fd).map Notice.render := by
  rw [messagesFor_single]
  simp only [Network.reply, table.fd_eq_iff hd hc, apply_ite (List.map Notice.render),
    List.map_cons, List.map_nil, h]

theorem Follows.answer {notice : Notice} {m : Bytes}
    (effect : Dispatched s.toServer i c message c s.channels [(i, m)]) (h : notice.render = m) :
    Follows s i c message (Network.reply c.fd c.account notice) (s.sendingQueue i m) :=
  ⟨c, s.channels, [(i, m)], effect, (settle_single hc).symm,
    ⟨rfl, fun _ => rfl, fun _ _ h => (Option.some_ne_none _ h.symm).elim,
      fun _ _ hd => messagesFor_reply table hc hd h⟩⟩

theorem Follows.reply {notice : Notice} {m : Bytes} (refusal : Refusal c m)
    (h : notice.render = m) :
    Follows s i c message (Network.reply c.fd c.account notice) (s.sendingQueue i m) :=
  .answer table hc (.refused m refusal) h

theorem Follows.numeric {code : Nat} {cmd : Bytes} (h : code ∈ errorCodes) (clean : LF ∉ cmd) :
    Follows s i c message (Network.reply c.fd c.account (.numeric code c.account.nick cmd))
      (s.sendingQueue i (replyCmd code c cmd)) := by
  apply Follows.reply table hc (refusal_numeric c h clean)
  rw [account_nick]
  exact replyCmd_addressee code c cmd

theorem Follows.literal {code : Nat} {cmd : Bytes} (h : code ∈ errorCodes ∧ LF ∉ cmd) :
    Follows s i c message (Network.reply c.fd c.account (.numeric code c.account.nick cmd))
      (s.sendingQueue i (replyCmd code c cmd)) :=
  .numeric table hc h.1 h.2

/-- A refusal whose text leaves out what it is given. -/
theorem Follows.bare {code : Nat} {cmd : Bytes}
    (h : code ∈ errorCodes ∧ code ∈ [1, 411, 412, 431, 451, 462, 464]) :
    Follows s i c message (Network.reply c.fd c.account (.numeric code c.account.nick []))
      (s.sendingQueue i (replyCmd code c cmd)) := by
  rw [replyCmd_bare h.2]
  exact .numeric table hc h.1 List.not_mem_nil

omit hc in
/-- An announcement, whatever it changes. -/
theorem Follows.announced {channels : List Channel} {a : Announcement}
    (announces : Announces s.toServer c message channels a)
    (ht : t = s.settle i c channels (a.sends s.clients i)) (account : c.account = reaction.account)
    (unchanged : reaction.change = none → channels = s.channels)
    (changed : ∀ name after, reaction.change = some (name, after) → Stores s name after channels)
    (outbox : ∀ j d, s.clients[j]? = some d →
      (if d.fd ∈ a.recipients then [a.line] else []) ++ (if j = i then a.replies else []) =
        (reaction.outbox d.fd).map Notice.render) : Follows s i c message reaction t :=
  ⟨c, channels, _, .announced channels a announces, ht, account, unchanged, changed,
    fun j d hd => (announces.messagesFor_eq table hd).trans (outbox j d hd)⟩

omit hc in
theorem Follows.announce {channels : List Channel} {a : Announcement}
    (announces : Announces s.toServer c message channels a)
    (ht : t = s.settle i c channels (a.sends s.clients i)) {name : Bytes} {r : Room Int}
    {after : Option (Room Int)} {notice : Notice} (alone : a.replies = [])
    (line : notice.render = a.line) (members : ∀ fd, fd ∈ a.recipients ↔ fd ∈ r.members)
    (stores : Stores s name after channels) :
    Follows s i c message (Network.announce c.account name r after notice) t := by
  apply Follows.announced table announces ht rfl
  · exact fun h => (Option.some_ne_none _ h).elim
  · intro name' after' h
    obtain ⟨rfl, rfl⟩ := Prod.mk.inj (Option.some.inj h)
    exact stores
  · intro j d _
    rw [alone, ite_self, List.append_nil]
    simp only [Network.announce, members]
    by_cases hmember : d.fd ∈ r.members
    · rw [if_pos hmember, if_pos hmember, List.map_singleton, line]
    · rw [if_neg hmember, if_neg hmember, List.map_nil]

end Follows

/-! ## Registration -/

section Registration

variable {s : Machine} {i : Nat} {c : Client} {message : Message} (invariant : Invariant s)
  (hc : s.clients[i]? = some c)

theorem Follows.stored {c' : Client} {ms : List Bytes} {reaction : Reaction Int}
    (table : Table s.toServer) (hc : s.clients[i]? = some c)
    (effect : Dispatched s.toServer i c message c' s.channels (ms.map (i, ·)))
    (account : c'.account = reaction.account) (kept : reaction.change = none)
    {notices : List Notice} (outbox : ∀ fd, reaction.outbox fd = if fd = c.fd then notices else [])
    (render : notices.map Notice.render = ms) {t : Machine}
    (ht : t = s.settle i c' s.channels (ms.map (i, ·))) : Follows s i c message reaction t := by
  refine ⟨c', s.channels, _, effect, ht, account, fun _ => rfl, ?_, ?_⟩
  · intro name after h
    rw [kept] at h
    cases h
  · intro j d hd
    simp only [messagesFor_replies, outbox, table.fd_eq_iff hd hc]
    by_cases hji : j = i
    · rw [if_pos hji, if_pos hji, render]
    · rw [if_neg hji, if_neg hji, List.map_nil]

theorem Follows.untold {c' : Client} {ms : List Bytes} {reaction : Reaction Int}
    (table : Table s.toServer) (hc : s.clients[i]? = some c)
    (effect : Dispatched s.toServer i c message c' s.channels (ms.map (i, ·))) (hms : ms = [])
    (account : c'.account = reaction.account) (kept : reaction.change = none)
    (outbox : ∀ fd, reaction.outbox fd = []) {t : Machine}
    (ht : t = s.settle i c' s.channels (ms.map (i, ·))) : Follows s i c message reaction t := by
  have none : ∀ fd, reaction.outbox fd = if fd = c.fd then [] else [] := fun fd => by
    rw [outbox, ite_self]
  exact .stored table hc effect account kept none hms.symm ht

include invariant hc

theorem passHundler_follows (command : message.command = text "PASS") :
    Follows s i c message ((s.network invariant.table).pass c.fd c.account message)
      (passHundler i message s) := by
  have sound := invariant.identities.sound c (List.mem_of_getElem? hc)
  unfold passHundler Network.pass
  simp only [Server.clientAt_of_getElem? hc]
  apply Follows.ite sound.account_registered.symm
  · exact fun _ => .bare invariant.table hc (by decide)
  · intro hreg
    apply Follows.ite List.isEmpty_iff
    · exact fun _ => .literal invariant.table hc (by decide)
    · intro hgiven
      refine Follows.ite Iff.rfl (fun hpass => ?_) fun _ => .bare invariant.table hc (by decide)
      have unregistered : c.registered = false := by
        simpa [sound.account_registered] using hreg
      have effect : Dispatched s.toServer i c message _ s.channels (([] : List Bytes).map (i, ·)) :=
        .passed command unregistered hgiven hpass
      exact .untold invariant.table hc effect rfl rfl rfl (fun _ => rfl) rfl

omit hc in
theorem network_taken {nick : Bytes} :
    (∃ fd, fd ≠ c.fd ∧ (s.network invariant.table).Holds nick fd) ↔
      ∃ d ∈ s.clients, d.nickname = nick ∧ d.fd ≠ c.fd := by
  constructor
  · rintro ⟨fd, hne, hholds⟩
    obtain ⟨d, hd, rfl, hnick⟩ := (network_holds invariant.table).mp hholds
    exact ⟨d, hd, hnick, hne⟩
  · rintro ⟨d, hd, hnick, hne⟩
    exact ⟨d.fd, hne, (network_holds_iff invariant.table hd).mpr hnick⟩

/-- An accepted NICK tells of the new nickname, completes the registration, or neither. -/
theorem nickHundler_renames (command : message.command = text "NICK") (pass : c.passRecived = true)
    (valid : checkNickValid (message.param 0) = true)
    (unused : ∀ d ∈ s.clients, d.nickname = message.param 0 → d.fd = c.fd) :
    Follows s i c message ((s.network invariant.table).nick c.fd c.account message)
      (nickHundler i message s) := by
  have sound := invariant.identities.sound c (List.mem_of_getElem? hc)
  have given : message.params ≠ [] := by
    intro hnil
    rw [Message.param, hnil] at valid
    cases valid
  have hne : message.param 0 ≠ [] := by
    intro hnil
    rw [hnil] at valid
    cases valid
  have free : ¬ ∃ fd, fd ≠ c.fd ∧ (s.network invariant.table).Holds (message.param 0) fd := by
    rw [network_taken invariant]
    rintro ⟨d, hd, hnick, hother⟩
    exact hother (unused d hd hnick)
  have hpass : ¬ c.account.passed = false := by simp [Client.account, pass]
  have hvalid : ¬ checkNickValid (message.param 0) = false := by simp [valid]
  have effect := Dispatched.nick (i := i) (s := s.toServer) command pass valid unused
  have haccount : (c.renamed (message.param 0)).account =
      { c.account with nickname := some (message.param 0) } := by
    rw [Client.account, Client.renamed, noneIfEmpty_eq_some hne]
    rfl
  rw [nickHundler_accepts hc pass valid unused]
  unfold Network.nick
  simp only [if_neg hpass, if_neg given, if_neg hvalid, if_neg free]
  by_cases hreg : c.account.Registered
  · have registered := sound.account_registered.mp hreg
    rw [if_pos hreg]
    apply Follows.stored invariant.table hc effect haccount rfl (fun _ => rfl) _ rfl
    simp [nickReplies, registered, Notice.render]
  · have unregistered : c.registered = false := by
      simpa [sound.account_registered] using hreg
    rw [if_neg hreg]
    by_cases huser : c.account.username ≠ none
    · have received := (account_username c).mp huser
      rw [if_pos huser]
      apply Follows.stored invariant.table hc effect haccount rfl (fun _ => rfl) _ rfl
      simp only [nickReplies, unregistered, received, Notice.render, List.map_singleton]
      rfl
    · have received : c.userRecived = false := by simpa [account_username] using huser
      rw [if_neg huser]
      have hnone : nickReplies c (message.param 0) = [] := by
        simp [nickReplies, unregistered, received]
      exact .untold invariant.table hc effect hnone haccount rfl (fun _ => rfl) rfl

theorem nickHundler_follows (clean : message.Clean) (command : message.command = text "NICK") :
    Follows s i c message ((s.network invariant.table).nick c.fd c.account message)
      (nickHundler i message s) := by
  by_cases accepted : c.passRecived = true ∧ checkNickValid (message.param 0) = true ∧
      ∀ d ∈ s.clients, d.nickname = message.param 0 → d.fd = c.fd
  · exact nickHundler_renames invariant hc command accepted.1 accepted.2.1 accepted.2.2
  · have table := invariant.table
    unfold nickHundler Network.nick
    simp only [Server.clientAt_of_getElem? hc]
    refine Follows.ite (by simp [Client.account]) (fun _ => .bare table hc (by decide))
      fun hpass => ?_
    refine Follows.ite List.isEmpty_iff (fun _ => .bare table hc (by decide)) fun _ => ?_
    refine Follows.ite (by simp) (fun _ => .numeric table hc (by decide) (clean.param 0))
      fun hvalid => ?_
    refine Follows.ite (by simp [network_taken invariant])
      (fun _ => .numeric table hc (by decide) (clean.param 0)) fun hfree =>
        absurd ⟨?_, ?_, ?_⟩ accepted
    · simpa [Client.account] using hpass
    · simpa using hvalid
    · intro d hd hnick
      by_contra hne
      exact hfree ((network_taken invariant).mpr ⟨d, hd, hnick, hne⟩)

theorem userHandler_follows (command : message.command = text "USER") :
    Follows s i c message (Network.user c.fd c.account message) (userHandler i message s) := by
  have sound := invariant.identities.sound c (List.mem_of_getElem? hc)
  unfold userHandler Network.user
  simp only [Server.clientAt_of_getElem? hc]
  refine Follows.ite sound.account_registered.symm
    (fun _ => .bare invariant.table hc (by decide)) fun hreg => ?_
  refine Follows.ite (by simp [Client.account]) (fun _ => .bare invariant.table hc (by decide))
    fun hpass => ?_
  refine Follows.ite Iff.rfl (fun _ => .literal invariant.table hc (by decide)) fun hfour => ?_
  have unregistered : c.registered = false := by
    simpa [sound.account_registered] using hreg
  have pass : c.passRecived = true := by simpa [Client.account] using hpass
  have effect := Dispatched.user (i := i) (s := s.toServer) command unregistered pass
    (Nat.not_lt.mp hfour)
  have received : c.nicknameReceived = true ↔ c.account.nickname ≠ none :=
    sound.received.trans noneIfEmpty_ne_none.symm
  refine Follows.ite received (fun hnick => ?_) fun hnick => ?_
  · apply Follows.stored invariant.table hc effect rfl rfl (fun _ => rfl)
    · rw [userReplies, if_pos (received.mpr hnick), account_nick]
      rfl
    · have hnickname := received.mpr hnick
      simp [userReplies, hnickname, settle, Client.introduced, setClient, sendEach,
        Client.setUsername, Client.setUserIsRecived, Client.setRegistered]
  · have hnickname : c.nicknameReceived = false := Bool.eq_false_iff.mpr fun h => hnick (received.mp h)
    have hnone : userReplies c (message.param 0) = [] := by simp [userReplies, hnickname]
    apply Follows.untold invariant.table hc effect hnone rfl rfl fun _ => rfl
    · simp [userReplies, hnickname, settle, Client.introduced, setClient, sendEach, unregistered,
        Client.setUsername, Client.setUserIsRecived]

end Registration

/-! ## Lookups -/

section Lookup

variable {s : Machine}

/-- The channel table and the network find the same under a name. -/
theorem room_lookup (table : Table s.toServer) (name : Bytes) :
    (∃ k ch, ∃ hk : s.channels[k]? = some ch, ch.name = name ∧
      lastMatch (named name) s.channels = some k ∧ s.channels.findIdx? (named name) = some k ∧
      (s.network table).room name =
        some (ch.room (table.consistent ch (List.mem_of_getElem? hk)))) ∨
    ((∀ ch ∈ s.channels, ch.name ≠ name) ∧ lastMatch (named name) s.channels = none ∧
      s.channels.findIdx? (named name) = none ∧ (s.network table).room name = none) := by
  rcases network_room_cases table name with ⟨ch, hch, hname, hroom⟩ | ⟨fresh, hroom⟩
  · obtain ⟨k, hk⟩ := List.mem_iff_getElem?.mp hch
    obtain ⟨hlast, hfirst⟩ := table.channel_lookup hk hname
    exact .inl ⟨k, ch, hk, hname, hlast, hfirst, hroom⟩
  · have hnone : ∀ ch ∈ s.channels, named name ch = false := fun ch hch => by
      simpa [named] using fresh ch hch
    exact .inr ⟨fresh, lastMatch_none.mpr hnone, List.findIdx?_eq_none_iff.mpr hnone, hroom⟩

theorem lastMatch_nicknamed_none (table : Table s.toServer) {nick : Bytes} :
    (¬ ∃ fd, (s.network table).Holds nick fd) ↔ lastMatch (nicknamed nick) s.clients = none := by
  rw [exists_holds, lastMatch_none]
  simp [nicknamed]

theorem findIdx?_nicknamed_none (table : Table s.toServer) {nick : Bytes} :
    (¬ ∃ fd, (s.network table).Holds nick fd) ↔ s.clients.findIdx? (nicknamed nick) = none := by
  rw [lastMatch_nicknamed_none, lastMatch_none, List.findIdx?_eq_none_iff]

theorem named_of_member (invariant : Invariant s) {ch : Channel} (hch : ch ∈ s.channels) {fd : Int}
    (hfd : fd ∈ ch.memberFds) : ∃ d, (d ∈ s.clients ∧ d.nickname ≠ []) ∧ d.fd = fd := by
  obtain ⟨d, hd, rfl, _⟩ := invariant.identities.members ch hch fd hfd
  exact ⟨d, ⟨hd, invariant.member_nickname hch hd hfd⟩, rfl⟩

end Lookup

/-! ## PRIVMSG and TOPIC -/

section Talk

variable {s : Machine} {i : Nat} {c : Client} {message : Message} (invariant : Invariant s)
  (hc : s.clients[i]? = some c)

include invariant hc

theorem Follows.tells {k : Nat} {ch : Channel}
    (at_ : Addresses s.toServer c message "PRIVMSG" k ch) (two : 2 ≤ message.params.length)
    (body : message.param 1 ≠ []) (member : c.fd ∈ ch.memberFds) {reaction : Reaction Int}
    (account : c.account = reaction.account) (kept : reaction.change = none)
    (outbox : ∀ fd, (reaction.outbox fd).map Notice.render =
      if fd ∈ ch.memberFds ∧ fd ≠ c.fd then
        [privmsgMessage c (message.param 0) (message.param 1)] else []) :
    Follows s i c message reaction
      (s.sendMembers (· ≠ c.fd) ch.memberFds
        (privmsgMessage c (message.param 0) (message.param 1))) := by
  rw [← at_.name] at outbox ⊢
  apply Follows.announced invariant.table (.privmsg k ch at_ two body member) _ account
  · exact fun _ => rfl
  · exact fun _ _ h => (Option.some_ne_none _ (h.symm.trans kept)).elim
  · intro j d _
    simp [outbox]
  · rw [settle_same hc, sendMembers_eq _ _ _ _ invariant.table.clients_nodup]
    simp [Announcement.sends]

theorem Follows.whispers (command : message.command = text "PRIVMSG")
    (registered : c.registered = true) (two : 2 ≤ message.params.length)
    (body : message.param 1 ≠ []) (nick : (message.param 0).head? ≠ some hash)
    (hne : message.param 0 ≠ []) {target : Nat} {d : Client}
    (targets : Targets s.toServer (message.param 0) target d) {reaction : Reaction Int}
    (account : c.account = reaction.account) (kept : reaction.change = none)
    (outbox : ∀ e ∈ s.clients, (reaction.outbox e.fd).map Notice.render =
      if e.nickname = message.param 0 then
        [privmsgMessage c (message.param 0) (message.param 1)] else []) :
    Follows s i c message reaction
      (s.sendingQueue target (privmsgMessage c (message.param 0) (message.param 1))) := by
  have effect := Dispatched.whispered (i := i) command registered two body nick target d targets
  refine ⟨c, s.channels, _, effect, (settle_single hc).symm, account, fun _ => rfl, ?_,
    fun j e he => ?_⟩
  · exact fun _ _ h => (Option.some_ne_none _ (h.symm.trans kept)).elim
  · have holds : e.nickname = message.param 0 ↔ target = j := by
      constructor
      · intro henick
        exact invariant.nickname_once hne target j d e targets.found he
          (by simpa [nicknamed] using targets.nickname) (by simpa [nicknamed] using henick)
      · rintro rfl
        rw [← Option.some.inj (targets.found.symm.trans he), targets.nickname]
    rw [outbox e (List.mem_of_getElem? he)]
    simp only [holds]
    by_cases htj : target = j
    · simp [messagesFor, htj]
    · simp [messagesFor, htj]

theorem privmsgHandler_follows (clean : message.Clean) (command : message.command = text "PRIVMSG")
    (hne : 2 ≤ message.params.length → message.param 0 ≠ []) :
    Follows s i c message ((s.network invariant.table).privmsg c.fd c.account message)
      (privmsgHandler i message s) := by
  have table := invariant.table
  have sound := invariant.identities.sound c (List.mem_of_getElem? hc)
  unfold privmsgHandler Network.privmsg
  simp only [Server.clientAt_of_getElem? hc]
  refine Follows.ite sound.account_unregistered (fun _ => .bare table hc (by decide)) fun hreg => ?_
  refine Follows.ite List.isEmpty_iff (fun _ => .bare table hc (by decide)) fun _ => ?_
  refine Follows.ite (by rw [List.isEmpty_iff]) (fun _ => .bare table hc (by decide)) fun hshort => ?_
  have registered := sound.account_registered.mp (not_not.mp hreg)
  obtain ⟨hshort, body⟩ := not_or.mp hshort
  have two : 2 ≤ message.params.length := Nat.not_lt.mp hshort
  refine Follows.ite Iff.rfl (fun _ => ?_) fun hhash => ?_
  · rcases room_lookup table (message.param 0) with
      ⟨k, ch, hk, hname, hlast, _, hroom⟩ | ⟨_, hlast, _, hroom⟩
    · simp only [hlast, hroom, Server.channelAt_of_getElem? hk]
      refine Follows.ite outside_iff (fun _ => .numeric table hc (by decide) (clean.param 0))
        fun hmember => ?_
      apply Follows.tells invariant hc ⟨command, registered, hk, hname⟩ two body
        (by simpa using hmember) rfl rfl
      intro fd
      rw [apply_ite (List.map Notice.render), account_nick]
      rfl
    · simp only [hlast, hroom]
      exact .numeric table hc (by decide) (clean.param 0)
  · cases hlast : lastMatch (nicknamed (message.param 0)) s.clients with
    | none =>
        have hnone := (lastMatch_nicknamed_none table).mpr hlast
        simp only [if_pos hnone]
        exact .numeric table hc (by decide) (clean.param 0)
    | some target =>
        obtain ⟨d, hd, hnick⟩ := lastMatch_some hlast
        have targets : Targets s.toServer (message.param 0) target d :=
          ⟨hd, by simpa [nicknamed] using hnick⟩
        have hsome : ¬ ¬ ∃ fd, (s.network invariant.table).Holds (message.param 0) fd := by
          rw [lastMatch_nicknamed_none table, hlast]
          simp
        rw [if_neg hsome]
        apply Follows.whispers invariant hc command registered two body hhash (hne two) targets rfl rfl
        intro e he
        simp only [network_holds_iff invariant.table he]
        rw [apply_ite (List.map Notice.render), account_nick]
        rfl

/-- A query is answered with the topic, if there is one. -/
theorem topicQuery_follows {k : Nat} {ch : Channel}
    (at_ : Addresses s.toServer c message "TOPIC" k ch) (one : message.params.length = 1) :
    Follows s i c message
      (match noneIfEmpty ch.topic with
        | none => Network.reply c.fd c.account (.numeric 331 c.account.nick (message.param 0))
        | some topic =>
            Network.reply c.fd c.account (.topicIs c.account.nick (message.param 0) topic))
      (if ch.topic.isEmpty then s.sendingQueue i (replyCmd 331 c (message.param 0))
        else s.sendingQueue i (text ":ircserv 332 " ++ c.nickname ++ text " " ++ message.param 0 ++
          text " :" ++ ch.topic ++ crlf)) := by
  have effect := Dispatched.answered (i := i) k ch at_ one
  rw [topicReply, at_.name] at effect
  by_cases htopic : ch.topic = []
  · rw [if_pos (List.isEmpty_iff.mpr htopic)] at effect ⊢
    simp only [noneIfEmpty, if_pos htopic]
    apply Follows.answer invariant.table hc effect
    rw [account_nick]
    exact replyCmd_addressee 331 c (message.param 0)
  · rw [if_neg (by simpa using htopic)] at effect ⊢
    simp only [noneIfEmpty, if_neg htopic]
    apply Follows.answer invariant.table hc effect
    rw [account_nick]
    rfl

theorem topicHandler_follows (clean : message.Clean) (command : message.command = text "TOPIC") :
    Follows s i c message ((s.network invariant.table).topic c.fd c.account message)
      (topicHandler i message s) := by
  have table := invariant.table
  have sound := invariant.identities.sound c (List.mem_of_getElem? hc)
  unfold topicHandler Network.topic
  simp only [Server.clientAt_of_getElem? hc]
  refine Follows.ite sound.account_unregistered (fun _ => .bare table hc (by decide)) fun hreg => ?_
  refine Follows.ite List.isEmpty_iff (fun _ => .literal table hc (by decide)) fun hgiven => ?_
  have registered := sound.account_registered.mp (not_not.mp hreg)
  rcases room_lookup table (message.param 0) with
    ⟨k, ch, hk, hname, hlast, _, hroom⟩ | ⟨_, hlast, _, hroom⟩
  · have at_ : Addresses s.toServer c message "TOPIC" k ch := ⟨command, registered, hk, hname⟩
    simp only [hlast, hroom, Server.channelAt_of_getElem? hk]
    refine Follows.ite Iff.rfl (fun hone => ?_) fun hone => ?_
    · exact topicQuery_follows invariant hc at_ hone
    · refine Follows.ite outside_iff
        (fun _ => .numeric table hc (by decide) (clean.param 0)) fun hmember => ?_
      refine Follows.ite (by simp [Channel.isOperator])
        (fun _ => .numeric table hc (by decide) (clean.param 0)) fun hallowed => ?_
      have two : 2 ≤ message.params.length := by
        have hpos := List.length_pos_iff.mpr hgiven
        omega
      have member : c.fd ∈ ch.memberFds := by simpa using hmember
      have allowed : ch.changeTopic = true → c.fd ∈ ch.operatorFds := by simpa using hallowed
      apply Follows.announce table (.topic k ch at_ two member allowed)
      · rw [settle_same hc, sendMembers_eq _ _ _ _
          (by simpa [setChannel] using table.clients_nodup)]
        simp [Announcement.sends, hname, positions_append, positions_self hc table.clients_nodup,
          sendEach_append, sendEach_cons, setChannel]
      · rfl
      · simp [Notice.render, topicMessage, addressee, hname]
      · intro fd
        by_cases hself : fd = c.fd
        · simp [hself, member]
        · simp [hself]
      · have models := room_models ch (table.consistent ch (List.mem_of_getElem? hk))
        exact hname ▸ stores_set hk rfl { models with topic := rfl }
  · simp only [hlast, hroom]
    exact .numeric table hc (by decide) (clean.param 0)

end Talk

end IrcServer
