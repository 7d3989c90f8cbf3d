import IrcServer.Spec.Table

/-! # Every dispatched line has one of the listed effects

Invariants are proved from `Dispatched` alone. The handlers are read again where their
effects are not enough: for which of several replies a line is given (`Admission`,
`Nicknames`, `Topics`), for when a command is accepted (`Acceptance`), for what is kept of
poll entries and receive buffers in any state, well formed or not (`Pass`, `Buffers`), for
what is read of the line (`Spoofing`), and for the reaction of the network (`Enactment`,
`Enrolment`, `Refinement`).
-/

namespace IrcServer

open Search Machine

/-- The machine a handler leaves is the result of one of the effects. -/
def Settles (s : Machine) (i : Nat) (c : Client) (message : Message) (s' : Machine) : Prop :=
  ∃ c' channels sends, Dispatched s.toServer i c message c' channels sends ∧
    s' = s.settle i c' channels sends

section Handlers

variable {s : Machine} {i : Nat} {c : Client} {message : Message}

theorem settle_same (hc : s.clients[i]? = some c) (channels : List Channel)
    (sends : List (Nat × Bytes)) :
    s.settle i c channels sends = sendEach sends { s with channels := channels } := by
  rw [settle, set_of_getElem? hc]

theorem Settles.silent (hc : s.clients[i]? = some c) : Settles s i c message s :=
  ⟨c, s.channels, [], .silent, (settle_same hc s.channels []).symm⟩

theorem Settles.refusal (hc : s.clients[i]? = some c) {m : Bytes} (h : Refusal c m) :
    Settles s i c message (s.sendingQueue i m) :=
  ⟨c, s.channels, [(i, m)], .refused m h, (settle_same hc s.channels [(i, m)]).symm⟩

def errorCodes : List Nat :=
  [401, 403, 404, 411, 412, 421, 431, 432, 433, 441, 442, 443, 451, 461, 462, 464, 471, 472, 473,
    475, 482]

theorem refusal_numeric (c : Client) {code : Nat} {cmd : Bytes} (h : code ∈ errorCodes)
    (clean : LF ∉ cmd) : Refusal c (replyCmd code c cmd) := by
  refine .numeric code cmd ?_ ?_ clean
  · simp only [errorCodes, List.mem_cons, List.not_mem_nil, or_false] at h
    omega
  · simp only [errorCodes, List.mem_cons, List.not_mem_nil, or_false] at h
    rcases h with h | h | h | h | h | h | h | h | h | h | h | h | h | h | h | h | h | h | h | h | h
    all_goals
      subst h
      exact List.append_ne_nil_of_right_ne_nil _ (List.cons_ne_nil _ _)

theorem Settles.numeric (hc : s.clients[i]? = some c) {code : Nat} {cmd : Bytes}
    (h : code ∈ errorCodes) (clean : LF ∉ cmd) :
    Settles s i c message (s.sendingQueue i (replyCmd code c cmd)) :=
  .refusal hc (refusal_numeric c h clean)

theorem Settles.literal (hc : s.clients[i]? = some c) {code : Nat} {cmd : Bytes}
    (h : code ∈ errorCodes ∧ LF ∉ cmd) :
    Settles s i c message (s.sendingQueue i (replyCmd code c cmd)) :=
  .numeric hc h.1 h.2

/-- A handler branches; each branch has an effect of its own. -/
theorem Settles.ite {p : Prop} [Decidable p] {t u : Machine} (yes : p → Settles s i c message t)
    (no : ¬ p → Settles s i c message u) : Settles s i c message (if p then t else u) := by
  by_cases h : p
  · rw [if_pos h]
    exact yes h
  · rw [if_neg h]
    exact no h

theorem clean_pair {x y : Bytes} (hx : LF ∉ x) (hy : LF ∉ y) : LF ∉ x ++ text " " ++ y := by
  have hspace : LF ∉ text " " := by decide
  simp [hx, hy, hspace]

/-! ## Registration -/

theorem passHundler_settles (hc : s.clients[i]? = some c)
    (command : message.command = text "PASS") :
    Settles s i c message (passHundler i message s) := by
  unfold passHundler
  simp only [Server.clientAt_of_getElem? hc]
  split
  · exact .literal hc (by decide)
  · next hreg =>
      split
      · exact .literal hc (by decide)
      · next hgiven =>
          split
          · next hpass =>
              exact ⟨_, _, _, .passed command (by simpa using hreg) (by simpa using hgiven) hpass,
                rfl⟩
          · exact .literal hc (by decide)

theorem clientAt_setClient {s : Machine} {i : Nat} (hi : i < s.clients.length) (d : Client) :
    (s.setClient i d).clientAt i = d :=
  Server.clientAt_of_getElem? (by simp [setClient, hi])

/-- A change of a record that touches neither descriptor nor send buffer commutes with queuing
to the same client. -/
theorem setClient_sendingQueue (hi : i < s.clients.length) (f : Client → Client)
    (hf : ∀ c d, f (c.appendSendBuff d) = (f c).appendSendBuff d) (hfd : ∀ c, (f c).fd = c.fd)
    (a : Client) (m : Bytes) :
    ((s.setClient i a).sendingQueue i m).setClient i
        (f (((s.setClient i a).sendingQueue i m).clientAt i)) =
      (s.setClient i (f a)).sendingQueue i m := by
  unfold sendingQueue
  split
  · rw [clientAt_setClient hi]
    simp [setClient]
  · have hmodify : ∀ d : Client, (s.clients.set i d).modify i (·.appendSendBuff m) =
        s.clients.set i (d.appendSendBuff m) := by
      intro d
      apply List.ext_getElem?
      intro j
      by_cases hj : i = j
      · subst hj
        simp [hi]
      · simp [hj]
    simp only [setClient, Server.clientAt]
    simp [hmodify, hf, hfd, hi]

/-- The stores of an accepted NICK amount to one. -/
theorem nick_stored (hc : s.clients[i]? = some c) (newNick : Bytes) :
    (let server := s.setClient i (c.setNickname newNick)
     let server :=
       if c.registered then server.sendingQueue i (text "NICK :" ++ newNick) else server
     let server := server.setClient i ((server.clientAt i).setNicknameIsReceived true)
     let c := server.clientAt i
     if c.userRecived && !c.registered then
       let c := c.setRegistered true
       (server.setClient i c).sendingQueue i (replyCmd 1 c [])
     else server) =
      s.settle i (c.renamed newNick) s.channels ((nickReplies c newNick).map (i, ·)) := by
  have hi : i < s.clients.length := (List.getElem?_eq_some_iff.mp hc).choose
  cases hreg : c.registered with
  | true =>
      have hreceived := setClient_sendingQueue (s := s) hi (·.setNicknameIsReceived true)
        (fun _ _ => rfl) (fun _ => rfl) (c.setNickname newNick) (text "NICK :" ++ newNick)
      have hregistered : ∀ d m, ((s.setClient i d).sendingQueue i m |>.clientAt i).registered =
          d.registered := fun d m => by
        rw [clientAt_sendingQueue _ i m (·.registered) (fun _ _ => rfl), clientAt_setClient hi]
      simp only [if_true, hreceived, hregistered]
      simp [nickReplies, hreg, settle, Client.renamed, setClient, sendEach, Client.setNickname,
        Client.setNicknameIsReceived]
  | false =>
      simp only [Bool.false_eq_true, if_false, clientAt_setClient hi]
      cases huser : c.userRecived <;>
        simp [nickReplies, hreg, huser, settle, Client.renamed, setClient, sendEach, hi,
          Client.setNickname, Client.setNicknameIsReceived, Client.setRegistered, Server.clientAt]

theorem nickHundler_accepts (hc : s.clients[i]? = some c) (pass : c.passRecived = true)
    (valid : checkNickValid (message.param 0) = true)
    (unused : ∀ d ∈ s.clients, d.nickname = message.param 0 → d.fd = c.fd) :
    nickHundler i message s =
      s.settle i (c.renamed (message.param 0)) s.channels
        ((nickReplies c (message.param 0)).map (i, ·)) := by
  have given : message.params ≠ [] := by
    intro hnil
    rw [Message.param, hnil] at valid
    cases valid
  have hany : (s.clients.any fun d =>
      decide (d.nickname = message.param 0) && decide (d.fd ≠ c.fd)) = false := by
    rw [List.any_eq_false]
    intro d hd hmatch
    simp only [Bool.and_eq_true, decide_eq_true_eq] at hmatch
    exact hmatch.2 (unused d hd hmatch.1)
  have hstored := nick_stored hc (message.param 0)
  unfold nickHundler
  simp only [Server.clientAt_of_getElem? hc, pass, valid, given, hany, Bool.not_true,
    Bool.false_eq_true, if_false, List.isEmpty_iff]
  exact hstored

theorem nickHundler_settles (hc : s.clients[i]? = some c) (clean : message.Clean)
    (command : message.command = text "NICK") :
    Settles s i c message (nickHundler i message s) := by
  by_cases accepted : c.passRecived = true ∧ checkNickValid (message.param 0) = true ∧
      ∀ d ∈ s.clients, d.nickname = message.param 0 → d.fd = c.fd
  · obtain ⟨pass, valid, unused⟩ := accepted
    rw [nickHundler_accepts hc pass valid unused]
    exact ⟨_, _, _, .nick command pass valid unused, rfl⟩
  · unfold nickHundler
    simp only [Server.clientAt_of_getElem? hc]
    split
    · exact .literal hc (by decide)
    · next hpass =>
        split
        · exact .literal hc (by decide)
        · split
          · exact .numeric hc (by decide) (clean.param 0)
          · next hvalid =>
              split
              · exact .numeric hc (by decide) (clean.param 0)
              · next hany =>
                  refine absurd ⟨by simpa using hpass, by simpa using hvalid, ?_⟩ accepted
                  intro d hd hnick
                  by_contra hfd
                  exact hany (List.any_eq_true.mpr ⟨d, hd, by simp [hnick, hfd]⟩)

theorem userHandler_settles (hc : s.clients[i]? = some c)
    (command : message.command = text "USER") :
    Settles s i c message (userHandler i message s) := by
  unfold userHandler
  simp only [Server.clientAt_of_getElem? hc]
  split
  · exact .literal hc (by decide)
  · next hreg =>
      split
      · exact .literal hc (by decide)
      · next hpass =>
          split
          · exact .literal hc (by decide)
          · next hfour =>
              have hreg' : c.registered = false := by simpa using hreg
              refine ⟨_, _, _, .user command hreg' (by simpa using hpass) (by omega), ?_⟩
              cases hnick : c.nicknameReceived <;>
                simp [userReplies, hnick, settle, Client.introduced, setClient, sendEach, hreg',
                  Client.setUsername, Client.setUserIsRecived, Client.setRegistered]

/-! ## JOIN -/

/-- The names reply reads descriptors and nicknames only. -/
theorem joinNames_congr {ch : Channel} {clients clients' : List Client}
    (h : clients.map (fun c => (c.fd, c.nickname)) = clients'.map fun c => (c.fd, c.nickname)) :
    joinNames ch clients = joinNames ch clients' := by
  have hfold : ∀ (member : Int) (names : Bytes) (clients : List Client),
      clients.foldl (fun names c =>
        if c.fd = member then
          (if names.isEmpty then names else names ++ text " ") ++
            (if ch.isOperator member then text "@" else []) ++ c.nickname
        else names) names =
      (clients.map fun c => (c.fd, c.nickname)).foldl (fun names p =>
        if p.1 = member then
          (if names.isEmpty then names else names ++ text " ") ++
            (if ch.isOperator member then text "@" else []) ++ p.2
        else names) names := fun member names clients => by rw [List.foldl_map]
  simp only [joinNames, hfold, h]

theorem joinNames_sendEach (ch : Channel) (sends : List (Nat × Bytes)) (s : Machine) :
    joinNames ch (sendEach sends s).clients = joinNames ch s.clients :=
  joinNames_congr (sendEach_map _ (fun _ _ => rfl) sends s)

/-- The channel after an admitted JOIN: a first member becomes operator. -/
def admitted (ch : Channel) (fd : Int) : Channel :=
  if ch.isEmpty then (ch.addMember fd).addOperator fd else ch.addMember fd

theorem joinChannel_admits {k : Nat} {ch : Channel} (hc : s.clients[i]? = some c)
    (distinct : (s.clients.map (·.fd)).Nodup) (hk : s.channels[k]? = some ch)
    (hname : ch.name = message.param 0) (admits : Admits ch c message) :
    joinChannel i message k s =
      s.settle i c (s.channels.set k (admitted ch c.fd))
        ((joinAnnouncement c (admitted ch c.fd) s.clients).sends s.clients i) := by
  have hmember : ch.hasMember c.fd = false := by simpa [Channel.hasMember] using admits.outside
  have hinvite : (ch.inviteOnly && !ch.isInvited c.fd) = false := by
    cases hi : ch.inviteOnly with
    | false => rfl
    | true => simpa using admits.invited hi
  have hkey : (ch.hasKey &&
      (decide (message.params.length < 2) || decide (message.param 1 ≠ ch.key))) = false := by
    by_cases hne : ch.key = []
    · simp [Channel.hasKey, hne]
    · obtain ⟨htwo, heq⟩ := admits.key hne
      simp [heq, Nat.not_lt.mpr htwo]
  have hlimit : (ch.hasLimit && decide (toInt32 ch.memberFds.length ≥ ch.limit)) = false := by
    by_cases hpos : 0 < ch.limit
    · simp [Int.not_le.mpr (admits.limit hpos)]
    · simp [Channel.hasLimit, hpos]
  have hadmitted : (if ch.isEmpty = true then (ch.addMember c.fd).addOperator c.fd
      else ch.addMember c.fd) = admitted ch c.fd := rfl
  have hadmittedName : (admitted ch c.fd).name = message.param 0 := by
    unfold admitted Channel.addOperator Channel.addMember
    split <;> (try split) <;> (try split) <;> exact hname
  unfold joinChannel
  simp only [Server.clientAt_of_getElem? hc, Server.channelAt_of_getElem? hk, hmember, hinvite,
    hkey, hlimit, hadmitted, Bool.false_eq_true, if_false]
  rw [sendMembers_eq _ _ _ _ (by simpa [setChannel] using distinct), settle_same hc]
  have hfilter : (admitted ch c.fd).memberFds.filter (fun _ => true) =
      (admitted ch c.fd).memberFds := List.filter_true _
  simp [Announcement.sends, joinAnnouncement, sendEach_append, sendEach_cons, setChannel,
    namesReply, endOfNames, hadmittedName, joinNames_sendEach, hfilter]

theorem joinChannel_refused {k : Nat} {ch : Channel} (hc : s.clients[i]? = some c)
    (clean : message.Clean) (hk : s.channels[k]? = some ch) (refused : ¬ Admits ch c message) :
    ∃ m, Refusal c m ∧ joinChannel i message k s = s.sendingQueue i m := by
  unfold joinChannel
  simp only [Server.clientAt_of_getElem? hc, Server.channelAt_of_getElem? hk]
  split
  · exact ⟨_, refusal_numeric c (by decide) (clean.param 0), rfl⟩
  · next hmember =>
      split
      · exact ⟨_, refusal_numeric c (by decide) (clean.param 0), rfl⟩
      · next hinvite =>
          split
          · exact ⟨_, refusal_numeric c (by decide) (clean.param 0), rfl⟩
          · next hkey =>
              split
              · exact ⟨_, refusal_numeric c (by decide) (clean.param 0), rfl⟩
              · next hlimit =>
                  refine absurd ⟨by simpa using hmember, ?_, ?_, ?_⟩ refused
                  · intro hi
                    simpa [hi] using hinvite
                  · intro hne
                    have hset : ch.hasKey = true := by simpa [Channel.hasKey] using hne
                    simp only [hset, Bool.true_and, Bool.or_eq_true, decide_eq_true_eq, not_or,
                      Nat.not_lt, ne_eq, Decidable.not_not] at hkey
                    exact hkey
                  · intro hpos
                    simpa [Channel.hasLimit, hpos] using hlimit

theorem joinHandler_eq (hc : s.clients[i]? = some c) (registered : c.registered = true)
    (valid : validChannelName (message.param 0) = true) :
    joinHandler i message s =
      match lastMatch (named (message.param 0)) s.channels with
      | some k => joinChannel i message k s
      | none =>
          joinChannel i message s.channels.length
            { s with channels := s.channels ++ [{ name := message.param 0 }] } := by
  have given : message.params ≠ [] := by
    intro hnil
    rw [Message.param, hnil] at valid
    cases valid
  cases hlast : lastMatch (named (message.param 0)) s.channels with
  | none =>
      simp only [joinHandler, Server.clientAt_of_getElem? hc, registered, valid, hlast,
        Bool.not_true, Bool.false_eq_true, if_false, List.isEmpty_iff, given]
  | some k =>
      simp only [joinHandler, Server.clientAt_of_getElem? hc, registered, valid, hlast,
        Bool.not_true, Bool.false_eq_true, if_false, List.isEmpty_iff, given]

/-- A fresh channel refuses nobody. -/
theorem joinHandler_founds (hc : s.clients[i]? = some c)
    (distinct : (s.clients.map (·.fd)).Nodup) (registered : c.registered = true)
    (valid : validChannelName (message.param 0) = true)
    (fresh : ∀ ch ∈ s.channels, ch.name ≠ message.param 0) :
    joinHandler i message s =
      s.settle i c (s.channels ++ [Channel.founded (message.param 0) c.fd])
        ((joinAnnouncement c (Channel.founded (message.param 0) c.fd) s.clients).sends
          s.clients i) := by
  have hnone : lastMatch (named (message.param 0)) s.channels = none :=
    lastMatch_none.mpr fun ch hch => by simpa [named] using fresh ch hch
  have hlast : (s.channels ++ [{ name := message.param 0 }])[s.channels.length]? =
      some ({ name := message.param 0 } : Channel) := by simp
  have admits : Admits { name := message.param 0 } c message :=
    ⟨List.not_mem_nil, fun h => absurd h Bool.false_ne_true,
      fun h => absurd rfl h, fun h => absurd h (Int.lt_irrefl 0)⟩
  have hadmitted : admitted { name := message.param 0 } c.fd =
      Channel.founded (message.param 0) c.fd := rfl
  rw [joinHandler_eq hc registered valid, hnone]
  simp only
  rw [joinChannel_admits (s := { s with channels := s.channels ++ [_] }) hc distinct hlast rfl
    admits, hadmitted]
  simp [settle]

theorem joinHandler_found (hc : s.clients[i]? = some c) (table : Table s.toServer)
    (registered : c.registered = true) {k : Nat} {ch : Channel} (hk : s.channels[k]? = some ch)
    (hname : ch.name = message.param 0) :
    joinHandler i message s = joinChannel i message k s := by
  have valid := (table.consistent ch (List.mem_of_getElem? hk)).valid
  have hlast : lastMatch (named (message.param 0)) s.channels = some k :=
    (atMostOne_of_nodup table.names _).lastMatch_eq hk (by simpa using hname)
  rw [hname] at valid
  rw [joinHandler_eq hc registered valid, hlast]

theorem joinChannel_joins {k : Nat} {ch : Channel} (hc : s.clients[i]? = some c)
    (table : Table s.toServer) (hk : s.channels[k]? = some ch)
    (hname : ch.name = message.param 0) (admits : Admits ch c message) :
    joinChannel i message k s =
      s.settle i c (s.channels.set k (ch.joined c.fd))
        ((joinAnnouncement c (ch.joined c.fd) s.clients).sends s.clients i) := by
  have inhabited := (table.consistent ch (List.mem_of_getElem? hk)).inhabited
  have hadmitted : admitted ch c.fd = ch.joined c.fd := by
    rw [admitted, if_neg (by simpa using inhabited),
      Channel.addMember_of_not_mem admits.outside, Channel.joined]
  rw [joinChannel_admits hc table.clients_nodup hk hname admits, hadmitted]

theorem joinHandler_settles (hc : s.clients[i]? = some c) (table : Table s.toServer)
    (clean : message.Clean) (command : message.command = text "JOIN") :
    Settles s i c message (joinHandler i message s) := by
  by_cases accepted : c.registered = true ∧ validChannelName (message.param 0) = true
  · obtain ⟨registered, valid⟩ := accepted
    cases hlast : lastMatch (named (message.param 0)) s.channels with
    | some k =>
        obtain ⟨ch, hch, hname⟩ := lastMatch_some hlast
        have hname : ch.name = message.param 0 := by simpa [named] using hname
        rw [joinHandler_found hc table registered hch hname]
        by_cases admits : Admits ch c message
        · rw [joinChannel_joins hc table hch hname admits]
          exact ⟨_, _, _, .announced _ _ (.join k ch ⟨command, registered, hch, hname⟩ admits), rfl⟩
        · obtain ⟨m, refusal, heq⟩ := joinChannel_refused hc clean hch admits
          rw [heq]
          exact .refusal hc refusal
    | none =>
        have fresh : ∀ ch ∈ s.channels, ch.name ≠ message.param 0 := fun ch hch => by
          simpa [named] using lastMatch_none.mp hlast ch hch
        rw [joinHandler_founds hc table.clients_nodup registered valid fresh]
        exact ⟨_, _, _, .announced _ _ (.create command registered valid fresh), rfl⟩
  · unfold joinHandler
    simp only [Server.clientAt_of_getElem? hc]
    split
    · exact .literal hc (by decide)
    · next hreg =>
        split
        · exact .literal hc (by decide)
        · split
          · exact .numeric hc (by decide) (clean.param 0)
          · next hvalid => exact absurd ⟨by simpa using hreg, by simpa using hvalid⟩ accepted

/-! ## PRIVMSG and TOPIC -/

theorem positions_append (clients : List Client) (xs ys : List Int) :
    positions clients (xs ++ ys) = positions clients xs ++ positions clients ys :=
  List.filterMap_append

theorem positions_self (hc : s.clients[i]? = some c) (distinct : (s.clients.map (·.fd)).Nodup) :
    positions s.clients [c.fd] = [i] := by
  have hidx := (atMostOne_of_nodup distinct c.fd).findIdx?_eq hc (by simp)
  simp [positions, hidx]

theorem privmsgHandler_settles (hc : s.clients[i]? = some c) (table : Table s.toServer)
    (clean : message.Clean) (command : message.command = text "PRIVMSG") :
    Settles s i c message (privmsgHandler i message s) := by
  unfold privmsgHandler
  simp only [Server.clientAt_of_getElem? hc]
  split
  · exact .literal hc (by decide)
  · next hreg =>
      have registered : c.registered = true := by simpa using hreg
      split
      · exact .literal hc (by decide)
      · split
        · exact .literal hc (by decide)
        · next htwo =>
            obtain ⟨htwo, hbody⟩ := not_or.mp htwo
            have two : 2 ≤ message.params.length := Nat.not_lt.mp htwo
            have body : message.param 1 ≠ [] := by simpa using hbody
            split
            · split
              · exact .numeric hc (by decide) (clean.param 0)
              · next k hk =>
                  obtain ⟨ch, hch, hname⟩ := lastMatch_some hk
                  have hname : ch.name = message.param 0 := by simpa [named] using hname
                  simp only [Server.channelAt_of_getElem? hch]
                  split
                  · exact .numeric hc (by decide) (clean.param 0)
                  · next hmember =>
                      refine ⟨_, _, _, .announced _ _ (.privmsg k ch
                        ⟨command, registered, hch, hname⟩ two body (by simpa using hmember)), ?_⟩
                      rw [settle_same hc, sendMembers_eq _ _ _ _ table.clients_nodup]
                      simp [Announcement.sends, hname]
            · next hhash =>
                split
                · exact .numeric hc (by decide) (clean.param 0)
                · next target htarget =>
                    obtain ⟨d, hd, hnick⟩ := lastMatch_some htarget
                    refine ⟨_, _, _, .whispered command registered two body hhash target d
                      ⟨hd, by simpa [nicknamed] using hnick⟩, ?_⟩
                    rw [settle_same hc]
                    rfl

theorem topicHandler_settles (hc : s.clients[i]? = some c) (table : Table s.toServer)
    (clean : message.Clean) (command : message.command = text "TOPIC") :
    Settles s i c message (topicHandler i message s) := by
  unfold topicHandler
  simp only [Server.clientAt_of_getElem? hc]
  split
  · exact .literal hc (by decide)
  · next hreg =>
      have registered : c.registered = true := by simpa using hreg
      split
      · exact .literal hc (by decide)
      · next hgiven =>
          split
          · exact .numeric hc (by decide) (clean.param 0)
          · next k hk =>
              obtain ⟨ch, hch, hname⟩ := lastMatch_some hk
              have hname : ch.name = message.param 0 := by simpa [named] using hname
              have addresses : Addresses s.toServer c message "TOPIC" k ch :=
                ⟨command, registered, hch, hname⟩
              simp only [Server.channelAt_of_getElem? hch]
              split
              · next hone =>
                  refine ⟨_, _, _, .answered k ch addresses hone, ?_⟩
                  rw [settle_same hc, topicReply, hname]
                  split <;> rfl
              · next hone =>
                  have two : 2 ≤ message.params.length := by
                    have hpos := List.length_pos_iff.mpr (by simpa using hgiven)
                    omega
                  split
                  · exact .numeric hc (by decide) (clean.param 0)
                  · next hmember =>
                      split
                      · exact .numeric hc (by decide) (clean.param 0)
                      · next hallowed =>
                          have allowed : ch.changeTopic = true → c.fd ∈ ch.operatorFds := by
                            intro ht
                            simpa [ht] using hallowed
                          refine ⟨_, _, _, .announced _ _
                            (.topic k ch addresses two (by simpa using hmember) allowed), ?_⟩
                          rw [settle_same hc, sendMembers_eq _ _ _ _
                            (by simpa [setChannel] using table.clients_nodup)]
                          simp [Announcement.sends, hname, positions_append,
                            positions_self hc table.clients_nodup, sendEach_append, sendEach_cons,
                            setChannel]

/-! ## KICK and INVITE -/

theorem kickHandler_settles (hc : s.clients[i]? = some c) (table : Table s.toServer)
    (clean : message.Clean) (command : message.command = text "KICK") :
    Settles s i c message (kickHandler i message s) := by
  unfold kickHandler
  simp only [Server.clientAt_of_getElem? hc]
  split
  · exact .literal hc (by decide)
  · next hreg =>
      have registered : c.registered = true := by simpa using hreg
      split
      · exact .literal hc (by decide)
      · next htwo =>
          split
          · exact .numeric hc (by decide) (clean.param 0)
          · next k hk =>
              obtain ⟨ch, hch, hname⟩ := lastMatch_some hk
              have hname : ch.name = message.param 0 := by simpa [named] using hname
              simp only [Server.channelAt_of_getElem? hch]
              split
              · exact .numeric hc (by decide) (clean.param 0)
              · next hoperator =>
                  split
                  · exact .numeric hc (by decide) (clean.param 1)
                  · next target htarget =>
                      obtain ⟨d, hd, hnick⟩ := lastMatch_some htarget
                      simp only [Server.clientAt_of_getElem? hd]
                      split
                      · exact .numeric hc (by decide) (clean_pair (clean.param 1) (clean.param 0))
                      · next hmember =>
                          split
                          · exact .refusal hc .lastKick
                          · next hkeeps =>
                              have keeps : ¬ (d.fd ∈ ch.operatorFds ∧ ch.operatorFds.length = 1 ∧
                                  1 < ch.memberFds.length) := by
                                simpa [and_assoc] using hkeeps
                              refine ⟨_, _, _, .announced _ _ (.kick k ch
                                ⟨command, registered, hch, hname⟩ (Nat.not_lt.mp htwo)
                                (by simpa using hoperator) target d
                                ⟨hd, by simpa [nicknamed] using hnick⟩ (by simpa using hmember)
                                keeps), ?_⟩
                              rw [settle_same hc, ← sendEach_channels_commute,
                                sendMembers_eq _ _ _ _ table.clients_nodup]
                              by_cases hempty : (ch.removeMember d.fd).memberFds = []
                              · simp [Announcement.sends, setChannel, hempty, hname,
                                  Channel.isEmpty, List.eraseIdx_set_eq]
                              · simp [Announcement.sends, setChannel, hempty, hname,
                                  Channel.isEmpty]

theorem inviteHandler_settles (hc : s.clients[i]? = some c)
    (clean : message.Clean) (command : message.command = text "INVITE") :
    Settles s i c message (inviteHandler i message s) := by
  unfold inviteHandler
  simp only [Server.clientAt_of_getElem? hc]
  split
  · exact .literal hc (by decide)
  · next hreg =>
      have registered : c.registered = true := by simpa using hreg
      split
      · exact .literal hc (by decide)
      · next htwo =>
          split
          · exact .numeric hc (by decide) (clean.param 0)
          · next target htarget =>
              obtain ⟨d, hd, hnick⟩ := lastMatch_some htarget
              simp only [Server.clientAt_of_getElem? hd]
              split
              · exact .numeric hc (by decide) (clean.param 1)
              · next k hk =>
                  obtain ⟨ch, hch, hname⟩ := lastMatch_some hk
                  have hname : ch.name = message.param 1 := by simpa [named] using hname
                  simp only [Server.channelAt_of_getElem? hch]
                  split
                  · exact .numeric hc (by decide) (clean.param 1)
                  · next hoperator =>
                      split
                      · exact .numeric hc (by decide) (clean_pair (clean.param 0) (clean.param 1))
                      · next houtside =>
                          refine ⟨_, _, _, .invited command registered (Nat.not_lt.mp htwo) k ch hch
                            hname (by simpa using hoperator) target d
                            ⟨hd, by simpa [nicknamed] using hnick⟩ (by simpa using houtside), ?_⟩
                          rw [settle_same hc, hname]
                          rfl

/-! ## MODE -/

section Modes

variable {k : Nat} {ch : Channel}

theorem announce_eq (hc : s.clients[i]? = some c) (ch' : Channel) (change : Bytes)
    (hname : ch'.name = ch.name) (hmembers : ch'.memberFds = ch.memberFds) :
    announce c k ch' change s =
      s.settle i c (s.channels.set k ch')
        (Announcement.sends ⟨ch.name, ch.memberFds, modeMessage c ch.name change, []⟩
          s.clients i) := by
  rw [announce, notification_eq, settle_same hc, hname, hmembers]
  simp [Announcement.sends, setChannel]

theorem Settles.modeChange (hc : s.clients[i]? = some c)
    (at_ : Addresses s.toServer c message "MODE" k ch) (operator : c.fd ∈ ch.operatorFds)
    {ch' : Channel} {change : Bytes} (changes : ModeChange message ch ch' change) :
    Settles s i c message (announce c k ch' change s) := by
  refine ⟨_, _, _, .announced _ _ (.mode k ch ch' change at_ operator changes), ?_⟩
  cases changes <;> exact announce_eq hc _ _ rfl rfl

variable (hc : s.clients[i]? = some c) (at_ : Addresses s.toServer c message "MODE" k ch)
  (operator : c.fd ∈ ch.operatorFds)

include hc at_ operator

theorem inviteOnly_settles {s' : Machine} (h : inviteOnly i message k s = some s') :
    Settles s i c message s' := by
  unfold inviteOnly at h
  simp only [Server.clientAt_of_getElem? hc, Server.channelAt_of_getElem? at_.found] at h
  split at h
  · cases h
  · next hmode =>
      cases h
      exact .modeChange hc at_ operator (.inviteOnly (by tauto))

theorem letSChangeTheTopic_settles {s' : Machine}
    (h : letSChangeTheTopic i message k s = some s') : Settles s i c message s' := by
  unfold letSChangeTheTopic at h
  simp only [Server.clientAt_of_getElem? hc, Server.channelAt_of_getElem? at_.found] at h
  split at h
  · cases h
  · next hmode =>
      cases h
      exact .modeChange hc at_ operator (.changeTopic (by tauto))

theorem secretKey_settles {s' : Machine} (h : secretKey i message k s = some s') :
    Settles s i c message s' := by
  unfold secretKey at h
  simp only [Server.clientAt_of_getElem? hc, Server.channelAt_of_getElem? at_.found] at h
  split at h
  · cases h
  · next hmode =>
      split at h
      · cases h
        exact .literal hc (by decide)
      · next hthree =>
          have three : 3 ≤ message.params.length := Nat.not_lt.mp hthree
          split at h
          · next hplus =>
              cases h
              exact .modeChange hc at_ operator (.key hplus three)
          · cases h
            exact .modeChange hc at_ operator (.noKey (by tauto) three)

theorem limitedUsage_settles {s' : Machine} (h : limitedUsage i message k s = some s') :
    Settles s i c message s' := by
  unfold limitedUsage at h
  simp only [Server.clientAt_of_getElem? hc, Server.channelAt_of_getElem? at_.found] at h
  split at h
  · cases h
  · next hmode =>
      split at h
      · next hminus =>
          cases h
          exact .modeChange hc at_ operator (.noLimit hminus)
      · split at h
        · cases h
          exact .literal hc (by decide)
        · next hthree =>
            split at h
            · cases h
              exact .literal hc (by decide)
            · next hdigits =>
                split at h
                · cases h
                  exact .literal hc (by decide)
                · next hpositive =>
                    cases h
                    refine .modeChange hc at_ operator
                      (.limit (by tauto) (Nat.not_lt.mp hthree) ?_ (by omega))
                    simpa using hdigits

theorem operators_settles (clean : message.Clean) {s' : Machine}
    (h : operators i message k s = some s') : Settles s i c message s' := by
  unfold operators at h
  simp only [Server.clientAt_of_getElem? hc, Server.channelAt_of_getElem? at_.found] at h
  split at h
  · cases h
  · next hmode =>
      split at h
      · cases h
        exact .literal hc (by decide)
      · next hthree =>
          have three : 3 ≤ message.params.length := Nat.not_lt.mp hthree
          split at h
          · cases h
            exact .numeric hc (by decide) (clean.param 2)
          · next target htarget =>
              obtain ⟨d, hd, hnick⟩ := findIdx?_some htarget
              have targets : Targets s.toServer (message.param 2) target d :=
                ⟨hd, by simpa [nicknamed] using hnick⟩
              simp only [Server.clientAt_of_getElem? hd] at h
              split at h
              · cases h
                rw [at_.name]
                exact .numeric hc (by decide) (clean_pair (clean.param 2) (clean.param 0))
              · next hmember =>
                  have member : d.fd ∈ ch.memberFds := by simpa using hmember
                  split at h
                  · next hplus =>
                      split at h
                      · cases h
                        exact .silent hc
                      · next hordinary =>
                          cases h
                          have ordinary : d.fd ∉ ch.operatorFds := by simpa using hordinary
                          refine ⟨_, _, _, .announced _ _ (.grant k ch at_ operator hplus three
                            target d targets member ordinary), ?_⟩
                          rw [hplus, Channel.addOperator_of_not_mem ordinary]
                          exact announce_eq hc _ _ rfl rfl
                  · next hplus =>
                      have minus : message.param 1 = text "-o" := by tauto
                      split at h
                      · cases h
                        exact .silent hc
                      · next hspecial =>
                          split at h
                          · cases h
                            exact .refusal hc .lastMode
                          · next hseveral =>
                              cases h
                              refine ⟨_, _, _, .announced _ _ (.revoke k ch at_ operator minus
                                three target d targets member (by simpa using hspecial)
                                hseveral), ?_⟩
                              rw [minus]
                              exact announce_eq hc _ _ rfl rfl

end Modes

theorem modes_settles (hc : s.clients[i]? = some c) (clean : message.Clean)
    (command : message.command = text "MODE") :
    Settles s i c message (modes i message s) := by
  unfold modes
  simp only [Server.clientAt_of_getElem? hc]
  split
  · exact .literal hc (by decide)
  · next hreg =>
      have registered : c.registered = true := by simpa using hreg
      split
      · exact .literal hc (by decide)
      · split
        · exact .numeric hc (by decide) (clean.param 0)
        · next k hk =>
            obtain ⟨ch, hch, hname⟩ := findIdx?_some hk
            have at_ : Addresses s.toServer c message "MODE" k ch :=
              ⟨command, registered, hch, by simpa [named] using hname⟩
            simp only [Server.channelAt_of_getElem? hch]
            split
            · exact .numeric hc (by decide) (clean.param 0)
            · next hoperator =>
                have operator : c.fd ∈ ch.operatorFds := by simpa using hoperator
                split
                · next s' h =>
                    simp only [Option.orElse_eq_orElse, Option.orElse_eq_or, Option.or_eq_some_iff] at h
                    rcases h with h | ⟨_, h | ⟨_, h | ⟨_, h | ⟨_, h⟩⟩⟩⟩
                    · exact inviteOnly_settles hc at_ operator h
                    · exact letSChangeTheTopic_settles hc at_ operator h
                    · exact secretKey_settles hc at_ operator h
                    · exact limitedUsage_settles hc at_ operator h
                    · exact operators_settles hc at_ operator clean h
                · exact .numeric hc (by decide) (clean.param 1)

/-! ## The dispatcher -/

theorem parse_clean {line : Bytes} (h : LF ∉ line) : (Parser.parse line).Clean where
  command := LF_not_mem_map_toUpper fun hmem => h (Parser.mem_of_mem_parse.1 hmem)
  param k hmem := by
    rcases Nat.lt_or_ge k (Parser.parse line).params.length with hk | hk
    · refine h (Parser.mem_of_mem_parse.2 _ (List.getElem_mem hk) ?_)
      simpa [Message.param, hk] using hmem
    · simp [Message.param, hk] at hmem

theorem dispatchCommand_nick {line : Bytes}
    (command : (Parser.parse line).command = text "NICK") :
    dispatchCommand i line s = nickHundler i (Parser.parse line) s := by
  have hword : (Parser.parse line).cmd.map toUpper = text "NICK" := command
  simp only [dispatchCommand, hword]
  rfl

theorem dispatchCommand_join {line : Bytes}
    (command : (Parser.parse line).command = text "JOIN") :
    dispatchCommand i line s = joinHandler i (Parser.parse line) s := by
  have hword : (Parser.parse line).cmd.map toUpper = text "JOIN" := command
  simp only [dispatchCommand, hword]
  rfl

theorem dispatchCommand_settles (hc : s.clients[i]? = some c) (table : Table s.toServer)
    {line : Bytes} (h : LF ∉ line) :
    Settles s i c (Parser.parse line) (dispatchCommand i line s) := by
  have clean := parse_clean h
  unfold dispatchCommand
  simp only [Server.clientAt_of_getElem? hc]
  refine .ite (fun command => passHundler_settles hc command) fun _ => ?_
  refine .ite (fun command => nickHundler_settles hc clean command) fun _ => ?_
  refine .ite (fun command => userHandler_settles hc command) fun _ => ?_
  refine .ite (fun command => joinHandler_settles hc table clean command) fun _ => ?_
  refine .ite (fun command => privmsgHandler_settles hc table clean command) fun _ => ?_
  refine .ite (fun command => topicHandler_settles hc table clean command) fun _ => ?_
  refine .ite (fun command => kickHandler_settles hc table clean command) fun _ => ?_
  refine .ite (fun command => inviteHandler_settles hc clean command) fun _ => ?_
  refine .ite (fun command => modes_settles hc clean command) fun _ => ?_
  exact .ite (fun _ => .numeric hc (by decide) clean.command) fun _ => .silent hc

end Handlers

end IrcServer
