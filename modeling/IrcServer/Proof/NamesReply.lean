import IrcServer.Proof.Admission
import IrcServer.Proof.Decoding
import IrcServer.Proof.Membership

/-! # The names reply

Whoever joins a channel is sent the nicknames of its members in one parameter. A reader
of that line gets back who is on the channel, in the order of joining, and who is an
operator of it, because members are connected under distinct nicknames with neither a
space nor the sign of an operator in them.
-/

namespace IrcServer

open Search Machine Transition Framing
open IrcServer.Parser

/-- A name of the reply as its reader takes it apart: the nickname, and whether the sign of an
operator stands in front. -/
def readName (w : Bytes) : Bytes × Bool := if w.head? = some 64 then (w.drop 1, true) else (w, false)

/-- `names`, split at single spaces, is the list of the members of `ch`, one of which is `c`. -/
structure NamesDecoded (s : Machine) (c : Client) (ch : Channel) (names : Bytes)
    (members : List Client) : Prop where
  order : members.map (·.fd) = ch.memberFds
  connected : ∀ d ∈ members, d ∈ s.clients
  words : fields space names =
    members.map fun d => (if d.fd ∈ ch.operatorFds then text "@" else []) ++ d.nickname
  once : (members.map (·.nickname)).Nodup
  read : (fields space names).map readName =
    members.map fun d => (d.nickname, decide (d.fd ∈ ch.operatorFds))
  membership : ∀ d ∈ s.clients, ∀ operator, (d.nickname, operator) ∈ (fields space names).map readName ↔
    d.fd ∈ ch.memberFds ∧ operator = decide (d.fd ∈ ch.operatorFds)
  self : ∃ d ∈ members, d.fd = c.fd

/-! ## The list of names -/

section Names

variable {s : Machine} {ch : Channel} {clients : List Client}

theorem readName_label {d : Client} (valid : checkNickValid d.nickname = true) :
    readName (ch.label d) = (d.nickname, decide (d.fd ∈ ch.operatorFds)) := by
  have hsign : d.nickname.head? ≠ some 64 := by
    intro hhead
    have hbyte := checkNickValid_all valid 64 (List.mem_of_head? hhead)
    cases hbyte
  by_cases hop : d.fd ∈ ch.operatorFds
  · rw [Channel.label, if_pos hop, decide_eq_true hop]
    rfl
  · rw [Channel.label, if_neg hop, decide_eq_false hop, List.nil_append, readName, if_neg hsign]

theorem namesDecoded (invariant : Invariant s) (hch : ch ∈ s.channels) {c : Client}
    (self : c.fd ∈ ch.memberFds) :
    ∃ members, NamesDecoded s c ch (joinNames ch s.clients) members := by
  have consistent := invariant.table.consistent ch hch
  have present : ∀ fd ∈ ch.memberFds, ∃ d, d ∈ s.clients ∧ d.fd = fd := fun fd hfd =>
    List.mem_map.mp (consistent.members_connected fd hfd)
  obtain ⟨members, order, connected⟩ := exists_map_eq present
  have member : ∀ d ∈ members, d.fd ∈ ch.memberFds := fun d hd =>
    order ▸ List.mem_map_of_mem hd
  have valid : ∀ d ∈ members, checkNickValid d.nickname = true := fun d hd =>
    (invariant.identities.sound d (connected d hd)).valid
      (invariant.member_nickname hch (connected d hd) (member d hd))
  have words : fields space (joinNames ch s.clients) = members.map ch.label :=
    fields_joinNames invariant.table.clients_nodup order connected valid consistent.inhabited
  have read : (fields space (joinNames ch s.clients)).map readName =
      members.map fun d => (d.nickname, decide (d.fd ∈ ch.operatorFds)) := by
    rw [words, List.map_map]
    exact List.map_congr_left fun d hd => readName_label (valid d hd)
  have same : ∀ d ∈ members, ∀ x ∈ s.clients, d.nickname = x.nickname → d = x := by
    intro d hd x hx hnick
    have hne := invariant.member_nickname hch (connected d hd) (member d hd)
    exact invariant.table.same_client (connected d hd) hx
      (invariant.identities.unique d (connected d hd) x hx hnick hne)
  refine ⟨members, order, connected, words, ?_, read, ?_, ?_⟩
  · have hnodup : members.Nodup := .of_map (·.fd) (order ▸ consistent.members_nodup)
    exact hnodup.map_on fun d hd x hx hnick => same d hd x (connected x hx) hnick
  · intro x hx operator
    rw [read, List.mem_map]
    constructor
    · rintro ⟨d, hd, heq⟩
      obtain ⟨hnick, rfl⟩ := Prod.mk.inj heq
      obtain rfl := same d hd x hx hnick
      exact ⟨member d hd, rfl⟩
    · rintro ⟨hfd, rfl⟩
      obtain ⟨d, hd, hdfd⟩ := List.mem_map.mp (order ▸ hfd)
      obtain rfl := invariant.table.same_client (connected d hd) hx hdfd
      exact ⟨d, hd, rfl⟩
  · exact List.mem_map.mp (order ▸ self)

end Names

/-! ## JOIN -/

section Join

variable {s s' : Machine} {i : Nat} {c : Client} {line name : Bytes}

/-- A JOIN after which its sender is on the channel, and was not before, has been announced. -/
theorem Joins.announced (h : Reachable s) (hc : s.clients[i]? = some c)
    (command : (parse line).command = text "JOIN") (named : (parse line).param 0 = name)
    (joins : Joins s s' name c.fd) (hstep : step s (.command i line) = some s') :
    c.registered = true ∧ ∃ ch ∈ s'.channels, ch.name = name ∧ c.fd ∈ ch.memberFds ∧
      Announces s.toServer c (parse line) s'.channels (joinAnnouncement c ch s.clients) := by
  have sound := h.invariant.identities.sound c (List.mem_of_getElem? hc)
  cases step_stepped h.table hstep with
  | dispatched _ x hx _ clean c' channels sends effect =>
      obtain rfl := Option.some.inj (hc.symm.trans hx)
      have hchannels := settle_channels i c' channels sends (s.record (.line c.fd line))
      rcases effect.regroups h.table sound hchannels with ⟨a, announces, _⟩ | ⟨_, same⟩
      · rw [hchannels]
        cases announces with
        | create command registered valid fresh =>
            exact ⟨registered, _, List.mem_append_right _ (List.mem_singleton_self _), named,
              List.mem_singleton_self _, .create command registered valid fresh⟩
        | join k ch at_ admits =>
            have hlt := (List.getElem?_eq_some_iff.mp at_.found).choose
            exact ⟨at_.registered, ch.joined c.fd, List.mem_set hlt _, at_.name.trans named,
              List.mem_append_right _ (List.mem_singleton_self _), .join k ch at_ admits⟩
        | privmsg k ch at_ => exact (Message.not_other command at_.command (by decide)).elim
        | topic k ch at_ => exact (Message.not_other command at_.command (by decide)).elim
        | kick k ch at_ => exact (Message.not_other command at_.command (by decide)).elim
        | mode k ch ch' change at_ => exact (Message.not_other command at_.command (by decide)).elim
        | grant k ch at_ => exact (Message.not_other command at_.command (by decide)).elim
        | revoke k ch at_ => exact (Message.not_other command at_.command (by decide)).elim
      · exact absurd ((same name c.fd).mp joins.1) joins.2

theorem parse_namesReply (hnick : IsWord c.nickname) {ch : Channel} (hname : IsWord ch.name)
    (clients : List Client) : ∃ body, namesReply c ch clients = body ++ crlf ∧
      (parse body).params = [c.nickname, text "=", ch.name, joinNames ch clients] := by
  have hserver : IsWord (text "ircserv") := isWord_of_all (by decide) (by decide) (by decide)
  have hverb : IsWord (codeText 353) := isWord_of_all (by decide) (by decide) (by decide)
  have hsign : IsWord (text "=") := isWord_of_all (by decide) (by decide) (by decide)
  have hrest : c.nickname ++ text " = " ++ ch.name ++ text " :" ++ joinNames ch clients =
      c.nickname ++ space :: (text "=" ++ space :: (ch.name ++
        space :: colon :: joinNames ch clients)) := by
    simp [show text " = " = space :: (text "=" ++ [space]) from rfl,
      show text " :" = [space, colon] from rfl]
  refine ⟨_, (namesReply_eq c ch clients).trans rfl, ?_⟩
  rw [parse_eventLine hserver.unblanked hverb, hrest, paramsFrom_last hnick, paramsFrom_last hsign,
    paramsFrom_trailed hname]

/-- Among what an accepted JOIN queues to its sender, the names reply is the one with its code. -/
theorem filter_names {c : Client} (sound : c.Sound) (ch : Channel) (clients : List Client) :
    [joinMessage c ch.name, namesReply c ch clients, endOfNames c ch].filter
      (fun m => decide (verb m = codeText 353)) = [namesReply c ch clients] := by
  have hjoin : verb (joinMessage c ch.name) = text "JOIN" := by
    rw [joinMessage_eq, verb_wireLine sound.nickname_bytes.2 (by decide)]
  simp only [List.filter_cons, List.filter_nil, hjoin, verb_namesReply, verb_endOfNames,
    show text "JOIN" ≠ codeText 353 from by decide, show codeText 366 ≠ codeText 353 from by decide,
    decide_true, decide_false, if_true, if_false, Bool.false_eq_true]

/-- The names reply to an accepted JOIN is read back as the membership of the channel. -/
theorem namesReply_decodes (h : Reachable s) (hc : s.clients[i]? = some c)
    (command : (parse line).command = text "JOIN") (named : (parse line).param 0 = name)
    (unblanked : ∀ b ∈ name, isBlank b = false) (joins : Joins s s' name c.fd)
    (hstep : step s (.command i line) = some s') :
    ∃ ch ∈ s'.channels, ch.name = name ∧ ∃ body names members,
      (messagesTo c.fd (added s s')).filter (fun m => decide (verb m = codeText 353)) =
        [body ++ crlf] ∧
      (parse body).params.getLast? = some names ∧ NamesDecoded s' c ch names members := by
  obtain ⟨registered, ch, hch, rfl, self, announces⟩ := joins.announced h hc command named hstep
  have hmem := List.mem_of_getElem? hc
  have sound := h.invariant.identities.sound c hmem
  have after := (h.step hstep).invariant
  have valid := (after.table.consistent ch hch).valid
  have hclients : s'.clients.map (fun d => (d.fd, d.nickname)) =
      s.clients.map fun d => (d.fd, d.nickname) := by
    refine List.ext_getElem? fun j => ?_
    rw [List.getElem?_map, List.getElem?_map, announces.clients_getElem? h.invariant hc hstep,
      Option.map_map]
    rfl
  have hnick : IsWord c.nickname :=
    isWord_nickname (sound.valid (sound.received.mp (sound.registered.mp registered).1))
  have hname : IsWord ch.name :=
    isWord_channelName valid fun htab => absurd (unblanked tab htab) (by decide)
  obtain ⟨body, hbody, hparams⟩ := parse_namesReply hnick hname s.clients
  obtain ⟨members, decoded⟩ := namesDecoded after hch self
  rw [joinNames_congr hclients] at decoded
  refine ⟨ch, hch, rfl, body, _, members, ?_, ?_, decoded⟩
  · have hqueued := (announces.delivery h.invariant hc hstep).2.queued c hmem
    have recipient : c.fd ∈ (joinAnnouncement c ch s.clients).recipients := self
    rw [if_pos recipient, if_pos rfl] at hqueued
    rw [hqueued, ← hbody]
    exact filter_names sound ch s.clients
  · rw [hparams]
    rfl

end Join

/-- A second client joins the channel: the list is `@kaw akira`. -/
theorem namesReply_decodes_sample :
    ∃ s s' c ch members, Reachable s ∧ s.clients[1]? = some c ∧
      step s (.command 1 (text "JOIN #42")) = some s' ∧ ch ∈ s'.channels ∧
      NamesDecoded s' c ch (text "@kaw akira") members := by
  have hc : (stateAfter limitedRun).clients[1]? = some ((stateAfter limitedRun).clientAt 1) :=
    clientAt_table (by decide)
  have hstep := step_stateAfter limitedRun (.command 1 (text "JOIN #42")) (by decide)
  have joins : Joins (stateAfter limitedRun)
      (stateAfter (limitedRun ++ [.command 1 (text "JOIN #42")])) (text "#42")
      ((stateAfter limitedRun).clientAt 1).fd := by
    unfold Joins IsMember
    decide
  have hname : IsWord (text "#42") := isWord_of_all (by decide) (by decide) (by decide)
  obtain ⟨ch, hch, _, body, names, members, hqueued, hlast, decoded⟩ :=
    namesReply_decodes (stateAfter_reachable limitedRun) hc (by decide) (by decide)
      hname.unblanked joins hstep
  have hline : (messagesTo ((stateAfter limitedRun).clientAt 1).fd (added (stateAfter limitedRun)
      (stateAfter (limitedRun ++ [.command 1 (text "JOIN #42")])))).filter
        (fun m => decide (verb m = codeText 353)) =
      [text ":ircserv 353 akira = #42 :@kaw akira" ++ crlf] := by decide
  rw [hline] at hqueued
  have hbody := List.append_cancel_right (List.singleton_injective hqueued)
  rw [← hbody, show (parse (text ":ircserv 353 akira = #42 :@kaw akira")).params.getLast? =
    some (text "@kaw akira") from by decide] at hlast
  obtain rfl := Option.some.inj hlast
  exact ⟨_, _, _, ch, members, stateAfter_reachable limitedRun, hc, hstep, hch, decoded⟩

end IrcServer
