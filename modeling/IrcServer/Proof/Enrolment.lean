import IrcServer.Proof.Enactment
import IrcServer.Proof.Kicking
import IrcServer.Proof.NamesReply

/-! # JOIN, KICK and INVITE, on the tables and in the network -/

namespace IrcServer

open Search Machine Network

/-! ## JOIN -/

section Join

variable {s : Machine} {i : Nat} {c : Client} {message : Message} (invariant : Invariant s)
  (hc : s.clients[i]? = some c)

include invariant

open scoped Classical in
/-- The loop over the client table writes the names of the members, in the order of joining. -/
theorem nameList_eq {ch : Channel} {r : Room Int} (models : ch.Models r)
    (present : ∀ fd ∈ ch.memberFds, ∃ d, (d ∈ s.clients ∧ d.nickname ≠ []) ∧ d.fd = fd) :
    nameList (r.members.map fun fd =>
      ((s.network invariant.table).nickOf fd, decide (fd ∈ r.operators))) =
      joinNames ch s.clients := by
  obtain ⟨members, order, connected⟩ := exists_map_eq present
  have pieces : ∀ piece ∈ members.map ch.label, piece ≠ [] := by
    intro piece hpiece
    obtain ⟨d, hd, rfl⟩ := List.mem_map.mp hpiece
    exact List.append_ne_nil_of_right_ne_nil _ (connected d hd).2
  rw [joinNames_eq invariant.table.clients_nodup order fun d hd => (connected d hd).1,
    Framing.foldl_joinPiece_eq pieces, nameList, ← models.members, ← order, List.map_map,
    List.map_map]
  refine congrArg _ (List.map_congr_left fun d hd => ?_)
  rw [Function.comp_apply, Function.comp_apply, network_nickOf invariant.table (connected d hd).1,
    Channel.label]
  simp only [models.operators, decide_eq_true_eq]

include hc

/-- Whoever is admitted is announced to all members, and told who they are. -/
theorem Follows.seats {channels : List Channel} {ch : Channel} {r : Room Int}
    (announces : Announces s.toServer c message channels (joinAnnouncement c ch s.clients))
    (models : ch.Models r)
    (present : ∀ fd ∈ ch.memberFds, ∃ d, (d ∈ s.clients ∧ d.nickname ≠ []) ∧ d.fd = fd)
    (stores : Stores s ch.name (some r) channels) :
    Follows s i c message ((s.network invariant.table).seat c.fd c.account ch.name r)
      (s.settle i c channels ((joinAnnouncement c ch s.clients).sends s.clients i)) := by
  apply Follows.announced invariant.table announces rfl rfl
  · exact fun h => (Option.some_ne_none _ h).elim
  · intro name' after' h
    obtain ⟨rfl, rfl⟩ := Prod.mk.inj (Option.some.inj h)
    exact stores
  · intro j d hd
    have hfd := invariant.table.fd_eq_iff hd hc
    have hnames := nameList_eq invariant models present
    simp only [Network.seat, joinAnnouncement, models.members, List.map_append,
      apply_ite (List.map Notice.render), List.map_cons, List.map_nil, Notice.render, hnames,
      account_nick, hfd]
    rfl

theorem joinChannel_follows
    (small : ∀ ch ∈ s.channels, c.fd ∉ ch.memberFds → ch.memberFds.length < 2 ^ 31)
    (clean : message.Clean) {k : Nat} {ch : Channel}
    (at_ : Addresses s.toServer c message "JOIN" k ch) (nickname : c.nickname ≠ []) {r : Room Int}
    (models : ch.Models r) :
    Follows s i c message
      ((s.network invariant.table).enter c.fd c.account message (message.param 0) r)
      (joinChannel i message k s) := by
  have table := invariant.table
  have hch := List.mem_of_getElem? at_.found
  have hmember : c.fd ∈ r.members ↔ c.fd ∈ ch.memberFds := by rw [models.members]
  have hinvite := models.restricted c.fd
  have hkey := models.keyed message.params[1]?
  unfold Network.enter
  by_cases may : MayJoin ch c message.params
  · have admits := (admits_iff (small ch hch)).mpr may
    have outside : c.fd ∉ r.members := fun h => may.outside (hmember.mp h)
    have joined := joined_models models outside
    have stores : Stores s ch.name (some (r.join c.fd outside)) (s.channels.set k (ch.joined c.fd)) :=
      stores_set at_.found rfl joined
    rw [joinChannel_joins hc table at_.found at_.name admits, dif_neg outside,
      if_neg fun h => (hinvite.mp h).2 (may.invited (hinvite.mp h).1),
      if_neg fun h => (hkey.mp h).2 (may.key.resolve_left (hkey.mp h).1), if_neg, ← at_.name]
    · apply Follows.seats invariant hc (.join k ch at_ admits) joined _ stores
      intro fd hfd
      rcases List.mem_append.mp hfd with hfd | hfd
      · exact named_of_member invariant hch hfd
      · exact ⟨c, ⟨List.mem_of_getElem? hc, nickname⟩, (List.mem_singleton.mp hfd).symm⟩
    · have hlimit := may.limit
      rw [models.full]
      omega
  · have refuses : ∀ {code : Nat}, code ∈ errorCodes → Follows s i c message
        (Network.reply c.fd c.account (.numeric code c.account.nick (message.param 0)))
        (s.sendingQueue i (replyCmd code c (message.param 0))) := fun h =>
      .numeric table hc h (clean.param 0)
    rw [joinChannel_error hc at_.found may (small ch hch)]
    unfold joinError
    by_cases member : c.fd ∈ ch.memberFds
    · rw [if_pos member, dif_pos (hmember.mpr member)]
      exact refuses (by decide)
    · rw [if_neg member, dif_neg fun h => member (hmember.mp h)]
      by_cases uninvited : ch.inviteOnly = true ∧ c.fd ∉ ch.invitedFds
      · rw [if_pos uninvited, if_pos (hinvite.mpr uninvited)]
        exact refuses (by decide)
      · rw [if_neg uninvited, if_neg fun h => uninvited (hinvite.mp h)]
        by_cases locked : ch.key ≠ [] ∧ message.params[1]? ≠ some ch.key
        · rw [if_pos locked, if_pos (hkey.mpr locked)]
          exact refuses (by decide)
        · rw [if_neg locked, if_neg fun h => locked (hkey.mp h), if_pos]
          · exact refuses (by decide)
          · rw [models.full]
            by_contra hroom
            exact may ⟨member, by tauto, by tauto, by omega⟩

theorem joinHandler_follows
    (small : ∀ ch ∈ s.channels, c.fd ∉ ch.memberFds → ch.memberFds.length < 2 ^ 31)
    (clean : message.Clean) (command : message.command = text "JOIN") :
    Follows s i c message ((s.network invariant.table).join c.fd c.account message)
      (joinHandler i message s) := by
  have table := invariant.table
  have sound := invariant.identities.sound c (List.mem_of_getElem? hc)
  by_cases accepted : c.registered = true ∧ validChannelName (message.param 0) = true
  · obtain ⟨registered, valid⟩ := accepted
    have hreg : ¬ ¬ c.account.Registered := not_not.mpr (sound.account_registered.mpr registered)
    have nickname := sound.received.mp (sound.registered.mp registered).1
    have given : message.params ≠ [] := by
      intro hnil
      rw [Message.param, hnil] at valid
      cases valid
    have hvalid : ¬ validChannelName (message.param 0) = false := by simp [valid]
    unfold Network.join
    simp only [if_neg hreg, if_neg given, if_neg hvalid]
    rcases room_lookup table (message.param 0) with
      ⟨k, ch, hk, hname, _, _, hroom⟩ | ⟨fresh, _, _, hroom⟩
    · rw [joinHandler_found hc table registered hk hname, hroom]
      exact joinChannel_follows invariant hc small clean ⟨command, registered, hk, hname⟩ nickname
        (room_models ch _)
    · rw [joinHandler_founds hc table.clients_nodup registered valid fresh, hroom]
      apply Follows.seats invariant hc (.create command registered valid fresh) founded_models _
        (stores_snoc founded_models)
      intro fd hfd
      exact ⟨c, ⟨List.mem_of_getElem? hc, nickname⟩, (List.mem_singleton.mp hfd).symm⟩
  · unfold joinHandler Network.join
    simp only [Server.clientAt_of_getElem? hc]
    refine Follows.ite sound.account_unregistered (fun _ => .bare table hc (by decide)) fun hreg => ?_
    refine Follows.ite List.isEmpty_iff (fun _ => .literal table hc (by decide)) fun _ => ?_
    refine Follows.ite (by simp) (fun _ => .numeric table hc (by decide) (clean.param 0))
      fun hvalid => absurd ⟨?_, ?_⟩ accepted
    · exact sound.account_registered.mp (not_not.mp hreg)
    · simpa using hvalid

end Join

/-! ## KICK and INVITE -/

section Expel

variable {ch : Channel} {r : Room Int} {connected : List Int}

theorem Channel.Models.sole_iff (models : ch.Models r) (h : ch.Consistent connected) {fd : Int} :
    r.operators = {fd} ↔ fd ∈ ch.operatorFds ∧ ch.operatorFds.length = 1 := by
  constructor
  · intro hsole
    have hmem : fd ∈ ch.operatorFds := by
      rw [models.operators, hsole]
      exact Set.mem_singleton fd
    refine ⟨hmem, (eq_singleton_iff_length hmem).mp ?_⟩
    refine (eq_singleton_iff h.operators_nodup hmem).mpr fun x hx => ?_
    rwa [models.operators, hsole] at hx
  · rintro ⟨hmem, hone⟩
    have hlist := (eq_singleton_iff_length hmem).mpr hone
    ext x
    rw [← models.operators, hlist]
    exact List.mem_singleton

/-- The condition of KICK, as the code compares it. -/
theorem Channel.Models.last_iff (models : ch.Models r) (h : ch.Consistent connected) {fd : Int}
    (member : fd ∈ ch.memberFds) :
    (ch.isOperator fd && decide (ch.operatorFds.length = 1) &&
      decide (ch.memberFds.length > 1)) = true ↔ r.operators = {fd} ∧ r.members ≠ [fd] := by
  have hpos := List.length_pos_of_mem member
  have hseveral : ch.memberFds ≠ [fd] ↔ ch.memberFds.length > 1 := by
    rw [ne_eq, eq_singleton_iff_length member]
    omega
  rw [models.sole_iff h, ← models.members, hseveral]
  simp

theorem Channel.Models.expel_none (models : ch.Models r) {fd : Int}
    (h : (ch.expelled fd).memberFds = []) : r.expel fd = none := by
  rw [Channel.expelled, models.members] at h
  exact dif_neg (not_not.mpr h)

theorem Channel.Models.expel_some (models : ch.Models r) {fd : Int}
    (h : (ch.expelled fd).memberFds ≠ []) :
    ∃ r', r.expel fd = some r' ∧ (ch.expelled fd).Models r' := by
  have hmembers : (ch.expelled fd).memberFds = r.members.filter fun x => x ≠ fd := by
    rw [Channel.expelled, models.members]
  rw [hmembers] at h
  refine ⟨_, dif_pos h, { models with members := hmembers, operators := fun x => ?_ }⟩
  rw [Channel.expelled, List.mem_filter, models.operators]
  simp

theorem Channel.Models.leave_none (models : ch.Models r) (h : ch.Consistent connected) {fd : Int}
    (hempty : (ch.leave fd).memberFds = []) : r.leave fd = none := by
  rw [h.leave_eq] at hempty
  rw [Room.leave, models.expel_none hempty, Option.map_none]

theorem Channel.Models.leave_some (models : ch.Models r) (h : ch.Consistent connected) {fd : Int}
    (left : (ch.leave fd).memberFds ≠ []) :
    ∃ r', r.leave fd = some r' ∧ (ch.leave fd).Models r' := by
  rw [h.leave_eq] at left ⊢
  obtain ⟨r', hexpel, models'⟩ := models.expel_some left
  have hinvited : ∀ x, x ∈ ch.invitedFds ↔ x ∈ r'.invited := models'.invited
  refine ⟨_, by rw [Room.leave, hexpel, Option.map_some], ?_⟩
  exact
    { models' with
      invited := fun x => by
        rw [List.mem_filter, hinvited]
        simp }

end Expel

section Named

variable {s : Machine} (invariant : Invariant s)

include invariant

theorem holder_eq {ch : Channel} (hch : ch ∈ s.channels) {nick : Bytes} {d : Client}
    (hd : d ∈ s.clients) (hnick : d.nickname = nick) {fd : Int} (hfd : fd ∈ ch.memberFds)
    (holds : (s.network invariant.table).Holds nick fd) : fd = d.fd := by
  obtain ⟨e, he, rfl, henick⟩ := (network_holds invariant.table).mp holds
  exact invariant.identities.unique e he d hd (henick.trans hnick.symm)
    (invariant.member_nickname hch he hfd)

theorem holds_iff {nick : Bytes} (hne : nick ≠ []) {d : Client} (hd : d ∈ s.clients)
    (hnick : d.nickname = nick) {fd : Int} :
    (s.network invariant.table).Holds nick fd ↔ fd = d.fd := by
  constructor
  · intro holds
    obtain ⟨e, he, rfl, henick⟩ := (network_holds invariant.table).mp holds
    exact invariant.identities.unique e he d hd (henick.trans hnick.symm) (henick ▸ hne)
  · rintro rfl
    exact (network_holds_iff invariant.table hd).mpr hnick

open scoped Classical in
theorem members_find {ch : Channel} (hch : ch ∈ s.channels) {r : Room Int} (models : ch.Models r)
    {nick : Bytes} {d : Client} (hd : d ∈ s.clients) (hnick : d.nickname = nick) :
    r.members.find? ((s.network invariant.table).Holds nick ·) =
      if d.fd ∈ ch.memberFds then some d.fd else none := by
  rw [← models.members]
  split
  · next member =>
      cases hfind : ch.memberFds.find? fun fd => decide ((s.network invariant.table).Holds nick fd) with
      | none =>
          have hnot := List.find?_eq_none.mp hfind d.fd member
          exact absurd ((network_holds_iff invariant.table hd).mpr hnick) (by simpa using hnot)
      | some fd =>
          have holds := List.find?_some hfind
          rw [holder_eq invariant hch hd hnick (List.mem_of_find?_eq_some hfind)
            (of_decide_eq_true holds)]
  · next outside =>
      refine List.find?_eq_none.mpr fun fd hfd holds => outside ?_
      rwa [← holder_eq invariant hch hd hnick hfd (of_decide_eq_true holds)]

end Named

/-- The reason of a KICK; the nickname of the sender is the default. -/
theorem Message.reason_eq (message : Message) (default : Bytes) :
    (if message.params.length > 2 then message.param 2 else default) =
      message.params.getD 2 default := by
  rw [Message.param, List.getD_eq_getElem?_getD, List.getD_eq_getElem?_getD]
  split
  · next h => rw [List.getElem?_eq_getElem h, Option.getD_some, Option.getD_some]
  · next h => rw [List.getElem?_eq_none (Nat.not_lt.mp h), Option.getD_none]

section Remote

variable {s : Machine} {i : Nat} {c : Client} {message : Message} (invariant : Invariant s)
  (hc : s.clients[i]? = some c)

include invariant

theorem stores_expelled {k : Nat} {ch : Channel} (hk : s.channels[k]? = some ch) {r : Room Int}
    (models : ch.Models r) {fd : Int} : Stores s ch.name (r.expel fd)
      (if (ch.removeMember fd).memberFds = [] then s.channels.eraseIdx k
        else s.channels.set k (ch.removeMember fd)) := by
  have consistent := invariant.table.consistent ch (List.mem_of_getElem? hk)
  rw [consistent.removeMember_eq]
  by_cases hempty : (ch.expelled fd).memberFds = []
  · rw [if_pos hempty, models.expel_none hempty]
    exact stores_eraseIdx invariant.table hk
  · obtain ⟨r', hexpel, models'⟩ := models.expel_some hempty
    rw [if_neg hempty, hexpel]
    exact stores_set hk rfl models'

include hc

theorem kickHandler_follows (clean : message.Clean) (command : message.command = text "KICK") :
    Follows s i c message ((s.network invariant.table).kick c.fd c.account message)
      (kickHandler i message s) := by
  have table := invariant.table
  have sound := invariant.identities.sound c (List.mem_of_getElem? hc)
  unfold kickHandler Network.kick
  simp only [Server.clientAt_of_getElem? hc]
  refine Follows.ite sound.account_unregistered (fun _ => .bare table hc (by decide)) fun hreg => ?_
  refine Follows.ite Iff.rfl (fun _ => .literal table hc (by decide)) fun htwo => ?_
  have registered := sound.account_registered.mp (not_not.mp hreg)
  rcases room_lookup table (message.param 0) with
    ⟨k, ch, hk, hname, hlast, _, hroom⟩ | ⟨_, hlast, _, hroom⟩
  · have hch := List.mem_of_getElem? hk
    have consistent := table.consistent ch hch
    have models := room_models ch consistent
    simp only [hlast, hroom, Server.channelAt_of_getElem? hk]
    refine Follows.ite ordinary_iff (fun _ => .numeric table hc (by decide) (clean.param 0))
      fun hoperator => ?_
    cases htarget : lastMatch (nicknamed (message.param 1)) s.clients with
    | none =>
        have hnone := (lastMatch_nicknamed_none table).mpr htarget
        rw [if_pos hnone]
        exact .numeric table hc (by decide) (clean.param 1)
    | some target =>
        obtain ⟨d, hd, hnick⟩ := lastMatch_some htarget
        have hnick : d.nickname = message.param 1 := by simpa [nicknamed] using hnick
        have hdmem := List.mem_of_getElem? hd
        have hsome : ¬ ¬ ∃ fd, (s.network invariant.table).Holds (message.param 1) fd := by
          rw [lastMatch_nicknamed_none table, htarget]
          simp
        rw [if_neg hsome, members_find invariant hch models hdmem hnick]
        simp only [Server.clientAt_of_getElem? hd]
        by_cases member : d.fd ∈ ch.memberFds
        · rw [if_pos member, if_neg fun h => outside_iff.mp h member]
          refine Follows.ite (models.last_iff consistent member)
            (fun _ => .reply table hc .lastKick (by rw [account_nick]; rfl)) fun hkeeps => ?_
          have keeps : ¬ (d.fd ∈ ch.operatorFds ∧ ch.operatorFds.length = 1 ∧
              1 < ch.memberFds.length) := by
            rw [← models.last_iff consistent member] at hkeeps
            simpa [and_assoc] using hkeeps
          have announces := Announces.kick k ch ⟨command, registered, hk, hname⟩
            (Nat.not_lt.mp htwo) (by simpa [ordinary_iff] using hoperator) target d ⟨hd, hnick⟩
            member keeps
          apply Follows.announce table announces
          · rw [settle_same hc, ← sendEach_channels_commute,
              sendMembers_eq _ _ _ _ table.clients_nodup]
            by_cases hempty : (ch.removeMember d.fd).memberFds = []
            · simp [Announcement.sends, setChannel, hempty, hname, Channel.isEmpty,
                List.eraseIdx_set_eq]
            · simp [Announcement.sends, setChannel, hempty, hname, Channel.isEmpty]
          · rfl
          · rw [account_nick, message.reason_eq, hname]
            rfl
          · exact fun fd => Iff.rfl
          · exact hname ▸ stores_expelled invariant hk models
        · rw [if_neg member, if_pos (outside_iff.mpr member)]
          exact .numeric table hc (by decide) (clean_pair (clean.param 1) (clean.param 0))
  · simp only [hlast, hroom]
    exact .numeric table hc (by decide) (clean.param 0)

theorem inviteHandler_follows (clean : message.Clean) (command : message.command = text "INVITE")
    (hne : 2 ≤ message.params.length → message.param 0 ≠ []) :
    Follows s i c message ((s.network invariant.table).invite c.fd c.account message)
      (inviteHandler i message s) := by
  have table := invariant.table
  have sound := invariant.identities.sound c (List.mem_of_getElem? hc)
  unfold inviteHandler Network.invite
  simp only [Server.clientAt_of_getElem? hc]
  refine Follows.ite sound.account_unregistered (fun _ => .bare table hc (by decide)) fun hreg => ?_
  refine Follows.ite Iff.rfl (fun _ => .literal table hc (by decide)) fun htwo => ?_
  have registered := sound.account_registered.mp (not_not.mp hreg)
  have two : 2 ≤ message.params.length := Nat.not_lt.mp htwo
  cases htarget : lastMatch (nicknamed (message.param 0)) s.clients with
  | none =>
      have hnone := (lastMatch_nicknamed_none table).mpr htarget
      rw [if_pos hnone]
      exact .numeric table hc (by decide) (clean.param 0)
  | some target =>
      obtain ⟨d, hd, hnick⟩ := lastMatch_some htarget
      have hnick : d.nickname = message.param 0 := by simpa [nicknamed] using hnick
      have hsome : ¬ ¬ ∃ fd, (s.network invariant.table).Holds (message.param 0) fd := by
        rw [lastMatch_nicknamed_none table, htarget]
        simp
      rw [if_neg hsome]
      simp only [Server.clientAt_of_getElem? hd]
      rcases room_lookup table (message.param 1) with
        ⟨k, ch, hk, hname, hlast, _, hroom⟩ | ⟨_, hlast, _, hroom⟩
      · have hch := List.mem_of_getElem? hk
        have models := room_models ch (table.consistent ch hch)
        simp only [hlast, hroom, Server.channelAt_of_getElem? hk]
        refine Follows.ite ordinary_iff (fun _ => .numeric table hc (by decide) (clean.param 1))
          fun hoperator => ?_
        have holds : ∀ fd, (s.network invariant.table).Holds (message.param 0) fd ↔ fd = d.fd :=
          fun fd => holds_iff invariant (hne two) (List.mem_of_getElem? hd) hnick
        simp only [holds]
        refine Follows.ite (by simp) (fun _ => .numeric table hc (by decide)
          (clean_pair (clean.param 0) (clean.param 1))) fun houtside => ?_
        have effect := Dispatched.invited (i := i) command registered two k ch hk hname
          (by simpa [ordinary_iff] using hoperator) target d ⟨hd, hnick⟩ (by simpa using houtside)
        refine ⟨c, _, _, effect, ?_, rfl, ?_, ?_, ?_⟩
        · rw [settle_same hc, hname]
          rfl
        · exact fun h => (Option.some_ne_none _ h).elim
        · intro name' after' h
          obtain ⟨rfl, rfl⟩ := Prod.mk.inj (Option.some.inj h)
          have stores := stores_set hk (ch.addInvite_name d.fd) (invited_models models d.fd)
          exact hname ▸ stores
        · intro j e he
          rw [← List.singleton_append, messagesFor_append, List.map_append, account_nick, hname]
          have hsender := table.fd_eq_iff he hc
          have htarget := table.fd_eq_iff he hd
          have hreply := replyCmd_addressee 341 c (message.param 0 ++ text " " ++ message.param 1)
          simp only [messagesFor_single, hsender, htarget, apply_ite (List.map Notice.render),
            List.map_cons, List.map_nil, Notice.render, hreply]
          rfl
      · simp only [hlast, hroom]
        exact .numeric table hc (by decide) (clean.param 1)

end Remote

end IrcServer
