import IrcServer.Proof.Addressing
import IrcServer.Proof.Normal
import IrcServer.Proof.Replay
import IrcServer.Spec.Lockout

/-! # Locked for good

While a channel has an operator, everybody who is registered can be let in. Once its last
operator has left, whoever is barred stays barred for as long as the others stay.
-/

namespace IrcServer

open IrcServer.Parser Machine Transition

/-! ## Conversations with the server -/

theorem render_clean {message : Message} (source : LF ∉ message.prefixText) (cmd : LF ∉ message.cmd)
    (params : ∀ p ∈ message.params, LF ∉ p) : LF ∉ render message := by
  have hlast : LF ∉ renderLast message.params := by
    unfold renderLast
    split
    · exact List.not_mem_nil
    · next last hlast =>
        have hclean := params last (List.mem_of_getLast? hlast)
        simp [hclean, show LF ≠ space by decide, show LF ≠ colon by decide]
  have hmiddle : ∀ p ∈ message.params.dropLast, LF ∉ p := fun p hp =>
    params p (List.dropLast_subset _ hp)
  simp only [render, List.mem_cons, List.mem_append, List.mem_flatMap]
  rintro ((h | h) | h | h | ⟨p, hp, h | h⟩ | h)
  · exact absurd h (by decide)
  · exact source h
  · exact absurd h (by decide)
  · exact cmd h
  · exact absurd h (by decide)
  · exact hmiddle p hp h
  · exact hlast h

structure Message.Writable (message : Message) : Prop where
  wellFormed : message.WellFormed
  clean : LF ∉ render message

section Conversation

variable {s : Machine}

theorem Stepped.command_actions {s' : Machine} {i : Nat} {c : Client} {line : Bytes}
    (h : Stepped s (.command i line) s') (invariant : Invariant s) (hc : s.clients[i]? = some c) :
    s'.actions = s.actions ++ [.line c.fd (Parser.parse line)] := by
  cases h with
  | dispatched _ d hd _ clean d' channels sends effect =>
      obtain rfl := Option.some.inj (hc.symm.trans hd)
      exact dispatched_actions invariant hd clean effect

theorem Replayed.hears (h : Replayed s) {x : Int} {a : Account}
    (connected : (s.network h.invariant.table).account x = some a) {message : Message}
    (writable : message.Writable) :
    ∃ i t, ∃ ht : Replayed t, IrcServer.step s (.command i (render message)) = some t ∧
      t.actions = s.actions ++ [.line x message] ∧
      t.network ht.invariant.table = (s.network h.invariant.table).apply x
        ((s.network h.invariant.table).respond x a message) := by
  obtain ⟨c, hc, rfl, rfl⟩ := network_account_some h.invariant.table connected
  obtain ⟨i, hi⟩ := List.mem_iff_getElem?.mp hc
  have hlt : i < s.clients.length := (List.getElem?_eq_some_iff.mp hi).choose
  have hstep : IrcServer.step s (.command i (render message)) =
      some (dispatchLine i (render message) s) :=
    if_pos ⟨hlt, writable.clean⟩
  have ht := h.step hstep
  refine ⟨i, _, ht, hstep, ?_, ?_⟩
  · rw [(step_stepped h.invariant.table hstep).command_actions h.invariant hi,
      parse_render writable.wellFormed]
  have connected' : (Network.replay s.passwd s.actions).1.account c.fd = some c.account := by
    rw [h.mirrors.network]
    exact connected
  have mirrors := h.mirrors.dispatched h.invariant hi h.numbered hstep ht.invariant.table
  rw [parse_render writable.wellFormed, Network.deliver_line _ connected', h.mirrors.network]
    at mirrors
  exact mirrors.network.symm

/-- Whatever the connected clients say, the server can hear. -/
theorem Replayed.converse (h : Replayed s) {speech : List (Int × Message)}
    (speakers : ∀ said ∈ speech, (s.network h.invariant.table).account said.1 ≠ none)
    (writable : ∀ said ∈ speech, said.2.Writable) :
    ∃ events t, ∃ ht : Replayed t, run IrcServer.step s events = some t ∧
      (∀ e ∈ events, ∃ i line, e = .command i line) ∧
      t.actions = s.actions ++ speech.map (fun said => .line said.1 said.2) ∧
      t.network ht.invariant.table = (s.network h.invariant.table).after speech := by
  induction speech generalizing s with
  | nil => exact ⟨[], s, h, rfl, by simp, (List.append_nil _).symm, rfl⟩
  | cons said speech ih =>
      obtain ⟨a, connected⟩ := Option.ne_none_iff_exists'.mp (speakers said List.mem_cons_self)
      obtain ⟨i, m, hm, hstep, hactions, hnetwork⟩ :=
        h.hears connected (writable said List.mem_cons_self)
      have still : ∀ other ∈ speech, (m.network hm.invariant.table).account other.1 ≠ none := by
        intro other hother
        rw [hnetwork]
        by_cases hself : other.1 = said.1
        · rw [hself]
          simp [Network.apply]
        · rw [Network.apply_account _ hself]
          exact speakers other (List.mem_cons_of_mem _ hother)
      obtain ⟨events, t, ht, hrun, commands, hspoken, hlater⟩ :=
        ih hm still fun other hother => writable other (List.mem_cons_of_mem _ hother)
      refine ⟨_ :: events, t, ht, run_cons_some.mpr ⟨m, hstep, hrun⟩, ?_, ?_, ?_⟩
      · rintro e (_ | ⟨_, he⟩)
        · exact ⟨i, _, rfl⟩
        · exact commands e he
      · rw [hspoken, hactions, List.append_assoc]
        rfl
      · rw [hlater, hnetwork, ← Network.after_cons connected]

end Conversation

/-! ## What JOIN can be given -/

/-- The key can be written in a line, and a channel that no MODE can name is unrestricted. -/
structure Channel.Enterable (ch : Channel) : Prop where
  key : LF ∉ ch.key
  tabbed : tab ∈ ch.name → ch.key = [] ∧ ch.limit ≤ 0 ∧ ch.inviteOnly = false

theorem Channel.Enterable.of_settings {ch ch' : Channel} (h : ch.Enterable)
    (name : ch'.name = ch.name) (key : ch'.key = ch.key) (limit : ch'.limit = ch.limit)
    (inviteOnly : ch'.inviteOnly = ch.inviteOnly) :
    ch'.Enterable where
  key := key ▸ h.key
  tabbed htab := by
    rw [key, limit, inviteOnly]
    exact h.tabbed (name ▸ htab)

/-- The channel of an accepted MODE has a name that is a word. -/
theorem ModeChange.untabbed {line : Bytes} {ch ch' : Channel} {change : Bytes}
    (changes : ModeChange (Parser.parse line) ch ch' change)
    (name : ch.name = (Parser.parse line).param 0) : tab ∉ ch.name := by
  intro htab
  have two := changes.two
  obtain ⟨first, second, rest, hparams⟩ : ∃ first second rest,
      (Parser.parse line).params = first :: second :: rest := by
    match h : (Parser.parse line).params, two with
    | first :: second :: rest, _ => exact ⟨first, second, rest, rfl⟩
  have hname : ch.name = first := by
    rw [name, Message.param, hparams]
    rfl
  have hword : IsWord first := by
    apply (parse_wellFormed line).middle
    rw [hparams]
    simp
  have hblank := hword.unblanked tab (hname ▸ htab)
  exact absurd hblank (by decide)

theorem Stepped.enterable {s s' : Machine} {e : Event} (h : Stepped s e s')
    (before : ∀ ch ∈ s.channels, ch.Enterable) : ∀ ch ∈ s'.channels, ch.Enterable := by
  intro ch' hch'
  cases h.settings_origin hch' with
  | kept ch hch name same =>
      exact (before ch hch).of_settings name.symm (congrArg Settings.key same)
        (congrArg Settings.limit same) (congrArg Settings.inviteOnly same)
  | founded i line event c hc fresh same =>
      rw [same]
      exact ⟨List.not_mem_nil, fun _ => ⟨rfl, le_rfl, rfl⟩⟩
  | titled i line event c hc k ch at_ two member allowed same =>
      rw [same]
      exact (before ch (List.mem_of_getElem? at_.found)).of_settings rfl rfl rfl rfl
  | moded i line event c hc k ch at_ operator change changes =>
      subst event
      have clean : LF ∉ line := by
        cases h with
        | dispatched _ _ _ _ clean => exact clean
      have htab := changes.untabbed at_.name
      have hold := before ch (List.mem_of_getElem? at_.found)
      have hname : ch'.name = ch.name := by cases changes <;> rfl
      refine ⟨?_, fun h => absurd (hname ▸ h) htab⟩
      have hparam := (parse_clean clean).param 2
      cases changes with
      | key => exact hparam
      | noKey => exact List.not_mem_nil
      | _ => exact hold.key

theorem Reachable.enterable {s : Machine} (h : Reachable s) : ∀ ch ∈ s.channels, ch.Enterable := by
  obtain ⟨fd, passwd, events, hrun⟩ := h
  have preserved : ∀ a e b, Table a.toServer ∧ (∀ ch ∈ a.channels, ch.Enterable) →
      IrcServer.step a e = some b → Table b.toServer ∧ ∀ ch ∈ b.channels, ch.Enterable :=
    fun a e b ha hstep => ⟨ha.1.step hstep, (step_stepped ha.1 hstep).enterable ha.2⟩
  exact (run_invariant preserved
    ⟨start_table fd passwd, fun _ hch => absurd hch List.not_mem_nil⟩ hrun).2

/-! ## Without operators -/

/-- No JOIN of the descriptor can succeed, whatever key it gives. -/
def Channel.Bars (ch : Channel) (fd : Int) : Prop :=
  ch.inviteOnly = true ∧ fd ∉ ch.invitedFds ∨ 0 < ch.limit ∧ ch.limit ≤ ch.memberFds.length

/-- What becomes of the channel `ch`, which has no operator, while its members stay. -/
structure Channel.Frozen (ch x : Channel) : Prop where
  name : x.name = ch.name
  nobody : x.operatorFds = []
  inviteOnly : x.inviteOnly = ch.inviteOnly
  changeTopic : x.changeTopic = ch.changeTopic
  key : x.key = ch.key
  limit : x.limit = ch.limit
  invited : ∀ y ∈ x.invitedFds, y ∈ ch.invitedFds
  members : ∀ y ∈ ch.memberFds, y ∈ x.memberFds

/-- It also keeps out whom it bars. -/
structure Channel.Sealed (ch : Channel) (fd : Int) (x : Channel) : Prop extends ch.Frozen x where
  outside : fd ∉ x.memberFds

def Channel.Stays (ch : Channel) (s : Machine) (e : Event) : Prop :=
  ∀ i c, e = .disconnect i → s.clients[i]? = some c → c.fd ∉ ch.memberFds

inductive Channel.Drifts (s : Machine) (e : Event) (x : Channel) : Channel → Prop
  | same : Drifts s e x x
  | titled (topic : Bytes) : Drifts s e x { x with topic := topic }
  | joined (c : Client) (hc : c ∈ s.clients) (message : Message) (admits : Admits x c message) :
      Drifts s e x (x.joined c.fd)
  | left (i : Nat) (c : Client) (event : e = .disconnect i) (hc : s.clients[i]? = some c) :
      Drifts s e x (x.leave c.fd)

/-- A line can give a channel without operators a topic or one more member. -/
theorem TableChange.unoperated {s : Server} {c : Client} {message : Message}
    {channels : List Channel} (change : TableChange s c message channels) {x : Channel}
    (hx : x ∈ s.channels) (nobody : x.operatorFds = []) :
    x ∈ channels ∨ (∃ topic, { x with topic := topic } ∈ channels) ∨
      Admits x c message ∧ x.joined c.fd ∈ channels := by
  have unoperated : ∀ {p : Prop}, c.fd ∈ x.operatorFds → p := fun h => by
    rw [nobody] at h
    exact absurd h List.not_mem_nil
  cases change with
  | same => exact .inl hx
  | created => exact .inl (List.mem_append_left _ hx)
  | changed registered k old new found name change =>
      have hk := (List.getElem?_eq_some_iff.mp found).choose
      rcases Search.mem_set_of_mem found hx new with rfl | hmem
      · have hnew := List.mem_set hk new
        cases change with
        | joined command admits => exact .inr (.inr ⟨admits, hnew⟩)
        | titled => exact .inr (.inl ⟨_, hnew⟩)
        | kicked command operator => exact unoperated operator
        | moded command operator => exact unoperated operator
        | granted command operator => exact unoperated operator
        | revoked command operator => exact unoperated operator
        | invited command operator => exact unoperated operator
      · exact .inl hmem
  | destroyed registered command k old found name operator =>
      rcases Search.mem_eraseIdx_of_mem found hx with rfl | hmem
      · exact unoperated operator
      · exact .inl hmem

section Frozen

variable {s s' t : Machine} {e : Event} {events : List Event} {ch x x' : Channel} {fd : Int}
  {c : Client} {message : Message}

theorem Stepped.drifts (h : Stepped s e s') (hx : x ∈ s.channels) (nobody : x.operatorFds = [])
    (inhabited : ∃ y ∈ x.memberFds, ∀ i c, e = .disconnect i → s.clients[i]? = some c → c.fd ≠ y) :
    ∃ x' ∈ s'.channels, x.Drifts s e x' := by
  cases h with
  | disconnected i c hc =>
      obtain ⟨y, hy, hstays⟩ := inhabited
      have hleft : y ∈ (x.leave c.fd).memberFds :=
        (List.mem_erase_of_ne (hstays i c rfl hc).symm).mpr hy
      refine ⟨x.leave c.fd, List.mem_filter.mpr ⟨List.mem_map_of_mem hx, ?_⟩, .left i c rfl hc⟩
      simpa [Channel.isEmpty] using List.ne_nil_of_mem hleft
  | dispatched i c hc line clean c' channels sends effect =>
      rw [settle_channels]
      rcases effect.tableChange.unoperated hx nobody with hsame | ⟨topic, htopic⟩ | ⟨admits, hjoin⟩
      · exact ⟨x, hsame, .same⟩
      · exact ⟨_, htopic, .titled topic⟩
      · exact ⟨_, hjoin, .joined c (List.mem_of_getElem? hc) _ admits⟩
  | _ => exact ⟨x, hx, .same⟩

theorem Channel.Frozen.refl (nobody : ch.operatorFds = []) : ch.Frozen ch :=
  ⟨rfl, nobody, rfl, rfl, rfl, rfl, fun _ => id, fun _ => id⟩

theorem Channel.Frozen.drifts (h : ch.Frozen x) (stays : ch.Stays s e) (drift : x.Drifts s e x') :
    ch.Frozen x' := by
  cases drift with
  | same => exact h
  | titled topic => exact { h with }
  | joined c hc message admits =>
      exact { h with members := fun y hy => List.mem_append_left _ (h.members y hy) }
  | left i c event hc =>
      have gone := stays i c event hc
      have nobody : (x.leave c.fd).operatorFds = [] := by
        change (x.operatorFds.erase c.fd).erase c.fd = []
        rw [h.nobody]
        rfl
      refine { h with nobody := nobody, invited := fun y hy => ?_, members := fun y hy => ?_ }
      · exact h.invited y (List.mem_of_mem_erase hy)
      · have hne : y ≠ c.fd := fun heq => gone (heq ▸ hy)
        exact (List.mem_erase_of_ne hne).mpr (h.members y hy)

theorem Channel.Frozen.refuses (h : ch.Frozen x) (bars : ch.Bars fd) (nodup : ch.memberFds.Nodup)
    (small : c.fd ∉ x.memberFds → x.memberFds.length < 2 ^ 31) (admits : Admits x c message) :
    c.fd ≠ fd := by
  rintro rfl
  rcases bars with ⟨inviteOnly, uninvited⟩ | ⟨positive, full⟩
  · exact uninvited (h.invited _ (admits.invited (h.inviteOnly.trans inviteOnly)))
  · have hlimit := admits.limit (h.limit ▸ positive)
    have hcount : ch.memberFds.length ≤ x.memberFds.length :=
      (nodup.subperm h.members).length_le
    rw [toInt32_natCast (small admits.outside), h.limit] at hlimit
    omega

theorem Channel.Sealed.drifts (h : ch.Sealed fd x) (stays : ch.Stays s e) (bars : ch.Bars fd)
    (nodup : ch.memberFds.Nodup) (table : Table s.toServer) (numbered : Numbered s)
    (hx : x ∈ s.channels) (drift : x.Drifts s e x') : ch.Sealed fd x' where
  toFrozen := h.toFrozen.drifts stays drift
  outside := by
    cases drift with
    | same => exact h.outside
    | titled topic => exact h.outside
    | joined c hc message admits =>
        have hne := h.refuses bars nodup (numbered.members_lt table hx hc) admits
        intro hfd
        rcases List.mem_append.mp hfd with hold | hnew
        · exact h.outside hold
        · exact hne (List.mem_singleton.mp hnew).symm
    | left i c event hc => exact fun hfd => h.outside (List.mem_of_mem_erase hfd)

theorem Channel.Frozen.inhabited (h : ch.Frozen x) (inhabited : ch.memberFds ≠ [])
    (stays : ch.Stays s e) :
    ∃ y ∈ x.memberFds, ∀ i c, e = .disconnect i → s.clients[i]? = some c → c.fd ≠ y := by
  obtain ⟨y, hy⟩ := List.exists_mem_of_ne_nil _ inhabited
  exact ⟨y, h.members y hy, fun i c event hc heq => stays i c event hc (heq ▸ hy)⟩

section Run

variable (h : Replayed s) (hrun : run step s events = some t)
  (stays : ∀ a e b, Takes step s events a e b → ch.Stays a e)

include h hrun stays

/-- For as long as its members stay, nothing but the topic and the membership of a channel without
operators changes, and nobody is invited to it any more. -/
theorem frozen_run (inhabited : ch.memberFds ≠ []) (hch : ch ∈ s.channels)
    (nobody : ch.operatorFds = []) : ∃ x ∈ t.channels, ch.Frozen x := by
  have preserved : ∀ a e b, Takes step s events a e b →
      Replayed a ∧ (∃ x ∈ a.channels, ch.Frozen x) →
      Replayed b ∧ ∃ x ∈ b.channels, ch.Frozen x := by
    rintro a e b takes ⟨replayed, x, hx, frozen⟩
    have hstays := stays a e b takes
    obtain ⟨_, _, _, _, hstep⟩ := takes
    obtain ⟨x', hx', drift⟩ := (step_stepped replayed.invariant.table hstep).drifts hx
      frozen.nobody (frozen.inhabited inhabited hstays)
    exact ⟨replayed.step hstep, x', hx', frozen.drifts hstays drift⟩
  exact (run_invariant_takes hrun preserved ⟨h, ch, hch, .refl nobody⟩).2

/-- Nor does it let in anybody whom it bars. -/
theorem sealed_run (bars : ch.Bars fd) (consistent : ch.memberFds.Nodup ∧ ch.memberFds ≠ [])
    (hch : ch ∈ s.channels) (nobody : ch.operatorFds = []) (outside : fd ∉ ch.memberFds) :
    ∃ x ∈ t.channels, ch.Sealed fd x := by
  have preserved : ∀ a e b, Takes step s events a e b →
      Replayed a ∧ (∃ x ∈ a.channels, ch.Sealed fd x) →
      Replayed b ∧ ∃ x ∈ b.channels, ch.Sealed fd x := by
    rintro a e b takes ⟨replayed, x, hx, is_sealed⟩
    have hstays := stays a e b takes
    obtain ⟨_, _, _, _, hstep⟩ := takes
    have table := replayed.invariant.table
    obtain ⟨x', hx', drift⟩ := (step_stepped table hstep).drifts hx is_sealed.nobody
      (is_sealed.inhabited consistent.2 hstays)
    exact ⟨replayed.step hstep, x', hx',
      is_sealed.drifts hstays bars consistent.1 table replayed.numbered hx drift⟩
  exact (run_invariant_takes hrun preserved ⟨h, ch, hch, .refl nobody, outside⟩).2

end Run

end Frozen

/-! ## Who can be let in -/

section Doors

variable {s : Machine} {ch : Channel} {d : Client}

theorem room_bars {connected : List Int} (h : ch.Consistent connected) {fd : Int} :
    (ch.room h).Bars fd ↔ ch.Bars fd :=
  or_congr ((room_models ch h).restricted fd) (room_models ch h).full

theorem order_writable {command : String} {params : List Bytes} (cmd : IsWord (text command))
    (clean : LF ∉ text command) (middle : ∀ p ∈ params.dropLast, IsWord p)
    (params_clean : ∀ p ∈ params, LF ∉ p) : (Message.order command params).Writable where
  wellFormed :=
    { source := fun _ h => absurd h List.not_mem_nil
      command := cmd.unblanked
      bare := fun h => absurd h cmd.nonempty
      middle := middle }
  clean := render_clean List.not_mem_nil clean params_clean

theorem isMember_of_room {t : Machine} (table : Table t.toServer) {name : Bytes} {fd : Int}
    (h : ∃ r, (t.network table).room name = some r ∧ fd ∈ r.members) : IsMember t name fd := by
  obtain ⟨r, hr, hmember⟩ := h
  rcases network_room_cases table name with ⟨x, hx, hname, hroom⟩ | ⟨_, hnone⟩
  · rw [hroom] at hr
    obtain rfl := Option.some.inj hr
    exact ⟨x, hx, hname, hmember⟩
  · rw [hnone] at hr
    cases hr

/-- What the clients can say to the network they can say to the server, and nobody leaves. -/
theorem Reachable.admitted (h : Reachable s) {name : Bytes} {fd : Int} {speech : List (Int × Message)}
    (speakers : ∀ said ∈ speech, (s.network h.replayed.invariant.table).account said.1 ≠ none)
    (writable : ∀ said ∈ speech, said.2.Writable)
    (admits : ∃ r, ((s.network h.replayed.invariant.table).after speech).room name = some r ∧
      fd ∈ r.members) :
    ∃ events t, Transition.run IrcServer.step s events = some t ∧
      (∀ a e b, Takes IrcServer.step s events a e b → ch.Stays a e) ∧
      t.actions = s.actions ++ speech.map (fun said => .line said.1 said.2) ∧
      IsMember t name fd := by
  obtain ⟨events, t, ht, hrun, commands, hactions, hnetwork⟩ :=
    h.replayed.converse speakers writable
  refine ⟨events, t, hrun, ?_, hactions, isMember_of_room ht.invariant.table (hnetwork ▸ admits)⟩
  rintro a e b ⟨before, after, rfl, _⟩ i c rfl
  obtain ⟨_, _, hcommand⟩ := commands _ (List.mem_append_right _ List.mem_cons_self)
  cases hcommand

section Client

variable (h : Reachable s) (hd : d ∈ s.clients) (registered : d.registered = true)

include h hd registered

theorem registered_account : d.account.Registered :=
  (h.invariant.identities.sound d hd).account_registered.mpr registered

theorem registered_nickname : d.nickname ≠ [] :=
  have sound := h.invariant.identities.sound d hd
  sound.received.mp (sound.registered.mp registered).1

theorem holds_alone {fd : Int}
    (holds : (s.network h.replayed.invariant.table).Holds d.account.nick fd) : fd = d.fd := by
  obtain ⟨c, hc, rfl, hnick⟩ := (network_holds h.replayed.invariant.table).mp holds
  rw [account_nick] at hnick
  exact (h.invariant.identities.unique d hd c hc hnick.symm (registered_nickname h hd registered)).symm

end Client

def Channel.entrance (ch : Channel) : Message :=
  .order "JOIN" (ch.name :: if ch.key = [] then [] else [ch.key])

/-- What an operator and a client say so that the client gets onto the channel. -/
def Channel.opening (ch : Channel) (op : Int) (d : Client) : List (Action Int) :=
  [.line op (.order "MODE" [ch.name, text "-l"]),
    .line op (.order "MODE" [ch.name, text "-k", text "x"]),
    .line op (.order "INVITE" [d.nickname, ch.name]), .line d.fd (.order "JOIN" [ch.name])]

theorem Reachable.joins (h : Reachable s) (hch : ch ∈ s.channels) (hd : d ∈ s.clients)
    (registered : d.registered = true) (outside : d.fd ∉ ch.memberFds) (unbarred : ¬ ch.Bars d.fd) :
    ∃ events t, Transition.run IrcServer.step s events = some t ∧
      (∀ a e b, Takes IrcServer.step s events a e b → ch.Stays a e) ∧
      t.actions = s.actions ++ [.line d.fd ch.entrance] ∧ IsMember t ch.name d.fd := by
  have table := h.replayed.invariant.table
  have consistent := table.consistent ch hch
  have enterable := h.enterable ch hch
  have account := network_account table hd
  have hname := (validChannelName_bytes consistent.valid).2.2
  have unbarred' : ¬ (ch.room consistent).Bars d.fd := mt (room_bars consistent).mp unbarred
  let rest := if ch.key = [] then [] else [ch.key]
  have key : (ch.room consistent).key = none ∨ rest[0]? = (ch.room consistent).key := by
    rw [room_key]
    by_cases hkey : ch.key = []
    · exact .inl (if_pos hkey)
    · right
      simp only [rest, if_neg hkey, noneIfEmpty]
      rfl
  have writable : (Message.order "JOIN" (ch.name :: rest)).Writable := by
    refine order_writable (isWord_of_all (by decide) (by decide) (by decide)) (by decide) ?_ ?_
    · intro p hp
      by_cases hkey : ch.key = []
      · simp [rest, hkey] at hp
      · have untabbed : tab ∉ ch.name := fun htab => hkey (enterable.tabbed htab).1
        simp only [rest, if_neg hkey, List.dropLast, List.mem_singleton] at hp
        exact hp ▸ isWord_channelName consistent.valid untabbed
    · intro p hp
      by_cases hkey : ch.key = []
      · simp only [rest, if_pos hkey, List.mem_singleton] at hp
        exact hp ▸ hname
      · simp only [rest, if_neg hkey, List.mem_cons, List.not_mem_nil, or_false] at hp
        rcases hp with rfl | rfl
        · exact hname
        · exact enterable.key
  have admits := Network.after_join account (registered_account h hd registered) consistent.valid
    (network_room table hch) outside unbarred' key
  refine h.admitted ?_ ?_ admits
  · simp [account]
  · simpa using writable

theorem Reachable.unbarred (h : Reachable s) (hch : ch ∈ s.channels) (htab : tab ∈ ch.name) {fd : Int} :
    ¬ ch.Bars fd := by
  obtain ⟨_, unlimited, unrestricted⟩ := (h.enterable ch hch).tabbed htab
  rintro (⟨restricted, _⟩ | ⟨limited, _⟩)
  · rw [unrestricted] at restricted
    cases restricted
  · omega

/-- Whoever is barred is let in by an operator. -/
theorem Reachable.lets_in (h : Reachable s) (hch : ch ∈ s.channels) (hd : d ∈ s.clients)
    (registered : d.registered = true) (outside : d.fd ∉ ch.memberFds) (bars : ch.Bars d.fd)
    {op : Int} (operator : op ∈ ch.operatorFds) :
    ∃ events t, Transition.run IrcServer.step s events = some t ∧
      (∀ a e b, Takes IrcServer.step s events a e b → ch.Stays a e) ∧
      t.actions = s.actions ++ ch.opening op d ∧ IsMember t ch.name d.fd := by
  have table := h.replayed.invariant.table
  have consistent := table.consistent ch hch
  obtain ⟨c, hc, rfl, operates⟩ :=
    h.invariant.identities.members ch hch op (consistent.operators_members op operator)
  have account := network_account table hd
  have account' := network_account table hc
  have hname := isWord_channelName consistent.valid fun htab => h.unbarred hch htab bars
  have hname_clean := (validChannelName_bytes consistent.valid).2.2
  have valid := (h.invariant.identities.sound d hd).valid (registered_nickname h hd registered)
  have hnick := isWord_nickname valid
  have hnick_clean := (checkNickValid_bytes valid).1
  have admits := Network.after_operator account' (registered_account h hc operates)
    (network_room table hch) operator (text "x") account (registered_account h hd registered)
    (fun fd holds => holds_alone h hd registered holds) consistent.valid outside
  rw [account_nick] at admits
  have joins : IsWord (text "JOIN") := isWord_of_all (by decide) (by decide) (by decide)
  have modes : IsWord (text "MODE") := isWord_of_all (by decide) (by decide) (by decide)
  have invites : IsWord (text "INVITE") := isWord_of_all (by decide) (by decide) (by decide)
  refine h.admitted ?_ ?_ admits
  · simp [account, account']
  · simp only [List.forall_mem_cons, List.not_mem_nil, false_implies, implies_true, and_true]
    refine ⟨?_, ?_, ?_, ?_⟩
    · refine order_writable modes (by decide) ?_ ?_
      · simpa using hname
      · simpa [hname_clean] using (by decide : LF ∉ text "-l")
    · refine order_writable modes (by decide) ?_ ?_
      · simpa [hname] using isWord_of_all (by decide) (by decide) (by decide)
      · simpa [hname_clean] using (by decide : LF ∉ text "-k" ∧ LF ∉ text "x")
    · refine order_writable invites (by decide) ?_ ?_
      · simpa using hnick
      · simpa [hname_clean] using hnick_clean
    · refine order_writable joins (by decide) ?_ ?_
      · simp
      · simpa using hname_clean

/-- A registered client that is not on a channel can be let in while nobody leaves exactly if the
channel has an operator, or does not bar the client. Every operator can do it with three lines,
and the client with one; without an operator the settings stay as they are, and nobody is invited
any more. -/
theorem admission_possible_iff (h : Reachable s) (hch : ch ∈ s.channels) (hd : d ∈ s.clients)
    (registered : d.registered = true) (outside : d.fd ∉ ch.memberFds) :
    ((∃ events t, run step s events = some t ∧
      (∀ a e b, Takes step s events a e b → ch.Stays a e) ∧ IsMember t ch.name d.fd) ↔
        ch.operatorFds ≠ [] ∨ ¬ ch.Bars d.fd) ∧
      (¬ ch.Bars d.fd → ∃ events t, run step s events = some t ∧
        t.actions = s.actions ++ [.line d.fd ch.entrance] ∧ IsMember t ch.name d.fd) ∧
      (ch.Bars d.fd → ∀ op ∈ ch.operatorFds, ∃ events t, run step s events = some t ∧
        t.actions = s.actions ++ ch.opening op d ∧ IsMember t ch.name d.fd) ∧
      (tab ∈ ch.name → ¬ ch.Bars d.fd) ∧
      (ch.operatorFds = [] → ∀ events t, run step s events = some t →
        (∀ a e b, Takes step s events a e b → ch.Stays a e) → ∃ x ∈ t.channels, ch.Frozen x) := by
  have consistent := h.table.consistent ch hch
  refine ⟨⟨?_, ?_⟩, ?_, ?_, fun htab => h.unbarred hch htab, ?_⟩
  · rintro ⟨events, t, hrun, stays, y, hy, hname, hmember⟩
    by_contra hnot
    rw [not_or, not_not, not_not] at hnot
    obtain ⟨x, hx, hsealed⟩ := sealed_run h.replayed hrun stays hnot.2
      ⟨consistent.members_nodup, consistent.inhabited⟩ hch hnot.1 outside
    have hsame := (h.run hrun).table.unique_name hx hy (hsealed.name.trans hname.symm)
    exact hsealed.outside (hsame ▸ hmember)
  · intro possible
    by_cases bars : ch.Bars d.fd
    · obtain ⟨op, operator⟩ :=
        List.exists_mem_of_ne_nil _ (possible.resolve_right (not_not.mpr bars))
      obtain ⟨events, t, hrun, stays, _, member⟩ :=
        h.lets_in hch hd registered outside bars operator
      exact ⟨events, t, hrun, stays, member⟩
    · obtain ⟨events, t, hrun, stays, _, member⟩ := h.joins hch hd registered outside bars
      exact ⟨events, t, hrun, stays, member⟩
  · intro unbarred
    obtain ⟨events, t, hrun, _, hactions, member⟩ := h.joins hch hd registered outside unbarred
    exact ⟨events, t, hrun, hactions, member⟩
  · intro bars op operator
    obtain ⟨events, t, hrun, _, hactions, member⟩ :=
      h.lets_in hch hd registered outside bars operator
    exact ⟨events, t, hrun, hactions, member⟩
  · intro nobody events t hrun stays
    exact frozen_run h.replayed hrun stays consistent.inhabited hch nobody

end Doors

/-- A third client has registered when the founder of the channel makes it invite-only. -/
def lockoutRun : List Event :=
  sampleRun ++ [.connect 6 0] ++ registration 2 "momo" ++ [.command 0 (text "MODE #42 +i")]

def orphanedRun : List Event := lockoutRun ++ [.disconnect 0]

/-- The founder can let it in; once the founder has left, nobody can. -/
theorem admission_possible_iff_sample :
    (∃ events t, run step (stateAfter lockoutRun) events = some t ∧
      (∀ a e b, Takes step (stateAfter lockoutRun) events a e b →
        ((stateAfter lockoutRun).channelAt 0).Stays a e) ∧ IsMember t (text "#42") 6) ∧
      ¬ ∃ events t, run step (stateAfter orphanedRun) events = some t ∧
        (∀ a e b, Takes step (stateAfter orphanedRun) events a e b →
          ((stateAfter orphanedRun).channelAt 0).Stays a e) ∧
        IsMember t (text "#42") 6 := by
  have hch : (stateAfter lockoutRun).channelAt 0 ∈ (stateAfter lockoutRun).channels := by
    decide +kernel
  have hd : (stateAfter lockoutRun).clientAt 2 ∈ (stateAfter lockoutRun).clients := by
    decide +kernel
  have hch' : (stateAfter orphanedRun).channelAt 0 ∈
      (stateAfter orphanedRun).channels := by decide +kernel
  have hd' : (stateAfter orphanedRun).clientAt 1 ∈
      (stateAfter orphanedRun).clients := by decide +kernel
  have before := admission_possible_iff (stateAfter_reachable lockoutRun) hch hd
    (by decide +kernel) (by decide +kernel)
  have after := admission_possible_iff (stateAfter_reachable orphanedRun) hch' hd'
    (by decide +kernel) (by decide +kernel)
  have hname : ((stateAfter lockoutRun).channelAt 0).name = text "#42" := by decide +kernel
  have hfd : ((stateAfter lockoutRun).clientAt 2).fd = 6 := by decide +kernel
  have hname' : ((stateAfter orphanedRun).channelAt 0).name = text "#42" := by
    decide +kernel
  have hfd' : ((stateAfter orphanedRun).clientAt 1).fd = 6 := by decide +kernel
  simp only [hname, hfd] at before
  simp only [hname', hfd'] at after
  refine ⟨before.1.mpr (.inl (by decide +kernel)), fun possible => ?_⟩
  rcases after.1.mp possible with operated | unbarred
  · exact absurd operated (by decide +kernel)
  · exact unbarred (.inl (by decide +kernel))

end IrcServer
