import IrcServer.Proof.Table

/-! # Authority over channels

What a line may do to a channel whose operator its sender is not, and how a
descriptor comes to be an operator. Everything is read off `TableChange`, so that
no command is looked at twice.
-/

namespace IrcServer

open Search Machine Transition

/-- What a client that is no operator of `ch` may leave of it. -/
structure Channel.Guarded (c : Client) (ch ch' : Channel) : Prop where
  name : ch'.name = ch.name
  inviteOnly : ch'.inviteOnly = ch.inviteOnly
  changeTopic : ch'.changeTopic = ch.changeTopic
  key : ch'.key = ch.key
  limit : ch'.limit = ch.limit
  operators : ch'.operatorFds = ch.operatorFds
  invited : ch'.invitedFds = ch.invitedFds
  members : ch'.memberFds = ch.memberFds ∨ ch'.memberFds = ch.memberFds ++ [c.fd]
  topic : ch'.topic = ch.topic ∨ c.fd ∈ ch.memberFds ∧ ch.changeTopic = false

def Operates (s : Machine) (name : Bytes) (fd : Int) : Prop :=
  ∃ ch ∈ s.channels, ch.name = name ∧ fd ∈ ch.operatorFds

/-- The two ways to become an operator of the channel `name`: to found it, or to be granted the
right by one of its operators. -/
inductive Appoints (s : Machine) (name : Bytes) (fd : Int) : Event → Prop
  | founder (i : Nat) (line : Bytes) (c : Client) (hc : s.clients[i]? = some c)
      (command : (Parser.parse line).command = text "JOIN")
      (names : (Parser.parse line).param 0 = name)
      (fresh : ∀ ch ∈ s.channels, ch.name ≠ name) (self : fd = c.fd) :
      Appoints s name fd (.command i line)
  | granted (i : Nat) (line : Bytes) (c : Client) (hc : s.clients[i]? = some c)
      (command : (Parser.parse line).command = text "MODE")
      (names : (Parser.parse line).param 0 = name)
      (plus : (Parser.parse line).param 1 = text "+o") (operator : Operates s name c.fd)
      (d : Client) (hd : d ∈ s.clients) (nick : d.nickname = (Parser.parse line).param 2)
      (self : fd = d.fd) :
      Appoints s name fd (.command i line)

def Orphaned (s : Machine) (name : Bytes) : Prop :=
  (∃ ch ∈ s.channels, ch.name = name) ∧ ∀ ch ∈ s.channels, ch.name = name → ch.operatorFds = []

/-! ## One line -/

section Line

variable {s : Server} {c : Client} {message : Message}

theorem Channel.Guarded.refl (c : Client) (ch : Channel) : Channel.Guarded c ch ch :=
  ⟨rfl, rfl, rfl, rfl, rfl, rfl, rfl, .inl rfl, .inl rfl⟩

theorem Channel.Change.guarded {ch ch' : Channel} (change : Channel.Change s c message ch ch')
    (ordinary : c.fd ∉ ch.operatorFds) : Channel.Guarded c ch ch' := by
  cases change with
  | joined => exact { Channel.Guarded.refl c ch with members := .inr rfl }
  | titled command member allowed =>
      have open_ : ch.changeTopic = false := by
        cases h : ch.changeTopic with
        | false => rfl
        | true => exact absurd (allowed h) ordinary
      exact { Channel.Guarded.refl c ch with topic := .inr ⟨member, open_⟩ }
  | kicked command operator => exact absurd operator ordinary
  | moded command operator => exact absurd operator ordinary
  | granted command operator => exact absurd operator ordinary
  | revoked command operator => exact absurd operator ordinary
  | invited command operator => exact absurd operator ordinary

theorem TableChange.guarded {channels : List Channel} (change : TableChange s c message channels)
    {ch : Channel} (hch : ch ∈ s.channels) (ordinary : c.fd ∉ ch.operatorFds) :
    ∃ ch' ∈ channels, Channel.Guarded c ch ch' := by
  cases change with
  | same => exact ⟨ch, hch, .refl c ch⟩
  | created => exact ⟨ch, List.mem_append_left _ hch, .refl c ch⟩
  | changed registered k old new found name change =>
      rcases mem_set_of_mem found hch new with rfl | hmem
      · exact ⟨new, List.mem_set (List.getElem?_eq_some_iff.mp found).choose new,
          change.guarded ordinary⟩
      · exact ⟨ch, hmem, .refl c ch⟩
  | destroyed registered command k old found name operator =>
      rcases mem_eraseIdx_of_mem found hch with rfl | hmem
      · exact absurd operator ordinary
      · exact ⟨ch, hmem, .refl c ch⟩

theorem TableChange.other {channels : List Channel} (change : TableChange s c message channels) :
    channels.filter (·.name ≠ message.channelName) =
      s.channels.filter (·.name ≠ message.channelName) := by
  cases change with
  | same => rfl
  | created => simp [Channel.founded]
  | changed registered k ch ch' found name change =>
      exact filter_set found (by simp [name]) (by simp [change.name_eq, name])
  | destroyed registered command k ch found name =>
      exact filter_eraseIdx found (by simp [name])

/-- The operators of a changed channel are old ones, or one that an operator appoints. -/
theorem Channel.Change.operators {ch ch' : Channel} (change : Channel.Change s c message ch ch')
    {fd : Int} (hfd : fd ∈ ch'.operatorFds) :
    fd ∈ ch.operatorFds ∨
      (message.command = text "MODE" ∧ message.param 1 = text "+o" ∧ c.fd ∈ ch.operatorFds ∧
        ∃ d ∈ s.clients, d.nickname = message.param 2 ∧ fd = d.fd) := by
  cases change with
  | joined => exact Or.inl hfd
  | titled => exact Or.inl hfd
  | kicked => exact Or.inl (List.mem_of_mem_erase hfd)
  | moded command operator ch' change changes =>
      cases changes <;> exact Or.inl hfd
  | granted command operator plus target d targets =>
      rcases List.mem_append.mp hfd with hfd | hfd
      · exact Or.inl hfd
      · exact Or.inr ⟨command, plus, operator, d, List.mem_of_getElem? targets.found,
          targets.nickname, List.mem_singleton.mp hfd⟩
  | revoked => exact Or.inl (List.mem_of_mem_erase hfd)
  | invited => exact Or.inl (by simpa using hfd)

end Line

/-! ## One event -/

theorem Stepped.appointed {s s' : Machine} {e : Event} (h : Stepped s e s') {name : Bytes}
    {fd : Int} (hop : Operates s' name fd) : Operates s name fd ∨ Appoints s name fd e := by
  obtain ⟨ch', hch', rfl, hfd⟩ := hop
  cases h.channel_origin hch' with
  | kept hch => exact Or.inl ⟨ch', hch, rfl, hfd⟩
  | left i c event hc ch hch same =>
      subst same
      -- `leave` only erases
      exact Or.inl ⟨ch, hch, rfl, List.mem_of_mem_erase (List.mem_of_mem_erase hfd)⟩
  | founded i line event c hc registered command valid fresh same =>
      subst event same
      exact Or.inr (.founder i line c hc command rfl fresh (List.mem_singleton.mp hfd))
  | changed i line event clean c hc registered k ch found name change =>
      subst event
      have hch := List.mem_of_getElem? found
      rcases change.operators hfd with hold | ⟨command, plus, operator, d, hd, nick, self⟩
      · exact Or.inl ⟨ch, hch, change.name_eq.symm, hold⟩
      · have hname := channelName_of_command command (by decide)
        exact Or.inr (.granted i line c hc command
          (hname.symm.trans (name.symm.trans change.name_eq.symm)) plus
          ⟨ch, hch, change.name_eq.symm, operator⟩ d hd nick self)

theorem Stepped.orphaned {s s' : Machine} {e : Event} (h : Stepped s e s') {name : Bytes}
    (orphaned : Orphaned s name) (stays : ∃ ch ∈ s'.channels, ch.name = name) :
    Orphaned s' name := by
  obtain ⟨⟨ch, hch, hname⟩, nobody⟩ := orphaned
  have unoperated : ∀ fd, ¬ Operates s name fd := by
    rintro fd ⟨ch, hch, hname, hfd⟩
    rw [nobody ch hch hname] at hfd
    exact List.not_mem_nil hfd
  refine ⟨stays, fun ch' hch' hname' => List.eq_nil_iff_forall_not_mem.mpr fun fd hfd => ?_⟩
  rcases h.appointed ⟨ch', hch', hname', hfd⟩ with hold | happoints
  · exact unoperated fd hold
  · cases happoints with
    | founder _ _ _ _ _ _ fresh => exact fresh ch hch hname
    | granted _ _ c _ _ _ _ operator => exact unoperated c.fd operator

/-! ## Runs -/

/-- Without operators a channel stays without, for as long as it exists. -/
theorem orphaned_run {s t : Machine} {events : List Event} {name : Bytes} (table : Table s.toServer)
    (hrun : run step s events = some t) (orphaned : Orphaned s name)
    (stays : ∀ u, Visits step s events u → ∃ ch ∈ u.channels, ch.name = name) :
    Orphaned t name := by
  induction events generalizing s with
  | nil =>
      cases hrun
      exact orphaned
  | cons e events ih =>
      obtain ⟨s', hstep, hrest⟩ := run_cons_some.mp hrun
      have hvisit : ∀ u, Visits step s' events u → ∃ ch ∈ u.channels, ch.name = name :=
        fun u hu => stays u (hu.cons hstep)
      exact ih (table.step hstep) hrest
        ((step_stepped table hstep).orphaned orphaned (hvisit s' (.start s' events))) hvisit

/-- Every operator was appointed in some step of the run and has been an operator since. -/
theorem operator_earned {fd₀ : Int} {passwd : Bytes} {events : List Event} {s : Machine}
    (hrun : run step (Machine.start fd₀ passwd) events = some s) {name : Bytes} {fd : Int}
    (hop : Operates s name fd) :
    ∃ before e after a b, events = before ++ e :: after ∧
      run step (Machine.start fd₀ passwd) before = some a ∧ step a e = some b ∧
      Appoints a name fd e ∧ ∀ u, Visits step b after u → Operates u name fd := by
  induction events using List.reverseRecOn generalizing s with
  | nil =>
      cases hrun
      obtain ⟨ch, hch, _⟩ := hop
      cases hch
  | append_singleton events e ih =>
      obtain ⟨m, hm, hlast⟩ := run_append_some.mp hrun
      obtain ⟨s', hstep, hend⟩ := run_cons_some.mp hlast
      cases hend
      have table : Table m.toServer := Reachable.table ⟨fd₀, passwd, events, hm⟩
      rcases (step_stepped table hstep).appointed hop with hold | happoints
      · obtain ⟨before, f, after, a, b, rfl, ha, hb, happ, hkept⟩ := ih hm hold
        refine ⟨before, f, after ++ [e], a, b, by simp, ha, hb, happ, fun u hu => ?_⟩
        have hbm : run step b after = some m := by
          obtain ⟨a', ha', hrest⟩ := run_append_some.mp hm
          obtain rfl := Option.some.inj (ha.symm.trans ha')
          obtain ⟨b', hb', hrest⟩ := run_cons_some.mp hrest
          obtain rfl := Option.some.inj (hb.symm.trans hb')
          exact hrest
        rcases visits_snoc hbm hstep hu with hu | rfl
        · exact hkept u hu
        · exact hop
      · refine ⟨events, e, [], m, s, rfl, hm, hstep, happoints, fun u hu => ?_⟩
        rw [visits_nil hu]
        exact hop

/-- Only operators have power over a channel, and only operators make operators. -/
structure Authority (s : Machine) : Prop where
  guarded : ∀ i c line s', s.clients[i]? = some c → step s (.command i line) = some s' →
    ∀ ch ∈ s.channels, c.fd ∉ ch.operatorFds → ∃ ch' ∈ s'.channels, Channel.Guarded c ch ch'
  other : ∀ i line s', step s (.command i line) = some s' →
    s'.channels.filter (·.name ≠ (Parser.parse line).channelName) =
      s.channels.filter (·.name ≠ (Parser.parse line).channelName)
  appointed : ∀ e s' name fd, step s e = some s' → Operates s' name fd →
    Operates s name fd ∨ Appoints s name fd e
  earned : ∀ fd₀ passwd events, run step (Machine.start fd₀ passwd) events = some s →
    ∀ name fd, Operates s name fd →
      ∃ before e after a b, events = before ++ e :: after ∧
        run step (Machine.start fd₀ passwd) before = some a ∧ step a e = some b ∧
        Appoints a name fd e ∧ ∀ u, Visits step b after u → Operates u name fd
  orphaned : ∀ name events t, Orphaned s name → run step s events = some t →
    (∀ u, Visits step s events u → ∃ ch ∈ u.channels, ch.name = name) → Orphaned t name

theorem dispatched_tableChange {s s' : Machine} (table : Table s.toServer) {i : Nat} {c : Client}
    (hc : s.clients[i]? = some c) {line : Bytes} (hstep : step s (.command i line) = some s') :
    TableChange s.toServer c (Parser.parse line) s'.channels := by
  cases step_stepped table hstep with
  | dispatched _ d hd _ _ c' channels sends effect =>
      obtain rfl := Option.some.inj (hc.symm.trans hd)
      rw [settle_channels]
      exact effect.tableChange

theorem authority_reachable {s : Machine} (h : Reachable s) : Authority s where
  guarded i c line s' hc hstep ch hch ordinary :=
    (dispatched_tableChange h.table hc hstep).guarded hch ordinary
  other i line s' hstep := by
    cases step_stepped h.table hstep with
    | dispatched _ c hc => exact (dispatched_tableChange h.table hc hstep).other
  appointed e s' name fd hstep hop := (step_stepped h.table hstep).appointed hop
  earned fd₀ passwd events hrun name fd hop := operator_earned hrun hop
  orphaned name events t orphaned hrun stays := orphaned_run h.table hrun orphaned stays

theorem authority_sample : Authority (stateAfter sampleRun) :=
  authority_reachable (stateAfter_reachable sampleRun)

end IrcServer
