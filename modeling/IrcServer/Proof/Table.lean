import IrcServer.Proof.Step
import IrcServer.Spec.Change

/-! # The tables stay well formed

One invariant for the poll table, the client table and the channel table, preserved
by every event. Deleting the first match deletes every match because the lists have
no duplicates, and a refused JOIN leaves no empty channel because a fresh channel
refuses nobody.
-/

namespace IrcServer

open Search Machine

/-! ## One channel -/

section Channels

variable {connected : List Int} {ch : Channel}

theorem Channel.Consistent.leave_eq (h : ch.Consistent connected) (fd : Int) :
    ch.leave fd =
      { ch with
        memberFds := ch.memberFds.filter (· ≠ fd)
        operatorFds := ch.operatorFds.filter (· ≠ fd)
        invitedFds := ch.invitedFds.filter (· ≠ fd) } := by
  have hgone : fd ∉ ch.operatorFds.filter (· ≠ fd) := by simp
  simp only [Channel.leave, Channel.removeMember, Channel.removeInvite, Channel.removeOperator,
    erase_eq_filter h.members_nodup, erase_eq_filter h.operators_nodup,
    erase_eq_filter h.invited_nodup, List.erase_of_not_mem hgone]

/-- A departure keeps a channel consistent, as long as somebody is left. -/
theorem Channel.Consistent.leave (h : ch.Consistent connected) {fd : Int}
    (inhabited : (ch.leave fd).memberFds ≠ []) :
    (ch.leave fd).Consistent (connected.filter (· ≠ fd)) := by
  rw [h.leave_eq] at inhabited ⊢
  refine ⟨?_, ?_, ?_, h.members_nodup.filter _, h.operators_nodup.filter _,
    h.invited_nodup.filter _, inhabited, h.valid⟩
  · intro x hx
    obtain ⟨hmem, hne⟩ := List.mem_filter.mp hx
    exact List.mem_filter.mpr ⟨h.members_connected x hmem, hne⟩
  · intro x hx
    obtain ⟨hmem, hne⟩ := List.mem_filter.mp hx
    exact List.mem_filter.mpr ⟨h.invited_connected x hmem, hne⟩
  · intro x hx
    obtain ⟨hmem, hne⟩ := List.mem_filter.mp hx
    exact List.mem_filter.mpr ⟨h.operators_members x hmem, hne⟩

theorem Channel.Consistent.mono (h : ch.Consistent connected) {more : List Int}
    (hsub : ∀ fd ∈ connected, fd ∈ more) : ch.Consistent more :=
  { h with
    members_connected := fun fd hfd => hsub fd (h.members_connected fd hfd)
    invited_connected := fun fd hfd => hsub fd (h.invited_connected fd hfd) }

theorem nodup_snoc {fds : List Int} {fd : Int} (h : fds.Nodup) (hfd : fd ∉ fds) :
    (fds ++ [fd]).Nodup :=
  List.nodup_append.mpr ⟨h, List.nodup_singleton fd, fun a ha b hb => by
    rw [List.mem_singleton.mp hb]
    exact fun heq => hfd (heq ▸ ha)⟩

theorem founded_consistent {name : Bytes} {fd : Int} (valid : validChannelName name = true)
    (hfd : fd ∈ connected) : (Channel.founded name fd).Consistent connected where
  members_connected x hx := by rwa [List.mem_singleton.mp hx]
  invited_connected x hx := absurd hx List.not_mem_nil
  operators_members x hx := hx
  members_nodup := List.nodup_singleton fd
  operators_nodup := List.nodup_singleton fd
  invited_nodup := List.nodup_nil
  inhabited := List.cons_ne_nil fd []
  valid := valid

theorem mem_removeMember_operators (h : ch.Consistent connected) {fd x : Int}
    (hx : x ∈ (ch.removeMember fd).operatorFds) : x ∈ (ch.removeMember fd).memberFds := by
  simp only [Channel.removeMember, erase_eq_filter h.members_nodup,
    erase_eq_filter h.operators_nodup] at hx ⊢
  obtain ⟨hmem, hne⟩ := List.mem_filter.mp hx
  exact List.mem_filter.mpr ⟨h.operators_members x hmem, hne⟩

theorem ModeChange.consistent {message : Message} {ch' : Channel} {change : Bytes}
    (changes : ModeChange message ch ch' change) (h : ch.Consistent connected) :
    ch'.Consistent connected := by
  cases changes <;> exact { h with }

/-- Every change a client may cause keeps the channel consistent. -/
theorem Channel.Change.consistent {s : Server} {c : Client} {message : Message} {ch' : Channel}
    (change : Channel.Change s c message ch ch') (h : ch.Consistent (s.clients.map (·.fd)))
    (hc : c ∈ s.clients) : ch'.Consistent (s.clients.map (·.fd)) := by
  have target_connected : ∀ {nick : Bytes} {target : Nat} {d : Client}, Targets s nick target d →
      d.fd ∈ s.clients.map (·.fd) := fun targets =>
    List.mem_map_of_mem (List.mem_of_getElem? targets.found)
  cases change with
  | joined command admits =>
      have hfd : c.fd ∈ s.clients.map (·.fd) := List.mem_map_of_mem hc
      refine { h with
        members_connected := fun x hx => ?_
        operators_members := fun x hx => List.mem_append_left _ (h.operators_members x hx)
        members_nodup := nodup_snoc h.members_nodup admits.outside
        inhabited := List.append_ne_nil_of_right_ne_nil _ (List.cons_ne_nil _ _) }
      rcases List.mem_append.mp hx with hx | hx
      · exact h.members_connected x hx
      · rwa [List.mem_singleton.mp hx]
  | titled => exact { h with }
  | kicked command operator target d targets member keeps left =>
      exact { h with
        members_connected := fun x hx => h.members_connected x (List.mem_of_mem_erase hx)
        operators_members := fun x hx => mem_removeMember_operators h hx
        members_nodup := h.members_nodup.erase _
        operators_nodup := h.operators_nodup.erase _
        inhabited := left }
  | moded command operator ch' change changes => exact changes.consistent h
  | granted command operator plus target d targets member ordinary =>
      refine { h with
        operators_members := fun x hx => ?_
        operators_nodup := nodup_snoc h.operators_nodup ordinary }
      rcases List.mem_append.mp hx with hx | hx
      · exact h.operators_members x hx
      · rwa [List.mem_singleton.mp hx]
  | revoked =>
      exact { h with
        operators_members := fun x hx => h.operators_members x (List.mem_of_mem_erase hx)
        operators_nodup := h.operators_nodup.erase _ }
  | invited command operator target d targets outside =>
      unfold Channel.addInvite
      split
      · exact h
      · next hinvited =>
          refine { h with
            invited_connected := fun x hx => ?_
            invited_nodup := nodup_snoc h.invited_nodup (by simpa using hinvited) }
          rcases List.mem_append.mp hx with hx | hx
          · exact h.invited_connected x hx
          · rw [List.mem_singleton.mp hx]
            exact target_connected targets

theorem Channel.Change.name_eq {s : Server} {c : Client} {message : Message} {ch' : Channel}
    (change : Channel.Change s c message ch ch') : ch'.name = ch.name := by
  cases change with
  | moded command operator ch' change changes => cases changes <;> rfl
  | invited command operator target d => exact ch.addInvite_name d.fd
  | _ => rfl

end Channels

/-! ## The channel table -/

def ChannelsOk (connected : List Int) (channels : List Channel) : Prop :=
  (∀ ch ∈ channels, ch.Consistent connected) ∧ (channels.map (·.name)).Nodup

theorem TableChange.channelsOk {s : Server} {c : Client} {message : Message}
    {channels : List Channel} (change : TableChange s c message channels) (hc : c ∈ s.clients)
    (h : ChannelsOk (s.clients.map (·.fd)) s.channels) :
    ChannelsOk (s.clients.map (·.fd)) channels := by
  obtain ⟨consistent, names⟩ := h
  cases change with
  | same => exact ⟨consistent, names⟩
  | created command registered valid fresh =>
      refine ⟨fun ch hch => ?_, ?_⟩
      · rcases List.mem_append.mp hch with hch | hch
        · exact consistent ch hch
        · rw [List.mem_singleton.mp hch]
          exact founded_consistent valid (List.mem_map_of_mem hc)
      · rw [List.map_append, List.nodup_append]
        refine ⟨names, List.nodup_singleton _, fun a ha b hb => ?_⟩
        obtain ⟨ch, hch, rfl⟩ := List.mem_map.mp ha
        rw [List.map_singleton, List.mem_singleton] at hb
        exact hb ▸ fresh ch hch
  | changed registered k ch ch' found name change =>
      refine ⟨fun x hx => ?_, ?_⟩
      · rcases List.mem_or_eq_of_mem_set hx with hx | rfl
        · exact consistent x hx
        · exact change.consistent (consistent ch (List.mem_of_getElem? found)) hc
      · have hset : (s.channels.set k ch').map (·.name) = s.channels.map (·.name) := by
          rw [List.map_set, change.name_eq]
          exact set_of_getElem? (by rw [List.getElem?_map, found, Option.map_some])
        rw [hset]
        exact names
  | destroyed registered command k ch found name operator target d targets last =>
      exact ⟨fun x hx => consistent x (List.mem_of_mem_eraseIdx hx),
        names.sublist ((List.eraseIdx_sublist _ _).map _)⟩

/-! ## Every event -/

theorem start_table (fd : Int) (passwd : Bytes) : Table (Machine.start fd passwd).toServer where
  aligned := rfl
  distinct := List.nodup_singleton fd
  consistent _ hch := absurd hch List.not_mem_nil
  names := List.nodup_nil

theorem Table.without {s : Machine} (table : Table s.toServer) {i : Nat} {c : Client}
    (hc : s.clients[i]? = some c) : Table (s.without i c).toServer := by
  have hclients : (s.clients.eraseIdx i).map (·.fd) =
      (s.clients.map (·.fd)).filter (· ≠ c.fd) := by
    rw [map_eraseIdx]
    exact eraseIdx_eq_filter table.clients_nodup (by rw [List.getElem?_map, hc, Option.map_some])
  constructor
  · change (s.fds.eraseIdx (i + 1)).map (·.fd) = s.fd :: (s.clients.eraseIdx i).map (·.fd)
    rw [map_eraseIdx, map_eraseIdx, table.aligned, List.eraseIdx_cons_succ]
  · change ((s.fds.eraseIdx (i + 1)).map (·.fd)).Nodup
    exact table.distinct.sublist ((List.eraseIdx_sublist _ _).map _)
  · intro ch hch
    change ch.Consistent ((s.clients.eraseIdx i).map (·.fd))
    obtain ⟨hmem, hinhabited⟩ := List.mem_filter.mp hch
    obtain ⟨old, hold, rfl⟩ := List.mem_map.mp hmem
    rw [hclients]
    exact (table.consistent old hold).leave (by simpa [Channel.isEmpty] using hinhabited)
  · change (((s.channels.map (·.leave c.fd)).filter fun ch => !ch.isEmpty).map (·.name)).Nodup
    have hnames : (s.channels.map (·.leave c.fd)).map (·.name) = s.channels.map (·.name) := by
      rw [List.map_map]
      rfl
    refine List.Nodup.sublist (List.filter_sublist.map _) ?_
    rw [hnames]
    exact table.names

theorem Table.stepped {s s' : Machine} {e : Event} (table : Table s.toServer)
    (h : Stepped s e s') : Table s'.toServer := by
  cases h with
  | unconnected => exact table
  | dropped => exact ⟨table.aligned, table.distinct, table.consistent, table.names⟩
  | connected accepted fcntl fresh range =>
      constructor
      · simp [including, table.aligned]
      · simp only [including, List.map_append]
        exact nodup_snoc table.distinct fresh
      · intro ch hch
        refine (table.consistent ch hch).mono fun fd hfd => ?_
        simp only [including, List.map_append]
        exact List.mem_append_left _ hfd
      · exact table.names
  | buffered i c hc contents =>
      have hfds : ((s.setClient i { c with buffer := contents }).clients).map (·.fd) =
          s.clients.map (·.fd) := by
        rw [setClient, List.map_set]
        exact map_set_same (f := (·.fd)) hc rfl
      exact ⟨by rw [hfds]; exact table.aligned, table.distinct,
        by rw [hfds]; exact table.consistent, table.names⟩
  | dispatched i c hc line clean c' channels sends effect =>
      have hfds : ((s.record (.line c.fd line)).settle i c' channels sends).clients.map (·.fd) =
          s.clients.map (·.fd) := by
        rw [settle_map i c' channels sends _ (·.fd) (fun _ _ => rfl)]
        exact map_set_same (f := (·.fd)) hc effect.fd_eq
      have hok := effect.tableChange.channelsOk (List.mem_of_getElem? hc)
        ⟨table.consistent, table.names⟩
      constructor
      · rw [settle_fds_fd, settle_fd, hfds]
        exact table.aligned
      · rw [settle_fds_fd]
        exact table.distinct
      · rw [hfds, settle_channels]
        exact hok.1
      · rw [settle_channels]
        exact hok.2
  | flushed i c hc send rest poll kept entries sent =>
      have hclients : (s.clients.set i { c with sendBuffer := rest }).map (·.fd) =
          s.clients.map (·.fd) := by
        rw [List.map_set]
        exact map_set_same (f := (·.fd)) hc rfl
      have hpoll : (s.fds.modify (i + 1) poll).map (·.fd) = s.fds.map (·.fd) :=
        map_modify_same kept s.fds (i + 1)
      constructor
      · change (s.fds.modify (i + 1) poll).map (·.fd) = s.fd :: (s.clients.set i _).map (·.fd)
        rw [hpoll, hclients]
        exact table.aligned
      · change ((s.fds.modify (i + 1) poll).map (·.fd)).Nodup
        rw [hpoll]
        exact table.distinct
      · change ∀ ch ∈ s.channels, ch.Consistent ((s.clients.set i _).map (·.fd))
        rw [hclients]
        exact table.consistent
      · exact table.names
  | disconnected i c hc => exact table.without hc

/-- The channels that a departure leaves are those that somebody stays on. -/
theorem Table.mem_without {s : Machine} (table : Table s.toServer) {i : Nat} {c : Client}
    {ch' : Channel} : ch' ∈ (s.without i c).channels ↔
      ∃ ch ∈ s.channels, ch.memberFds.filter (· ≠ c.fd) ≠ [] ∧ ch.leave c.fd = ch' := by
  simp only [Machine.without, List.mem_filter, List.mem_map, Bool.not_eq_true', Bool.eq_false_iff,
    ne_eq, Channel.isEmpty_iff]
  constructor
  · rintro ⟨⟨ch, hch, rfl⟩, hinhabited⟩
    rw [(table.consistent ch hch).leave_eq] at hinhabited
    exact ⟨ch, hch, by simpa using hinhabited, rfl⟩
  · rintro ⟨ch, hch, hinhabited, rfl⟩
    refine ⟨⟨ch, hch, rfl⟩, ?_⟩
    rw [(table.consistent ch hch).leave_eq]
    simpa using hinhabited

theorem Table.step {s s' : Machine} {e : Event} (table : Table s.toServer)
    (h : IrcServer.step s e = some s') : Table s'.toServer :=
  table.stepped (step_stepped table h)

theorem Reachable.table {s : Machine} (h : Reachable s) : Table s.toServer := by
  obtain ⟨fd, passwd, events, hrun⟩ := h
  exact Transition.run_invariant (P := fun s : Machine => Table s.toServer)
    (fun _ _ _ table hstep => table.step hstep) (start_table fd passwd) hrun

/-! ## The channel table in every reachable state -/

structure ChannelTable (s : Machine) : Prop where
  connected : ∀ ch ∈ s.channels, ∀ fd,
    fd ∈ ch.memberFds ∨ fd ∈ ch.operatorFds ∨ fd ∈ ch.invitedFds → ∃ c ∈ s.clients, c.fd = fd
  fresh : ∀ fd fcntl s', fd ≠ -1 → IrcServer.step s (.connect fd fcntl) = some s' →
    ∀ ch ∈ s'.channels, fd ∉ ch.memberFds ∧ fd ∉ ch.operatorFds ∧ fd ∉ ch.invitedFds
  nodup : ∀ ch ∈ s.channels,
    ch.memberFds.Nodup ∧ ch.operatorFds.Nodup ∧ ch.invitedFds.Nodup
  operators : ∀ ch ∈ s.channels, ch.operatorFds ⊆ ch.memberFds
  inhabited : ∀ ch ∈ s.channels, ch.memberFds ≠ []
  names : (s.channels.map (·.name)).Nodup
  valid : ∀ ch ∈ s.channels, validChannelName ch.name = true

theorem Table.connected {s : Machine} (table : Table s.toServer) {ch : Channel}
    (hch : ch ∈ s.channels) {fd : Int}
    (h : fd ∈ ch.memberFds ∨ fd ∈ ch.operatorFds ∨ fd ∈ ch.invitedFds) :
    fd ∈ s.clients.map (·.fd) := by
  have consistent := table.consistent ch hch
  rcases h with h | h | h
  · exact consistent.members_connected fd h
  · exact consistent.members_connected fd (consistent.operators_members fd h)
  · exact consistent.invited_connected fd h

theorem channelTable_reachable {s : Machine} (h : Reachable s) : ChannelTable s where
  connected ch hch fd hfd := List.mem_map.mp (h.table.connected hch hfd)
  fresh fd fcntl s' hfd hstep ch hch := by
    -- an accepted descriptor is not open, so no client of the old state has it
    have hopen : ∀ ch ∈ s.channels, fd ∉ s.fds.map (·.fd) →
        fd ∉ ch.memberFds ∧ fd ∉ ch.operatorFds ∧ fd ∉ ch.invitedFds := by
      intro ch hch hfresh
      have hclients : fd ∉ s.clients.map (·.fd) := fun hmem =>
        hfresh (h.table.aligned ▸ List.mem_cons_of_mem _ hmem)
      exact ⟨fun hm => hclients (h.table.connected hch (.inl hm)),
        fun hm => hclients (h.table.connected hch (.inr (.inl hm))),
        fun hm => hclients (h.table.connected hch (.inr (.inr hm)))⟩
    cases step_stepped h.table hstep with
    | unconnected _ _ hfail => exact absurd hfail hfd
    | dropped _ _ hfresh => exact hopen ch hch hfresh
    | connected _ _ hfresh => exact hopen ch hch hfresh
  nodup ch hch :=
    have consistent := h.table.consistent ch hch
    ⟨consistent.members_nodup, consistent.operators_nodup, consistent.invited_nodup⟩
  operators ch hch fd hfd := (h.table.consistent ch hch).operators_members fd hfd
  inhabited ch hch := (h.table.consistent ch hch).inhabited
  names := h.table.names
  valid ch hch := (h.table.consistent ch hch).valid

theorem channelTable_sample : ChannelTable (stateAfter sampleRun) :=
  channelTable_reachable (stateAfter_reachable sampleRun)

end IrcServer
