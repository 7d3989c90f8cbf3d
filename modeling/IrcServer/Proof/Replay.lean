import IrcServer.Proof.Refinement
import IrcServer.Proof.Registration
import IrcServer.Spec.Runs

/-! # The history replayed

What a server has accepted, dispatched and closed, replayed in the network, gives the
tables it has now and everything that it has queued to everybody connected. The sends
and the receive buffers play no part in it.
-/

namespace IrcServer

open Search Machine

def Entry.action : Entry → Option (Action Int)
  | .accepted fd => some (.connect fd)
  | .line fd contents => some (.line fd (Parser.parse contents))
  | .closed fd => some (.close fd)
  | _ => none

def Machine.actions (s : Machine) : List (Action Int) := s.history.filterMap Entry.action

structure Mirrors (s : Machine) (table : Table s.toServer)
    (state : Network Int × (Int → List Notice)) : Prop where
  network : state.1 = s.network table
  mail : ∀ d ∈ s.clients, queuedTo d.fd s = (state.2 d.fd).map Notice.render

/-! ## What changes the network -/

section Tables

variable {s s' : Machine} (table : Table s.toServer) (table' : Table s'.toServer)

theorem network_room_same (h : s'.channels = s.channels) :
    (s'.network table').room = (s.network table).room :=
  funext fun _ => network_room_kept table table' fun x _ => by rw [h]

def Machine.accounts (s : Machine) : List (Int × Account) := s.clients.map fun d => (d.fd, d.account)

theorem accounts_nodup (table : Table s.toServer) : (s.accounts.map (·.1)).Nodup := by
  rw [accounts, List.map_map]
  exact table.clients_nodup

theorem network_account_iff {fd : Int} {a : Account} :
    (s.network table).account fd = some a ↔ (fd, a) ∈ s.accounts := by
  rw [accounts, List.mem_map]
  constructor
  · intro h
    obtain ⟨d, hd, rfl, rfl⟩ := network_account_some table h
    exact ⟨d, hd, rfl⟩
  · rintro ⟨d, hd, hlabel⟩
    obtain ⟨rfl, rfl⟩ := Prod.mk.inj hlabel
    exact network_account table hd

theorem network_account_same (h : s'.accounts = s.accounts) :
    (s'.network table').account = (s.network table).account := by
  funext fd
  ext a
  rw [network_account_iff, network_account_iff, h]

/-- The table holds `after` for the descriptor `fd`, and all else as before. -/
theorem network_account_update {fd : Int} {after : Option Account}
    (h : ∀ x a, (x, a) ∈ s'.accounts ↔ (x = fd ∧ after = some a) ∨ (x ≠ fd ∧ (x, a) ∈ s.accounts)) :
    (s'.network table').account = Function.update (s.network table).account fd after := by
  funext x
  ext a
  rw [network_account_iff, h]
  by_cases hx : x = fd
  · subst hx
    simp
  · rw [Function.update_of_ne hx, network_account_iff]
    simp [hx]

theorem network_room_left {fd : Int} (h : ∀ ch', ch' ∈ s'.channels ↔
      ∃ ch ∈ s.channels, (ch.leave fd).memberFds ≠ [] ∧ ch.leave fd = ch') (name : Bytes) :
    (s'.network table').room name = ((s.network table).room name).bind (·.leave fd) := by
  rcases network_room_cases table name with ⟨ch, hch, rfl, hroom⟩ | ⟨fresh, hroom⟩
  · have consistent := table.consistent ch hch
    have models := room_models ch consistent
    rw [hroom, Option.bind_some]
    by_cases hempty : (ch.leave fd).memberFds = []
    · rw [models.leave_none consistent hempty]
      refine network_room_none table' fun x hx hname => ?_
      obtain ⟨y, hy, left, rfl⟩ := (h x).mp hx
      obtain rfl := table.unique_name hy hch hname
      exact left hempty
    · obtain ⟨r', hleave, models'⟩ := models.leave_some consistent hempty
      have hmem := (h (ch.leave fd)).mpr ⟨ch, hch, hempty, rfl⟩
      have hroom' := network_room table' hmem
      rw [hleave, ← models'.room_eq (table'.consistent _ hmem)]
      exact hroom'
  · rw [hroom, Option.bind_none]
    refine network_room_none table' fun x hx hname => ?_
    obtain ⟨y, hy, _, rfl⟩ := (h x).mp hx
    exact fresh y hy hname

end Tables

/-! ## One event -/

section Event

variable {s s' : Machine} {e : Event} {state : Network Int × (Int → List Notice)}

theorem Mirrors.same {table : Table s.toServer} (mirrors : Mirrors s table state)
    (table' : Table s'.toServer) (passwd : s'.passwd = s.passwd) (accounts : s'.accounts = s.accounts)
    (channels : s'.channels = s.channels)
    (quiet : ∀ d ∈ s.clients, queuedTo d.fd s' = queuedTo d.fd s) : Mirrors s' table' state where
  network := by
    rw [mirrors.network]
    exact Network.ext passwd.symm (network_account_same table table' accounts).symm
      (network_room_same table table' channels).symm
  mail d' hd' := by
    have hlabel : (d'.fd, d'.account) ∈ s.accounts := accounts ▸ List.mem_map_of_mem hd'
    obtain ⟨d, hd, heq⟩ := List.mem_map.mp hlabel
    rw [← (Prod.mk.inj heq).1, quiet d hd, mirrors.mail d hd]

theorem Stepped.queuedTo_same (invariant : Invariant s) (h : Stepped s e s')
    (hne : ∀ i line, e ≠ .command i line) : ∀ d ∈ s.clients, queuedTo d.fd s' = queuedTo d.fd s := by
  intro d hd
  rw [h.queuedTo_eq invariant hd, h.quiet hne, List.append_nil]

variable (invariant : Invariant s) (mirrors : Mirrors s invariant.table state)

include invariant mirrors

theorem Mirrors.connected {accepted : Int} (h : Stepped s e (s.including accepted))
    (hne : ∀ i line, e ≠ .command i line) (fresh : accepted ∉ s.fds.map (·.fd))
    (table' : Table (s.including accepted).toServer) :
    Mirrors (s.including accepted) table' (Network.deliver state (.connect accepted)) := by
  have table := invariant.table
  have other : ∀ d ∈ s.clients, d.fd ≠ accepted := fun d hd hfd =>
    fresh (by rw [table.aligned]; exact List.mem_cons_of_mem _ (hfd ▸ List.mem_map_of_mem hd))
  rw [Network.deliver_connect]
  constructor
  · have haccount : ((s.including accepted).network table').account =
        Function.update (s.network table).account accepted (some {}) := by
      apply network_account_update
      intro x a
      have hnew : (s.including accepted).accounts = s.accounts ++ [(accepted, ({} : Account))] := by
        rw [accounts, including, List.map_append]
        rfl
      have hold : (x, a) ∈ s.accounts → x ≠ accepted := by
        intro hmem
        obtain ⟨d, hd, hlabel⟩ := List.mem_map.mp hmem
        exact (Prod.mk.inj hlabel).1 ▸ other d hd
      rw [hnew, List.mem_append, List.mem_singleton, Prod.mk.injEq, or_comm, eq_comm (a := a)]
      simp only [Option.some.injEq]
      refine or_congr_right ⟨fun hmem => ⟨hold hmem, hmem⟩, And.right⟩
    rw [mirrors.network]
    exact Network.ext rfl haccount.symm (network_room_same table table' rfl).symm
  · intro d hd
    rcases List.mem_append.mp hd with hd | hd
    · rw [h.queuedTo_same invariant hne d hd, mirrors.mail d hd]
      simp only [Function.update_of_ne (other d hd)]
    · obtain rfl := List.mem_singleton.mp hd
      simp only [Function.update_self, queuedTo, including, sinceAccepted_accepted]
      rfl

/-- A connection that is closed again at once. -/
theorem Mirrors.dropped {accepted : Int} (fresh : accepted ∉ s.fds.map (·.fd)) (h : Stepped s e s')
    (hs' : s' = { s with history := s.history ++ [.accepted accepted, .closed accepted] })
    (hne : ∀ i line, e ≠ .command i line) (table' : Table s'.toServer) :
    Mirrors s' table'
      (Network.deliver (Network.deliver state (.connect accepted)) (.close accepted)) := by
  have table := invariant.table
  have other : ∀ d ∈ s.clients, d.fd ≠ accepted := fun d hd hfd =>
    fresh (by rw [table.aligned]; exact List.mem_cons_of_mem _ (hfd ▸ List.mem_map_of_mem hd))
  rw [Network.deliver_connect, Network.deliver_close]
  constructor
  · have outside : ∀ name r, (s.network table).room name = some r →
        accepted ∉ r.members ∧ accepted ∉ r.invited := by
      intro name r hr
      rcases network_room_cases table name with ⟨ch, hch, _, hroom⟩ | ⟨_, hroom⟩
      · obtain rfl := Option.some.inj (hroom.symm.trans hr)
        have absent : accepted ∉ s.clients.map (·.fd) := fun hmem => by
          obtain ⟨d, hd, hfd⟩ := List.mem_map.mp hmem
          exact other d hd hfd
        have consistent := table.consistent ch hch
        exact ⟨fun hmem => absent (consistent.members_connected accepted hmem),
          fun hmem => absent (consistent.invited_connected accepted hmem)⟩
      · rw [hroom] at hr
        cases hr
    rw [mirrors.network, Network.close_connect (network_account_none table other) outside]
    subst hs'
    rfl
  · subst hs'
    intro d hd
    rw [h.queuedTo_same invariant hne d hd, mirrors.mail d hd]
    simp only [Function.update_of_ne (other d hd)]

theorem Mirrors.closed {i : Nat} {c : Client} (hc : s.clients[i]? = some c)
    (h : Stepped s e (s.without i c)) (hne : ∀ i line, e ≠ .command i line)
    (table' : Table (s.without i c).toServer) :
    Mirrors (s.without i c) table' (Network.deliver state (.close c.fd)) := by
  have table := invariant.table
  rw [Network.deliver_close]
  constructor
  · have haccount : ((s.without i c).network table').account =
        Function.update (s.network table).account c.fd none := by
      apply network_account_update
      intro x a
      have hlabel : s.accounts[i]? = some (c.fd, c.account) := by
        rw [accounts, List.getElem?_map, hc, Option.map_some]
      have herase : (s.without i c).accounts = s.accounts.eraseIdx i := map_eraseIdx _ _ _
      rw [herase, mem_eraseIdx_iff_key (accounts_nodup table) hlabel]
      simp
    rw [mirrors.network]
    apply Network.ext
    · rfl
    · exact haccount.symm
    · funext name
      refine (network_room_left table table' (fun ch' => ?_) name).symm
      rw [table.mem_without]
      refine exists_congr fun ch => and_congr_right fun hch => ?_
      rw [(table.consistent ch hch).leave_eq]
  · intro d hd
    have hd := List.mem_of_mem_eraseIdx hd
    rw [h.queuedTo_same invariant hne d hd, mirrors.mail d hd]

theorem Mirrors.dispatched {i : Nat} {c : Client} {line : Bytes} (hc : s.clients[i]? = some c)
    (numbered : Numbered s) (hstep : step s (.command i line) = some s') (table' : Table s'.toServer) :
    Mirrors s' table' (Network.deliver state (.line c.fd (Parser.parse line))) := by
  have table := invariant.table
  have stepped := step_stepped table hstep
  obtain ⟨clean, hs'⟩ := step_command hc hstep
  have logged : Invariant (s.record (.line c.fd line)) := ⟨table, invariant.identities⟩
  obtain ⟨c', channels, sends, effect, ht, enacts⟩ :=
    dispatchCommand_follows (s := s.record (.line c.fd line)) logged hc numbered clean
  rw [ht] at hs'
  subst hs'
  have hsame : (s.record (.line c.fd line)).network logged.table = s.network table := rfl
  rw [hsame] at enacts
  have connected : state.1.account c.fd = some c.account := by
    rw [mirrors.network, network_account table (List.mem_of_getElem? hc)]
  rw [Network.deliver_line state connected, mirrors.network]
  constructor
  · apply Network.ext
    · exact (settle_passwd i c' channels sends (s.record (.line c.fd line))).symm
    · refine (network_account_update table table' fun x a => ?_).symm
      have hlabel : s.accounts[i]? = some (c.fd, c.account) := by
        rw [accounts, List.getElem?_map, hc, Option.map_some]
      have hset : ((s.record (.line c.fd line)).settle i c' channels sends).accounts =
          s.accounts.set i (c'.fd, c'.account) := settle_map i c' channels sends _ _ fun _ _ => rfl
      rw [hset, mem_set_iff_key (accounts_nodup table) hlabel, effect.fd_eq, enacts.account,
        Prod.mk.injEq, eq_comm (a := a)]
      simp
    · have hchannels := settle_channels i c' channels sends (s.record (.line c.fd line))
      cases hchange : ((s.network table).respond c.fd c.account (Parser.parse line)).change with
      | none =>
          simp only [Network.apply, hchange]
          exact (network_room_same table table' (hchannels.trans (enacts.unchanged hchange))).symm
      | some entry =>
          obtain ⟨name, after⟩ := entry
          have stores := enacts.changed name after hchange
          rw [← hchannels] at stores
          simp only [Network.apply, hchange]
          exact (Stores.room_eq table table' ⟨stores.others, stores.gone, stores.stored⟩).symm
  · intro d' hd'
    have hfds : ((s.record (.line c.fd line)).settle i c' channels sends).clients.map (·.fd) =
        s.clients.map (·.fd) :=
      (settle_map i c' channels sends _ (·.fd) fun _ _ => rfl).trans (map_set_same hc effect.fd_eq)
    obtain ⟨d, hd, hfd⟩ := List.mem_map.mp (hfds ▸ List.mem_map_of_mem hd')
    obtain ⟨j, hj⟩ := List.mem_iff_getElem?.mp hd
    rw [← hfd, stepped.queuedTo_eq invariant hd, mirrors.mail d hd,
      dispatched_messagesTo invariant hc clean effect hj, enacts.outbox j d hj, List.map_append]

omit mirrors in
/-- Of all that a line does, the history tells the network that it was dispatched. -/
theorem dispatched_actions {i : Nat} {c : Client} (hc : s.clients[i]? = some c) {line : Bytes}
    (clean : LF ∉ line) {c' : Client} {channels : List Channel} {sends : List (Nat × Bytes)}
    (effect : Dispatched s.toServer i c (Parser.parse line) c' channels sends) :
    ((s.record (.line c.fd line)).settle i c' channels sends).actions =
      s.actions ++ [.line c.fd (Parser.parse line)] := by
  have hqueued : (sends.map fun call => Entry.queued (s.clientAt call.1).fd call.2).filterMap
      Entry.action = [] := by
    rw [List.filterMap_map, List.filterMap_eq_nil_iff]
    exact fun _ _ => rfl
  have hline : Entry.action (.line c.fd line) = some (.line c.fd (Parser.parse line)) := rfl
  rw [actions, dispatched_history invariant hc clean effect, List.filterMap_append,
    List.filterMap_cons_some hline, hqueued]
  rfl

omit invariant mirrors in
theorem actions_added (s' : Machine) {entries : List Entry} (h : s'.history = s.history ++ entries)
    (passwd : Bytes) : Network.replay passwd s'.actions =
      (entries.filterMap Entry.action).foldl Network.deliver (Network.replay passwd s.actions) := by
  rw [actions, h, List.filterMap_append, Network.replay_append]
  rfl

end Event

/-! ## Runs -/

/-- Every event of the server is one action, two, or none. -/
theorem Mirrors.step {s s' : Machine} {e : Event} {passwd : Bytes} (invariant : Invariant s)
    (numbered : Numbered s) (hstep : step s e = some s')
    (mirrors : Mirrors s invariant.table (Network.replay passwd s.actions)) :
    Mirrors s' (invariant.step hstep).table (Network.replay passwd s'.actions) := by
  have table := invariant.table
  have table' := (invariant.step hstep).table
  have stepped := step_stepped table hstep
  cases step_stepped table hstep with
  | unconnected => exact mirrors
  | dropped accepted fcntl fresh =>
      rw [actions_added _ rfl]
      exact mirrors.dropped invariant fresh stepped rfl (by simp) table'
  | connected accepted fcntl fresh range =>
      rw [actions_added (s.including accepted) rfl]
      exact mirrors.connected invariant stepped (by simp) fresh table'
  | buffered i c hc contents =>
      have haccounts : (s.setClient i { c with buffer := contents }).accounts = s.accounts := by
        rw [accounts, setClient, List.map_set]
        exact map_set_same (f := fun d => (d.fd, d.account)) hc rfl
      exact mirrors.same table' rfl haccounts rfl (stepped.queuedTo_same invariant (by simp))
  | dispatched i c hc line clean c' channels sends effect =>
      rw [dispatched_actions invariant hc clean effect, Network.replay_append]
      exact mirrors.dispatched invariant hc numbered hstep table'
  | flushed i c hc send rest poll kept entries sent =>
      have hquiet : entries.filterMap Entry.action = [] := by
        rw [List.filterMap_eq_nil_iff]
        intro entry hentry
        obtain ⟨bytes, rfl⟩ := sent entry hentry
        rfl
      rw [actions_added _ rfl, hquiet]
      have haccounts : s.accounts.set i (c.fd, c.account) = s.accounts :=
        map_set_same (f := fun d => (d.fd, d.account)) hc rfl
      refine mirrors.same table' rfl ?_ rfl (stepped.queuedTo_same invariant (by simp))
      rw [← haccounts, accounts, List.map_set]
      rfl
  | disconnected i c hc =>
      rw [actions_added (s.without i c) rfl]
      exact mirrors.closed invariant hc stepped (by simp) table'

structure Replayed (s : Machine) : Prop where
  invariant : Invariant s
  numbered : Numbered s
  mirrors : Mirrors s invariant.table (Network.replay s.passwd s.actions)

theorem start_replayed (fd : Int) (passwd : Bytes) : Replayed (Machine.start fd passwd) where
  invariant := start_invariant fd passwd
  numbered _ hc := absurd hc List.not_mem_nil
  mirrors := ⟨rfl, fun _ hd => absurd hd List.not_mem_nil⟩

theorem Replayed.step {s s' : Machine} {e : Event} (h : Replayed s)
    (hstep : IrcServer.step s e = some s') : Replayed s' := by
  have stepped := step_stepped h.invariant.table hstep
  have mirrors := h.mirrors.step h.invariant h.numbered hstep
  rw [← stepped.passwd] at mirrors
  exact ⟨h.invariant.step hstep, stepped.numbered h.invariant.table h.numbered, mirrors⟩

theorem Reachable.replayed {s : Machine} (h : Reachable s) : Replayed s := by
  obtain ⟨fd, passwd, events, hrun⟩ := h
  exact Transition.run_invariant (fun _ _ _ h hstep => h.step hstep) (start_replayed fd passwd) hrun

/-! ## The actions of a history -/

theorem network_unknown {s : Machine} (table : Table s.toServer) {accepted : Int}
    (fresh : accepted ∉ s.fds.map (·.fd)) : (s.network table).account accepted = none :=
  network_account_none table fun d hd hfd =>
    fresh (by rw [table.aligned]; exact List.mem_cons_of_mem _ (hfd ▸ List.mem_map_of_mem hd))

theorem network_known {s : Machine} (table : Table s.toServer) {c : Client} (hc : c ∈ s.clients) :
    (s.network table).account c.fd ≠ none := by
  rw [network_account table hc]
  exact Option.some_ne_none _

theorem Replayed.legal {s s' : Machine} {e : Event} (h : Replayed s) (legal : Legal s.passwd s.actions)
    (hstep : IrcServer.step s e = some s') : Legal s'.passwd s'.actions := by
  have table := h.invariant.table
  have network := h.mirrors.network
  have one : ∀ action, (s.network table).Allows action → Legal s.passwd (s.actions ++ [action]) :=
    fun action allowed => .snoc _ _ legal (network ▸ allowed)
  cases step_stepped table hstep with
  | unconnected => exact legal
  | buffered => exact legal
  | dropped accepted fcntl fresh =>
      have hactions : ({ s with history := s.history ++ [.accepted accepted, .closed accepted] } :
          Machine).actions = s.actions ++ [.connect accepted] ++ [.close accepted] := by
        simp [actions, Entry.action]
      rw [hactions]
      refine .snoc _ _ (one _ (network_unknown table fresh)) ?_
      rw [Network.replay_append, List.foldl_cons, List.foldl_nil, Network.deliver_connect]
      simp [Network.Allows, Network.connect]
  | connected accepted fcntl fresh =>
      have hactions : (s.including accepted).actions = s.actions ++ [.connect accepted] := by
        simp [actions, including, Entry.action]
      rw [hactions]
      exact one _ (network_unknown table fresh)
  | dispatched i c hc line clean c' channels sends effect =>
      rw [dispatched_actions h.invariant hc clean effect, settle_passwd]
      exact one _ (network_known table (List.mem_of_getElem? hc))
  | flushed i c hc send rest poll kept entries sent =>
      have hquiet : entries.filterMap Entry.action = [] := by
        rw [List.filterMap_eq_nil_iff]
        intro entry hentry
        obtain ⟨bytes, rfl⟩ := sent entry hentry
        rfl
      simpa only [actions, List.filterMap_append, hquiet, List.append_nil] using legal
  | disconnected i c hc =>
      have hactions : (s.without i c).actions = s.actions ++ [.close c.fd] := by
        simp [actions, without, Entry.action]
      rw [hactions]
      exact one _ (network_known table (List.mem_of_getElem? hc))

theorem Reachable.legal {s : Machine} (h : Reachable s) : Legal s.passwd s.actions := by
  obtain ⟨fd, passwd, events, hrun⟩ := h
  have preserved : ∀ a e b, Replayed a ∧ Legal a.passwd a.actions → IrcServer.step a e = some b →
      Replayed b ∧ Legal b.passwd b.actions := fun a e b ha hstep =>
    ⟨ha.1.step hstep, ha.1.legal ha.2 hstep⟩
  exact (Transition.run_invariant preserved ⟨start_replayed fd passwd, .nil⟩ hrun).2

/-- A server with any history is what the network makes of it, and has queued to everybody what
the network has told. -/
theorem reachable_refines {s : Machine} (h : Reachable s) :
    (Network.replay s.passwd s.actions).1 = s.network h.table ∧
      ∀ d ∈ s.clients, queuedTo d.fd s =
        ((Network.replay s.passwd s.actions).2 d.fd).map Notice.render :=
  ⟨h.replayed.mirrors.network, h.replayed.mirrors.mail⟩

/-- Whoever is invited is told five things: the welcome, the invitation, and what a JOIN says. -/
theorem reachable_refines_sample :
    ∃ s, ∃ h : Reachable s, (Network.replay s.passwd s.actions).1 = s.network h.table ∧
      queuedTo 5 s = ((Network.replay s.passwd s.actions).2 5).map Notice.render ∧
      (queuedTo 5 s).length = 5 := by
  have h := stateAfter_reachable sampleRun
  obtain ⟨network, mail⟩ := reachable_refines h
  have hd : (stateAfter sampleRun).clients[1]? = some ((stateAfter sampleRun).clientAt 1) :=
    clientAt_table (by decide)
  have hfd : ((stateAfter sampleRun).clientAt 1).fd = 5 := by decide
  have hmail := mail _ (List.mem_of_getElem? hd)
  have hcount : (queuedTo 5 (stateAfter sampleRun)).length = 5 := by decide
  rw [hfd] at hmail
  exact ⟨_, h, network, hmail, hcount⟩

end IrcServer
