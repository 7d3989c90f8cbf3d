import IrcServer.Proof.Table

/-! # Who the clients are

The flags and the nickname of a client agree with each other, no two clients hold
one nickname, and the members of channels are registered. The step lemma is
`Stepped.origin`: where a client of the new state comes from.
-/

namespace IrcServer

open Search Machine Transition

def Client.identity (c : Client) : Client := { c with buffer := [], sendBuffer := [] }

theorem Client.fd_of_identity {c d : Client} (h : c.identity = d.identity) : c.fd = d.fd :=
  show c.identity.fd = d.identity.fd from congrArg Client.fd h

theorem Client.nickname_of_identity {c d : Client} (h : c.identity = d.identity) :
    c.nickname = d.nickname :=
  show c.identity.nickname = d.identity.nickname from congrArg Client.nickname h

theorem Client.registered_of_identity {c d : Client} (h : c.identity = d.identity) :
    c.registered = d.registered :=
  show c.identity.registered = d.identity.registered from congrArg Client.registered h

theorem Client.passRecived_of_identity {c d : Client} (h : c.identity = d.identity) :
    c.passRecived = d.passRecived :=
  show c.identity.passRecived = d.identity.passRecived from congrArg Client.passRecived h

structure Client.Sound (c : Client) : Prop where
  received : c.nicknameReceived = true ↔ c.nickname ≠ []
  valid : c.nickname ≠ [] → checkNickValid c.nickname = true
  registered : c.registered = true ↔ c.nicknameReceived = true ∧ c.userRecived = true
  nickPass : c.nicknameReceived = true → c.passRecived = true
  userPass : c.userRecived = true → c.passRecived = true

structure Identities (s : Server) : Prop where
  sound : ∀ c ∈ s.clients, c.Sound
  unique : ∀ c ∈ s.clients, ∀ d ∈ s.clients, c.nickname = d.nickname → c.nickname ≠ [] → c.fd = d.fd
  members : ∀ ch ∈ s.channels, ∀ fd ∈ ch.memberFds, ∃ c ∈ s.clients, c.fd = fd ∧ c.registered = true
  topics : ∀ ch ∈ s.channels, LF ∉ ch.topic

/-- Where a client `x` of the state after `e` comes from. -/
inductive Origin (s : Machine) (e : Event) (x : Client) : Prop
  | new (fcntl : Int) (event : e = .connect x.fd fcntl) (blank : x = { fd := x.fd })
      (fresh : x.fd ∉ s.fds.map (·.fd))
  | kept (y : Client) (hy : y ∈ s.clients) (same : x.identity = y.identity)
      (other : ∀ i line c, e = .command i line → s.clients[i]? = some c → y.fd ≠ c.fd)
  | acted (i : Nat) (line : Bytes) (event : e = .command i line) (clean : LF ∉ line) (c : Client)
      (hc : s.clients[i]? = some c) (c' : Client) (channels : List Channel)
      (sends : List (Nat × Bytes))
      (effect : Dispatched s.toServer i c (Parser.parse line) c' channels sends)
      (same : x.identity = c'.identity)

theorem mem_set_cases {clients : List Client} {i : Nat} {d x : Client}
    (hx : x ∈ clients.set i d) : x = d ∨ ∃ j, j ≠ i ∧ clients[j]? = some x := by
  obtain ⟨j, hj⟩ := List.mem_iff_getElem?.mp hx
  rw [List.getElem?_set] at hj
  split at hj
  · split at hj
    · exact Or.inl (Option.some.inj hj).symm
    · cases hj
  · next hne => exact Or.inr ⟨j, Ne.symm hne, hj⟩

theorem settle_mem {s : Machine} {i : Nat} {c c' : Client} (hc : s.clients[i]? = some c)
    {channels : List Channel} {sends : List (Nat × Bytes)} {x : Client}
    (hx : x ∈ (s.settle i c' channels sends).clients) :
    x.identity = c'.identity ∨
      ∃ j y, j ≠ i ∧ s.clients[j]? = some y ∧ x.identity = y.identity := by
  obtain ⟨j, hj⟩ := List.mem_iff_getElem?.mp hx
  rw [settle_getElem?] at hj
  obtain ⟨y, hy, rfl⟩ := Option.map_eq_some_iff.mp hj
  by_cases hji : i = j
  · subst hji
    have hlt : i < s.clients.length := (List.getElem?_eq_some_iff.mp hc).choose
    obtain rfl : c' = y := by simpa [hlt] using hy
    exact Or.inl rfl
  · have hy' : s.clients[j]? = some y := by simpa [hji] using hy
    exact Or.inr ⟨j, y, Ne.symm hji, hy', rfl⟩

theorem Stepped.origin {s s' : Machine} {e : Event} (table : Table s.toServer)
    (h : Stepped s e s') {x : Client} (hx : x ∈ s'.clients) : Origin s e x := by
  have unchanged : ∀ {e : Event}, (∀ i line, e ≠ .command i line) → x ∈ s.clients → Origin s e x :=
    fun hne hx => .kept x hx rfl fun i line _ he _ => absurd he (hne i line)
  cases h with
  | unconnected => exact unchanged (by simp) hx
  | dropped => exact unchanged (by simp) hx
  | connected accepted fcntl fresh range =>
      rcases List.mem_append.mp hx with hx | hx
      · exact unchanged (by simp) hx
      · obtain rfl := List.mem_singleton.mp hx
        exact .new fcntl rfl rfl fresh
  | buffered i c hc contents =>
      rcases mem_set_cases hx with rfl | ⟨j, _, hj⟩
      · exact .kept c (List.mem_of_getElem? hc) rfl (by simp)
      · exact unchanged (by simp) (List.mem_of_getElem? hj)
  | dispatched i c hc line clean c' channels sends effect =>
      rcases settle_mem (s := s.record (.line c.fd line)) hc hx with same | ⟨j, y, hji, hy, same⟩
      · exact .acted i line rfl clean c hc c' channels sends effect same
      · refine .kept y (List.mem_of_getElem? hy) same fun k _ d he hd hfd => hji ?_
        cases he
        obtain rfl := Option.some.inj (hc.symm.trans hd)
        exact table.fd_position hy hc hfd
  | flushed i c hc send rest poll kept entries sent =>
      rcases mem_set_cases hx with rfl | ⟨j, _, hj⟩
      · exact .kept c (List.mem_of_getElem? hc) rfl (by simp)
      · exact unchanged (by simp) (List.mem_of_getElem? hj)
  | disconnected i c hc => exact unchanged (by simp) (List.mem_of_mem_eraseIdx hx)

/-! ## One client -/

theorem Client.Sound.of_identity {c d : Client} (h : c.Sound) (same : d.identity = c.identity) :
    d.Sound := by
  have hsound : d.identity.Sound := same ▸ (⟨h.1, h.2, h.3, h.4, h.5⟩ : c.identity.Sound)
  exact ⟨hsound.1, hsound.2, hsound.3, hsound.4, hsound.5⟩

theorem new_sound (fd : Int) : Client.Sound { fd := fd } := by
  constructor <;> simp

theorem Client.Sound.renamed {c : Client} (h : c.Sound) (pass : c.passRecived = true) {nick : Bytes}
    (valid : checkNickValid nick = true) : (c.renamed nick).Sound where
  received := by
    have hne : nick ≠ [] := by
      rintro rfl
      cases valid
    simpa [Client.renamed] using hne
  valid _ := valid
  registered := by
    have huser := h.registered
    cases hreg : c.registered <;> simp_all [Client.renamed]
  nickPass _ := pass
  userPass _ := pass

theorem Client.Sound.introduced {c : Client} (h : c.Sound) (pass : c.passRecived = true)
    (username : Bytes) : (c.introduced username).Sound where
  received := h.received
  valid := h.valid
  registered := by simp [Client.introduced]
  nickPass _ := pass
  userPass _ := pass

section Line

variable {s : Server} {i : Nat} {c : Client} {message : Message} {c' : Client}
  {channels : List Channel} {sends : List (Nat × Bytes)}

theorem Dispatched.sound (effect : Dispatched s i c message c' channels sends) (h : c.Sound) :
    c'.Sound := by
  cases effect with
  | passed command unregistered =>
      exact ⟨h.received, h.valid, h.registered, fun _ => rfl, fun _ => rfl⟩
  | nick command pass valid => exact h.renamed pass valid
  | user command unregistered pass => exact h.introduced pass _
  | _ => exact h

theorem Dispatched.registered (effect : Dispatched s i c message c' channels sends)
    (h : c.registered = true) : c'.registered = true := by
  cases effect with
  | nick => simp [Client.renamed, h]
  | user command unregistered =>
      rw [h] at unregistered
      cases unregistered
  | _ => exact h

/-- The new nickname is the old one, or one that nobody else holds. -/
theorem Dispatched.nickname (effect : Dispatched s i c message c' channels sends) :
    c'.nickname = c.nickname ∨ ∀ d ∈ s.clients, d.nickname = c'.nickname → d.fd = c.fd := by
  cases effect with
  | nick command pass valid unused => exact Or.inr unused
  | _ => exact Or.inl rfl

theorem Channel.Change.members {ch ch' : Channel} (change : Channel.Change s c message ch ch')
    {fd : Int} (hfd : fd ∈ ch'.memberFds) : fd ∈ ch.memberFds ∨ fd = c.fd := by
  cases change with
  | joined =>
      rcases List.mem_append.mp hfd with hfd | hfd
      · exact Or.inl hfd
      · exact Or.inr (List.mem_singleton.mp hfd)
  | titled => exact Or.inl hfd
  | kicked => exact Or.inl (List.mem_of_mem_erase hfd)
  | moded command operator ch' change changes => cases changes <;> exact Or.inl hfd
  | granted => exact Or.inl hfd
  | revoked => exact Or.inl hfd
  | invited => exact Or.inl (by simpa using hfd)

theorem Channel.Change.topic_clean {ch ch' : Channel} (change : Channel.Change s c message ch ch')
    (clean : message.Clean) (h : LF ∉ ch.topic) : LF ∉ ch'.topic := by
  cases change with
  | titled => exact clean.param 1
  | moded command operator ch' change changes => cases changes <;> exact h
  | invited => simpa using h
  | _ => exact h

end Line

/-! ## Every event -/

theorem Table.same_client {s : Server} (table : Table s) {c d : Client} (hc : c ∈ s.clients)
    (hd : d ∈ s.clients) (hfd : c.fd = d.fd) : c = d :=
  List.inj_on_of_nodup_map table.clients_nodup hc hd hfd

theorem start_identities (fd : Int) (passwd : Bytes) :
    Identities (Machine.start fd passwd).toServer where
  sound _ hc := absurd hc List.not_mem_nil
  unique _ hc := absurd hc List.not_mem_nil
  members _ hch := absurd hch List.not_mem_nil
  topics _ hch := absurd hch List.not_mem_nil

section Event

variable {s s' : Machine} {e : Event} (table : Table s.toServer) (h : Identities s.toServer)
  (stepped : Stepped s e s')

include table h stepped

theorem Stepped.sound : ∀ x ∈ s'.clients, x.Sound := by
  intro x hx
  cases stepped.origin table hx with
  | new fcntl event blank =>
      rw [blank]
      exact new_sound x.fd
  | kept y hy same => exact (h.sound y hy).of_identity same
  | acted i line event clean c hc c' channels sends effect same =>
      exact (effect.sound (h.sound c (List.mem_of_getElem? hc))).of_identity same

/-- A client whose nickname is that of the old client `y` is that client. -/
theorem Stepped.nickname_origin {x y : Client} (hx : x ∈ s'.clients) (hy : y ∈ s.clients)
    (hnick : x.nickname = y.nickname) (hne : x.nickname ≠ []) : x.fd = y.fd := by
  cases stepped.origin table hx with
  | new fcntl event blank =>
      rw [blank] at hne
      exact absurd rfl hne
  | kept z hz same =>
      have hfd : x.fd = z.fd := Client.fd_of_identity same
      have hznick : x.nickname = z.nickname := Client.nickname_of_identity same
      exact hfd.trans (h.unique z hz y hy (hznick ▸ hnick) (hznick ▸ hne))
  | acted i line event clean c hc c' channels sends effect same =>
      have hfd : x.fd = c'.fd := Client.fd_of_identity same
      have hcnick : x.nickname = c'.nickname := Client.nickname_of_identity same
      rw [hfd, effect.fd_eq]
      rcases effect.nickname with hold | hunused
      · have hkept : x.nickname = c.nickname := hcnick.trans hold
        exact h.unique c (List.mem_of_getElem? hc) y hy (hkept ▸ hnick) (hkept ▸ hne)
      · exact (hunused y hy (hnick.symm.trans hcnick)).symm

theorem Stepped.unique : ∀ x ∈ s'.clients, ∀ y ∈ s'.clients,
    x.nickname = y.nickname → x.nickname ≠ [] → x.fd = y.fd := by
  intro x hx y hy hnick hne
  have hyne : y.nickname ≠ [] := hnick ▸ hne
  cases stepped.origin table hy with
  | new fcntl event blank =>
      rw [blank] at hyne
      exact absurd rfl hyne
  | kept z hz same =>
      have hfd : y.fd = z.fd := Client.fd_of_identity same
      have hznick : y.nickname = z.nickname := Client.nickname_of_identity same
      rw [hfd]
      exact stepped.nickname_origin table h hx hz (hnick.trans hznick) hne
  | acted i line event clean c hc c' channels sends effect same =>
      cases stepped.origin table hx with
      | new fcntl event' blank =>
          rw [blank] at hne
          exact absurd rfl hne
      | kept z hz same' =>
          have hfd : x.fd = z.fd := Client.fd_of_identity same'
          have hznick : x.nickname = z.nickname := Client.nickname_of_identity same'
          rw [hfd]
          exact (stepped.nickname_origin table h hy hz (hnick.symm.trans hznick) hyne).symm
      | acted j line' event' clean' d hd d' channels' sends' effect' same' =>
          obtain ⟨rfl, rfl⟩ := Event.command.inj (event.symm.trans event')
          obtain rfl := Option.some.inj (hc.symm.trans hd)
          have hx' : x.fd = d'.fd := Client.fd_of_identity same'
          have hy' : y.fd = c'.fd := Client.fd_of_identity same
          rw [hx', hy', effect.fd_eq, effect'.fd_eq]

omit h in
theorem Stepped.registered {x y : Client} (hx : x ∈ s'.clients) (hy : y ∈ s.clients)
    (hfd : x.fd = y.fd) (hreg : y.registered = true) : x.registered = true := by
  cases stepped.origin table hx with
  | new fcntl event blank fresh =>
      refine absurd ?_ fresh
      rw [table.aligned, hfd]
      exact List.mem_cons_of_mem _ (List.mem_map_of_mem hy)
  | kept z hz same =>
      have hz' : x.fd = z.fd := Client.fd_of_identity same
      obtain rfl := table.same_client hz hy (hz'.symm.trans hfd)
      have hxreg : x.registered = z.registered := Client.registered_of_identity same
      rw [hxreg, hreg]
  | acted i line event clean c hc c' channels sends effect same =>
      have hx' : x.fd = c'.fd := Client.fd_of_identity same
      obtain rfl := table.same_client (List.mem_of_getElem? hc) hy
        (effect.fd_eq.symm.trans (hx'.symm.trans hfd))
      have hxreg : x.registered = c'.registered := Client.registered_of_identity same
      rw [hxreg]
      exact effect.registered hreg

theorem Stepped.members : ∀ ch ∈ s'.channels, ∀ fd ∈ ch.memberFds,
    ∃ c ∈ s'.clients, c.fd = fd ∧ c.registered = true := by
  intro ch hch fd hfd
  have table' := table.stepped stepped
  obtain ⟨x, hx, hxfd⟩ := List.mem_map.mp (table'.connected hch (.inl hfd))
  refine ⟨x, hx, hxfd, ?_⟩
  -- whoever was registered under this descriptor is `x`
  have old : (∃ ch ∈ s.channels, fd ∈ ch.memberFds) → x.registered = true := by
    rintro ⟨ch₀, hch₀, hfd₀⟩
    obtain ⟨y, hy, hyfd, hreg⟩ := h.members ch₀ hch₀ fd hfd₀
    exact stepped.registered table hx hy (hxfd.trans hyfd.symm) hreg
  cases stepped.channel_origin hch with
  | kept hch => exact old ⟨ch, hch, hfd⟩
  | left i c event hc ch₀ hch₀ same =>
      subst same
      exact old ⟨ch₀, hch₀, List.mem_of_mem_erase hfd⟩
  | founded i line event c hc registered command valid fresh same =>
      subst same
      exact stepped.registered table hx (List.mem_of_getElem? hc)
        (hxfd.trans (List.mem_singleton.mp hfd)) registered
  | changed i line event clean c hc registered k ch₀ found name change =>
      rcases change.members hfd with hfd | hself
      · exact old ⟨ch₀, List.mem_of_getElem? found, hfd⟩
      · exact stepped.registered table hx (List.mem_of_getElem? hc) (hxfd.trans hself) registered

omit table in
theorem Stepped.topics : ∀ ch ∈ s'.channels, LF ∉ ch.topic := by
  intro ch hch
  cases stepped.channel_origin hch with
  | kept hch => exact h.topics ch hch
  | left i c event hc ch₀ hch₀ same =>
      subst same
      exact h.topics ch₀ hch₀
  | founded i line event c hc registered command valid fresh same =>
      subst same
      exact List.not_mem_nil
  | changed i line event clean c hc registered k ch₀ found name change =>
      exact change.topic_clean (parse_clean clean) (h.topics ch₀ (List.mem_of_getElem? found))

theorem Identities.after : Identities s'.toServer :=
  ⟨stepped.sound table h, stepped.unique table h, stepped.members table h, stepped.topics h⟩

end Event

/-- What every reachable state satisfies; the later invariants build on it. -/
structure Invariant (s : Machine) : Prop where
  table : Table s.toServer
  identities : Identities s.toServer

theorem start_invariant (fd : Int) (passwd : Bytes) : Invariant (Machine.start fd passwd) :=
  ⟨start_table fd passwd, start_identities fd passwd⟩

theorem Invariant.step {s s' : Machine} {e : Event} (h : Invariant s)
    (hstep : IrcServer.step s e = some s') : Invariant s' :=
  ⟨h.table.step hstep, h.identities.after h.table (step_stepped h.table hstep)⟩

theorem Invariant.run {s t : Machine} {events : List Event} (h : Invariant s)
    (hrun : Transition.run IrcServer.step s events = some t) : Invariant t :=
  run_invariant (fun _ _ _ inv hstep => inv.step hstep) h hrun

theorem Reachable.invariant {s : Machine} (h : Reachable s) : Invariant s := by
  obtain ⟨fd, passwd, events, hrun⟩ := h
  exact (start_invariant fd passwd).run hrun

theorem Invariant.visits {s t : Machine} {events : List Event} (h : Invariant s)
    (hvisit : Visits IrcServer.step s events t) : Invariant t :=
  hvisit.invariant (fun _ _ _ inv hstep => inv.step hstep) h

end IrcServer
