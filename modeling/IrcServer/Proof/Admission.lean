import IrcServer.Proof.Invitation

/-! # Who is admitted to a channel

JOIN compares the number of members as an `int` with the limit. Descriptors are
distinct and fit into an `int`, so a client that is not a member finds fewer members
than that, and the comparison is the one of the true number.
-/

namespace IrcServer

open Search Machine Transition

structure MayJoin (ch : Channel) (c : Client) (params : List Bytes) : Prop where
  outside : c.fd ∉ ch.memberFds
  invited : ch.inviteOnly = true → c.fd ∈ ch.invitedFds
  key : ch.key = [] ∨ params[1]? = some ch.key
  limit : ch.limit ≤ 0 ∨ (ch.memberFds.length : Int) < ch.limit

def joinError (ch : Channel) (c : Client) (params : List Bytes) : Nat :=
  if c.fd ∈ ch.memberFds then 443
  else if ch.inviteOnly = true ∧ c.fd ∉ ch.invitedFds then 473
  else if ch.key ≠ [] ∧ params[1]? ≠ some ch.key then 475
  else 471

def Joins (s s' : Machine) (name : Bytes) (fd : Int) : Prop :=
  IsMember s' name fd ∧ ¬ IsMember s name fd

def Exists (s : Machine) (name : Bytes) : Prop := ∃ ch ∈ s.channels, ch.name = name

structure Admission (s : Machine) (i : Nat) (c : Client) (params : List Bytes) (name : Bytes)
    (s' : Machine) : Prop where
  joins : Joins s s' name c.fd ↔
    ¬ Exists s name ∨ ∃ ch ∈ s.channels, ch.name = name ∧ MayJoin ch c params
  operator : Joins s s' name c.fd → (Operates s' name c.fd ↔ ¬ Exists s name)
  limit : Joins s s' name c.fd → ∀ ch ∈ s'.channels, ch.name = name → 0 < ch.limit →
    (ch.memberFds.length : Int) ≤ ch.limit
  founded : ¬ Exists s name → s'.channels =
    s.channels ++ [{ name := name, memberFds := [c.fd], operatorFds := [c.fd] }]
  admitted : ∀ k ch, s.channels[k]? = some ch → ch.name = name → MayJoin ch c params →
    s'.channels = s.channels.set k { ch with memberFds := ch.memberFds ++ [c.fd] }
  refused : ∀ ch ∈ s.channels, ch.name = name → ¬ MayJoin ch c params →
    s'.channels = s.channels ∧ s' = s.sendingQueue i (replyCmd (joinError ch c params) c name)

/-! ## The number of members -/

def Numbered (s : Machine) : Prop := ∀ c ∈ s.clients, 0 ≤ c.fd ∧ c.fd < (2 ^ 31 : Nat)

theorem Stepped.numbered {s s' : Machine} {e : Event} (table : Table s.toServer)
    (h : Stepped s e s') (numbered : Numbered s) : Numbered s' := by
  intro x hx
  cases h.origin table hx with
  | new fcntl event blank fresh =>
      subst event
      cases h with
      | unconnected => exact numbered x hx
      | dropped => exact numbered x hx
      | connected accepted fcntl fresh range => exact range
  | kept y hy same => exact Client.fd_of_identity same ▸ numbered y hy
  | acted i line event clean c hc c' channels sends effect same =>
      have hfd : x.fd = c.fd := (Client.fd_of_identity same).trans effect.fd_eq
      exact hfd ▸ numbered c (List.mem_of_getElem? hc)

theorem Reachable.numbered {s : Machine} (h : Reachable s) : Numbered s := by
  obtain ⟨fd, passwd, events, hrun⟩ := h
  have both := run_invariant (P := fun s : Machine => Table s.toServer ∧ Numbered s)
    (fun _ _ _ inv hstep =>
      ⟨inv.1.step hstep, (step_stepped inv.1 hstep).numbered inv.1 inv.2⟩)
    ⟨start_table fd passwd, fun _ hc => absurd hc List.not_mem_nil⟩ hrun
  exact both.2

/-- Whoever is outside a channel finds fewer members than there are descriptors. -/
theorem Numbered.members_lt {s : Machine} (numbered : Numbered s) (table : Table s.toServer)
    {ch : Channel} (hch : ch ∈ s.channels) {c : Client} (hc : c ∈ s.clients)
    (outside : c.fd ∉ ch.memberFds) : ch.memberFds.length < 2 ^ 31 := by
  have consistent := table.consistent ch hch
  have hnodup : (c.fd :: ch.memberFds).Nodup :=
    List.nodup_cons.mpr ⟨outside, consistent.members_nodup⟩
  refine length_le_of_nodup hnodup fun fd hfd => ?_
  rcases List.mem_cons.mp hfd with rfl | hfd
  · exact numbered c hc
  · obtain ⟨d, hd, rfl⟩ := List.mem_map.mp (consistent.members_connected fd hfd)
    exact numbered d hd

theorem toInt32_natCast {n : Nat} (h : n < 2 ^ 31) : toInt32 n = n := by
  unfold toInt32
  apply Int.bmod_eq_of_le_mul_two
  · omega
  · omega

/-! ## The conditions -/

section Conditions

variable {ch : Channel} {c : Client} {message : Message}

theorem param_one_iff {key : Bytes} :
    message.params[1]? = some key ↔ 2 ≤ message.params.length ∧ message.param 1 = key := by
  rw [Message.param, List.getD_eq_getElem?_getD]
  constructor
  · intro h
    have hlt := (List.getElem?_eq_some_iff.mp h).choose
    exact ⟨hlt, by rw [h]; rfl⟩
  · rintro ⟨hlt, rfl⟩
    rw [List.getElem?_eq_getElem hlt]
    rfl

theorem admits_iff (small : c.fd ∉ ch.memberFds → ch.memberFds.length < 2 ^ 31) :
    Admits ch c message ↔ MayJoin ch c message.params := by
  constructor
  · intro h
    have hcount := toInt32_natCast (small h.outside)
    refine ⟨h.outside, h.invited, ?_, ?_⟩
    · by_cases hkey : ch.key = []
      · exact Or.inl hkey
      · exact Or.inr (param_one_iff.mpr (h.key hkey))
    · by_cases hpos : 0 < ch.limit
      · exact Or.inr (hcount ▸ h.limit hpos)
      · exact Or.inl (Int.not_lt.mp hpos)
  · intro h
    have hcount := toInt32_natCast (small h.outside)
    refine ⟨h.outside, h.invited, fun hkey => ?_, fun hpos => ?_⟩
    · exact param_one_iff.mp (h.key.resolve_left hkey)
    · rw [hcount]
      exact h.limit.resolve_left (Int.not_le.mpr hpos)

theorem joinChannel_error {s : Machine} {i k : Nat} (hc : s.clients[i]? = some c)
    (hk : s.channels[k]? = some ch) (refused : ¬ MayJoin ch c message.params)
    (small : c.fd ∉ ch.memberFds → ch.memberFds.length < 2 ^ 31) :
    joinChannel i message k s =
      s.sendingQueue i (replyCmd (joinError ch c message.params) c (message.param 0)) := by
  unfold joinChannel
  simp only [Server.clientAt_of_getElem? hc, Server.channelAt_of_getElem? hk]
  by_cases hmember : c.fd ∈ ch.memberFds
  · rw [if_pos (by simpa using hmember), joinError, if_pos hmember]
  · rw [if_neg (by simpa using hmember)]
    by_cases hinvite : ch.inviteOnly = true ∧ c.fd ∉ ch.invitedFds
    · rw [if_pos (by simpa [Channel.isInvited] using hinvite), joinError, if_neg hmember,
        if_pos hinvite]
    · rw [if_neg (by simpa [Channel.isInvited] using hinvite)]
      by_cases hkey : ch.key ≠ [] ∧ message.params[1]? ≠ some ch.key
      · have hcode : joinError ch c message.params = 475 := by
          rw [joinError, if_neg hmember, if_neg hinvite, if_pos hkey]
        rw [hcode, if_pos]
        have hwrong : message.params.length < 2 ∨ message.param 1 ≠ ch.key := by
          by_contra hright
          rw [not_or, Nat.not_lt, ne_eq, Decidable.not_not] at hright
          exact hkey.2 (param_one_iff.mpr hright)
        simpa [Channel.hasKey, hkey.1] using hwrong
      · have hcode : joinError ch c message.params = 471 := by
          rw [joinError, if_neg hmember, if_neg hinvite, if_neg hkey]
        have hkeyed : ch.key = [] ∨ message.params[1]? = some ch.key := by
          by_contra hnone
          rw [not_or] at hnone
          exact hkey hnone
        have hfull : 0 < ch.limit ∧ ch.limit ≤ ch.memberFds.length := by
          by_contra hroom
          refine refused ⟨hmember, fun hi => ?_, hkeyed, ?_⟩
          · by_contra huninvited
            exact hinvite ⟨hi, huninvited⟩
          · rw [not_and_or, Int.not_lt, Int.not_le] at hroom
            exact hroom
        have hright : ch.key ≠ [] → ¬ message.params.length < 2 ∧ message.param 1 = ch.key :=
          fun hne => (param_one_iff.mp (hkeyed.resolve_left hne)).imp_left Nat.not_lt.mpr
        rw [hcode, if_neg, if_pos]
        · simpa [Channel.hasLimit, toInt32_natCast (small hmember)] using hfull
        · simpa [Channel.hasKey] using hright

end Conditions

/-! ## The admission -/

section Join

variable {s : Machine} {i : Nat} {c : Client} {message : Message} {name : Bytes}

theorem not_exists_iff : ¬ Exists s name ↔ ∀ ch ∈ s.channels, ch.name ≠ name := by
  simp [Exists]

theorem joinHandler_founded (invariant : Invariant s) (hc : s.clients[i]? = some c)
    (registered : c.registered = true) (hname : message.param 0 = name)
    (valid : validChannelName name = true) (absent : ¬ Exists s name) :
    (joinHandler i message s).channels = s.channels ++ [Channel.founded name c.fd] := by
  subst hname
  rw [joinHandler_founds hc invariant.table.clients_nodup registered valid
    (not_exists_iff.mp absent), settle_channels]

theorem joinHandler_admitted (invariant : Invariant s) (hc : s.clients[i]? = some c)
    (registered : c.registered = true) (hname : message.param 0 = name) {k : Nat} {ch : Channel}
    (hk : s.channels[k]? = some ch) (hch : ch.name = name) (admits : Admits ch c message) :
    (joinHandler i message s).channels = s.channels.set k (ch.joined c.fd) := by
  subst hname
  rw [joinHandler_found hc invariant.table registered hk hch,
    joinChannel_joins hc invariant.table hk hch admits, settle_channels]

variable {s' : Machine} {params : List Bytes}

theorem Admission.of_absent (absent : ¬ Exists s name)
    (heq : s'.channels = s.channels ++ [Channel.founded name c.fd]) :
    Admission s i c params name s' := by
  have hfresh := not_exists_iff.mp absent
  have hlast : Channel.founded name c.fd ∈ s'.channels := by
    rw [heq]
    exact List.mem_append_right _ (List.mem_singleton_self _)
  have hjoins : Joins s s' name c.fd := by
    refine ⟨⟨_, hlast, rfl, List.mem_singleton_self _⟩, ?_⟩
    rintro ⟨ch, hch, hchname, _⟩
    exact hfresh ch hch hchname
  constructor
  · exact iff_of_true hjoins (Or.inl absent)
  · exact fun _ => iff_of_true ⟨_, hlast, rfl, List.mem_singleton_self _⟩ absent
  · intro _ ch hch hchname hlimit
    rw [heq] at hch
    rcases List.mem_append.mp hch with hch | hch
    · exact absurd hchname (hfresh ch hch)
    · rw [List.mem_singleton.mp hch] at hlimit
      exact absurd hlimit (Int.lt_irrefl 0)
  · exact fun _ => heq
  · exact fun k ch hk hchname _ => absurd hchname (hfresh ch (List.mem_of_getElem? hk))
  · exact fun ch hch hchname _ => absurd hchname (hfresh ch hch)

theorem Admission.of_admitted (table : Table s.toServer) {k : Nat} {ch : Channel}
    (hk : s.channels[k]? = some ch) (hname : ch.name = name) (may : MayJoin ch c params)
    (heq : s'.channels = s.channels.set k (ch.joined c.fd)) : Admission s i c params name s' := by
  have hch := List.mem_of_getElem? hk
  have present : Exists s name := ⟨ch, hch, hname⟩
  have only : ∀ ch' ∈ s.channels, ch'.name = name → ch' = ch := fun ch' hch' hname' =>
    table.unique_name hch' hch (hname'.trans hname.symm)
  have hnew : ch.joined c.fd ∈ s'.channels := by
    rw [heq]
    exact List.mem_set (List.getElem?_eq_some_iff.mp hk).choose _
  have hafter : ∀ ch' ∈ s'.channels, ch'.name = name → ch' = ch.joined c.fd := by
    intro ch' hch' hname'
    rw [heq] at hch'
    obtain ⟨j, hj⟩ := List.mem_iff_getElem?.mp hch'
    by_cases hjk : k = j
    · subst hjk
      rw [List.getElem?_set_self (List.getElem?_eq_some_iff.mp hk).choose] at hj
      exact (Option.some.inj hj).symm
    · rw [List.getElem?_set_ne hjk] at hj
      exact absurd (atMostOne_of_nodup table.names name k j ch ch' hk hj (by simpa using hname)
        (by simpa using hname')) hjk
  have hjoins : Joins s s' name c.fd := by
    refine ⟨⟨_, hnew, hname, List.mem_append_right _ (List.mem_singleton_self _)⟩, ?_⟩
    rintro ⟨ch', hch', hname', hfd⟩
    exact may.outside (only ch' hch' hname' ▸ hfd)
  have hordinary : c.fd ∉ ch.operatorFds := fun hop =>
    may.outside ((table.consistent ch hch).operators_members c.fd hop)
  constructor
  · exact iff_of_true hjoins (Or.inr ⟨ch, hch, hname, may⟩)
  · refine fun _ => iff_of_false ?_ (not_not.mpr present)
    rintro ⟨ch', hch', hname', hop⟩
    rw [hafter ch' hch' hname'] at hop
    exact hordinary hop
  · intro _ ch' hch' hname' hlimit
    rw [hafter ch' hch' hname'] at hlimit ⊢
    have hroom := may.limit.resolve_left (Int.not_le.mpr hlimit)
    simpa [Channel.joined, Int.add_one_le_iff] using hroom
  · exact fun absent => absurd present absent
  · intro j ch' hj hname' _
    obtain rfl := only ch' (List.mem_of_getElem? hj) hname'
    have hjk : j = k := atMostOne_of_nodup table.names name j k ch' ch' hj hk
      (by simpa using hname') (by simpa using hname')
    rw [heq, hjk]
    rfl
  · exact fun ch' hch' hname' hmay => absurd (only ch' hch' hname' ▸ may) hmay

theorem Admission.of_refused (table : Table s.toServer) {ch : Channel} (hch : ch ∈ s.channels)
    (hname : ch.name = name) (may : ¬ MayJoin ch c params)
    (heq : s' = s.sendingQueue i (replyCmd (joinError ch c params) c name)) :
    Admission s i c params name s' := by
  have present : Exists s name := ⟨ch, hch, hname⟩
  have only : ∀ ch' ∈ s.channels, ch'.name = name → ch' = ch := fun ch' hch' hname' =>
    table.unique_name hch' hch (hname'.trans hname.symm)
  have hchannels : s'.channels = s.channels := by
    rw [heq, sendingQueue_channels]
  have hjoins : ¬ Joins s s' name c.fd := by
    rintro ⟨⟨ch', hch', hname', hfd⟩, hnot⟩
    exact hnot ⟨ch', hchannels ▸ hch', hname', hfd⟩
  constructor
  · refine iff_of_false hjoins ?_
    rintro (absent | ⟨ch', hch', hname', hmay⟩)
    · exact absent present
    · exact may (only ch' hch' hname' ▸ hmay)
  · exact fun hjoin => absurd hjoin hjoins
  · exact fun hjoin => absurd hjoin hjoins
  · exact fun absent => absurd present absent
  · intro k ch' hk hname' hmay
    exact absurd (only ch' (List.mem_of_getElem? hk) hname' ▸ hmay) may
  · intro ch' hch' hname' _
    obtain rfl := only ch' hch' hname'
    exact ⟨hchannels, heq⟩

/-- JOIN of a registered client: admitted exactly under the four conditions, told the first that
fails otherwise. -/
theorem joinAdmission (h : Reachable s) (hc : s.clients[i]? = some c)
    (registered : c.registered = true) (hname : message.params.head? = some name)
    (valid : validChannelName name = true) :
    Admission s i c message.params name (joinHandler i message s) := by
  have invariant := h.invariant
  have table := invariant.table
  have hparam : message.param 0 = name := by
    rw [Message.param, List.getD_eq_getElem?_getD, ← List.head?_eq_getElem?, hname]
    rfl
  by_cases present : Exists s name
  · obtain ⟨ch, hch, hchname⟩ := present
    obtain ⟨k, hk⟩ := List.mem_iff_getElem?.mp hch
    have small : c.fd ∉ ch.memberFds → ch.memberFds.length < 2 ^ 31 :=
      h.numbered.members_lt table hch (List.mem_of_getElem? hc)
    by_cases may : MayJoin ch c message.params
    · exact .of_admitted table hk hchname may
        (joinHandler_admitted invariant hc registered hparam hk hchname ((admits_iff small).mpr may))
    · refine .of_refused table hch hchname may ?_
      rw [joinHandler_found hc table registered hk (hchname.trans hparam.symm),
        joinChannel_error hc hk may small, hparam]
  · exact .of_absent present (joinHandler_founded invariant hc registered hparam valid present)

end Join

/-! ## A line -/

section Line

variable {t t' : Machine} {j : Nat} {d : Client} {ch : Channel} {line : Bytes}

/-- A registered client that may not join is told the first condition that fails. -/
theorem join_refused (h : Reachable t) (hd : t.clients[j]? = some d) (hch : ch ∈ t.channels)
    (registered : d.registered = true) (command : (Parser.parse line).command = text "JOIN")
    (hname : (Parser.parse line).param 0 = ch.name)
    (refused : ¬ MayJoin ch d (Parser.parse line).params)
    (hstep : step t (.command j line) = some t') :
    t' = (t.record (.line d.fd line)).sendingQueue j
      (replyCmd (joinError ch d (Parser.parse line).params) d ch.name) := by
  obtain ⟨_, rfl⟩ := step_command hd hstep
  obtain ⟨k, hk⟩ := List.mem_iff_getElem?.mp hch
  have small : d.fd ∉ ch.memberFds → ch.memberFds.length < 2 ^ 31 :=
    h.numbered.members_lt h.table hch (List.mem_of_getElem? hd)
  have table : Table (t.record (.line d.fd line)).toServer := h.table
  have hfound := joinHandler_found (s := t.record (.line d.fd line)) hd table registered hk hname.symm
  have herror := joinChannel_error (s := t.record (.line d.fd line)) hd hk refused small
  rw [dispatchCommand_join command, hfound, herror, hname]

theorem join_unregistered (hd : t.clients[j]? = some d) (unregistered : d.registered = false)
    (command : (Parser.parse line).command = text "JOIN")
    (hstep : step t (.command j line) = some t') :
    t' = (t.record (.line d.fd line)).sendingQueue j (replyCmd 451 d (text "JOIN")) := by
  obtain ⟨_, rfl⟩ := step_command hd hstep
  have hclient : (t.record (.line d.fd line)).clientAt j = d := Server.clientAt_of_getElem? hd
  rw [dispatchCommand_join command, joinHandler, hclient, if_pos (by rw [unregistered]; rfl)]

/-- A registered client is on an existing channel after a JOIN, when it was not before, exactly under
the four conditions. -/
theorem join_member_iff (h : Reachable t) (hd : t.clients[j]? = some d) (hch : ch ∈ t.channels)
    (registered : d.registered = true) (command : (Parser.parse line).command = text "JOIN")
    (hname : (Parser.parse line).param 0 = ch.name) (outside : d.fd ∉ ch.memberFds)
    (hstep : step t (.command j line) = some t') :
    IsMember t' ch.name d.fd ↔ MayJoin ch d (Parser.parse line).params := by
  obtain ⟨k, hk⟩ := List.mem_iff_getElem?.mp hch
  have small : d.fd ∉ ch.memberFds → ch.memberFds.length < 2 ^ 31 :=
    h.numbered.members_lt h.table hch (List.mem_of_getElem? hd)
  by_cases may : MayJoin ch d (Parser.parse line).params
  · refine iff_of_true ?_ may
    obtain ⟨_, rfl⟩ := step_command hd hstep
    have logged : Invariant (t.record (.line d.fd line)) := ⟨h.invariant.table, h.invariant.identities⟩
    have hchannels := joinHandler_admitted logged hd registered hname hk rfl ((admits_iff small).mpr may)
    rw [dispatchCommand_join command, IsMember, hchannels]
    exact ⟨ch.joined d.fd, List.mem_set (List.getElem?_eq_some_iff.mp hk).choose _, rfl,
      List.mem_append_right _ (List.mem_singleton_self _)⟩
  · refine iff_of_false ?_ may
    have heq := join_refused h hd hch registered command hname may hstep
    have hchannels : t'.channels = t.channels := by
      rw [heq, sendingQueue_channels]
      rfl
    rintro ⟨x, hx, hxname, hfd⟩
    rw [hchannels] at hx
    exact outside (h.table.unique_name hx hch hxname ▸ hfd)

end Line

def limitedRun : List Event :=
  [.connect 4 0, .connect 5 0] ++ registration 0 "kaw" ++ registration 1 "akira" ++
    [.command 0 (text "JOIN #42"), .command 0 (text "MODE #42 +l 2")]

theorem joinAdmission_sample :
    Admission (stateAfter limitedRun) 1 ((stateAfter limitedRun).clientAt 1) [text "#42"]
      (text "#42") (joinHandler 1 ⟨[], text "JOIN", [text "#42"]⟩ (stateAfter limitedRun)) := by
  have hc : (stateAfter limitedRun).clients[1]? = some ((stateAfter limitedRun).clientAt 1) :=
    clientAt_table (by decide)
  have registered : ((stateAfter limitedRun).clientAt 1).registered = true := by decide
  have first : (⟨[], text "JOIN", [text "#42"]⟩ : Message).params.head? = some (text "#42") := rfl
  exact joinAdmission (stateAfter_reachable limitedRun) hc registered first (by decide)

end IrcServer
