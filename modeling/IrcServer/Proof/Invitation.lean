import IrcServer.Proof.Authority
import IrcServer.Proof.Registration

/-! # Invitations

INVITE refuses members, and a departure deletes the invitation, but JOIN does not
use it up. The runs in which nobody is member and invitee at once are those in which
no invited client joins an existing channel. Where that holds, whoever is kicked
from an invite-only channel stays out until invited again.
-/

namespace IrcServer

open Search Machine Transition

def MembersUninvited (s : Machine) : Prop :=
  ∀ ch ∈ s.channels, ∀ fd ∈ ch.memberFds, fd ∉ ch.invitedFds

instance : DecidablePred MembersUninvited := fun s =>
  inferInstanceAs (Decidable (∀ ch ∈ s.channels, ∀ fd ∈ ch.memberFds, fd ∉ ch.invitedFds))

def IsMember (s : Machine) (name : Bytes) (fd : Int) : Prop :=
  ∃ ch ∈ s.channels, ch.name = name ∧ fd ∈ ch.memberFds

def InviteOnly (s : Machine) (name : Bytes) : Prop :=
  ∃ ch ∈ s.channels, ch.name = name ∧ ch.inviteOnly = true

/-- An accepted JOIN of an existing channel by a client on its invitation list. -/
inductive Redeems (s : Machine) : Event → Prop
  | intro (i : Nat) (line : Bytes) (c : Client) (hc : s.clients[i]? = some c)
      (registered : c.registered = true)
      (command : (Parser.parse line).command = text "JOIN")
      (k : Nat) (ch : Channel) (found : s.channels[k]? = some ch)
      (names : ch.name = (Parser.parse line).param 0)
      (admits : Admits ch c (Parser.parse line)) (invited : c.fd ∈ ch.invitedFds) :
      Redeems s (.command i line)

inductive Invites (s : Machine) (name : Bytes) (fd : Int) : Event → Prop
  | intro (i : Nat) (line : Bytes) (c : Client) (hc : s.clients[i]? = some c)
      (command : (Parser.parse line).command = text "INVITE")
      (names : (Parser.parse line).param 1 = name) (operator : Operates s name c.fd)
      (d : Client) (hd : d ∈ s.clients) (nick : d.nickname = (Parser.parse line).param 0)
      (self : fd = d.fd) :
      Invites s name fd (.command i line)

/-- Whoever is kicked from a channel next is refused by JOIN, with a 473, as long as the channel
stays invite-only, the client stays connected and no operator invites it again. -/
def KickedStayOut (s : Machine) : Prop :=
  ∀ name fd i line b, (Parser.parse line).command = text "KICK" →
    step s (.command i line) = some b → IsMember s name fd → ¬ IsMember b name fd →
    ∀ events u, run step b events = some u →
      (∀ w, Visits step b events w → InviteOnly w name) →
      (∀ w e w', Takes step b events w e w' → ¬ Invites w name fd e ∧ ¬ Departs w fd e) →
      ∀ j c line' v, u.clients[j]? = some c → c.fd = fd →
        (Parser.parse line').command = text "JOIN" → (Parser.parse line').param 0 = name →
        step u (.command j line') = some v →
        v = (u.record (.line fd line')).sendingQueue j (replyCmd 473 c name)

/-! ## Who is member and invitee -/

theorem Channel.Change.members_uninvited {s : Server} {c : Client} {message : Message}
    {ch ch' : Channel} (change : Channel.Change s c message ch ch')
    (h : ∀ fd ∈ ch.memberFds, fd ∉ ch.invitedFds) :
    (∀ fd ∈ ch'.memberFds, fd ∉ ch'.invitedFds) ∨
      (message.command = text "JOIN" ∧ Admits ch c message ∧ c.fd ∈ ch.invitedFds) := by
  cases change with
  | joined command admits =>
      by_cases hinvited : c.fd ∈ ch.invitedFds
      · exact Or.inr ⟨command, admits, hinvited⟩
      · refine Or.inl fun fd hfd => ?_
        rcases List.mem_append.mp hfd with hfd | hfd
        · exact h fd hfd
        · rw [List.mem_singleton.mp hfd]
          exact hinvited
  | titled => exact Or.inl h
  | kicked => exact Or.inl fun fd hfd => h fd (List.mem_of_mem_erase hfd)
  | moded command operator ch' change changes => cases changes <;> exact Or.inl h
  | granted => exact Or.inl h
  | revoked => exact Or.inl h
  | invited command operator target d targets outside =>
      refine Or.inl fun fd hfd hinvited => ?_
      rw [Channel.addInvite_memberFds] at hfd
      rcases (ch.mem_addInvite d.fd fd).mp hinvited with hinvited | rfl
      · exact h fd hfd hinvited
      · exact outside hfd

theorem Stepped.membersUninvited {s s' : Machine} {e : Event} (h : Stepped s e s')
    (uninvited : MembersUninvited s) (kept : ¬ Redeems s e) : MembersUninvited s' := by
  intro ch' hch'
  cases h.channel_origin hch' with
  | kept hch => exact uninvited ch' hch
  | left i c event hc ch hch same =>
      subst same
      intro fd hfd hinvited
      exact uninvited ch hch fd (List.mem_of_mem_erase hfd) (List.mem_of_mem_erase hinvited)
  | founded i line event c hc registered command valid fresh same =>
      subst same
      exact fun _ _ => List.not_mem_nil
  | changed i line event clean c hc registered k ch found name change =>
      subst event
      have old := uninvited ch (List.mem_of_getElem? found)
      rcases change.members_uninvited old with hnew | ⟨command, admits, hinvited⟩
      · exact hnew
      · have hname := channelName_of_command command (by decide)
        exact absurd (.intro i line c hc registered command k ch found
          (name.trans hname) admits hinvited) kept

theorem Redeems.redeemed {s s' : Machine} {e : Event} (table : Table s.toServer)
    (h : Redeems s e) (hstep : step s e = some s') : ¬ MembersUninvited s' := by
  obtain ⟨i, line, c, hc, registered, command, k, ch, found, names, admits, invited⟩ := h
  have hfound := joinHandler_found (s := s.record (.line c.fd line)) hc table registered found names
  have hjoins := joinChannel_joins (s := s.record (.line c.fd line)) hc table found names admits
  intro uninvited
  have hch : ch.joined c.fd ∈ s'.channels := by
    rw [(step_command hc hstep).2, dispatchCommand_join command, hfound, hjoins, settle_channels]
    exact List.mem_set (List.getElem?_eq_some_iff.mp found).choose _
  exact uninvited _ hch c.fd (List.mem_append_right _ List.mem_cons_self) invited

/-! ## Who is kept out -/

def Excluded (s : Machine) (name : Bytes) (fd : Int) : Prop :=
  ∀ ch ∈ s.channels, ch.name = name → fd ∉ ch.memberFds ∧ fd ∉ ch.invitedFds

theorem Channel.Change.excluded {s : Server} {c : Client} {message : Message} {ch ch' : Channel}
    (change : Channel.Change s c message ch ch') (only : ch.inviteOnly = true) {fd : Int}
    (h : fd ∉ ch.memberFds ∧ fd ∉ ch.invitedFds) :
    (fd ∉ ch'.memberFds ∧ fd ∉ ch'.invitedFds) ∨
      (message.command = text "INVITE" ∧ c.fd ∈ ch.operatorFds ∧
        ∃ d ∈ s.clients, d.nickname = message.param 0 ∧ fd = d.fd) := by
  obtain ⟨outside, uninvited⟩ := h
  cases change with
  | joined command admits =>
      refine Or.inl ⟨fun hfd => ?_, uninvited⟩
      rcases List.mem_append.mp hfd with hfd | hfd
      · exact outside hfd
      · rw [List.mem_singleton.mp hfd] at uninvited
        exact uninvited (admits.invited only)
  | titled => exact Or.inl ⟨outside, uninvited⟩
  | kicked => exact Or.inl ⟨fun hfd => outside (List.mem_of_mem_erase hfd), uninvited⟩
  | moded command operator ch' change changes =>
      cases changes <;> exact Or.inl ⟨outside, uninvited⟩
  | granted => exact Or.inl ⟨outside, uninvited⟩
  | revoked => exact Or.inl ⟨outside, uninvited⟩
  | invited command operator target d targets =>
      by_cases hfd : fd = d.fd
      · exact Or.inr ⟨command, operator, d, List.mem_of_getElem? targets.found,
          targets.nickname, hfd⟩
      · exact Or.inl ⟨by simpa using outside, by simpa [hfd] using uninvited⟩

theorem Table.unique_name {s : Server} (table : Table s) {ch ch' : Channel} (hch : ch ∈ s.channels)
    (hch' : ch' ∈ s.channels) (hname : ch.name = ch'.name) : ch = ch' :=
  List.inj_on_of_nodup_map table.names hch hch' hname

theorem Stepped.excluded {s s' : Machine} {e : Event} (table : Table s.toServer)
    (h : Stepped s e s') {name : Bytes} {fd : Int} (excluded : Excluded s name fd)
    (only : InviteOnly s name) (uninvited : ¬ Invites s name fd e) : Excluded s' name fd := by
  intro ch' hch' hname
  cases h.channel_origin hch' with
  | kept hch => exact excluded ch' hch hname
  | left i c event hc ch hch same =>
      subst same
      obtain ⟨outside, hnot⟩ := excluded ch hch hname
      exact ⟨fun hfd => outside (List.mem_of_mem_erase hfd),
        fun hfd => hnot (List.mem_of_mem_erase hfd)⟩
  | founded i line event c hc registered command valid fresh same =>
      subst same
      obtain ⟨ch, hch, hold, _⟩ := only
      exact absurd (hold.trans hname.symm) (fresh ch hch)
  | changed i line event clean c hc registered k ch found names change =>
      subst event
      have hch := List.mem_of_getElem? found
      have hold : ch.name = name := change.name_eq.symm.trans hname
      obtain ⟨ch₀, hch₀, hname₀, honly⟩ := only
      obtain rfl := table.unique_name hch₀ hch (hname₀.trans hold.symm)
      rcases change.excluded honly (excluded _ hch hold) with
        hnew | ⟨command, operator, d, hd, nick, self⟩
      · exact hnew
      · have hparam : (Parser.parse line).channelName = (Parser.parse line).param 1 :=
          if_pos command
        exact absurd (.intro i line c hc command
          (hparam.symm.trans (names.symm.trans hold)) ⟨_, hch, hold, operator⟩ d hd nick self)
          uninvited

theorem excluded_run {s t : Machine} {events : List Event} {name : Bytes} {fd : Int}
    (table : Table s.toServer) (hrun : run step s events = some t)
    (excluded : Excluded s name fd) (only : ∀ w, Visits step s events w → InviteOnly w name)
    (uninvited : ∀ w e w', Takes step s events w e w' → ¬ Invites w name fd e) :
    Excluded t name fd := by
  induction events generalizing s with
  | nil =>
      cases hrun
      exact excluded
  | cons e events ih =>
      obtain ⟨s', hstep, hrest⟩ := run_cons_some.mp hrun
      have hnext := (step_stepped table hstep).excluded table excluded (only s (.start s _))
        (uninvited s e s' (.head hstep))
      exact ih (table.step hstep) hrest hnext (fun w hw => only w (hw.cons hstep))
        (fun w f w' taken => uninvited w f w' (taken.cons hstep))

/-! ## The refused JOIN -/

theorem joinChannel_uninvited {s : Machine} {j : Nat} {c : Client} {message : Message} {k : Nat}
    {ch : Channel} (hc : s.clients[j]? = some c) (hk : s.channels[k]? = some ch)
    (outside : c.fd ∉ ch.memberFds) (only : ch.inviteOnly = true) (uninvited : c.fd ∉ ch.invitedFds) :
    joinChannel j message k s = s.sendingQueue j (replyCmd 473 c (message.param 0)) := by
  have hmember : ch.hasMember c.fd = false := by simpa [Channel.hasMember] using outside
  have hinvited : ch.isInvited c.fd = false := by simpa [Channel.isInvited] using uninvited
  simp only [joinChannel, Server.clientAt_of_getElem? hc, Server.channelAt_of_getElem? hk, hmember,
    only, hinvited, Bool.not_false, Bool.and_self, Bool.false_eq_true, if_false, if_true]

theorem refused_uninvited {u v : Machine} (invariant : Invariant u) {name : Bytes} {j : Nat}
    {c : Client} (hc : u.clients[j]? = some c) (registered : c.registered = true)
    (excluded : Excluded u name c.fd) (only : InviteOnly u name) {line : Bytes}
    (command : (Parser.parse line).command = text "JOIN")
    (names : (Parser.parse line).param 0 = name) (hstep : step u (.command j line) = some v) :
    v = (u.record (.line c.fd line)).sendingQueue j (replyCmd 473 c name) := by
  obtain ⟨ch, hch, hname, honly⟩ := only
  obtain ⟨k, hk⟩ := List.mem_iff_getElem?.mp hch
  obtain ⟨outside, uninvited⟩ := excluded ch hch hname
  have hfound := joinHandler_found (s := u.record (.line c.fd line)) hc invariant.table registered hk
    (hname.trans names.symm)
  have hrefused : joinChannel j (Parser.parse line) k (u.record (.line c.fd line)) = _ :=
    joinChannel_uninvited hc hk outside honly uninvited
  rw [(step_command hc hstep).2, dispatchCommand_join command, hfound, hrefused, names]

/-- Where no member is invited, the kicked stay out. -/
theorem kickedStayOut {s : Machine} (invariant : Invariant s) (h : MembersUninvited s) :
    KickedStayOut s := by
  intro name fd i line b command hkick member gone events u hrun only kept j c line' v hc hfd
    hjoin hname hstep
  obtain ⟨ch, hch, hchname, hmember⟩ := member
  have stepped := step_stepped invariant.table hkick
  -- the kick leaves the invitations as they were
  have excluded : Excluded b name fd := by
    intro ch' hch' hname'
    refine ⟨fun hmem => gone ⟨ch', hch', hname', hmem⟩, fun hinvited => ?_⟩
    have same : ∀ {old : Channel}, old ∈ s.channels → old.name = name → fd ∉ old.invitedFds := by
      intro old hold hname
      obtain rfl := invariant.table.unique_name hch hold (hchname.trans hname.symm)
      exact h _ hch fd hmember
    cases stepped.channel_origin hch' with
    | kept hold => exact same hold hname' hinvited
    | left _ _ event => cases event
    | founded _ _ event _ _ _ joins =>
        cases event
        exact absurd (command.symm.trans joins) (by decide)
    | changed _ _ event _ _ _ _ k old found names change =>
        cases event
        have hold := List.mem_of_getElem? found
        have holdname := change.name_eq.symm.trans hname'
        cases change with
        | kicked => exact same hold holdname hinvited
        | joined other => exact absurd (command.symm.trans other) (by decide)
        | titled other => exact absurd (command.symm.trans other) (by decide)
        | moded other => exact absurd (command.symm.trans other) (by decide)
        | granted other => exact absurd (command.symm.trans other) (by decide)
        | revoked other => exact absurd (command.symm.trans other) (by decide)
        | invited other => exact absurd (command.symm.trans other) (by decide)
  obtain ⟨d, hd, hdfd, registered⟩ := invariant.identities.members ch hch fd hmember
  -- the kicked client was registered, and stays so
  have hregistered : c.registered = true := by
    have stays : ¬ Departs s d.fd (.command i line) := by
      rintro ⟨_, _, hevent, _⟩
      cases hevent
    obtain ⟨x, hx, hxfd⟩ := stepped.connected_of_stays hd stays
    have hxreg := stepped.registered invariant.table hx hd hxfd registered
    have hxstays : ∀ a e a', Takes step b events a e a' → ¬ Departs a x.fd e := by
      rw [hxfd, hdfd]
      exact fun a e a' taken => (kept a e a' taken).2
    obtain ⟨y, hy, hyfd, hyreg⟩ := registered_run (invariant.step hkick) hrun hx hxreg hxstays
    have hu : Invariant u := (invariant.step hkick).visits (.finish hrun)
    have hsame : y = c := hu.table.same_client hy (List.mem_of_getElem? hc)
      (hyfd.trans (hxfd.trans (hdfd.trans hfd.symm)))
    rwa [← hsame]
  subst hfd
  exact refused_uninvited ((invariant.step hkick).visits (.finish hrun)) hc hregistered
    (excluded_run (invariant.step hkick).table hrun excluded only
      fun w e w' taken => (kept w e w' taken).1)
    (only u (.finish hrun)) hjoin hname hstep

/-! ## Runs -/

/-- In a run nobody is ever member and invitee of one channel, and the kicked stay out, exactly if
no invited client joins an existing channel. -/
theorem uninvited_iff_not_redeemed {fd : Int} {passwd : Bytes} {events : List Event} {s : Machine}
    (hrun : run step (Machine.start fd passwd) events = some s) :
    (∀ u, Visits step (Machine.start fd passwd) events u → MembersUninvited u ∧ KickedStayOut u) ↔
      ∀ a e b, Takes step (Machine.start fd passwd) events a e b → ¬ Redeems a e := by
  have huninvited : (∀ u, Visits step (Machine.start fd passwd) events u → MembersUninvited u) ↔
      ∀ a e b, Takes step (Machine.start fd passwd) events a e b → ¬ Redeems a e := forall_visits_iff
    (I := Invariant)
    (fun _ _ _ invariant hstep => invariant.step hstep)
    (fun _ _ _ invariant uninvited hstep =>
      ⟨fun h redeems => redeems.redeemed invariant.table hstep h,
        (step_stepped invariant.table hstep).membersUninvited uninvited⟩)
    (start_invariant fd passwd) (fun _ hch => absurd hch List.not_mem_nil) hrun
  rw [← huninvited]
  constructor
  · exact fun h u hvisit => (h u hvisit).1
  · intro h u hvisit
    have invariant := (start_invariant fd passwd).visits hvisit
    exact ⟨h u hvisit, kickedStayOut invariant (h u hvisit)⟩

/-- The second client, who came by invitation, is kicked from a channel that is invite-only now. -/
def kickedRun : List Event :=
  sampleRun ++ [.command 0 (text "MODE #42 +i"), .command 0 (text "KICK #42 akira")]

theorem uninvited_iff_not_redeemed_sample :
    ∃ s, run step (Machine.start 3 (text "pw")) sampleRun = some s ∧
      ((∀ u, Visits step (Machine.start 3 (text "pw")) sampleRun u →
          MembersUninvited u ∧ KickedStayOut u) ↔
        ∀ a e b, Takes step (Machine.start 3 (text "pw")) sampleRun a e b → ¬ Redeems a e) := by
  have hrun : (run step (Machine.start 3 (text "pw")) sampleRun).isSome = true := by decide
  obtain ⟨s, hs⟩ := Option.isSome_iff_exists.mp hrun
  exact ⟨s, hs, uninvited_iff_not_redeemed hs⟩

/-- Both parts fail: the second client is member and invitee, and it is let in again after the
kick. -/
theorem not_uninvited_reachable :
    ¬ (∀ s, Reachable s → MembersUninvited s) ∧ ¬ (∀ s, Reachable s → KickedStayOut s) := by
  constructor
  · intro h
    have hboth : ¬ MembersUninvited (stateAfter sampleRun) := by decide
    exact hboth (h _ (stateAfter_reachable sampleRun))
  · intro h
    have hreach := stateAfter_reachable (sampleRun ++ [.command 0 (text "MODE #42 +i")])
    have hkick := step_stateAfter (sampleRun ++ [.command 0 (text "MODE #42 +i")])
      (.command 0 (text "KICK #42 akira")) (by decide)
    have hjoin := step_stateAfter kickedRun (.command 1 (text "JOIN #42")) (by decide)
    have hakira : (stateAfter kickedRun).clients[1]? = some ((stateAfter kickedRun).clientAt 1) :=
      clientAt_table (by decide)
    have honly : InviteOnly (stateAfter kickedRun) (text "#42") := by
      unfold InviteOnly
      decide
    have hmember : IsMember (stateAfter (sampleRun ++ [.command 0 (text "MODE #42 +i")]))
        (text "#42") 5 := by
      unfold IsMember
      decide
    have hgone : ¬ IsMember (stateAfter kickedRun) (text "#42") 5 := by
      unfold IsMember
      decide
    have hrefused := h _ hreach (text "#42") 5 0 (text "KICK #42 akira") _ (by decide) hkick hmember
      hgone [] _ rfl (fun w hw => visits_nil hw ▸ honly)
      (fun w e w' ⟨before, after, heq, _⟩ => absurd heq.symm (by simp)) 1
      _ (text "JOIN #42") _ hakira (by decide) (by decide) (by decide) hjoin
    have hback : IsMember (stateAfter (kickedRun ++ [.command 1 (text "JOIN #42")]))
        (text "#42") 5 := by
      unfold IsMember
      decide
    rw [hrefused] at hback
    simp only [IsMember, sendingQueue_channels] at hback
    exact hgone hback

end IrcServer
