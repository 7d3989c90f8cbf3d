import IrcServer.Proof.Delivery

/-! # Who is told of a change

JOIN, KICK and MODE announce the change they make to all who are on the channel after
it. A disconnection announces nothing: those who stay on the channel are told of every
change except this one.
-/

namespace IrcServer

open Search Machine Transition

/-- The channel `name` as it is; nobody is on a channel that does not exist. -/
def Machine.channelNamed (name : Bytes) (s : Machine) : Channel :=
  (s.channels.find? (named name)).getD { name := name }

/-- A line that announces the change from `ch` to `ch'` which an event in state `s` has made. -/
inductive Tells (s : Machine) (ch ch' : Channel) : Event → Bytes → Prop
  | join (i : Nat) (line : Bytes) (c : Client) (hc : s.clients[i]? = some c)
      (joined : ch'.memberFds = ch.memberFds ++ [c.fd]) :
      Tells s ch ch' (.command i line) (joinMessage c ch'.name)
  | kick (i : Nat) (line : Bytes) (c : Client) (hc : s.clients[i]? = some c) (d : Client)
      (hd : d ∈ s.clients) (member : d.fd ∈ ch.memberFds)
      (left : ch'.memberFds = ch.memberFds.erase d.fd) (reason : Bytes) :
      Tells s ch ch' (.command i line) (kickMessage c ch'.name d.nickname reason)
  | grant (i : Nat) (line : Bytes) (c : Client) (hc : s.clients[i]? = some c) (d : Client)
      (hd : d ∈ s.clients) (granted : ch'.operatorFds = ch.operatorFds ++ [d.fd]) :
      Tells s ch ch' (.command i line)
        (modeMessage c ch'.name (text "+o" ++ text " " ++ d.nickname))
  | revoke (i : Nat) (line : Bytes) (c : Client) (hc : s.clients[i]? = some c) (d : Client)
      (hd : d ∈ s.clients) (special : d.fd ∈ ch.operatorFds)
      (revoked : ch'.operatorFds = ch.operatorFds.erase d.fd) :
      Tells s ch ch' (.command i line)
        (modeMessage c ch'.name (text "-o" ++ text " " ++ d.nickname))
  | quit (i : Nat) (c : Client) (hc : s.clients[i]? = some c) (m : Bytes)
      (carried : c.nickname <:+: m) : Tells s ch ch' (.disconnect i) m

/-- The step tells all who are on a channel after it of the change it makes to the members and the
operators of the channel. -/
def Told (s : Machine) (e : Event) (s' : Machine) : Prop :=
  ∀ ch' ∈ s'.channels,
    (s.channelNamed ch'.name).memberFds ≠ ch'.memberFds ∨
      (s.channelNamed ch'.name).operatorFds ≠ ch'.operatorFds →
    ∀ fd ∈ ch'.memberFds, ∃ m ∈ messagesTo fd (added s s'),
      Tells s (s.channelNamed ch'.name) ch' e m

def InCompany (s : Machine) (c : Client) : Prop :=
  ∃ ch ∈ s.channels, c.fd ∈ ch.memberFds ∧ ∃ fd ∈ ch.memberFds, fd ≠ c.fd

def Silent (s : Machine) (e : Event) : Prop :=
  ∃ i c, e = .disconnect i ∧ s.clients[i]? = some c ∧ InCompany s c

/-! ## Channels by name -/

section Names

variable {s : Machine}

theorem Table.channelNamed_eq (table : Table s.toServer) {ch : Channel} (hch : ch ∈ s.channels) :
    s.channelNamed ch.name = ch := by
  cases hfind : s.channels.find? (named ch.name) with
  | none =>
      have hnot := List.find?_eq_none.mp hfind ch hch
      simp [named] at hnot
  | some x =>
      have hname : x.name = ch.name := by simpa [named] using List.find?_some hfind
      have hx := List.mem_of_find?_eq_some hfind
      rw [channelNamed, hfind, Option.getD_some]
      exact List.inj_on_of_nodup_map table.names hx hch hname

theorem channelNamed_fresh {name : Bytes} (fresh : ∀ ch ∈ s.channels, ch.name ≠ name) :
    s.channelNamed name = { name := name } := by
  have hnone : s.channels.find? (named name) = none :=
    List.find?_eq_none.mpr fun ch hch => by simpa [named] using fresh ch hch
  rw [channelNamed, hnone, Option.getD_none]

end Names

/-! ## Accepted commands -/

section Line

variable {s : Machine} {i : Nat} {c : Client} {line : Bytes} {c' : Client}
  {channels : List Channel} {sends : List (Nat × Bytes)}

def Channel.SameLists (ch ch' : Channel) : Prop :=
  ch.memberFds = ch'.memberFds ∧ ch.operatorFds = ch'.operatorFds

theorem ModeChange.sameLists {message : Message} {ch ch' : Channel} {change : Bytes}
    (changes : ModeChange message ch ch' change) : ch.name = ch'.name ∧ ch.SameLists ch' := by
  cases changes <;> exact ⟨rfl, rfl, rfl⟩

theorem Announces.tells {a : Announcement}
    (announces : Announces s.toServer c (Parser.parse line) channels a) (table : Table s.toServer)
    (hc : s.clients[i]? = some c) {ch' : Channel} (hch' : ch' ∈ channels) :
    (s.channelNamed ch'.name).SameLists ch' ∨
      (Tells s (s.channelNamed ch'.name) ch' (.command i line) a.line ∧
        ∀ fd ∈ ch'.memberFds, fd ∈ a.recipients) := by
  have old : ∀ {ch : Channel}, ch ∈ s.channels → (s.channelNamed ch.name).SameLists ch := by
    intro ch hch
    rw [table.channelNamed_eq hch]
    exact ⟨rfl, rfl⟩
  have before : ∀ {k : Nat} {ch : Channel}, s.channels[k]? = some ch → s.channelNamed ch.name = ch :=
    fun found => table.channelNamed_eq (List.mem_of_getElem? found)
  cases announces with
  | create command registered valid fresh =>
      rcases List.mem_append.mp hch' with hch' | hch'
      · exact .inl (old hch')
      · obtain rfl := List.mem_singleton.mp hch'
        refine .inr ⟨.join i line c hc ?_, fun fd hfd => hfd⟩
        rw [Channel.founded, channelNamed_fresh fresh]
        rfl
  | join k ch at_ =>
      rcases List.mem_or_eq_of_mem_set hch' with hch' | rfl
      · exact .inl (old hch')
      · refine .inr ⟨.join i line c hc ?_, fun fd hfd => hfd⟩
        rw [Channel.joined, before at_.found]
  | privmsg => exact .inl (old hch')
  | topic k ch at_ =>
      rcases List.mem_or_eq_of_mem_set hch' with hch' | rfl
      · exact .inl (old hch')
      · exact .inl (by rw [before at_.found]; exact ⟨rfl, rfl⟩)
  | kick k ch at_ two operator target d targets member =>
      split at hch'
      · exact .inl (old (List.mem_of_mem_eraseIdx hch'))
      · rcases List.mem_or_eq_of_mem_set hch' with hch' | rfl
        · exact .inl (old hch')
        · have hd := List.mem_of_getElem? targets.found
          refine .inr ⟨?_, fun fd hfd => List.mem_of_mem_erase hfd⟩
          have hbefore : s.channelNamed (ch.removeMember d.fd).name = ch := before at_.found
          rw [hbefore, ← targets.nickname]
          exact .kick i line c hc d hd member rfl _
  | mode k ch new change at_ operator changes =>
      rcases List.mem_or_eq_of_mem_set hch' with hch' | rfl
      · exact .inl (old hch')
      · obtain ⟨hname, hlists⟩ := changes.sameLists
        exact .inl (by rw [← hname, before at_.found]; exact hlists)
  | grant k ch at_ operator plus three target d targets member ordinary =>
      rcases List.mem_or_eq_of_mem_set hch' with hch' | rfl
      · exact .inl (old hch')
      · refine .inr ⟨?_, fun fd hfd => hfd⟩
        have hd := List.mem_of_getElem? targets.found
        rw [before at_.found, ← targets.nickname]
        exact .grant i line c hc d hd rfl
  | revoke k ch at_ operator minus three target d targets member special =>
      rcases List.mem_or_eq_of_mem_set hch' with hch' | rfl
      · exact .inl (old hch')
      · refine .inr ⟨?_, fun fd hfd => hfd⟩
        have hd := List.mem_of_getElem? targets.found
        have hbefore : s.channelNamed (ch.removeOperator d.fd).name = ch := before at_.found
        rw [hbefore, ← targets.nickname]
        exact .revoke i line c hc d hd special rfl

theorem told_command {s' : Machine} (invariant : Invariant s) (hc : s.clients[i]? = some c)
    (hstep : step s (.command i line) = some s') : Told s (.command i line) s' := by
  intro ch' hch' changed fd hfd
  have table := invariant.table
  have unchanged : ∀ {P : Prop}, (s.channelNamed ch'.name).SameLists ch' → P := fun same =>
    absurd changed (not_or.mpr ⟨not_not_intro same.1, not_not_intro same.2⟩)
  have old : ch' ∈ s.channels → (s.channelNamed ch'.name).SameLists ch' := by
    intro hch
    rw [table.channelNamed_eq hch]
    exact ⟨rfl, rfl⟩
  cases step_stepped table hstep with
  | dispatched _ x hx _ clean c' channels sends effect =>
      obtain rfl := Option.some.inj (hc.symm.trans hx)
      rw [settle_channels] at hch'
      cases effect with
      | invited command registered two k ch found =>
          rcases List.mem_or_eq_of_mem_set hch' with hch' | rfl
          · exact unchanged (old hch')
          · refine unchanged ?_
            rw [Channel.addInvite_name, table.channelNamed_eq (List.mem_of_getElem? found)]
            exact ⟨(ch.addInvite_memberFds _).symm, (ch.addInvite_operatorFds _).symm⟩
      | announced channels a announces =>
          rcases announces.tells table hc hch' with same | ⟨tells, recipients⟩
          · exact unchanged same
          · have hfds : ((s.record (.line c.fd line)).settle i c channels
                (a.sends s.clients i)).clients.map (·.fd) = s.clients.map (·.fd) := by
              rw [settle_map _ _ _ _ _ (·.fd) fun _ _ => rfl]
              exact map_set_same (f := (·.fd)) hc rfl
            have hconnected : fd ∈ s.clients.map (·.fd) := by
              rw [← hfds]
              exact ((table.step hstep).consistent ch' (by rwa [settle_channels])).members_connected
                fd hfd
            obtain ⟨d, hd, rfl⟩ := List.mem_map.mp hconnected
            have hqueued := (announces.delivery invariant hc hstep).2.queued d hd
            refine ⟨a.line, ?_, tells⟩
            simp [hqueued, recipients d.fd hfd]
      | _ => exact unchanged (old hch')

end Line

/-! ## Steps -/

/-- A departure is told to nobody. -/
theorem told_disconnect {s : Machine} (table : Table s.toServer) {i : Nat} {c : Client}
    (hc : s.clients[i]? = some c) :
    Told s (.disconnect i) (s.without i c) ↔ ¬ Silent s (.disconnect i) := by
  constructor
  · rintro told ⟨j, d, hj, hd, ch, hch, member, fd, hfd, hne⟩
    cases hj
    obtain rfl := Option.some.inj (hc.symm.trans hd)
    have hleave := (table.consistent ch hch).leave_eq c.fd
    have hstays : fd ∈ ch.memberFds.filter (· ≠ c.fd) :=
      List.mem_filter.mpr ⟨hfd, by simpa using hne⟩
    have hch' := table.mem_without (i := i).mpr ⟨ch, hch, List.ne_nil_of_mem hstays, rfl⟩
    have hchanged : ch.memberFds ≠ (ch.leave c.fd).memberFds := by
      rw [hleave]
      intro heq
      rw [heq] at member
      simp at member
    have hbefore : s.channelNamed (ch.leave c.fd).name = ch := table.channelNamed_eq hch
    obtain ⟨m, hm, _⟩ := told _ hch' (.inl (by rwa [hbefore])) fd (by rw [hleave]; exact hstays)
    rw [(Stepped.disconnected i c hc).quiet (by simp) fd] at hm
    cases hm
  · intro hnot ch' hch' changed fd hfd
    obtain ⟨ch, hch, hinhabited, rfl⟩ := table.mem_without.mp hch'
    have consistent := table.consistent ch hch
    have outside : c.fd ∉ ch.memberFds := by
      intro member
      obtain ⟨x, hx⟩ := List.exists_mem_of_ne_nil _ hinhabited
      obtain ⟨hx, hne⟩ := List.mem_filter.mp hx
      exact hnot ⟨i, c, rfl, hc, ch, hch, member, x, hx, by simpa using hne⟩
    have hoperators : c.fd ∉ ch.operatorFds := fun h =>
      outside (consistent.operators_members c.fd h)
    have hbefore : s.channelNamed (ch.leave c.fd).name = ch := table.channelNamed_eq hch
    rw [hbefore, consistent.leave_eq, ← erase_eq_filter consistent.members_nodup,
      ← erase_eq_filter consistent.operators_nodup, List.erase_of_not_mem outside,
      List.erase_of_not_mem hoperators] at changed
    exact absurd changed (by simp)

theorem told_iff_not_silent {s s' : Machine} (invariant : Invariant s) {e : Event}
    (hstep : step s e = some s') : Told s e s' ↔ ¬ Silent s e := by
  have stays : (∀ i, e ≠ .disconnect i) → ¬ Silent s e := fun hne ⟨i, _, he, _⟩ => hne i he
  have table := invariant.table
  -- without a change of the channels there is nothing to tell
  have unchanged : s'.channels = s.channels → (∀ i, e ≠ .disconnect i) →
      (Told s e s' ↔ ¬ Silent s e) := by
    intro hchannels hne
    refine ⟨fun _ => stays hne, fun _ ch' hch' changed => ?_⟩
    rw [table.channelNamed_eq (hchannels ▸ hch')] at changed
    exact absurd changed (by simp)
  cases step_stepped table hstep with
  | unconnected => exact unchanged rfl (by simp)
  | dropped => exact unchanged rfl (by simp)
  | connected => exact unchanged rfl (by simp)
  | buffered => exact unchanged rfl (by simp)
  | flushed => exact unchanged rfl (by simp)
  | dispatched i c hc =>
      exact ⟨fun _ => stays (by simp), fun _ => told_command invariant hc hstep⟩
  | disconnected i c hc => exact told_disconnect table hc

end IrcServer
