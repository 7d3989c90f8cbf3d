import IrcServer.Proof.Admission
import IrcServer.Proof.Membership
import IrcServer.Proof.Settings

/-! # KICK

A KICK expels its target exactly if the sender is an operator of the channel, the target
is a member of it, and the target is not the only operator of a channel with other
members. It touches that channel only, and the channel keeps an operator unless it goes
with its last member.
-/

namespace IrcServer

open Search Machine Transition

def Channel.SoleOperator (ch : Channel) (fd : Int) : Prop :=
  ch.operatorFds = [fd] ∧ ∃ other ∈ ch.memberFds, other ≠ fd

def MayKick (s : Machine) (c : Client) (name nick : Bytes) : Prop :=
  ∃ ch ∈ s.channels, ch.name = name ∧ c.fd ∈ ch.operatorFds ∧
    ∃ d ∈ s.clients, d.nickname = nick ∧ d.fd ∈ ch.memberFds ∧ ¬ ch.SoleOperator d.fd

def Expels (s s' : Machine) (name : Bytes) (d : Client) : Prop :=
  IsMember s name d.fd ∧ ¬ IsMember s' name d.fd

def Channel.expelled (fd : Int) (ch : Channel) : Channel :=
  { ch with
    memberFds := ch.memberFds.filter (· ≠ fd)
    operatorFds := ch.operatorFds.filter (· ≠ fd) }

/-- What the expulsion of `d` from the channel `ch`, at position `k`, changes: this channel, and
send buffers. -/
structure Expulsion (s s' : Machine) (d : Client) (k : Nat) (ch : Channel) (line : Bytes) :
    Prop where
  channels : s'.channels =
    if ch.memberFds = [d.fd] then s.channels.eraseIdx k else s.channels.set k (ch.expelled d.fd)
  clients : ∀ j : Nat, s'.clients[j]? =
    s.clients[j]?.map fun x => x.appendSendBuff (messagesTo x.fd (added s s')).flatten
  told : ∀ x ∈ s.clients,
    messagesTo x.fd (added s s') = if x.fd ∈ ch.memberFds then [line] else []
  target : messagesTo d.fd (added s s') = [line]
  erased : ¬ Exists s' ch.name ↔ ch.memberFds = [d.fd]
  operated : ch.memberFds ≠ [d.fd] → ∃ fd, Operates s' ch.name fd

def kickLine (c : Client) (message : Message) : Bytes :=
  kickMessage c (message.param 0) (message.param 1)
    (if message.params.length > 2 then message.param 2 else c.nickname)

structure KickOutcome (s s' : Machine) (c : Client) (message : Message) : Prop where
  effect : (∃ d ∈ s.clients, d.nickname = message.param 1 ∧ Expels s s' (message.param 0) d) ↔
    MayKick s c (message.param 0) (message.param 1)
  expels : ∀ d ∈ s.clients, d.nickname = message.param 1 → Expels s s' (message.param 0) d →
    ∀ (k : Nat) (ch : Channel), s.channels[k]? = some ch → ch.name = message.param 0 →
      Expulsion s s' d k ch (kickLine c message)
  refused : ¬ MayKick s c (message.param 0) (message.param 1) → s'.channels = s.channels

/-! ## Members and operators -/

section Lists

variable {ch : Channel} {connected : List Int} {fd : Int}

theorem Channel.Consistent.removeMember_eq (h : ch.Consistent connected) (fd : Int) :
    ch.removeMember fd = ch.expelled fd := by
  rw [Channel.removeMember, Channel.expelled, erase_eq_filter h.members_nodup,
    erase_eq_filter h.operators_nodup]

theorem Channel.Consistent.expelled_empty_iff (h : ch.Consistent connected)
    (member : fd ∈ ch.memberFds) : (ch.expelled fd).memberFds = [] ↔ ch.memberFds = [fd] := by
  rw [eq_singleton_iff h.members_nodup member, Channel.expelled, List.filter_eq_nil_iff]
  simp

/-- The condition as the code compares it, with lengths. -/
theorem Channel.Consistent.soleOperator_iff (h : ch.Consistent connected)
    (member : fd ∈ ch.memberFds) : ch.SoleOperator fd ↔
      fd ∈ ch.operatorFds ∧ ch.operatorFds.length = 1 ∧ 1 < ch.memberFds.length := by
  have hpos := List.length_pos_of_mem member
  have hothers : (∃ other ∈ ch.memberFds, other ≠ fd) ↔ 1 < ch.memberFds.length := by
    rw [← ne_singleton_iff h.members_nodup member, ne_eq, eq_singleton_iff_length member]
    omega
  rw [Channel.SoleOperator, hothers, ← and_assoc]
  refine and_congr_left fun _ => ⟨fun hsole => ?_, fun hsole => ?_⟩
  · have hmem : fd ∈ ch.operatorFds := hsole ▸ List.mem_singleton_self fd
    exact ⟨hmem, (eq_singleton_iff_length hmem).mp hsole⟩
  · exact (eq_singleton_iff_length hsole.1).mpr hsole.2

theorem Channel.Consistent.operator_left (h : ch.Consistent connected) {op : Int}
    (operator : op ∈ ch.operatorFds) (member : fd ∈ ch.memberFds) (several : ch.memberFds ≠ [fd])
    (notSole : ¬ ch.SoleOperator fd) : ∃ other ∈ ch.operatorFds, other ≠ fd := by
  by_cases hop : op = fd
  · subst hop
    refine (ne_singleton_iff h.operators_nodup operator).mp fun hsole => notSole ⟨hsole, ?_⟩
    exact (ne_singleton_iff h.members_nodup member).mp several
  · exact ⟨op, operator, hop⟩

end Lists

/-! ## The line -/

section Line

variable {s s' : Machine} {i k : Nat} {c d : Client} {line : Bytes} {ch : Channel}

theorem kick_announces (h : Reachable s) (hc : s.clients[i]? = some c)
    (command : (Parser.parse line).command = text "KICK")
    (two : 2 ≤ (Parser.parse line).params.length) (hk : s.channels[k]? = some ch)
    (hname : ch.name = (Parser.parse line).param 0) (operator : c.fd ∈ ch.operatorFds)
    (hd : d ∈ s.clients) (hnick : d.nickname = (Parser.parse line).param 1)
    (member : d.fd ∈ ch.memberFds) (notSole : ¬ ch.SoleOperator d.fd) :
    Announces s.toServer c (Parser.parse line)
      (if ch.memberFds = [d.fd] then s.channels.eraseIdx k else s.channels.set k (ch.expelled d.fd))
      ⟨ch.name, ch.memberFds, kickLine c (Parser.parse line), []⟩ := by
  have hch := List.mem_of_getElem? hk
  have consistent := h.table.consistent ch hch
  obtain ⟨x, hx, hfd, registered⟩ := h.invariant.identities.members ch hch c.fd
    (consistent.operators_members c.fd operator)
  obtain rfl := h.table.same_client hx (List.mem_of_getElem? hc) hfd
  have at_ : Addresses s.toServer x (Parser.parse line) "KICK" k ch := ⟨command, registered, hk, hname⟩
  obtain ⟨target, htarget⟩ := List.mem_iff_getElem?.mp hd
  have announces := Announces.kick k ch at_ two operator target d ⟨htarget, hnick⟩ member
    (fun hsole => notSole ((consistent.soleOperator_iff member).mpr hsole))
  simp only [consistent.removeMember_eq, consistent.expelled_empty_iff member] at announces
  rwa [hname] at announces ⊢

theorem kick_refused (h : Reachable s) (hc : s.clients[i]? = some c)
    (command : (Parser.parse line).command = text "KICK")
    (hstep : step s (.command i line) = some s')
    (refused : ¬ MayKick s c ((Parser.parse line).param 0) ((Parser.parse line).param 1)) :
    s'.channels = s.channels := by
  cases step_stepped h.table hstep with
  | dispatched _ x hx _ clean c' channels sends effect =>
      obtain rfl := Option.some.inj (hc.symm.trans hx)
      rw [settle_channels]
      cases effect with
      | announced _ a announces =>
          cases announces with
          | create command' => exact (Message.not_other command command' (by decide)).elim
          | join k ch at_ => exact (Message.not_other command at_.command (by decide)).elim
          | privmsg => rfl
          | topic k ch at_ => exact (Message.not_other command at_.command (by decide)).elim
          | kick k ch at_ two operator target d targets member keeps =>
              have hch := List.mem_of_getElem? at_.found
              have consistent := h.table.consistent ch hch
              refine absurd ⟨ch, hch, at_.name, operator, d, List.mem_of_getElem? targets.found,
                targets.nickname, member, fun hsole => keeps ?_⟩ refused
              exact (consistent.soleOperator_iff member).mp hsole
          | mode k ch ch' change at_ => exact (Message.not_other command at_.command (by decide)).elim
          | grant k ch at_ => exact (Message.not_other command at_.command (by decide)).elim
          | revoke k ch at_ => exact (Message.not_other command at_.command (by decide)).elim
      | invited command' => exact (Message.not_other command command' (by decide)).elim
      | _ => rfl

theorem expulsion_of_announces (h : Reachable s) (hc : s.clients[i]? = some c)
    (hstep : step s (.command i line) = some s') (hk : s.channels[k]? = some ch)
    (operator : c.fd ∈ ch.operatorFds) (hd : d ∈ s.clients) (member : d.fd ∈ ch.memberFds)
    (notSole : ¬ ch.SoleOperator d.fd) {m : Bytes}
    (announces : Announces s.toServer c (Parser.parse line)
      (if ch.memberFds = [d.fd] then s.channels.eraseIdx k else s.channels.set k (ch.expelled d.fd))
      ⟨ch.name, ch.memberFds, m, []⟩) :
    Expulsion s s' d k ch m ∧ Expels s s' ch.name d := by
  have hch := List.mem_of_getElem? hk
  have hlt := (List.getElem?_eq_some_iff.mp hk).choose
  have consistent := h.table.consistent ch hch
  obtain ⟨hchannels, delivery⟩ := announces.delivery h.invariant hc hstep
  have told : ∀ x ∈ s.clients,
      messagesTo x.fd (added s s') = if x.fd ∈ ch.memberFds then [m] else [] := by
    intro x hx
    rw [delivery.queued x hx, ite_self, List.append_nil]
  have hmembers : ∀ fd, IsMember s' ch.name fd ↔ fd ∈ ch.memberFds ∧ fd ≠ d.fd := by
    intro fd
    by_cases hlast : ch.memberFds = [d.fd]
    · rw [if_pos hlast] at hchannels
      rw [h.table.isMember_eraseIdx hk hchannels, hlast]
      simp
    · rw [if_neg hlast] at hchannels
      rw [h.table.isMember_set hk hchannels rfl]
      simp [Channel.expelled]
  have hstays : ch.memberFds ≠ [d.fd] → ch.expelled d.fd ∈ s'.channels := by
    intro several
    rw [hchannels, if_neg several]
    exact List.mem_set hlt _
  refine ⟨⟨hchannels, announces.clients_getElem? h.invariant hc hstep, told, ?_, ?_, ?_⟩, ?_⟩
  · rw [told d hd, if_pos member]
  · constructor
    · intro absent
      by_contra several
      exact absent ⟨_, hstays several, rfl⟩
    · rintro hlast ⟨x, hx, hxname⟩
      have hinhabited := ((h.step hstep).table.consistent x hx).inhabited
      obtain ⟨fd, hfd⟩ := List.exists_mem_of_ne_nil _ hinhabited
      obtain ⟨hold, hne⟩ := (hmembers fd).mp ⟨x, hx, hxname, hfd⟩
      rw [hlast] at hold
      exact hne (List.mem_singleton.mp hold)
  · intro several
    obtain ⟨op, hop, hne⟩ := consistent.operator_left operator member several notSole
    exact ⟨op, _, hstays several, rfl, List.mem_filter.mpr ⟨hop, by simpa using hne⟩⟩
  · exact ⟨⟨ch, hch, rfl, member⟩, fun hstill => ((hmembers d.fd).mp hstill).2 rfl⟩

/-- KICK takes effect exactly under its conditions, on the one channel and its target. -/
theorem kickOutcome (h : Reachable s) (hc : s.clients[i]? = some c)
    (command : (Parser.parse line).command = text "KICK")
    (two : 2 ≤ (Parser.parse line).params.length) (hstep : step s (.command i line) = some s') :
    KickOutcome s s' c (Parser.parse line) := by
  have refused := kick_refused h hc command hstep
  have effect : (∃ d ∈ s.clients, d.nickname = (Parser.parse line).param 1 ∧
      Expels s s' ((Parser.parse line).param 0) d) ↔
      MayKick s c ((Parser.parse line).param 0) ((Parser.parse line).param 1) := by
    constructor
    · rintro ⟨d, _, _, member, gone⟩
      by_contra hnot
      exact gone ((IsMember.of_channels (refused hnot)).mpr member)
    · rintro ⟨ch, hch, hname, operator, d, hd, hnick, member, notSole⟩
      obtain ⟨k, hk⟩ := List.mem_iff_getElem?.mp hch
      have announces := kick_announces h hc command two hk hname operator hd hnick member notSole
      have both := expulsion_of_announces h hc hstep hk operator hd member notSole announces
      exact ⟨d, hd, hnick, hname ▸ both.2⟩
  refine ⟨effect, ?_, refused⟩
  intro d hd hnick expels k ch hk hname
  obtain ⟨ch', hch', hname', operator, d', hd', hnick', member, notSole⟩ :=
    effect.mp ⟨d, hd, hnick, expels⟩
  obtain rfl := h.table.unique_name hch' (List.mem_of_getElem? hk) (hname'.trans hname.symm)
  have hne := h.invariant.member_nickname hch' hd' member
  have hfd := h.invariant.identities.unique d' hd' d hd (hnick'.trans hnick.symm) hne
  obtain rfl := h.table.same_client hd' hd hfd
  have announces := kick_announces h hc command two hk hname operator hd hnick member notSole
  exact (expulsion_of_announces h hc hstep hk operator hd member notSole announces).1

end Line

/-- An operator kicks the only other member, under the name `akira`. -/
theorem kickOutcome_sample :
    ∃ s s' c, Reachable s ∧ s.clients[0]? = some c ∧
      step s (.command 0 (text "KICK #42 akira :bye")) = some s' ∧
      (∃ d ∈ s.clients, d.nickname = text "akira" ∧ Expels s s' (text "#42") d) ∧
      KickOutcome s s' c (Parser.parse (text "KICK #42 akira :bye")) := by
  have hc : (stateAfter sampleRun).clients[0]? = some ((stateAfter sampleRun).clientAt 0) :=
    clientAt_table (by decide)
  have hd : (stateAfter sampleRun).clients[1]? = some ((stateAfter sampleRun).clientAt 1) :=
    clientAt_table (by decide)
  have hch : (stateAfter sampleRun).channels[0]? = some ((stateAfter sampleRun).channelAt 0) := by
    decide
  have hstep := step_stateAfter sampleRun (.command 0 (text "KICK #42 akira :bye")) (by decide)
  have outcome := kickOutcome (stateAfter_reachable sampleRun) hc (by decide) (by decide) hstep
  have several : ((stateAfter sampleRun).channelAt 0).operatorFds ≠
      [((stateAfter sampleRun).clientAt 1).fd] := by decide
  have may : MayKick (stateAfter sampleRun) ((stateAfter sampleRun).clientAt 0) (text "#42")
      (text "akira") :=
    ⟨_, List.mem_of_getElem? hch, by decide, by decide, _, List.mem_of_getElem? hd, by decide,
      by decide, fun sole => several sole.1⟩
  exact ⟨_, _, _, stateAfter_reachable sampleRun, hc, hstep, outcome.effect.mpr may, outcome⟩

end IrcServer
