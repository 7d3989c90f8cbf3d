import IrcServer.Proof.Admission
import IrcServer.Proof.Decoding
import IrcServer.Proof.Settings

/-! # Lifting a restriction

`-i`, `-t` and `-l` need no argument, and whoever joins or sets a topic afterwards finds
the restriction gone. `-k` without an argument is refused: its function counts the
parameters before it looks at the sign.
-/

namespace IrcServer

open Search Machine Transition
open IrcServer.Parser

inductive Restriction
  | inviteOnly
  | changeTopic
  | key
  | limit

namespace Restriction

def minus : Restriction → Bytes
  | inviteOnly => text "-i"
  | changeTopic => text "-t"
  | key => text "-k"
  | limit => text "-l"

/-- `MODE <channel> -<letter>`. -/
def line (r : Restriction) (name : Bytes) : Bytes := text "MODE " ++ name ++ text " " ++ r.minus

def lift : Restriction → Channel → Channel
  | inviteOnly, ch => { ch with inviteOnly := false }
  | changeTopic, ch => { ch with changeTopic := false }
  | key, ch => { ch with key := [] }
  | limit, ch => { ch with limit := 0 }

def Bars : Restriction → Channel → Client → List Bytes → Prop
  | inviteOnly, ch, d, _ => ch.inviteOnly = true ∧ d.fd ∉ ch.invitedFds
  | changeTopic, _, _, _ => False
  | key, ch, _, params => ch.key ≠ [] ∧ params[1]? ≠ some ch.key
  | limit, ch, _, _ => 0 < ch.limit ∧ ch.limit ≤ ch.memberFds.length

end Restriction

/-- The restriction of `ch`, and nothing else, is switched off by `c`, the members are told, and
JOIN and TOPIC are no longer refused because of it. -/
structure Lifted (s s' : Machine) (c : Client) (k : Nat) (ch : Channel) (r : Restriction) :
    Prop where
  stored : s'.channels = s.channels.set k (r.lift ch)
  told : ∀ d ∈ s.clients, messagesTo d.fd (added s s') =
    if d.fd ∈ ch.memberFds then [modeMessage c ch.name r.minus] else []
  joins : ∀ j d line t', s'.clients[j]? = some d → d.registered = true → d.fd ∉ ch.memberFds →
    (parse line).command = text "JOIN" → (parse line).param 0 = ch.name →
    step s' (.command j line) = some t' →
    (IsMember t' ch.name d.fd ↔ ∀ other, other ≠ r → ¬ other.Bars ch d (parse line).params)
  titles : r = .changeTopic → ∀ j d line t', s'.clients[j]? = some d → d.registered = true →
    d.fd ∈ ch.memberFds → (parse line).command = text "TOPIC" →
    (parse line).param 0 = ch.name → 2 ≤ (parse line).params.length →
    step s' (.command j line) = some t' →
    t'.channels = s'.channels.set k { r.lift ch with topic := (parse line).param 1 }

namespace Restriction

variable {r other : Restriction} {ch : Channel} {d : Client} {params : List Bytes}

@[simp] theorem lift_name (r : Restriction) (ch : Channel) : (r.lift ch).name = ch.name := by
  cases r <;> rfl

@[simp] theorem lift_memberFds (r : Restriction) (ch : Channel) :
    (r.lift ch).memberFds = ch.memberFds := by
  cases r <;> rfl

theorem bars_lift : other.Bars (r.lift ch) d params ↔ other ≠ r ∧ other.Bars ch d params := by
  cases r <;> cases other <;> simp [Bars, lift]

/-- JOIN admits whoever is not a member and is kept out by none of the restrictions. -/
theorem mayJoin_iff : MayJoin ch d params ↔ d.fd ∉ ch.memberFds ∧ ∀ r, ¬ Bars r ch d params := by
  constructor
  · rintro ⟨outside, invited, key, limit⟩
    refine ⟨outside, fun r => ?_⟩
    cases r with
    | inviteOnly => exact fun bars => bars.2 (invited bars.1)
    | changeTopic => exact id
    | key => exact fun bars => key.elim bars.1 bars.2
    | limit =>
        rintro ⟨hpos, hfull⟩
        omega
  · rintro ⟨outside, free⟩
    refine ⟨outside, fun hi => ?_, ?_, ?_⟩
    · by_contra hnot
      exact free .inviteOnly ⟨hi, hnot⟩
    · by_contra hnot
      exact free .key (not_or.mp hnot)
    · by_contra hnot
      exact free .limit ⟨by omega, by omega⟩

/-! ## The line -/

theorem minus_isWord (r : Restriction) : IsWord r.minus := by
  cases r <;> exact isWord_of_all (by decide) (by decide) (by decide)

theorem line_eq (r : Restriction) (name : Bytes) :
    r.line name = text "MODE" ++ space :: (name ++ space :: r.minus) := by
  simp [line, show text "MODE " = text "MODE" ++ [space] from by decide,
    show text " " = [space] from rfl]

/-- A channel name without a tab is read back, and there is no third parameter. -/
theorem parse_line {name : Bytes} (valid : validChannelName name = true) (htab : tab ∉ name)
    (r : Restriction) : parse (r.line name) = ⟨[], text "MODE", [name, r.minus]⟩ := by
  have hlast : paramsFrom none r.minus = [r.minus] := paramsFrom_self_iff.mpr r.minus_isWord
  rw [line_eq, parse_command (isWord_literals _ (by decide)),
    paramsFrom_word (isWord_channelName valid htab) (delimited_space _), paramsFrom_none_space, hlast]

/-- The line names another channel, or none, if the channel's name has a tab in it. -/
theorem no_tab_of_param {name : Bytes} (valid : validChannelName name = true)
    (h : (parse (r.line name)).param 0 = name) : tab ∉ name := by
  intro htab
  obtain ⟨w, ws, hread, hne⟩ := paramsFrom_tabbed valid htab (space :: r.minus)
  rw [Message.param, line_eq, params_command (isWord_literals _ (by decide)), hread] at h
  exact hne h

/-- Three of the four functions accept the line without an argument. -/
theorem changes {message : Message} (argless : r ≠ .key) (h : message.param 1 = r.minus) :
    ModeChange message ch (r.lift ch) r.minus := by
  cases r with
  | inviteOnly =>
      have changes : ModeChange message ch _ _ := .inviteOnly (.inr h)
      have hoff : decide (message.param 1 = text "+i") = false := by
        rw [h]
        decide
      rwa [hoff, h] at changes
  | changeTopic =>
      have changes : ModeChange message ch _ _ := .changeTopic (.inr h)
      have hoff : decide (message.param 1 = text "+t") = false := by
        rw [h]
        decide
      rwa [hoff, h] at changes
  | key => exact absurd rfl argless
  | limit => exact .noLimit h

end Restriction

theorem ModeChange.three_of_noKey {message : Message} {ch ch' : Channel} {change : Bytes}
    (changes : ModeChange message ch ch' change) (h : message.param 1 = text "-k") :
    3 ≤ message.params.length := by
  have other : ∀ {mode : Bytes}, message.param 1 = mode → text "-k" ≠ mode → False := fun hmode hne =>
    hne (h.symm.trans hmode)
  cases changes with
  | inviteOnly h' => exact (h'.elim (other · (by decide)) (other · (by decide))).elim
  | changeTopic h' => exact (h'.elim (other · (by decide)) (other · (by decide))).elim
  | key _ three => exact three
  | noKey _ three => exact three
  | limit _ three => exact three
  | noLimit h' => exact (other h' (by decide)).elim

section Lift

variable {s s' : Machine} {i j k : Nat} {c d : Client} {line : Bytes} {ch : Channel}
  {r : Restriction}

/-- The line is announced to the channel only if it names it and is not `-k`. -/
theorem Announces.argless {channels : List Channel} {a : Announcement} {name : Bytes}
    (announces : Announces s.toServer c (parse (r.line name)) channels a)
    (valid : validChannelName name = true) (hname : a.channel = name) : r ≠ .key ∧ tab ∉ name := by
  have htab := Restriction.no_tab_of_param valid (announces.channel_eq.symm.trans hname)
  have hparse := Restriction.parse_line valid htab r
  have hmode : (parse (r.line name)).command = text "MODE" := by
    rw [hparse]
    rfl
  have htwo : (parse (r.line name)).params.length = 2 := by rw [hparse]; rfl
  refine ⟨?_, htab⟩
  rintro rfl
  have hminus : (parse (Restriction.key.line name)).param 1 = text "-k" := by rw [hparse]; rfl
  cases announces with
  | create command => exact Message.not_other hmode command (by decide)
  | join k ch at_ => exact Message.not_other hmode at_.command (by decide)
  | privmsg k ch at_ => exact Message.not_other hmode at_.command (by decide)
  | topic k ch at_ => exact Message.not_other hmode at_.command (by decide)
  | kick k ch at_ => exact Message.not_other hmode at_.command (by decide)
  | mode k ch ch' change at_ operator changes =>
      have three := changes.three_of_noKey hminus
      omega
  | grant k ch at_ operator plus three => omega
  | revoke k ch at_ operator minus three => omega

theorem isEventOf_modeMessage (sound : c.Sound) {name : Bytes}
    (valid : validChannelName name = true) (change : Bytes) :
    isEventOf name (modeMessage c name change) = true := by
  have hspace := (validChannelName_bytes valid).2.1
  rw [modeMessage_eq, isEventOf, verb_wireLine sound.nickname_bytes.2 (by decide),
    target_wireLine sound.nickname_bytes.2 (by decide) hspace]
  simp [eventWords]

theorem isMember_lifted (h : Reachable s) (hk : s.channels[k]? = some (r.lift ch))
    (hd : s.clients[j]? = some d) (registered : d.registered = true) (outside : d.fd ∉ ch.memberFds)
    (command : (parse line).command = text "JOIN") (hname : (parse line).param 0 = ch.name)
    (hstep : step s (.command j line) = some s') :
    IsMember s' ch.name d.fd ↔ ∀ other, other ≠ r → ¬ other.Bars ch d (parse line).params := by
  have houtside : d.fd ∉ (r.lift ch).memberFds := by rwa [Restriction.lift_memberFds]
  have hadmitted := join_member_iff h hd (List.mem_of_getElem? hk) registered command
    (hname.trans (r.lift_name ch).symm) houtside hstep
  rw [Restriction.lift_name, Restriction.mayJoin_iff] at hadmitted
  simp only [hadmitted, houtside, Restriction.bars_lift, not_and, not_false_eq_true, true_and]

theorem channels_titled (h : Reachable s)
    (hk : s.channels[k]? = some (Restriction.changeTopic.lift ch)) (hd : s.clients[j]? = some d)
    (registered : d.registered = true) (member : d.fd ∈ ch.memberFds)
    (command : (parse line).command = text "TOPIC") (hname : (parse line).param 0 = ch.name)
    (two : 2 ≤ (parse line).params.length) (hstep : step s (.command j line) = some s') :
    s'.channels =
      s.channels.set k { Restriction.changeTopic.lift ch with topic := (parse line).param 1 } := by
  have at_ : Addresses s.toServer d (parse line) "TOPIC" k (Restriction.changeTopic.lift ch) :=
    ⟨command, registered, hk, hname.symm⟩
  have allowed : (Restriction.changeTopic.lift ch).changeTopic = true →
      d.fd ∈ (Restriction.changeTopic.lift ch).operatorFds := fun hon => by cases hon
  exact (Announces.topic k _ at_ two member allowed).channels_eq h.invariant hd hstep

/-- `MODE <channel> -<letter>` of an operator lifts the restriction exactly if the letter is not `k`
and there is no tab in the channel's name. -/
theorem lifted_iff (h : Reachable s) (hc : s.clients[i]? = some c) (hk : s.channels[k]? = some ch)
    (operator : c.fd ∈ ch.operatorFds)
    (hstep : step s (.command i (r.line ch.name)) = some s') :
    Lifted s s' c k ch r ↔ r ≠ .key ∧ tab ∉ ch.name := by
  have invariant := h.invariant
  have hch := List.mem_of_getElem? hk
  have hmem := List.mem_of_getElem? hc
  have consistent := h.table.consistent ch hch
  have member := consistent.operators_members c.fd operator
  constructor
  · intro lifted
    have htold := lifted.told c hmem
    rw [if_pos member] at htold
    rcases (step_stepped h.table hstep).events invariant consistent.valid with
      hnone | ⟨_, x, _, channels, a, event, hx, announces, hname, _⟩
    · have hsilent := hnone c hmem
      rw [htold, List.filter_singleton,
        isEventOf_modeMessage (invariant.identities.sound c hmem) consistent.valid] at hsilent
      cases hsilent
    · obtain ⟨rfl, rfl⟩ := Event.command.inj event
      exact announces.argless consistent.valid hname
  · rintro ⟨argless, htab⟩
    have hparse := Restriction.parse_line consistent.valid htab r
    obtain ⟨x, hx, hfd, registered⟩ := invariant.identities.members ch hch c.fd member
    obtain rfl := h.table.same_client hx hmem hfd
    have at_ : Addresses s.toServer x (parse (r.line ch.name)) "MODE" k ch := by
      rw [hparse]
      exact ⟨rfl, registered, hk, rfl⟩
    have hminus : (parse (r.line ch.name)).param 1 = r.minus := by rw [hparse]; rfl
    have announces := Announces.mode k ch _ _ at_ operator (Restriction.changes argless hminus)
    obtain ⟨hchannels, delivery⟩ := announces.delivery invariant hc hstep
    have hafter := h.step hstep
    have hlt := (List.getElem?_eq_some_iff.mp hk).choose
    have hfound : s'.channels[k]? = some (r.lift ch) := by
      rw [hchannels]
      exact List.getElem?_set_self hlt
    constructor
    · exact hchannels
    · intro d hd
      rw [delivery.queued d hd, ite_self, List.append_nil]
    · intro j d line t' hd hreg outside command hname hjoin
      exact isMember_lifted hafter hfound hd hreg outside command hname hjoin
    · rintro rfl j d line t' hd hreg hmember command hname two htopic
      exact channels_titled hafter hfound hd hreg hmember command hname two htopic

end Lift

def invitingRun : List Event := sampleRun ++ [.command 0 (text "MODE #42 +i")]

/-- Its founder opens it to everybody again. -/
theorem lifted_iff_sample :
    ∃ s s' c ch, Reachable s ∧ s.channels = [ch] ∧ ch.inviteOnly = true ∧
      step s (.command 0 (text "MODE #42 -i")) = some s' ∧ Lifted s s' c 0 ch .inviteOnly := by
  have hc : (stateAfter invitingRun).clients[0]? = some ((stateAfter invitingRun).clientAt 0) :=
    clientAt_table (by decide)
  have hch : (stateAfter invitingRun).channels = [(stateAfter invitingRun).channelAt 0] := by decide
  have hstep := step_stateAfter invitingRun (.command 0 (text "MODE #42 -i")) (by decide)
  have hline : Restriction.inviteOnly.line ((stateAfter invitingRun).channelAt 0).name =
      text "MODE #42 -i" := by decide
  exact ⟨_, _, _, _, stateAfter_reachable invitingRun, hch, by decide, hstep,
    (lifted_iff (stateAfter_reachable invitingRun) hc (by rw [hch]; rfl) (by decide)
      (hline ▸ hstep)).mpr ⟨nofun, by decide⟩⟩

def lockedRun : List Event := sampleRun ++ [.command 0 (text "MODE #42 +k sesame")]

/-- `MODE #42 -k` of its founder does not unlock it. -/
theorem not_lifted_key : ¬ ∀ (s s' : Machine) (i k : Nat) (c : Client) (ch : Channel)
    (r : Restriction), Reachable s → s.clients[i]? = some c → s.channels[k]? = some ch →
    c.fd ∈ ch.operatorFds → step s (.command i (r.line ch.name)) = some s' →
    Lifted s s' c k ch r := by
  intro h
  have hc : (stateAfter lockedRun).clients[0]? = some ((stateAfter lockedRun).clientAt 0) :=
    clientAt_table (by decide)
  have hch : (stateAfter lockedRun).channels[0]? = some ((stateAfter lockedRun).channelAt 0) := by
    decide
  have hstep := step_stateAfter lockedRun (.command 0 (text "MODE #42 -k")) (by decide)
  have hline : Restriction.key.line ((stateAfter lockedRun).channelAt 0).name =
      text "MODE #42 -k" := by decide
  have lifted := h _ _ 0 0 _ _ .key (stateAfter_reachable lockedRun) hc hch (by decide)
    (hline ▸ hstep)
  have hlocked : ∀ ch ∈ (stateAfter (lockedRun ++ [.command 0 (text "MODE #42 -k")])).channels,
      ch.key = text "sesame" := by decide
  have hsesame := hlocked _ (lifted.stored ▸ List.mem_set (by decide) _)
  cases hsesame

end IrcServer
