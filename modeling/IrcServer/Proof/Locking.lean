import IrcServer.Proof.Admission
import IrcServer.Proof.Settings

/-! # Keys

A key is enforced from the moment it is announced until the next `+k` or `-k`, because
nothing else writes it. This holds of every key but the empty one, which is stored and
announced like any other and means that there is none.
-/

namespace IrcServer

open Search Machine Transition

inductive SetsKey (name : Bytes) (s : Machine) : Event → Bytes → Prop
  | intro (i : Nat) (line : Bytes) (c : Client) (hc : s.clients[i]? = some c) (k : Nat)
      (ch ch' : Channel) (change : Bytes)
      (at_ : Addresses s.toServer c (Parser.parse line) "MODE" k ch)
      (operator : c.fd ∈ ch.operatorFds) (changes : ModeChange (Parser.parse line) ch ch' change)
      (mode : (Parser.parse line).param 1 = text "+k" ∨ (Parser.parse line).param 1 = text "-k")
      (named : ch.name = name) : SetsKey name s (.command i line) ch'.key

/-- What a client that is not a member is told instead of being admitted: that it has not
registered, that it is not invited, or that its key is wrong. -/
def lockedReply (d : Client) (ch : Channel) : Bytes :=
  if d.registered = false then replyCmd 451 d (text "JOIN")
  else if ch.inviteOnly = true ∧ d.fd ∉ ch.invitedFds then replyCmd 473 d ch.name
  else replyCmd 475 d ch.name

/-- The channel `name` has a key, and for as long as the channel exists and no `+k` or `-k` is
accepted on it, whoever is not a member and does not give `key` is refused. -/
structure KeyEnforced (s : Machine) (name key : Bytes) : Prop where
  locked : ∃ ch ∈ s.channels, ch.name = name ∧ ch.hasKey = true
  refuses : ∀ events t, run step s events = some t →
    (∀ u, Visits step s events u → Exists u name) →
    (∀ a e b new, Takes step s events a e b → ¬ SetsKey name a e new) →
    ∀ ch ∈ t.channels, ch.name = name → ∀ j d line t', t.clients[j]? = some d →
      d.fd ∉ ch.memberFds → (Parser.parse line).command = text "JOIN" →
      (Parser.parse line).param 0 = name →
      ((Parser.parse line).params.length < 2 ∨ (Parser.parse line).param 1 ≠ key) →
      step t (.command j line) = some t' →
      t' = (t.record (.line d.fd line)).sendingQueue j (lockedReply d ch)

def Machine.HasKey (name : Bytes) (s : Machine) (key : Bytes) : Prop :=
  ∀ ch ∈ s.channels, ch.name = name → ch.key = key

/-! ## One step -/

section Step

variable {s s' : Machine} {e : Event} {name key : Bytes}

theorem SetsKey.hasKey (invariant : Invariant s) (hstep : step s e = some s')
    (sets : SetsKey name s e key) : s'.HasKey name key := by
  cases sets with
  | intro i line c hc k ch ch' change at_ operator changes mode hname =>
      have hchannels := (Announces.mode k ch ch' change at_ operator changes).channels_eq invariant hc
        hstep
      have table' := (invariant.step hstep).table
      have hsame : ch'.name = ch.name := by cases changes <;> rfl
      intro x hx hxname
      rw [table'.stored at_.found hchannels hx (hxname.trans (hsame.trans hname).symm)]

theorem ModeChange.key_eq {message : Message} {ch ch' : Channel} {change : Bytes}
    (changes : ModeChange message ch ch' change)
    (other : ¬ (message.param 1 = text "+k" ∨ message.param 1 = text "-k")) : ch'.key = ch.key := by
  cases changes with
  | key h => exact absurd (.inl h) other
  | noKey h => exact absurd (.inr h) other
  | _ => rfl

theorem Machine.HasKey.kept (invariant : Invariant s) (existed : Exists s name)
    (hstep : step s e = some s') (keeps : ∀ key, ¬ SetsKey name s e key) (h : s.HasKey name key) :
    s'.HasKey name key := by
  intro x hx hxname
  cases (step_stepped invariant.table hstep).settings_origin hx with
  | kept ch hch hname same =>
      rw [← h ch hch (hname.trans hxname)]
      exact congrArg Settings.key same
  | founded i line event c hc fresh same =>
      obtain ⟨ch, hch, hname⟩ := existed
      exact absurd (hname.trans hxname.symm) (fresh ch hch)
  | titled i line event c hc k ch at_ two member allowed same =>
      subst same
      exact h ch (List.mem_of_getElem? at_.found) hxname
  | moded i line event c hc k ch at_ operator change changes =>
      subst event
      have hname : ch.name = name := by
        rw [← hxname]
        cases changes <;> rfl
      have other : ¬ ((Parser.parse line).param 1 = text "+k" ∨
          (Parser.parse line).param 1 = text "-k") := fun mode =>
        keeps _ (.intro i line c hc k ch x change at_ operator changes mode hname)
      rw [changes.key_eq other]
      exact h ch (List.mem_of_getElem? at_.found) hname

/-- The key stays while the channel exists and nobody sets another. -/
theorem Machine.HasKey.run {events : List Event} {t : Machine} (invariant : Invariant s)
    (h : s.HasKey name key) (hrun : Transition.run step s events = some t)
    (alive : ∀ u, Visits step s events u → Exists u name)
    (keeps : ∀ a e b new, Takes step s events a e b → ¬ SetsKey name a e new) : t.HasKey name key := by
  obtain ⟨x, hlast, hx⟩ := run_lastWrite (I := fun u => Invariant u ∧ Exists u name)
    (V := Machine.HasKey name) (fun _ _ _ _ hu _ hstep sets => SetsKey.hasKey hu.1 hstep sets)
    (fun _ _ _ _ hu _ hstep keeps h => Machine.HasKey.kept hu.1 hu.2 hstep keeps h) h hrun
    (fun u hu => ⟨invariant.visits hu, alive u hu⟩)
  rcases hlast with ⟨rfl, _⟩ | ⟨before, e, after, a, b, rfl, hbefore, hstep, hwrites, _⟩
  · exact hx
  · exact absurd hwrites (keeps a e b x ⟨before, after, rfl, hbefore, hstep⟩)

end Step

/-! ## `+k` -/

section Lock

variable {s s' : Machine} {i k : Nat} {c d : Client} {line : Bytes} {ch : Channel}

theorem lockedReply_of_key (outside : d.fd ∉ ch.memberFds) (registered : d.registered = true)
    {params : List Bytes} (locked : ch.key ≠ []) (wrong : params[1]? ≠ some ch.key) :
    replyCmd (joinError ch d params) d ch.name = lockedReply d ch := by
  rw [lockedReply, if_neg (by rw [registered]; decide), joinError, if_neg outside]
  by_cases hinvite : ch.inviteOnly = true ∧ d.fd ∉ ch.invitedFds
  · rw [if_pos hinvite, if_pos hinvite]
  · rw [if_neg hinvite, if_neg hinvite, if_pos ⟨locked, wrong⟩]

theorem keyEnforced_of_hasKey {name key : Bytes} (h : Reachable s) (present : Exists s name)
    (hkey : s.HasKey name key) (hne : key ≠ []) : KeyEnforced s name key := by
  constructor
  case locked =>
    obtain ⟨ch, hch, hname⟩ := present
    refine ⟨ch, hch, hname, ?_⟩
    simp [Channel.hasKey, hkey ch hch hname, hne]
  case refuses =>
    intro events t hrun alive keeps ch hch hname j d line t' hd outside command hparam wrong hstep
    have hstill := hkey.run h.invariant hrun alive keeps ch hch hname
    cases hreg : d.registered with
    | false =>
        rw [lockedReply, if_pos hreg]
        exact join_unregistered hd hreg command hstep
    | true =>
        have hwrong : (Parser.parse line).params[1]? ≠ some ch.key := by
          intro hright
          obtain ⟨htwo, hright⟩ := param_one_iff.mp hright
          rcases wrong with hshort | hother
          · omega
          · exact hother (hright.trans hstill)
        have hlocked : ch.key ≠ [] := fun hempty => hne (hstill.symm.trans hempty)
        have hrefused : ¬ MayJoin ch d (Parser.parse line).params := fun may =>
          may.key.elim hlocked hwrong
        rw [← lockedReply_of_key outside hreg hlocked hwrong]
        exact join_refused (h.run hrun) hd hch hreg command (hparam.trans hname.symm) hrefused hstep

/-- `+k` of an operator is announced to the members, and its key is enforced exactly if it is not
empty. -/
theorem keyEnforced_iff_nonempty (h : Reachable s) (hc : s.clients[i]? = some c)
    (at_ : Addresses s.toServer c (Parser.parse line) "MODE" k ch)
    (operator : c.fd ∈ ch.operatorFds) (plus : (Parser.parse line).param 1 = text "+k")
    (three : 3 ≤ (Parser.parse line).params.length) (hstep : step s (.command i line) = some s') :
    (∀ d ∈ s.clients, d.fd ∈ ch.memberFds → messagesTo d.fd (added s s') =
      [modeMessage c ch.name (text "+k " ++ (Parser.parse line).param 2)]) ∧
    (KeyEnforced s' ch.name ((Parser.parse line).param 2) ↔ (Parser.parse line).param 2 ≠ []) := by
  have changes : ModeChange (Parser.parse line) ch _ _ := .key plus three
  have announces := Announces.mode k ch _ _ at_ operator changes
  obtain ⟨hchannels, delivery⟩ := announces.delivery h.invariant hc hstep
  have hkey : s'.HasKey ch.name ((Parser.parse line).param 2) :=
    SetsKey.hasKey h.invariant hstep (.intro i line c hc k ch _ _ at_ operator changes (.inl plus) rfl)
  refine ⟨fun d hd member => ?_, fun enforced hempty => ?_, fun hne => ?_⟩
  · rw [delivery.queued d hd, if_pos member]
    simp
  · obtain ⟨x, hx, hname, hlocked⟩ := enforced.locked
    rw [Channel.hasKey, hkey x hx hname, hempty] at hlocked
    cases hlocked
  · have hk : k < s.channels.length := (List.getElem?_eq_some_iff.mp at_.found).choose
    have present : Exists s' ch.name :=
      ⟨{ ch with key := (Parser.parse line).param 2 }, by rw [hchannels]; exact List.mem_set hk _, rfl⟩
    exact keyEnforced_of_hasKey (h.step hstep) present hkey hne

end Lock

/-- The founder of a channel locks it. -/
theorem keyEnforced_iff_nonempty_sample :
    KeyEnforced (stateAfter (sampleRun ++ [.command 0 (text "MODE #42 +k sesame")])) (text "#42")
      (text "sesame") := by
  have hc : (stateAfter sampleRun).clients[0]? = some ((stateAfter sampleRun).clientAt 0) :=
    clientAt_table (by decide)
  have hch : (stateAfter sampleRun).channels[0]? = some ((stateAfter sampleRun).channelAt 0) := by
    decide
  have hstep := step_stateAfter sampleRun (.command 0 (text "MODE #42 +k sesame")) (by decide)
  exact (keyEnforced_iff_nonempty (stateAfter_reachable sampleRun) hc
    ⟨by decide, by decide, hch, by decide⟩ (by decide) (by decide) (by decide) hstep).2.mpr (by decide)

/-- `MODE #42 +k :` announces a key, and the channel has none. -/
theorem not_keyEnforced_empty : ¬ ∀ (s s' : Machine) (i k : Nat) (c : Client) (ch : Channel)
    (line : Bytes), Reachable s → s.clients[i]? = some c →
    Addresses s.toServer c (Parser.parse line) "MODE" k ch → c.fd ∈ ch.operatorFds →
    (Parser.parse line).param 1 = text "+k" → 3 ≤ (Parser.parse line).params.length →
    step s (.command i line) = some s' →
    KeyEnforced s' ch.name ((Parser.parse line).param 2) := by
  intro h
  have hc : (stateAfter sampleRun).clients[0]? = some ((stateAfter sampleRun).clientAt 0) :=
    clientAt_table (by decide)
  have hch : (stateAfter sampleRun).channels[0]? = some ((stateAfter sampleRun).channelAt 0) := by
    decide
  have hstep := step_stateAfter sampleRun (.command 0 (text "MODE #42 +k :")) (by decide)
  have henforced := h _ _ 0 0 _ _ _ (stateAfter_reachable sampleRun) hc
    ⟨by decide, by decide, hch, by decide⟩ (by decide) (by decide) (by decide) hstep
  obtain ⟨x, hx, _, hlocked⟩ := henforced.locked
  have hopen : ∀ x ∈ (stateAfter (sampleRun ++ [.command 0 (text "MODE #42 +k :")])).channels,
      x.hasKey = false := by decide
  rw [hopen x hx] at hlocked
  cases hlocked

end IrcServer
