import IrcServer.Proof.Authority

/-! # Channel names on the command line

The parser splits at spaces and tabs, and `validChannelName` forbids spaces. A tab
can enter a name through the trailing parameter of JOIN, which is not split; such a
channel cannot be named by a middle parameter. Every other channel can.
-/

namespace IrcServer

open Search Machine Transition
open IrcServer.Parser

/-- The name is read back as one parameter wherever it is written as one. -/
structure Addressable (name : Bytes) : Prop where
  privmsg : ∀ body, LF ∉ body →
    (parse (text "PRIVMSG " ++ name ++ text " :" ++ body)).params = [name, body]
  middle : ∀ cmd ∈ [text "KICK", text "MODE", text "TOPIC"], ∀ ws, (∀ w ∈ ws, IsWord w) →
    ∀ rest, Delimited rest →
      (parse (cmd ++ space :: (ws.flatMap (· ++ [space]) ++ (name ++ rest)))).params =
        ws ++ name :: paramsFrom none rest

structure Addressed (s : Machine) (ch : Channel) : Prop where
  addressable : Addressable ch.name
  selected : ∃ k, s.channels[k]? = some ch ∧
    lastMatch (named ch.name) s.channels = some k ∧
    s.channels.findIdx? (named ch.name) = some k
  others : ∀ cmd ∈ [text "PRIVMSG", text "KICK", text "MODE", text "TOPIC"], ∀ rest i s',
    Delimited rest → step s (.command i (cmd ++ space :: (ch.name ++ rest))) = some s' →
      s'.channels.filter (·.name ≠ ch.name) = s.channels.filter (·.name ≠ ch.name)

inductive Founds (s : Machine) (name : Bytes) : Event → Prop
  | intro (i : Nat) (line : Bytes) (c : Client) (hc : s.clients[i]? = some c)
      (registered : c.registered = true) (command : (parse line).command = text "JOIN")
      (names : (parse line).param 0 = name) (valid : validChannelName name = true)
      (fresh : ∀ ch ∈ s.channels, ch.name ≠ name) :
      Founds s name (.command i line)

def FoundsTabbed (s : Machine) (e : Event) : Prop := ∃ name, Founds s name e ∧ tab ∈ name

/-! ## Names as words -/

theorem validChannelName_bytes {name : Bytes} (valid : validChannelName name = true) :
    name.head? = some hash ∧ space ∉ name ∧ LF ∉ name := by
  cases name with
  | nil => cases valid
  | cons first rest =>
      simp only [validChannelName, Bool.and_eq_true, List.all_eq_true, beq_iff_eq] at valid
      obtain ⟨⟨_, rfl⟩, hrest⟩ := valid
      have hspace : space ∉ rest := fun h => by simpa using hrest space h
      have hlf : LF ∉ rest := fun h => by simpa using hrest LF h
      refine ⟨rfl, List.not_mem_cons_of_ne_of_not_mem ?_ hspace,
        List.not_mem_cons_of_ne_of_not_mem ?_ hlf⟩ <;> decide

theorem isWord_of_prefix {name w rest : Bytes} (valid : validChannelName name = true)
    (heq : name = w ++ rest) (hw : w ≠ []) (htab : tab ∉ w) : IsWord w := by
  obtain ⟨hhead, hspace, _⟩ := validChannelName_bytes valid
  refine ⟨hw, fun c hc => ?_, ?_⟩
  · have hne : c ≠ space := fun h => hspace (heq ▸ List.mem_append_left _ (h ▸ hc))
    have hne' : c ≠ tab := fun h => htab (h ▸ hc)
    simp [isBlank, hne, hne']
  · rw [heq, List.head?_append_of_ne_nil _ hw] at hhead
    rw [hhead]
    decide

/-- A channel name is a word unless there is a tab in it. -/
theorem isWord_channelName {name : Bytes} (valid : validChannelName name = true)
    (htab : tab ∉ name) : IsWord name := by
  have hne : name ≠ [] := by
    rintro rfl
    cases valid
  exact isWord_of_prefix valid (List.append_nil name).symm hne htab

theorem isWord_of_all {cmd : Bytes} (hne : cmd ≠ []) (h : cmd.all (fun c => !isBlank c) = true)
    (hcolon : cmd.head? ≠ some colon) : IsWord cmd := by
  refine ⟨hne, fun c hc => ?_, hcolon⟩
  have hblank := List.all_eq_true.mp h c hc
  simpa using hblank

theorem isWord_literals : ∀ cmd ∈ [text "PRIVMSG", text "KICK", text "MODE", text "TOPIC"],
    IsWord cmd := by
  intro cmd hcmd
  simp only [List.mem_cons, List.not_mem_nil, or_false] at hcmd
  rcases hcmd with rfl | rfl | rfl | rfl
  · exact isWord_of_all (by decide) (by decide) (by decide)
  · exact isWord_of_all (by decide) (by decide) (by decide)
  · exact isWord_of_all (by decide) (by decide) (by decide)
  · exact isWord_of_all (by decide) (by decide) (by decide)

theorem params_command {cmd : Bytes} (h : IsWord cmd) (rest : Bytes) :
    (parse (cmd ++ space :: rest)).params = paramsFrom none rest := by
  rw [parse_command h]

theorem addressable_of_no_tab {name : Bytes} (valid : validChannelName name = true)
    (htab : tab ∉ name) : Addressable name := by
  have hname := isWord_channelName valid htab
  constructor
  · intro body _
    have hline : text "PRIVMSG " ++ name ++ text " :" ++ body =
        text "PRIVMSG" ++ space :: (name ++ space :: colon :: body) := by
      simp [show text "PRIVMSG " = text "PRIVMSG" ++ [space] from by decide,
        show text " :" = [space, colon] from by decide]
    rw [hline, params_command (isWord_literals _ (by decide)),
      paramsFrom_word hname (delimited_space _), paramsFrom_none_space, paramsFrom_trailing]
  · intro cmd hcmd ws hws rest hrest
    rw [params_command (isWord_literals _ (List.mem_cons_of_mem _ hcmd)), paramsFrom_words hws,
      paramsFrom_word hname hrest]

/-- The first parameter ends at the tab. -/
theorem paramsFrom_tabbed {name : Bytes} (valid : validChannelName name = true) (htab : tab ∈ name)
    (more : Bytes) : ∃ w ws, paramsFrom none (name ++ more) = w :: ws ∧ w ≠ name := by
  obtain ⟨w, rest, heq, hw⟩ := List.eq_append_cons_of_mem htab
  have hne : w ≠ [] := by
    rintro rfl
    have hhead := (validChannelName_bytes valid).1
    rw [heq] at hhead
    cases hhead
  have hword : IsWord w := isWord_of_prefix valid heq hne hw
  have hdelimited : Delimited (tab :: (rest ++ more)) := by
    intro c hc
    obtain rfl := Option.some.inj hc
    rfl
  refine ⟨w, paramsFrom none (tab :: (rest ++ more)), ?_, fun hshort => ?_⟩
  · rw [heq, List.append_assoc, List.cons_append, paramsFrom_word hword hdelimited]
  · have hlength := congrArg List.length (hshort.trans heq)
    simp at hlength

theorem not_addressable_of_tab {name : Bytes} (valid : validChannelName name = true)
    (htab : tab ∈ name) : ¬ Addressable name := by
  intro h
  have hline : text "PRIVMSG " ++ name ++ text " :" ++ [] =
      text "PRIVMSG" ++ space :: (name ++ text " :") := by
    simp [show text "PRIVMSG " = text "PRIVMSG" ++ [space] from by decide]
  have hparams := h.privmsg [] List.not_mem_nil
  obtain ⟨w, ws, hread, hne⟩ := paramsFrom_tabbed valid htab (text " :")
  rw [hline, params_command (isWord_literals _ (by decide)), hread] at hparams
  exact hne (List.cons.inj hparams).1

/-! ## Channels -/

theorem Table.selected {s : Machine} (table : Table s.toServer) {ch : Channel}
    (hch : ch ∈ s.channels) :
    ∃ k, s.channels[k]? = some ch ∧ lastMatch (named ch.name) s.channels = some k ∧
      s.channels.findIdx? (named ch.name) = some k := by
  obtain ⟨k, hk⟩ := List.mem_iff_getElem?.mp hch
  have hone : AtMostOne (named ch.name) s.channels := atMostOne_of_nodup table.names ch.name
  exact ⟨k, hk, hone.lastMatch_eq hk (by simp [named]), hone.findIdx?_eq hk (by simp [named])⟩

theorem Table.addressed_iff {s : Machine} (table : Table s.toServer) {ch : Channel}
    (hch : ch ∈ s.channels) : Addressed s ch ↔ tab ∉ ch.name := by
  have valid := (table.consistent ch hch).valid
  constructor
  · intro h htab
    exact not_addressable_of_tab valid htab h.addressable
  · intro htab
    refine ⟨addressable_of_no_tab valid htab, table.selected hch, ?_⟩
    intro cmd hcmd rest i s' hrest hstep
    have hname := isWord_channelName valid htab
    have hchannel : (parse (cmd ++ space :: (ch.name ++ rest))).channelName = ch.name := by
      have hcommand : ∀ cmd ∈ [text "PRIVMSG", text "KICK", text "MODE", text "TOPIC"],
          cmd.map toUpper ≠ text "INVITE" := by decide
      rw [parse_command (isWord_literals cmd hcmd), Message.channelName, Message.command,
        if_neg (hcommand cmd hcmd), Message.param, paramsFrom_word hname hrest]
      rfl
    cases step_stepped table hstep with
    | dispatched _ c hc =>
        have hother := (dispatched_tableChange table hc hstep).other
        rwa [hchannel] at hother

/-- Names enter the channel table through a founding JOIN only. -/
theorem Stepped.name_founded {s s' : Machine} {e : Event} (h : Stepped s e s') {ch' : Channel}
    (hch' : ch' ∈ s'.channels) : (∃ ch ∈ s.channels, ch.name = ch'.name) ∨ Founds s ch'.name e := by
  cases h.channel_origin hch' with
  | kept hch => exact Or.inl ⟨ch', hch, rfl⟩
  | left i c event hc ch hch same =>
      subst same
      exact Or.inl ⟨ch, hch, rfl⟩
  | founded i line event c hc registered command valid fresh same =>
      subst event same
      exact Or.inr (.intro i line c hc registered command rfl valid fresh)
  | changed i line event clean c hc registered k ch found name change =>
      exact Or.inl ⟨ch, List.mem_of_getElem? found, change.name_eq.symm⟩

theorem Founds.founded {s s' : Machine} (table : Table s.toServer) {e : Event} {name : Bytes}
    (h : Founds s name e) (hstep : step s e = some s') : ∃ ch ∈ s'.channels, ch.name = name := by
  obtain ⟨i, line, c, hc, registered, command, rfl, valid, fresh⟩ := h
  have hjoin := joinHandler_founds (s := s.record (.line c.fd line)) hc table.clients_nodup
    registered valid fresh
  rw [(step_command hc hstep).2, dispatchCommand_join command, hjoin, settle_channels]
  exact ⟨_, List.mem_append_right _ List.mem_cons_self, rfl⟩

theorem Table.untabbed_step {s s' : Machine} {e : Event} (table : Table s.toServer)
    (h : ∀ ch ∈ s.channels, tab ∉ ch.name) (hstep : IrcServer.step s e = some s') :
    (∀ ch ∈ s'.channels, tab ∉ ch.name) ↔ ¬ FoundsTabbed s e := by
  constructor
  · rintro huntabbed ⟨name, hfounds, htab⟩
    obtain ⟨ch, hch, rfl⟩ := hfounds.founded table hstep
    exact huntabbed ch hch htab
  · intro hnot ch' hch' htab
    rcases (step_stepped table hstep).name_founded hch' with ⟨ch, hch, hname⟩ | hfounds
    · exact h ch hch (hname ▸ htab)
    · exact hnot ⟨ch'.name, hfounds, htab⟩

/-- In a run every channel can always be addressed by its name exactly if no channel whose name
contains a tab is founded. -/
theorem addressed_iff_not_tabbed {fd : Int} {passwd : Bytes} {events : List Event} {s : Machine}
    (hrun : run step (Machine.start fd passwd) events = some s) :
    (∀ u, Visits step (Machine.start fd passwd) events u → ∀ ch ∈ u.channels, Addressed u ch) ↔
      ∀ a e b, Takes step (Machine.start fd passwd) events a e b → ¬ FoundsTabbed a e := by
  have huntabbed := forall_visits_iff (I := fun u : Machine => Table u.toServer)
    (P := fun u : Machine => ∀ ch ∈ u.channels, tab ∉ ch.name)
    (fun _ _ _ table hstep => table.step hstep)
    (fun _ _ _ table h hstep => table.untabbed_step h hstep)
    (start_table fd passwd) (fun _ hch => absurd hch List.not_mem_nil) hrun
  rw [← huntabbed]
  refine forall_congr' fun u => forall_congr' fun hvisit => ?_
  have table : Table u.toServer :=
    hvisit.invariant (P := fun u : Machine => Table u.toServer)
      (fun _ _ _ table hstep => table.step hstep) (start_table fd passwd)
  exact forall_congr' fun ch => forall_congr' fun hch => table.addressed_iff hch

def tabbedRun : List Event :=
  [.connect 4 0] ++ registration 0 "kaw" ++ [.command 0 (text "JOIN :#a\tb")]

theorem addressed_iff_not_tabbed_sample :
    ∃ s, run step (Machine.start 3 (text "pw")) sampleRun = some s ∧
      ((∀ u, Visits step (Machine.start 3 (text "pw")) sampleRun u →
          ∀ ch ∈ u.channels, Addressed u ch) ↔
        ∀ a e b, Takes step (Machine.start 3 (text "pw")) sampleRun a e b →
          ¬ FoundsTabbed a e) := by
  have hrun : (run step (Machine.start 3 (text "pw")) sampleRun).isSome = true := by decide
  obtain ⟨s, hs⟩ := Option.isSome_iff_exists.mp hrun
  exact ⟨s, hs, addressed_iff_not_tabbed hs⟩

theorem not_addressed_reachable :
    ¬ ∀ s, Reachable s → ∀ ch ∈ s.channels, Addressed s ch := by
  intro h
  have hfounded : ∃ ch ∈ (stateAfter tabbedRun).channels, ch.name = text "#a\tb" := by decide
  obtain ⟨ch, hch, hname⟩ := hfounded
  have hparams := (h _ (stateAfter_reachable tabbedRun) ch hch).addressable.privmsg (text "hi")
    (by decide)
  rw [hname] at hparams
  exact absurd hparams (by decide)

end IrcServer
