import IrcServer.Proof.Settings
import IrcServer.Proof.Telling

/-! # A copy of the settings

Every change of the settings of a channel is announced to all its members. So a member
that reads its messages, and knows the settings as they were when it came in, always
knows the settings as they are.
-/

namespace IrcServer

open Search Machine Transition Framing

/-! ## Reading an event line -/

def remainder (m : Bytes) : Bytes :=
  [space].intercalate ((fields space (m.take (m.length - crlf.length))).drop 3)

/-- The settings after an announced mode change. The digits of a limit are read as the server reads
them, by `atoi`, which wraps those that are too large. -/
def Settings.alter (settings : Settings) (change : Bytes) : Settings :=
  if (text "+k ").isPrefixOf change then { settings with key := change.drop 3 }
  else if (text "+l ").isPrefixOf change then { settings with limit := atoi (change.drop 3) }
  else if change = text "+i" then { settings with inviteOnly := true }
  else if change = text "-i" then { settings with inviteOnly := false }
  else if change = text "+t" then { settings with changeTopic := true }
  else if change = text "-t" then { settings with changeTopic := false }
  else if change = text "-k" then { settings with key := [] }
  else if change = text "-l" then { settings with limit := 0 }
  else settings

/-- What a member of the channel `name` makes of a message. -/
def Settings.read (name : Bytes) (settings : Settings) (m : Bytes) : Settings :=
  if !isEventOf name m then settings
  else if verb m = text "TOPIC" then { settings with topic := (remainder m).drop 1 }
  else if verb m = text "MODE" then settings.alter (remainder m)
  else settings

theorem remainder_wireLine {source word name rest : Bytes} (hsource : space ∉ source)
    (hword : space ∉ word) (hname : space ∉ name) :
    remainder (wireLine source word (name ++ space :: rest)) = rest := by
  have hfirst : space ∉ colon :: source :=
    List.not_mem_cons_of_ne_of_not_mem (by decide) hsource
  have hbody : (wireLine source word (name ++ space :: rest)).take
      ((wireLine source word (name ++ space :: rest)).length - crlf.length) =
        (colon :: source) ++ space :: (word ++ space :: (name ++ space :: rest)) := by
    rw [wireLine, List.length_append, Nat.add_sub_cancel, List.take_left]
    simp
  rw [remainder, hbody, fields_segment hfirst, fields_segment hword, fields_segment hname]
  exact intercalate_fields space rest

section Changes

variable (settings : Settings)

theorem alter_key (arg : Bytes) :
    settings.alter (text "+k " ++ arg) = { settings with key := arg } := rfl

theorem alter_limit (arg : Bytes) :
    settings.alter (text "+l " ++ arg) = { settings with limit := atoi arg } := rfl

theorem alter_operator (arg : Bytes) :
    settings.alter (text "+o" ++ text " " ++ arg) = settings ∧
      settings.alter (text "-o" ++ text " " ++ arg) = settings := ⟨rfl, rfl⟩

end Changes

theorem ModeChange.alter {message : Message} {ch ch' : Channel} {change : Bytes}
    (changes : ModeChange message ch ch' change) : ch'.settings = ch.settings.alter change := by
  cases changes with
  | inviteOnly h =>
      rcases h with h | h
      · rw [h]
        rfl
      · rw [h]
        rfl
  | changeTopic h =>
      rcases h with h | h
      · rw [h]
        rfl
      · rw [h]
        rfl
  | key => rw [alter_key]; rfl
  | noKey => rfl
  | limit => rw [alter_limit]; rfl
  | noLimit => rfl

/-! ## Reading an announcement -/

section Reading

variable {name m : Bytes} (settings : Settings)

theorem read_event (h : isEventOf name m = true) :
    settings.read name m =
      if verb m = text "TOPIC" then { settings with topic := (remainder m).drop 1 }
      else if verb m = text "MODE" then settings.alter (remainder m)
      else settings := by
  rw [Settings.read, h]
  rfl

theorem read_unset (htopic : verb m ≠ text "TOPIC") (hmode : verb m ≠ text "MODE") :
    settings.read name m = settings := by
  rw [Settings.read, if_neg htopic, if_neg hmode, ite_self]

theorem foldl_read_filter (messages : List Bytes) :
    messages.foldl (Settings.read name) settings =
      (messages.filter (isEventOf name)).foldl (Settings.read name) settings := by
  induction messages generalizing settings with
  | nil => rfl
  | cons m messages ih =>
      cases hm : isEventOf name m with
      | true => rw [List.filter_cons_of_pos hm, List.foldl_cons, List.foldl_cons, ih]
      | false =>
          have hread : settings.read name m = settings := by
            rw [Settings.read, hm]
            rfl
          rw [List.filter_cons_of_neg (by simp [hm]), List.foldl_cons, hread, ih]

variable {c : Client} (sound : c.Sound) (hname : space ∉ name)

include sound

theorem verb_sent {word : Bytes} (hword : space ∉ word) (rest : Bytes) :
    verb (wireLine c.nickname word rest) = word :=
  verb_wireLine sound.nickname_bytes.2 hword

theorem read_announced {word : Bytes} (hword : space ∉ word) (rest : Bytes)
    (htopic : word ≠ text "TOPIC") (hmode : word ≠ text "MODE") :
    settings.read name (wireLine c.nickname word rest) = settings := by
  apply read_unset
  · rwa [verb_sent sound hword]
  · rwa [verb_sent sound hword]

include hname

theorem read_topic {topic : Bytes} (h : isEventOf name (topicMessage c name topic) = true) :
    settings.read name (topicMessage c name topic) = { settings with topic := topic } := by
  have hword : space ∉ text "TOPIC" := by decide
  have hremainder : remainder (topicMessage c name topic) = colon :: topic := by
    rw [topicMessage_eq, remainder_wireLine sound.nickname_bytes.2 hword hname]
  rw [read_event settings h, hremainder, topicMessage_eq, verb_sent sound hword, if_pos rfl]
  rfl

theorem read_mode {change : Bytes} (h : isEventOf name (modeMessage c name change) = true) :
    settings.read name (modeMessage c name change) = settings.alter change := by
  have hword : space ∉ text "MODE" := by decide
  have hremainder : remainder (modeMessage c name change) = change := by
    rw [modeMessage_eq, remainder_wireLine sound.nickname_bytes.2 hword hname]
  rw [read_event settings h, hremainder, modeMessage_eq, verb_sent sound hword,
    if_neg (by decide), if_pos rfl]

end Reading

/-! ## One step -/

section Event

variable {s s' : Machine}

/-- A member that is told of an accepted command reads the settings it leaves. -/
theorem Announces.read_line {c : Client} {message : Message} {channels : List Channel}
    {a : Announcement} (announces : Announces s.toServer c message channels a)
    (clean : message.Clean) (sound : c.Sound) (table : Table s.toServer)
    (table' : Table s'.toServer) (hchannels : s'.channels = channels) {ch ch' : Channel}
    (hch : ch ∈ s.channels) (hname : a.channel = ch.name) (hch' : ch' ∈ s'.channels)
    (hname' : ch'.name = ch.name) {fd : Int} (member : fd ∈ ch.memberFds) :
    ch'.settings =
      (if fd ∈ a.recipients then [a.line] else []).foldl (Settings.read ch.name) ch.settings := by
  have valid := (table.consistent ch hch).valid
  have hspace : space ∉ ch.name := (validChannelName_bytes valid).2.1
  have event := (announces.isEventOf_iff clean sound table valid).mpr hname
  have found : ∀ {k : Nat} {x : Channel}, s.channels[k]? = some x → x.name = ch.name → x = ch :=
    fun hx hxname => table.unique_name (List.mem_of_getElem? hx) hch hxname
  -- a line that is not about settings
  have unset : ∀ {word rest : Bytes} {told : Prop} {_ : Decidable told}, space ∉ word →
      word ≠ text "TOPIC" → word ≠ text "MODE" →
        (if told then [wireLine c.nickname word rest] else []).foldl (Settings.read ch.name)
          ch.settings = ch.settings := by
    intro word rest told _ hword htopic hmode
    split
    · exact read_announced ch.settings sound hword rest htopic hmode
    · rfl
  cases announces with
  | create command registered valid fresh => exact absurd hname.symm (fresh ch hch)
  | join k x at_ admits =>
      obtain rfl := found at_.found hname
      have hstored : ch' = x.joined c.fd := table'.stored at_.found hchannels hch' hname'
      rw [joinAnnouncement, joinMessage_eq, unset (by decide) (by decide) (by decide), hstored]
      rfl
  | privmsg k x at_ =>
      rw [privmsgMessage_eq, unset (by decide) (by decide) (by decide),
        table.unique_name (hchannels ▸ hch') hch hname']
  | topic k x at_ two sender allowed =>
      obtain rfl := found at_.found hname
      have hstored : ch' = { x with topic := message.param 1 } :=
        table'.stored at_.found hchannels hch' hname'
      have told : fd ∈ (x.memberFds.filter (· ≠ c.fd)) ++ [c.fd] := by
        by_cases hfd : fd = c.fd
        · exact List.mem_append_right _ (List.mem_singleton.mpr hfd)
        · exact List.mem_append_left _ (List.mem_filter.mpr ⟨member, decide_eq_true hfd⟩)
      rw [if_pos told, List.foldl_cons, List.foldl_nil, read_topic _ sound hspace event, hstored]
      rfl
  | kick k x at_ =>
      obtain rfl := found at_.found hname
      rw [kickMessage_eq, unset (by decide) (by decide) (by decide)]
      split at hchannels
      · rw [hchannels] at hch'
        rw [table.unique_name (List.mem_of_mem_eraseIdx hch') hch hname']
      · rw [table'.stored at_.found hchannels hch' hname']
        rfl
  | mode k x new change at_ operator changes =>
      obtain rfl := found at_.found hname
      have hstored := table'.stored at_.found hchannels hch' (hname'.trans changes.sameLists.1)
      rw [if_pos member, List.foldl_cons, List.foldl_nil, read_mode _ sound hspace event, hstored,
        changes.alter]
  | grant k x at_ =>
      obtain rfl := found at_.found hname
      have hstored := table'.stored at_.found hchannels hch' hname'
      rw [if_pos member, List.foldl_cons, List.foldl_nil, read_mode _ sound hspace event, hstored,
        (alter_operator _ _).1]
      rfl
  | revoke k x at_ operator minus three target d =>
      obtain rfl := found at_.found hname
      have hstored : ch' = x.removeOperator d.fd := table'.stored at_.found hchannels hch' hname'
      rw [if_pos member, List.foldl_cons, List.foldl_nil, read_mode _ sound hspace event, hstored,
        (alter_operator _ _).2]
      rfl

/-- What a step tells a member is what it changes. -/
theorem settings_read_step {e : Event} (invariant : Invariant s) (hstep : step s e = some s')
    {ch ch' : Channel} (hch : ch ∈ s.channels) (hch' : ch' ∈ s'.channels)
    (hname : ch'.name = ch.name) {fd : Int} (member : fd ∈ ch.memberFds) :
    ch'.settings =
      (messagesTo fd (added s s')).foldl (Settings.read ch.name) ch.settings := by
  have table := invariant.table
  have stepped := step_stepped table hstep
  have valid := (table.consistent ch hch).valid
  obtain ⟨d, hd, rfl, _⟩ := invariant.identities.members ch hch fd member
  rw [foldl_read_filter]
  -- who announces, tells this member, unless it is its own PRIVMSG
  have heard : ∀ {i c line channels a}, e = .command i line → s.clients[i]? = some c →
      Announces s.toServer c (Parser.parse line) channels a → a.channel = ch.name →
      (Parser.parse line).command ≠ text "PRIVMSG" →
        (messagesTo d.fd (added s s')).filter (isEventOf ch.name) ≠ [] := by
    intro i c line channels a he hc announces hachannel hcommand hnone
    subst he
    have delivery := (announces.delivery invariant hc hstep).2
    have told : d.fd ∈ a.recipients := (delivery.recipients d.fd).mpr
      ⟨.inl ⟨ch, hch, hachannel.symm, member⟩, fun h => hcommand h.1⟩
    have hline : a.line ∈ messagesTo d.fd (added s s') := by
      rw [delivery.queued d hd, if_pos told]
      exact List.mem_cons_self
    exact List.not_mem_nil (hnone ▸ List.mem_filter.mpr ⟨hline, hachannel ▸ delivery.event⟩)
  rcases stepped.events invariant valid with
    hnone | ⟨i, c, line, channels, a, rfl, hc, announces, hachannel, hall⟩
  · rw [hnone d hd]
    cases stepped.settings_origin hch' with
    | kept x hx hxname same => rw [same, table.unique_name hx hch (hxname.trans hname)]; rfl
    | founded i line event c hc fresh => exact absurd hname.symm (fresh ch hch)
    | titled i line event c hc k x at_ two sender allowed same =>
        refine absurd (hnone d hd) (heard event hc (.topic k x at_ two sender allowed) ?_ ?_)
        · rw [← hname, same]
        · rw [at_.command]
          decide
    | moded i line event c hc k x at_ operator change changes =>
        refine absurd (hnone d hd) (heard event hc (.mode k x ch' change at_ operator changes) ?_ ?_)
        · exact changes.sameLists.1.trans hname
        · rw [at_.command]
          decide
  · obtain ⟨clean, _⟩ := step_command hc hstep
    rw [hall d hd]
    exact announces.read_line (parse_clean clean)
      (invariant.identities.sound c (List.mem_of_getElem? hc)) table (invariant.step hstep).table
      (announces.channels_eq invariant hc hstep) hch hachannel hch' hname member

end Event

/-! ## Every run -/

section Run

variable {s t : Machine} {events : List Event} {name : Bytes} {fd : Int}

theorem run_grows (invariant : Invariant s) (hrun : run step s events = some t) :
    t.history = s.history ++ added s t := by
  have grown : ∃ entries, t.history = s.history ++ entries := by
    induction events generalizing s with
    | nil =>
        obtain rfl := Option.some.inj hrun
        exact ⟨[], (List.append_nil _).symm⟩
    | cons e events ih =>
        obtain ⟨m, hstep, hrest⟩ := run_cons_some.mp hrun
        obtain ⟨entries, hentries⟩ := ih (invariant.step hstep) hrest
        have hgrows := ((step_stepped invariant.table hstep).grows invariant).1
        exact ⟨added s m ++ entries, by rw [hentries, hgrows, List.append_assoc]⟩
  obtain ⟨entries, hentries⟩ := grown
  rw [added_eq hentries, hentries]

/-- Who is on a channel all along knows its settings at the end from those at the beginning and
from what it has been queued, if it reads the limits with the `atoi` of the server. -/
theorem settings_read (reachable : Reachable s) (hrun : run step s events = some t)
    (member : ∀ u, Visits step s events u → IsMember u name fd) {ch ch' : Channel}
    (hch : ch ∈ s.channels) (hname : ch.name = name) (hch' : ch' ∈ t.channels)
    (hname' : ch'.name = name) :
    ch'.settings = (messagesTo fd (added s t)).foldl (Settings.read name) ch.settings := by
  have invariant := reachable.invariant
  induction events generalizing s ch with
  | nil =>
      obtain rfl := Option.some.inj hrun
      rw [added, List.drop_length, invariant.table.unique_name hch hch' (hname.trans hname'.symm)]
      rfl
  | cons e events ih =>
      obtain ⟨m, hstep, hrest⟩ := run_cons_some.mp hrun
      obtain ⟨x, hx, hxname, hxfd⟩ := member s (.start s _)
      obtain rfl := invariant.table.unique_name hx hch (hxname.trans hname.symm)
      obtain ⟨y, hy, hyname, _⟩ := member m (.cons hstep (.start m events))
      have first := settings_read_step invariant hstep hx hy (hyname.trans hxname.symm) hxfd
      have rest := ih (reachable.step hstep) hrest (fun u hu => member u (.cons hstep hu)) hy hyname
        (invariant.step hstep)
      have hadded : added s t = added s m ++ added m t := by
        have hm := ((step_stepped invariant.table hstep).grows invariant).1
        have ht := run_grows (invariant.step hstep) hrest
        rw [hm, List.append_assoc] at ht
        exact added_eq ht
      rw [rest, first, hadded, messagesTo_append, List.foldl_append, hxname]

end Run

/-- The operator sets everything there is to set, and takes one restriction back. -/
def settingEvents : List Event :=
  [.command 0 (text "MODE #42 +i"), .command 0 (text "MODE #42 +t"),
    .command 0 (text "MODE #42 +k :se cret"), .command 0 (text "MODE #42 +l 12"),
    .command 0 (text "TOPIC #42 :two words"), .command 0 (text "MODE #42 -i")]

theorem settings_read_sample :
    ∃ t ch, run step (stateAfter sampleRun) settingEvents = some t ∧ ch ∈ t.channels ∧
      ch.settings = ⟨text "two words", false, true, text "se cret", 12⟩ ∧
      ch.settings = (messagesTo 5 (added (stateAfter sampleRun) t)).foldl
        (Settings.read (text "#42")) ((stateAfter sampleRun).channelAt 0).settings := by
  have hbefore : run step (Machine.start 3 (text "pw")) sampleRun = some (stateAfter sampleRun) := by
    have hrun : (run step (Machine.start 3 (text "pw")) sampleRun).isSome = true := by decide
    obtain ⟨s, hs⟩ := Option.isSome_iff_exists.mp hrun
    rw [stateAfter, hs, Option.getD_some]
  have hafter : ∀ events u, run step (stateAfter sampleRun) events = some u →
      u = stateAfter (sampleRun ++ events) := by
    intro events u hu
    rw [stateAfter, run_append_some.mpr ⟨_, hbefore, hu⟩, Option.getD_some]
  have members : ∀ n < settingEvents.length + 1,
      ∃ ch ∈ (stateAfter (sampleRun ++ settingEvents.take n)).channels, ch.name = text "#42" ∧
        5 ∈ ch.memberFds := by decide +kernel
  have hevents : (run step (stateAfter sampleRun) settingEvents).any (fun t => t.channels.any
      fun ch => decide (ch.name = text "#42" ∧ ch.topic = text "two words" ∧
        ch.inviteOnly = false ∧ ch.changeTopic = true ∧ ch.key = text "se cret" ∧
        ch.limit = 12)) = true := by decide +kernel
  obtain ⟨t, ht, hany⟩ := (Option.any_eq_true _ _).mp hevents
  obtain ⟨ch, hch, hdecide⟩ := List.any_eq_true.mp hany
  obtain ⟨hname, htopic, hinvite, hchange, hkey, hlimit⟩ := of_decide_eq_true hdecide
  have found : (stateAfter sampleRun).channels[0]? =
      some ((stateAfter sampleRun).channelAt 0) := by decide
  have member : ∀ u, Visits step (stateAfter sampleRun) settingEvents u →
      IsMember u (text "#42") 5 := by
    rintro u ⟨before, after, hsplit, hu⟩
    rw [hafter before u hu]
    have hlength : before.length < settingEvents.length + 1 := by
      rw [hsplit, List.length_append]
      omega
    have hmember := members before.length hlength
    rwa [hsplit, List.take_left] at hmember
  refine ⟨t, ch, ht, hch, ?_, settings_read (stateAfter_reachable sampleRun) ht member
    (List.mem_of_getElem? found) (by decide) hch hname⟩
  rw [Channel.settings, htopic, hinvite, hchange, hkey, hlimit]

end IrcServer
