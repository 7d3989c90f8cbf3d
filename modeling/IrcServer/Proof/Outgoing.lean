import IrcServer.Spec.Wire
import IrcServer.Proof.Clients

/-! # Outgoing framing

Every message a handler queues is one line, with one exception: the reply to a NICK
of a registered client has no terminator. So the stream to every client splits into
the messages queued exactly in the runs without such a NICK.
-/

namespace IrcServer

open Search Machine Transition Framing

/-- The messages are read back from their concatenation by the rule the server itself reads
lines with. -/
def ReadBack (messages : List Bytes) : Prop :=
  ∃ bodies, messages = bodies.map (· ++ crlf) ∧
    (split LF messages.flatten).1.map dropCR = bodies ∧ (split LF messages.flatten).2 = []

structure Outgoing (s : Machine) : Prop where
  framed : ∀ fd m, .queued fd m ∈ s.history → Framed m
  readBack : ∀ c ∈ s.clients, ReadBack (queuedTo c.fd s)

/-- A NICK of a registered client that is accepted. -/
inductive Renames (s : Machine) : Event → Prop
  | intro (i : Nat) (line : Bytes) (c : Client) (hc : s.clients[i]? = some c)
      (registered : c.registered = true)
      (command : (Parser.parse line).command = text "NICK")
      (valid : checkNickValid ((Parser.parse line).param 0) = true)
      (unused : ∀ d ∈ s.clients, d.nickname = (Parser.parse line).param 0 → d.fd = c.fd) :
      Renames s (.command i line)

/-! ## Bytes of a nickname -/

theorem checkNickValid_all {nick : Bytes} (valid : checkNickValid nick = true) :
    ∀ c ∈ nick, (isAlnum c || checkSpecailChar c || c == hyphen) = true := by
  cases nick with
  | nil => cases valid
  | cons first rest =>
      simp only [checkNickValid, Bool.and_eq_true, List.all_eq_true] at valid
      obtain ⟨⟨hfirst, _⟩, hrest⟩ := valid
      rintro c (_ | ⟨_, hc⟩)
      · rcases Bool.or_eq_true_iff.mp hfirst with h | h
        · simp [isAlnum, h]
        · simp [h]
      · exact hrest c hc

theorem checkNickValid_bytes {nick : Bytes} (valid : checkNickValid nick = true) :
    LF ∉ nick ∧ space ∉ nick ∧ tab ∉ nick ∧ colon ∉ nick := by
  have hall := checkNickValid_all valid
  refine ⟨fun h => ?_, fun h => ?_, fun h => ?_, fun h => ?_⟩
  · exact absurd (hall LF h) (by decide)
  · exact absurd (hall space h) (by decide)
  · exact absurd (hall tab h) (by decide)
  · exact absurd (hall colon h) (by decide)

theorem Client.Sound.nickname_bytes {c : Client} (h : c.Sound) :
    LF ∉ c.nickname ∧ space ∉ c.nickname := by
  by_cases hne : c.nickname = []
  · rw [hne]
    exact ⟨List.not_mem_nil, List.not_mem_nil⟩
  · exact ⟨(checkNickValid_bytes (h.valid hne)).1, (checkNickValid_bytes (h.valid hne)).2.1⟩

/-! ## What is queued -/

theorem foldl_clean {α : Type} {f : Bytes → α → Bytes} {xs : List α}
    (h : ∀ names, ∀ x ∈ xs, LF ∉ names → LF ∉ f names x) {names : Bytes} (hnames : LF ∉ names) :
    LF ∉ xs.foldl f names := by
  induction xs generalizing names with
  | nil => exact hnames
  | cons x xs ih =>
      exact ih (fun names y hy => h names y (List.mem_cons_of_mem x hy))
        (h names x List.mem_cons_self hnames)

theorem joinNames_clean {clients : List Client} (h : ∀ c ∈ clients, LF ∉ c.nickname)
    (ch : Channel) : LF ∉ joinNames ch clients := by
  have hblank : LF ∉ text " " := by decide
  have hat : LF ∉ text "@" := by decide
  refine foldl_clean (fun names member _ hnames => ?_) List.not_mem_nil
  refine foldl_clean (fun names c hc hnames => ?_) hnames
  have hnick := h c hc
  split
  · simp only [List.mem_append, not_or]
    refine ⟨⟨?_, ?_⟩, hnick⟩
    · split
      · exact hnames
      · simp [hnames, hblank]
    · split
      · exact hat
      · exact List.not_mem_nil
  · exact hnames

theorem replyCmd_framed {c : Client} (hnick : LF ∉ c.nickname) {code : Nat} {cmd : Bytes}
    (known : replyCmd code c cmd ≠ []) (hcmd : LF ∉ cmd) : Framed (replyCmd code c cmd) := by
  obtain ⟨hcode, rest, heq, hclean⟩ := replyCmd_eq c cmd known
  rw [heq]
  exact wireLine_framed (by decide) (codeText_clean hcode).1 (hclean hnick hcmd)

theorem Refusal.framed {c : Client} {m : Bytes} (refusal : Refusal c m) (hnick : LF ∉ c.nickname) :
    Framed m := by
  cases refusal with
  | numeric code cmd error known clean => exact replyCmd_framed hnick known clean
  | lastKick =>
      rw [kickNotice_eq]
      exact wireLine_framed (by decide) (by decide)
        (by simp [hnick, show LF ∉ text " :You cannot kick the last channel operator" from by decide])
  | lastMode =>
      rw [modeNotice_eq]
      exact wireLine_framed (by decide) (by decide)
        (by simp [hnick, show LF ∉ text " :You cannot remove the last channel operator" from
          by decide])

/-! ## One line -/

section Line

variable {s : Server} {i : Nat} {c : Client} {message : Message} {c' : Client}
  {channels : List Channel} {sends : List (Nat × Bytes)}

def renameReply (nick : Bytes) : Bytes := text "NICK :" ++ nick

theorem Announces.framed {a : Announcement} (announces : Announces s c message channels a)
    (clean : message.Clean) (nicknames : ∀ d ∈ s.clients, LF ∉ d.nickname)
    (hnick : LF ∉ c.nickname) : Framed a.line ∧ ∀ reply ∈ a.replies, Framed reply := by
  constructor
  · obtain ⟨word, hword, rest, hline, hrest, _⟩ := announces.shape clean hnick
    have hclean : ∀ word ∈ eventWords, LF ∉ word := by decide
    rw [hline]
    exact wireLine_framed hnick (hclean word hword) hrest
  · intro reply hreply
    rcases announces.replies with hnone | ⟨ch, _, hname, htwo⟩
    · rw [hnone] at hreply
      cases hreply
    · have hch : LF ∉ ch.name := hname ▸ clean.param 0
      have hnames := joinNames_clean nicknames ch
      rw [htwo] at hreply
      simp only [List.mem_cons, List.not_mem_nil, or_false] at hreply
      rcases hreply with rfl | rfl
      · rw [namesReply_eq]
        refine wireLine_framed (by decide) (by decide) ?_
        simp [hnick, hch, hnames, show LF ∉ text " = " from by decide,
          show LF ∉ text " :" from by decide]
      · rw [endOfNames_eq]
        refine wireLine_framed (by decide) (by decide) ?_
        simp [hnick, hch, show LF ∉ text " " from by decide,
          show LF ∉ text " :End of /NAMES list" from by decide]

theorem topicReply_framed (hnick : LF ∉ c.nickname) {ch : Channel} (hname : LF ∉ ch.name)
    (htopic : LF ∉ ch.topic) : Framed (topicReply c ch) := by
  unfold topicReply
  split
  · exact replyCmd_framed hnick (by simp [replyCmd, crlf]) hname
  · refine ⟨text ":ircserv 332 " ++ c.nickname ++ text " " ++ ch.name ++ text " :" ++ ch.topic,
      rfl, ?_⟩
    simp [hnick, hname, htopic, show LF ∉ text ":ircserv 332 " from by decide,
      show LF ∉ text " " from by decide, show LF ∉ text " :" from by decide]

theorem welcome_framed (hnick : LF ∉ c.nickname) : Framed (replyCmd 1 c []) :=
  replyCmd_framed hnick (by simp [replyCmd, crlf]) List.not_mem_nil

/-- Every call queues one line, except that a NICK of a registered client is echoed without
terminator. -/
theorem Dispatched.framed (effect : Dispatched s i c message c' channels sends)
    (clean : message.Clean) (identities : Identities s) (hc : c ∈ s.clients) :
    ∀ call ∈ sends, Framed call.2 ∨
      (call = (i, renameReply (message.param 0)) ∧ message.command = text "NICK" ∧
        c.registered = true ∧ checkNickValid (message.param 0) = true ∧
        ∀ d ∈ s.clients, d.nickname = message.param 0 → d.fd = c.fd) := by
  have sound := identities.sound c hc
  have hnick := sound.nickname_bytes.1
  have nicknames : ∀ d ∈ s.clients, LF ∉ d.nickname := fun d hd =>
    (identities.sound d hd).nickname_bytes.1
  intro call hcall
  cases effect with
  | silent => cases hcall
  | passed => cases hcall
  | refused m refusal =>
      obtain rfl := List.mem_singleton.mp hcall
      exact Or.inl (refusal.framed hnick)
  | answered k ch at_ =>
      obtain rfl := List.mem_singleton.mp hcall
      exact Or.inl (topicReply_framed hnick (at_.name ▸ clean.param 0)
        (identities.topics ch (List.mem_of_getElem? at_.found)))
  | nick command pass valid unused =>
      obtain ⟨m, hm, rfl⟩ := List.mem_map.mp hcall
      unfold nickReplies at hm
      split at hm
      · next registered =>
          obtain rfl := List.mem_singleton.mp hm
          exact Or.inr ⟨rfl, command, registered, valid, unused⟩
      · split at hm
        · obtain rfl := List.mem_singleton.mp hm
          exact Or.inl (welcome_framed (checkNickValid_bytes valid).1)
        · cases hm
  | user command unregistered pass four =>
      obtain ⟨m, hm, rfl⟩ := List.mem_map.mp hcall
      unfold userReplies at hm
      split at hm
      · obtain rfl := List.mem_singleton.mp hm
        exact Or.inl (welcome_framed hnick)
      · cases hm
  | whispered =>
      obtain rfl := List.mem_singleton.mp hcall
      refine Or.inl ?_
      rw [privmsgMessage_eq]
      exact wireLine_framed hnick (by decide) (by
        simp [clean.param 0, clean.param 1, show LF ≠ space from by decide,
          show LF ≠ colon from by decide])
  | invited command registered two k ch found name =>
      have hname : LF ∉ ch.name := name ▸ clean.param 1
      simp only [List.mem_cons, List.not_mem_nil, or_false] at hcall
      rcases hcall with rfl | rfl
      · refine Or.inl ?_
        rw [inviteMessage_eq]
        exact wireLine_framed hnick (by decide) (by
          simp [clean.param 0, hname, show LF ≠ space from by decide,
            show LF ≠ colon from by decide])
      · have known : replyCmd 341 c (message.param 0 ++ text " " ++ ch.name) ≠ [] := by
          simp [replyCmd, crlf]
        exact Or.inl (replyCmd_framed hnick known (clean_pair (clean.param 0) hname))
  | announced channels a announces =>
      obtain ⟨hline, hreplies⟩ := announces.framed clean nicknames hnick
      rcases List.mem_append.mp hcall with hcall | hcall
      · obtain ⟨j, _, rfl⟩ := List.mem_map.mp hcall
        exact Or.inl hline
      · obtain ⟨reply, hreply, rfl⟩ := List.mem_map.mp hcall
        exact Or.inl (hreplies reply hreply)

theorem Framed.ne_nil {m : Bytes} (h : Framed m) : m ≠ [] := by
  obtain ⟨body, rfl, _⟩ := h
  simp [crlf]

theorem renameReply_not_framed {nick : Bytes} (valid : checkNickValid nick = true) :
    ¬ Framed (renameReply nick) := by
  rintro ⟨body, heq, _⟩
  have hlf : LF ∈ renameReply nick := by
    rw [heq]
    simp [crlf]
  have hliteral : LF ∉ text "NICK :" := by decide
  exact (List.mem_append.mp hlf).elim hliteral (checkNickValid_bytes valid).1

theorem Dispatched.nonempty (effect : Dispatched s i c message c' channels sends)
    (clean : message.Clean) (identities : Identities s) (hc : c ∈ s.clients) :
    ∀ call ∈ sends, call.2 ≠ [] := by
  intro call hcall
  rcases effect.framed clean identities hc call hcall with hframed | ⟨rfl, _⟩
  · exact hframed.ne_nil
  · exact List.append_ne_nil_of_left_ne_nil (by decide) _

end Line

/-! ## Streams -/

theorem readBack_of_framed {messages : List Bytes} (h : ∀ m ∈ messages, Framed m) :
    ReadBack messages := by
  have hbodies : ∃ bodies : List Bytes,
      messages = bodies.map (· ++ crlf) ∧ ∀ body ∈ bodies, LF ∉ body := by
    induction messages with
    | nil => exact ⟨[], rfl, fun body hbody => absurd hbody List.not_mem_nil⟩
    | cons m messages ih =>
        obtain ⟨body, rfl, hbody⟩ := h m List.mem_cons_self
        obtain ⟨bodies, rfl, hbodies⟩ := ih fun m hm => h m (List.mem_cons_of_mem _ hm)
        refine ⟨body :: bodies, rfl, fun b hb => ?_⟩
        rcases List.mem_cons.mp hb with rfl | hb
        · exact hbody
        · exact hbodies b hb
  obtain ⟨bodies, rfl, hclean⟩ := hbodies
  have hstream : (bodies.map (· ++ crlf)).flatten =
      (bodies.map (· ++ [CR])).flatMap (· ++ [LF]) := by
    simp [List.flatMap_def, crlf, Function.comp_def]
  have hsegments : ∀ segment ∈ bodies.map (· ++ [CR]), LF ∉ segment := by
    intro segment hsegment
    obtain ⟨body, hbody, rfl⟩ := List.mem_map.mp hsegment
    simp [hclean body hbody, show LF ≠ CR from by decide]
  refine ⟨bodies, rfl, ?_, ?_⟩
  · rw [hstream, split_flatMap hsegments]
    simp [dropCR, Function.comp_def]
  · rw [hstream, split_flatMap hsegments]

/-! ## Every event -/

def HistoryFramed (s : Machine) : Prop := ∀ fd m, .queued fd m ∈ s.history → Framed m

theorem outgoing_iff (s : Machine) : Outgoing s ↔ HistoryFramed s := by
  constructor
  · intro h
    exact h.framed
  · intro h
    refine ⟨h, fun c hc => readBack_of_framed fun m hm => ?_⟩
    exact h c.fd m (mem_of_mem_sinceAccepted (mem_messagesTo.mp hm))

theorem Renames.queued {s s' : Machine} {e : Event} (invariant : Invariant s) (h : Renames s e)
    (hstep : step s e = some s') : ¬ HistoryFramed s' := by
  obtain ⟨i, line, c, hc, registered, command, valid, unused⟩ := h
  have pass : c.passRecived = true := by
    have sound := invariant.identities.sound c (List.mem_of_getElem? hc)
    exact sound.nickPass (sound.registered.mp registered).1
  have hnick := nickHundler_accepts (s := s.record (.line c.fd line)) hc pass valid unused
  have hne : renameReply ((Parser.parse line).param 0) ≠ [] :=
    List.append_ne_nil_of_left_ne_nil (by decide) _
  have hreplies : nickReplies c ((Parser.parse line).param 0) =
      [renameReply ((Parser.parse line).param 0)] := by
    simp [nickReplies, registered, renameReply]
  have hfd : (c.renamed ((Parser.parse line).param 0)).fd = c.fd := rfl
  have hnonempty : ∀ call ∈ [(i, renameReply ((Parser.parse line).param 0))], call.2 ≠ [] := by
    simpa using hne
  have hhistory := settle_history (s := s.record (.line c.fd line)) hc hfd s.channels hnonempty
  intro hframed
  refine renameReply_not_framed valid (hframed c.fd _ ?_)
  rw [(step_command hc hstep).2, dispatchCommand_nick command, hnick, hreplies, List.map_singleton]
  refine hhistory ▸ List.mem_append_right _ ?_
  have hclient : (s.record (.line c.fd line)).clientAt i = c := Server.clientAt_of_getElem? hc
  simp [hclient]

theorem Stepped.historyFramed {s s' : Machine} {e : Event} (invariant : Invariant s)
    (h : Stepped s e s') (framed : HistoryFramed s) (kept : ¬ Renames s e) : HistoryFramed s' := by
  have appended : ∀ entries, (∀ fd m, .queued fd m ∈ entries → Framed m) →
      ∀ fd m, .queued fd m ∈ s.history ++ entries → Framed m := by
    intro entries hentries fd m hm
    exact (List.mem_append.mp hm).elim (framed fd m) (hentries fd m)
  cases h with
  | unconnected => exact framed
  | dropped => exact appended _ (by simp)
  | connected => exact appended _ (by simp)
  | buffered => exact framed
  | flushed i c hc send rest poll kept entries sent =>
      refine appended entries fun fd m hm => ?_
      obtain ⟨bytes, hbytes⟩ := sent _ hm
      cases hbytes
  | disconnected => exact appended _ (by simp)
  | dispatched i c hc line clean c' channels sends effect =>
      have hclean := parse_clean clean
      have hmem := List.mem_of_getElem? hc
      have hnonempty := effect.nonempty hclean invariant.identities hmem
      have hhistory := settle_history (s := s.record (.line c.fd line)) hc effect.fd_eq channels
        hnonempty
      intro fd m hm
      rw [hhistory, record, List.append_assoc] at hm
      refine appended _ (fun fd m hm => ?_) fd m hm
      rcases List.mem_append.mp hm with hm | hm
      · simp at hm
      · obtain ⟨call, hcall, heq⟩ := List.mem_map.mp hm
        cases heq
        rcases effect.framed hclean invariant.identities hmem call hcall with hframed | hrename
        · exact hframed
        · obtain ⟨_, command, registered, valid, unused⟩ := hrename
          exact absurd (.intro i line c hc registered command valid unused) kept

/-- In a run everything queued is always framed, and read back by its receiver, exactly if no
registered client changes its nickname. -/
theorem outgoing_iff_not_renamed {fd : Int} {passwd : Bytes} {events : List Event} {s : Machine}
    (hrun : run step (Machine.start fd passwd) events = some s) :
    (∀ u, Visits step (Machine.start fd passwd) events u → Outgoing u) ↔
      ∀ a e b, Takes step (Machine.start fd passwd) events a e b → ¬ Renames a e := by
  simp only [outgoing_iff]
  refine forall_visits_iff (I := Invariant) (fun _ _ _ inv hstep => inv.step hstep) ?_
    (start_invariant fd passwd) (fun _ _ hm => absurd hm List.not_mem_nil) hrun
  intro a e b invariant framed hstep
  constructor
  · intro hframed hrenames
    exact hrenames.queued invariant hstep hframed
  · intro kept
    exact (step_stepped invariant.table hstep).historyFramed invariant framed kept

def renamedRun : List Event :=
  [.connect 4 0] ++ registration 0 "kaw" ++ [.command 0 (text "NICK kaw2")]

theorem outgoing_iff_not_renamed_sample :
    ∃ s, run step (Machine.start 3 (text "pw")) sampleRun = some s ∧
      ((∀ u, Visits step (Machine.start 3 (text "pw")) sampleRun u → Outgoing u) ↔
        ∀ a e b, Takes step (Machine.start 3 (text "pw")) sampleRun a e b → ¬ Renames a e) := by
  have hrun : (run step (Machine.start 3 (text "pw")) sampleRun).isSome = true := by decide
  obtain ⟨s, hs⟩ := Option.isSome_iff_exists.mp hrun
  exact ⟨s, hs, outgoing_iff_not_renamed hs⟩

theorem not_outgoing_reachable : ¬ ∀ s, Reachable s → Outgoing s := by
  intro h
  have hqueued : .queued 4 (text "NICK :kaw2") ∈ (stateAfter renamedRun).history := by decide
  have hframed := (h _ (stateAfter_reachable renamedRun)).framed 4 _ hqueued
  exact renameReply_not_framed (by decide) hframed

end IrcServer
