import IrcServer.Proof.Acceptance
import IrcServer.Proof.Invitation
import IrcServer.Proof.Verbs

/-! # Delivery of channel events

An announcement reaches every recipient exactly once, because descriptors are
distinct on both sides and every member has a client. Two members of a channel
therefore hear its events in the same order.
-/

namespace IrcServer

open Search Machine Transition

/-- Every client keeps its position, and what a step queues to it is appended to its send buffer. -/
def Appends (s s' : Machine) : Prop :=
  ∀ (j : Nat) (d : Client), s.clients[j]? = some d → ∃ d', s'.clients[j]? = some d' ∧
    d'.fd = d.fd ∧ d'.sendBuffer = d.sendBuffer ++ (messagesTo d.fd (added s s')).flatten

/-- An event line of the channel `name`: one of the five verbs, and the name as its first
argument. -/
def isEventOf (name m : Bytes) : Bool :=
  decide (verb m ∈ eventWords) &&
    (decide (target m = name) || decide (target m = colon :: name ++ crlf))

def sentBy (x y : Int) (s : Machine) : Event → Bool
  | .command i line =>
      decide ((Parser.parse line).command = text "PRIVMSG") &&
        (decide ((s.clientAt i).fd = x) || decide ((s.clientAt i).fd = y))
  | _ => false

/-- The event lines of the channel `name` that a run queues to `fd`, leaving out the PRIVMSGs of
`x` and `y`. -/
def heard (name : Bytes) (x y fd : Int) : Machine → List Event → List Bytes
  | _, [] => []
  | s, e :: events =>
      match step s e with
      | none => []
      | some s' =>
          (if sentBy x y s e then [] else (messagesTo fd (added s s')).filter (isEventOf name)) ++
            heard name x y fd s' events

/-- The announcement of `a`, a command of the client `c`: its line goes once to the members before
the command and to the sender of a JOIN, but not to the sender of a PRIVMSG. -/
structure Delivery (s s' : Machine) (c : Client) (message : Message) (a : Announcement) : Prop where
  event : isEventOf a.channel a.line = true
  replies : ∀ reply ∈ a.replies, isEventOf a.channel reply = false
  recipients : ∀ fd, fd ∈ a.recipients ↔
    (IsMember s a.channel fd ∨ message.command = text "JOIN" ∧ fd = c.fd) ∧
      ¬ (message.command = text "PRIVMSG" ∧ fd = c.fd)
  queued : ∀ d ∈ s.clients, messagesTo d.fd (added s s') =
    (if d.fd ∈ a.recipients then [a.line] else []) ++ if d.fd = c.fd then a.replies else []
  appended : Appends s s'

structure Whispers (s : Server) (c : Client) (message : Message) : Prop where
  command : message.command = text "PRIVMSG"
  registered : c.registered = true
  two : 2 ≤ message.params.length
  body : message.param 1 ≠ []
  nick : (message.param 0).head? ≠ some hash
  held : ∃ d ∈ s.clients, d.nickname = message.param 0

structure ExactDelivery (s : Machine) : Prop where
  announced : ∀ i c line channels a s', s.clients[i]? = some c →
    step s (.command i line) = some s' →
    Announces s.toServer c (Parser.parse line) channels a →
      s'.channels = channels ∧ Delivery s s' c (Parser.parse line) a
  unannounced : ∀ e s' name, validChannelName name = true → step s e = some s' →
    (∀ i c line channels a, e = .command i line → s.clients[i]? = some c →
      Announces s.toServer c (Parser.parse line) channels a → a.channel ≠ name) →
      ∀ d ∈ s.clients, (messagesTo d.fd (added s s')).filter (isEventOf name) = []
  whispered : ∀ i c line s', s.clients[i]? = some c → step s (.command i line) = some s' →
    Whispers s.toServer c (Parser.parse line) →
      (∀ d ∈ s.clients, messagesTo d.fd (added s s') =
        if d.nickname = (Parser.parse line).param 0 then
          [privmsgMessage c ((Parser.parse line).param 0) ((Parser.parse line).param 1)]
        else []) ∧
      Appends s s'
  ordered : ∀ name x y events t, run step s events = some t →
    (∀ a e b, Takes step s events a e b → IsMember a name x ∧ IsMember a name y) →
      heard name x y x s events = heard name x y y s events

/-! ## Who receives -/

section Receivers

variable {s : Server} {i : Nat} {c : Client} {message : Message} {channels : List Channel}
  {a : Announcement}

/-- With distinct descriptors a delivery loop calls `sending_queue` once for each recipient. -/
theorem messagesFor_positions (table : Table s) {members : List Int} (distinct : members.Nodup)
    {j : Nat} {d : Client} (hd : s.clients[j]? = some d) (m : Bytes) :
    messagesFor j ((positions s.clients members).map (·, m)) =
      if d.fd ∈ members then [m] else [] := by
  induction members with
  | nil => rfl
  | cons fd members ih =>
      obtain ⟨hfd, hrest⟩ := List.nodup_cons.mp distinct
      have hone := atMostOne_of_nodup table.clients_nodup fd
      have hcons : positions s.clients (fd :: members) =
          (s.clients.findIdx? fun c => decide (c.fd = fd)).toList ++ positions s.clients members := by
        cases hidx : s.clients.findIdx? fun c => decide (c.fd = fd) <;> simp [positions, hidx]
      rw [hcons, List.map_append, messagesFor_append, ih hrest]
      by_cases hsame : d.fd = fd
      · have hidx := hone.findIdx?_eq hd (by simpa using hsame)
        rw [hidx, hsame]
        simp [hfd, messagesFor]
      · cases hidx : s.clients.findIdx? fun c => decide (c.fd = fd) with
        | none => simp [messagesFor, hsame]
        | some k =>
            obtain ⟨x, hx, hxfd⟩ := findIdx?_some hidx
            have hkj : k ≠ j := by
              rintro rfl
              obtain rfl := Option.some.inj (hx.symm.trans hd)
              exact hsame (by simpa using hxfd)
            simp [messagesFor, hkj, hsame]

theorem messagesFor_replies (j i : Nat) (replies : List Bytes) :
    messagesFor j (replies.map (i, ·)) = if j = i then replies else [] := by
  induction replies with
  | nil => simp [messagesFor]
  | cons reply replies ih =>
      rw [List.map_cons, ← List.singleton_append, messagesFor_append, ih]
      by_cases h : j = i
      · simp [messagesFor, h]
      · simp [messagesFor, h, Ne.symm h]

theorem Announces.recipients_nodup (announces : Announces s c message channels a)
    (table : Table s) : a.recipients.Nodup := by
  have members : ∀ {k : Nat} {ch : Channel}, s.channels[k]? = some ch → ch.memberFds.Nodup :=
    fun hk => (table.consistent _ (List.mem_of_getElem? hk)).members_nodup
  cases announces with
  | create => exact List.nodup_singleton c.fd
  | join k ch at_ admits => exact nodup_snoc (members at_.found) admits.outside
  | privmsg k ch at_ => exact (members at_.found).filter _
  | topic k ch at_ => exact nodup_snoc ((members at_.found).filter _) (by simp)
  | kick k ch at_ => exact members at_.found
  | mode k ch ch' change at_ => exact members at_.found
  | grant k ch at_ => exact members at_.found
  | revoke k ch at_ => exact members at_.found

theorem Announces.messagesFor_eq (announces : Announces s c message channels a) (table : Table s)
    {j : Nat} {d : Client} (hd : s.clients[j]? = some d) :
    messagesFor j (a.sends s.clients i) =
      (if d.fd ∈ a.recipients then [a.line] else []) ++ if j = i then a.replies else [] := by
  rw [Announcement.sends, messagesFor_append,
    messagesFor_positions table (announces.recipients_nodup table) hd, messagesFor_replies]

theorem Announces.channel_valid (announces : Announces s c message channels a) (table : Table s) :
    validChannelName a.channel = true := by
  have valid : ∀ {k : Nat} {ch : Channel}, s.channels[k]? = some ch →
      validChannelName ch.name = true :=
    fun hk => (table.consistent _ (List.mem_of_getElem? hk)).valid
  cases announces with
  | create command registered hvalid => exact hvalid
  | join k ch at_ =>
      have hvalid : validChannelName ch.name = true := valid at_.found
      exact hvalid
  | privmsg k ch at_ => exact valid at_.found
  | topic k ch at_ => exact valid at_.found
  | kick k ch at_ => exact valid at_.found
  | mode k ch ch' change at_ => exact valid at_.found
  | grant k ch at_ => exact valid at_.found
  | revoke k ch at_ => exact valid at_.found

theorem Announces.channel_eq (announces : Announces s c message channels a) :
    a.channel = message.param 0 := by
  cases announces with
  | create => rfl
  | join k ch at_ => exact at_.name
  | privmsg k ch at_ => exact at_.name
  | topic k ch at_ => exact at_.name
  | kick k ch at_ => exact at_.name
  | mode k ch ch' change at_ => exact at_.name
  | grant k ch at_ => exact at_.name
  | revoke k ch at_ => exact at_.name

/-- The recipients are the members before the command, and the sender of a JOIN; a PRIVMSG leaves
its sender out. -/
theorem Announces.recipients_iff (announces : Announces s c message channels a) (table : Table s)
    {fd : Int} : fd ∈ a.recipients ↔
      ((∃ ch ∈ s.channels, ch.name = a.channel ∧ fd ∈ ch.memberFds) ∨
        message.command = text "JOIN" ∧ fd = c.fd) ∧
      ¬ (message.command = text "PRIVMSG" ∧ fd = c.fd) := by
  have member : ∀ {k : Nat} {ch : Channel}, s.channels[k]? = some ch →
      ((∃ ch' ∈ s.channels, ch'.name = ch.name ∧ fd ∈ ch'.memberFds) ↔ fd ∈ ch.memberFds) := by
    intro k ch hk
    have hch := List.mem_of_getElem? hk
    constructor
    · rintro ⟨ch', hch', hname, hfd⟩
      exact table.unique_name hch' hch hname ▸ hfd
    · exact fun hfd => ⟨ch, hch, rfl, hfd⟩
  have hjoin : text "JOIN" ≠ text "PRIVMSG" := by decide
  cases announces with
  | create command registered valid fresh =>
      have hnone : ¬ ∃ ch ∈ s.channels, ch.name = message.param 0 ∧ fd ∈ ch.memberFds := by
        rintro ⟨ch, hch, hname, _⟩
        exact fresh ch hch hname
      simp [joinAnnouncement, Channel.founded, hnone, command, hjoin]
  | join k ch at_ =>
      simp [joinAnnouncement, Channel.joined, member at_.found, at_.command, hjoin]
  | privmsg k ch at_ =>
      simp [member at_.found, at_.command, hjoin.symm]
  | topic k ch at_ two hmember =>
      have hself : fd = c.fd → fd ∈ ch.memberFds := by
        rintro rfl
        exact hmember
      have hword : text "TOPIC" ≠ text "JOIN" ∧ text "TOPIC" ≠ text "PRIVMSG" := by decide
      simp only [member at_.found, at_.command, hword, List.mem_append, List.mem_filter,
        List.mem_singleton, decide_eq_true_eq, false_and, or_false, not_false_iff, and_true]
      constructor
      · rintro (⟨hfd, _⟩ | hfd)
        · exact hfd
        · exact hself hfd
      · intro hfd
        by_cases hc : fd = c.fd
        · exact Or.inr hc
        · exact Or.inl ⟨hfd, hc⟩
  | kick k ch at_ =>
      have hword : text "KICK" ≠ text "JOIN" ∧ text "KICK" ≠ text "PRIVMSG" := by decide
      simp [member at_.found, at_.command, hword]
  | mode k ch ch' change at_ =>
      have hword : text "MODE" ≠ text "JOIN" ∧ text "MODE" ≠ text "PRIVMSG" := by decide
      simp [member at_.found, at_.command, hword]
  | grant k ch at_ =>
      have hword : text "MODE" ≠ text "JOIN" ∧ text "MODE" ≠ text "PRIVMSG" := by decide
      simp [member at_.found, at_.command, hword]
  | revoke k ch at_ =>
      have hword : text "MODE" ≠ text "JOIN" ∧ text "MODE" ≠ text "PRIVMSG" := by decide
      simp [member at_.found, at_.command, hword]

end Receivers

/-! ## Event lines -/

theorem not_event {name m : Bytes} (h : verb m ∉ eventWords) : isEventOf name m = false := by
  simp [isEventOf, h]

theorem numeric_not_event {name m : Bytes} (h : verb m = codeText 353 ∨ verb m = codeText 366) :
    isEventOf name m = false := by
  apply not_event
  rcases h with h | h
  · rw [h]
    decide
  · rw [h]
    decide

section Events

variable {s : Server} {i : Nat} {c : Client} {message : Message} {c' : Client}
  {channels : List Channel} {sends : List (Nat × Bytes)} {a : Announcement} {name : Bytes}

/-- The line of an announcement is an event line of the announced channel and of no other. -/
theorem Announces.isEventOf_iff (announces : Announces s c message channels a)
    (clean : message.Clean) (sound : c.Sound) (table : Table s)
    (valid : validChannelName name = true) :
    isEventOf name a.line = true ↔ a.channel = name := by
  obtain ⟨hlf, hspace⟩ := sound.nickname_bytes
  obtain ⟨hhash, hname, _⟩ := validChannelName_bytes valid
  obtain ⟨hahash, haname, _⟩ := validChannelName_bytes (announces.channel_valid table)
  obtain ⟨word, hword, rest, hline, _, hrest⟩ := announces.shape clean hlf
  have hwords : ∀ word ∈ eventWords, space ∉ word := by decide
  have hverb : verb a.line ∈ eventWords := by
    rw [hline, verb_wireLine hspace (hwords word hword)]
    exact hword
  have hne : ∀ {other rest : Bytes}, other.head? = some hash → other ≠ colon :: rest := by
    rintro other rest hother rfl
    have hcolon : colon ≠ hash := by decide
    exact hcolon (Option.some.inj hother)
  simp only [isEventOf, hverb, decide_true, Bool.true_and, Bool.or_eq_true, decide_eq_true_eq]
  rcases hrest with rfl | ⟨more, rfl⟩
  · have hlast : space ∉ colon :: a.channel :=
      List.not_mem_cons_of_ne_of_not_mem (by decide) haname
    rw [hline, target_wireLine_last hspace (hwords word hword) hlast]
    constructor
    · rintro (h | h)
      · exact absurd h.symm (hne hhash)
      · exact List.append_cancel_right (List.cons.inj h).2
    · rintro rfl
      exact Or.inr rfl
  · rw [hline, target_wireLine hspace (hwords word hword) haname]
    constructor
    · rintro (h | h)
      · exact h
      · exact absurd h (hne hahash)
    · exact Or.inl

/-- A line queues event lines of a channel only by announcing an event of it. -/
theorem Dispatched.events (effect : Dispatched s i c message c' channels sends)
    (clean : message.Clean) (identities : Identities s) (hc : c ∈ s.clients) (table : Table s)
    (valid : validChannelName name = true) :
    (∀ call ∈ sends, isEventOf name call.2 = false) ∨
      ∃ a, Announces s c message channels a ∧ a.channel = name ∧
        sends = a.sends s.clients i := by
  have sound := identities.sound c hc
  cases effect.kind sound with
  | refused m refusal =>
      refine Or.inl fun call hcall => ?_
      rw [List.mem_singleton.mp hcall]
      exact not_event refusal.errorVerb.not_event
  | registers _ _ _ m welcome =>
      refine Or.inl fun call hcall => ?_
      rw [List.mem_singleton.mp hcall]
      exact not_event (by rw [welcome]; decide)
  | replies _ _ _ _ verbs => exact Or.inl fun call hcall => not_event (verbs call hcall).not_event
  | whispers j d targets nick =>
      have hparam : space ∉ message.param 0 := targets.nickname ▸
        (identities.sound d (List.mem_of_getElem? targets.found)).nickname_bytes.2
      have hother : message.param 0 ≠ colon :: name ++ crlf := by
        intro heq
        have hlf := clean.param 0
        rw [heq] at hlf
        exact hlf (List.mem_append_right _ (by decide))
      have hname : message.param 0 ≠ name := by
        intro heq
        exact nick (heq ▸ (validChannelName_bytes valid).1)
      have htarget : target (wireLine c.nickname (text "PRIVMSG")
          (message.param 0 ++ space :: colon :: message.param 1)) = message.param 0 :=
        target_wireLine sound.nickname_bytes.2 (by decide) hparam
      refine Or.inl fun call hcall => ?_
      rw [List.mem_singleton.mp hcall, privmsgMessage_eq, isEventOf, htarget,
        decide_eq_false hname, decide_eq_false hother]
      exact Bool.and_false _
  | announces _ a announces =>
      by_cases hname : a.channel = name
      · exact Or.inr ⟨a, announces, hname, rfl⟩
      · refine Or.inl fun call hcall => ?_
        rcases List.mem_append.mp hcall with hcall | hcall
        · obtain ⟨j, _, rfl⟩ := List.mem_map.mp hcall
          have hiff := announces.isEventOf_iff clean sound table valid
          exact Bool.eq_false_iff.mpr fun h => hname (hiff.mp h)
        · obtain ⟨reply, hreply, rfl⟩ := List.mem_map.mp hcall
          exact numeric_not_event ((announces.verb_mem clean sound).2 reply hreply)

theorem Announces.events_for (announces : Announces s c message channels a)
    (clean : message.Clean) (sound : c.Sound) (table : Table s) {j : Nat} {d : Client}
    (hd : s.clients[j]? = some d) :
    (messagesFor j (a.sends s.clients i)).filter (isEventOf a.channel) =
      if d.fd ∈ a.recipients then [a.line] else [] := by
  have hline := (announces.isEventOf_iff clean sound table (announces.channel_valid table)).mpr rfl
  have hreplies : a.replies.filter (isEventOf a.channel) = [] := by
    rw [List.filter_eq_nil_iff]
    intro reply hreply
    rw [numeric_not_event ((announces.verb_mem clean sound).2 reply hreply)]
    exact Bool.false_ne_true
  rw [announces.messagesFor_eq table hd, List.filter_append]
  have htail : (if j = i then a.replies else []).filter (isEventOf a.channel) = [] := by
    split
    · exact hreplies
    · rfl
  rw [htail, List.append_nil]
  split
  · simp [hline]
  · rfl

end Events

/-! ## One step -/

section Event

variable {s s' : Machine} {e : Event} {name : Bytes}

theorem IsMember.client (invariant : Invariant s) {fd : Int} (h : IsMember s name fd) :
    ∃ d ∈ s.clients, d.fd = fd ∧ d.nickname ≠ [] := by
  obtain ⟨ch, hch, _, hfd⟩ := h
  obtain ⟨d, hd, rfl, _⟩ := invariant.identities.members ch hch fd hfd
  exact ⟨d, hd, rfl, invariant.member_nickname hch hd hfd⟩

/-- A step gives event lines of a channel to nobody, or one and the same to all recipients. -/
theorem Stepped.events (invariant : Invariant s) (h : Stepped s e s')
    (valid : validChannelName name = true) :
    (∀ d ∈ s.clients, (messagesTo d.fd (added s s')).filter (isEventOf name) = []) ∨
      ∃ i c line channels a, e = .command i line ∧ s.clients[i]? = some c ∧
        Announces s.toServer c (Parser.parse line) channels a ∧ a.channel = name ∧
        ∀ d ∈ s.clients, (messagesTo d.fd (added s s')).filter (isEventOf name) =
          if d.fd ∈ a.recipients then [a.line] else [] := by
  rcases h.command_cases with hne | ⟨i, c, line, c', channels, sends, rfl, hc, clean, effect, rfl⟩
  · refine Or.inl fun d _ => ?_
    rw [h.quiet hne]
    rfl
  · have hmem := List.mem_of_getElem? hc
    have hclean := parse_clean clean
    have queued : ∀ {j : Nat} {d : Client}, s.clients[j]? = some d → _ := fun hd =>
      dispatched_messagesTo invariant hc clean effect hd
    rcases effect.events hclean invariant.identities hmem invariant.table valid with
      hnone | ⟨a, announces, hname, rfl⟩
    · refine Or.inl fun d hd => ?_
      obtain ⟨j, hj⟩ := List.mem_iff_getElem?.mp hd
      rw [queued hj, List.filter_eq_nil_iff]
      intro m hm
      obtain ⟨call, hcall, rfl⟩ := List.mem_map.mp hm
      rw [hnone call (List.mem_of_mem_filter hcall)]
      exact Bool.false_ne_true
    · refine Or.inr ⟨i, c, line, channels, a, rfl, hc, announces, hname, fun d hd => ?_⟩
      obtain ⟨j, hj⟩ := List.mem_iff_getElem?.mp hd
      have sound := invariant.identities.sound c hmem
      rw [queued hj, ← hname, announces.events_for hclean sound invariant.table hj]

/-- Two members are given the same event lines, unless one of them sends a PRIVMSG. -/
theorem Stepped.same_events (invariant : Invariant s) (h : Stepped s e s') {x y : Int}
    (hx : IsMember s name x) (hy : IsMember s name y) (others : sentBy x y s e = false) :
    (messagesTo x (added s s')).filter (isEventOf name) =
      (messagesTo y (added s s')).filter (isEventOf name) := by
  have valid : validChannelName name = true := by
    obtain ⟨ch, hch, rfl, _⟩ := hx
    exact (invariant.table.consistent ch hch).valid
  obtain ⟨d, hd, rfl, _⟩ := hx.client invariant
  obtain ⟨f, hf, rfl, _⟩ := hy.client invariant
  rcases h.events invariant valid with hnone | ⟨i, c, line, channels, a, rfl, hc, announces, rfl, hall⟩
  · rw [hnone d hd, hnone f hf]
  · have recipient : ∀ {fd : Int}, IsMember s a.channel fd → (fd = d.fd ∨ fd = f.fd) →
        fd ∈ a.recipients := by
      intro fd hfd hwho
      refine (announces.recipients_iff invariant.table).mpr ⟨Or.inl hfd, ?_⟩
      rintro ⟨command, rfl⟩
      have hsent : sentBy d.fd f.fd s (.command i line) = true := by
        have hclient : s.clientAt i = c := Server.clientAt_of_getElem? hc
        simpa [sentBy, command, hclient] using hwho
      rw [others] at hsent
      cases hsent
    rw [hall d hd, hall f hf, if_pos (recipient hx (Or.inl rfl)), if_pos (recipient hy (Or.inr rfl))]

end Event

/-! ## Accepted commands -/

section Accepted

variable {s s' : Machine} {i : Nat} {c : Client} {line : Bytes}

theorem dispatched_appends (invariant : Invariant s) (hc : s.clients[i]? = some c)
    (clean : LF ∉ line) {c' : Client} {channels : List Channel} {sends : List (Nat × Bytes)}
    (effect : Dispatched s.toServer i c (Parser.parse line) c' channels sends) :
    Appends s ((s.record (.line c.fd line)).settle i c' channels sends) := by
  intro j d hd
  rw [dispatched_messagesTo invariant hc clean effect hd, settle_getElem?]
  by_cases hij : i = j
  · subst hij
    obtain rfl := Option.some.inj (hc.symm.trans hd)
    have hlt := (List.getElem?_eq_some_iff.mp hc).choose
    have hset : (s.record (.line c.fd line)).clients.set i c' = s.clients.set i c' := rfl
    refine ⟨c'.appendSendBuff (messagesFor i sends).flatten, ?_, effect.fd_eq, ?_⟩
    · rw [hset, List.getElem?_set_self hlt, Option.map_some]
    · rw [← effect.sendBuffer_eq]
      rfl
  · refine ⟨d.appendSendBuff (messagesFor j sends).flatten, ?_, rfl, rfl⟩
    have hother : (s.record (.line c.fd line)).clients[j]? = some d := hd
    rw [List.getElem?_set_ne hij, hother, Option.map_some]

theorem Announces.delivery (invariant : Invariant s) (hc : s.clients[i]? = some c)
    (hstep : step s (.command i line) = some s') {channels : List Channel} {a : Announcement}
    (announces : Announces s.toServer c (Parser.parse line) channels a) :
    s'.channels = channels ∧ Delivery s s' c (Parser.parse line) a := by
  obtain ⟨clean, rfl⟩ := step_command hc hstep
  have table := invariant.table
  have sound := invariant.identities.sound c (List.mem_of_getElem? hc)
  have hclean := parse_clean clean
  have effect := Dispatched.announced (i := i) channels a announces
  have logged : Invariant (s.record (.line c.fd line)) := ⟨table, invariant.identities⟩
  have hsettle := Announces.dispatched (s := s.record (.line c.fd line)) logged hc announces
  rw [hsettle]
  refine ⟨settle_channels _ _ _ _ _, ?_, ?_, ?_, ?_, ?_⟩
  · exact (announces.isEventOf_iff hclean sound table (announces.channel_valid table)).mpr rfl
  · intro reply hreply
    exact numeric_not_event ((announces.verb_mem hclean sound).2 reply hreply)
  · exact fun fd => announces.recipients_iff table
  · intro d hd
    obtain ⟨j, hj⟩ := List.mem_iff_getElem?.mp hd
    have hqueued := dispatched_messagesTo invariant hc clean effect hj
    rw [announces.messagesFor_eq table hj] at hqueued
    simp only [table.fd_eq_iff hj hc]
    exact hqueued
  · exact dispatched_appends invariant hc clean effect

theorem Announces.clients_getElem? (invariant : Invariant s) (hc : s.clients[i]? = some c)
    (hstep : step s (.command i line) = some s') {channels : List Channel} {a : Announcement}
    (announces : Announces s.toServer c (Parser.parse line) channels a) (j : Nat) :
    s'.clients[j]? =
      s.clients[j]?.map fun x => x.appendSendBuff (messagesTo x.fd (added s s')).flatten := by
  obtain ⟨clean, rfl⟩ := step_command hc hstep
  have effect := Dispatched.announced (i := i) channels a announces
  have logged : Invariant (s.record (.line c.fd line)) := ⟨invariant.table, invariant.identities⟩
  have hsettle : dispatchCommand i line (s.record (.line c.fd line)) =
      (s.record (.line c.fd line)).settle i c channels (a.sends s.clients i) :=
    Announces.dispatched (s := s.record (.line c.fd line)) logged hc announces
  have hsame : (s.record (.line c.fd line)).clients.set i c = s.clients := set_of_getElem? hc
  rw [hsettle, settle_getElem?, hsame]
  cases hj : s.clients[j]? with
  | none => rfl
  | some x => rw [Option.map_some, Option.map_some, dispatched_messagesTo invariant hc clean effect hj]

theorem Whispers.delivery (invariant : Invariant s) (hc : s.clients[i]? = some c)
    (hstep : step s (.command i line) = some s')
    (whispers : Whispers s.toServer c (Parser.parse line)) :
    (∀ d ∈ s.clients, messagesTo d.fd (added s s') =
      if d.nickname = (Parser.parse line).param 0 then
        [privmsgMessage c ((Parser.parse line).param 0) ((Parser.parse line).param 1)]
      else []) ∧
    Appends s s' := by
  obtain ⟨clean, rfl⟩ := step_command hc hstep
  obtain ⟨f, hf, hnick⟩ := whispers.held
  obtain ⟨target, htarget⟩ := List.mem_iff_getElem?.mp hf
  have hne := Parser.param_zero_ne_nil whispers.two
  have targets : Targets s.toServer ((Parser.parse line).param 0) target f := ⟨htarget, hnick⟩
  have effect := Dispatched.whispered (i := i) whispers.command whispers.registered whispers.two
    whispers.body whispers.nick target f targets
  have logged : Invariant (s.record (.line c.fd line)) := ⟨invariant.table, invariant.identities⟩
  have hsettle : dispatchCommand i line (s.record (.line c.fd line)) =
      (s.record (.line c.fd line)).settle i c s.channels
        [(target, privmsgMessage c ((Parser.parse line).param 0) ((Parser.parse line).param 1))] := by
    rw [dispatchCommand_privmsg whispers.command]
    exact privmsgHandler_whispers (s := s.record (.line c.fd line)) logged hc whispers.registered
      whispers.two whispers.body whispers.nick hne targets
  rw [hsettle]
  refine ⟨fun d hd => ?_, dispatched_appends invariant hc clean effect⟩
  obtain ⟨j, hj⟩ := List.mem_iff_getElem?.mp hd
  have hholds : d.nickname = (Parser.parse line).param 0 ↔ target = j := by
    constructor
    · intro hd
      exact invariant.nickname_once hne target j f d htarget hj (by simpa [nicknamed] using hnick)
        (by simpa [nicknamed] using hd)
    · rintro rfl
      rw [← Option.some.inj (htarget.symm.trans hj)]
      exact hnick
  simp only [hholds]
  rw [dispatched_messagesTo invariant hc clean effect hj]
  by_cases h : target = j
  · simp [messagesFor, h]
  · simp [messagesFor, h]

end Accepted

/-! ## Runs -/

theorem heard_eq {s t : Machine} (invariant : Invariant s) {name : Bytes} {x y : Int}
    {events : List Event} (hrun : run step s events = some t)
    (both : ∀ a e b, Takes step s events a e b → IsMember a name x ∧ IsMember a name y) :
    heard name x y x s events = heard name x y y s events := by
  induction events generalizing s with
  | nil => rfl
  | cons e events ih =>
      obtain ⟨s', hstep, hrest⟩ := run_cons_some.mp hrun
      have stepped := step_stepped invariant.table hstep
      obtain ⟨hx, hy⟩ := both s e s' (Takes.head hstep)
      have hlater := ih (invariant.step hstep) hrest fun a f b taken =>
        both a f b (taken.cons hstep)
      simp only [heard, hstep, hlater]
      cases hsent : sentBy x y s e with
      | true => rfl
      | false => simp only [Bool.false_eq_true, if_false, stepped.same_events invariant hx hy hsent]

/-- Channel events are delivered exactly once, and in one order to all members. -/
theorem exactDelivery_reachable {s : Machine} (h : Reachable s) : ExactDelivery s where
  announced _ _ _ _ _ _ hc hstep announces := announces.delivery h.invariant hc hstep
  unannounced e s' name valid hstep none d hd := by
    rcases (step_stepped h.invariant.table hstep).events h.invariant valid with
      hall | ⟨i, c, line, channels, a, he, hc, announces, hname, _⟩
    · exact hall d hd
    · exact absurd hname (none i c line channels a he hc announces)
  whispered _ _ _ _ hc hstep whispers := whispers.delivery h.invariant hc hstep
  ordered _ _ _ _ _ hrun both := heard_eq h.invariant hrun both

theorem exactDelivery_sample : ExactDelivery (stateAfter sampleRun) :=
  exactDelivery_reachable (stateAfter_reachable sampleRun)

end IrcServer
