import IrcServer.Proof.Membership

/-! # What a member sees of a channel

The list of a member is exact as long as nobody disconnects and nobody changes its
nickname in company, because nobody is told of either.
-/

namespace IrcServer

open Search Machine Transition

def Present (s : Machine) (name : Bytes) (fd : Int) (n : Bytes) : Prop :=
  ∃ z ∈ s.clients, IsMember s name z.fd ∧ z.fd ≠ fd ∧ z.nickname = n

/-- Every member has a list of exactly the others. -/
def ViewsExact (s : Machine) : Prop :=
  ∀ name fd, IsMember s name fd → ∀ n, n ∈ viewOf name (queuedTo fd s) ↔ Present s name fd n

/-- No member has anybody on its list who is not on the channel. -/
def ViewsCurrent (s : Machine) : Prop :=
  ∀ name fd, IsMember s name fd → ∀ n ∈ viewOf name (queuedTo fd s),
    ∃ z ∈ s.clients, IsMember s name z.fd ∧ z.nickname = n

inductive RenamesMember (s : Machine) : Event → Prop
  | intro (i : Nat) (line : Bytes) (c : Client) (hc : s.clients[i]? = some c)
      (command : (Parser.parse line).command = text "NICK")
      (valid : checkNickValid ((Parser.parse line).param 0) = true)
      (unused : ∀ d ∈ s.clients, d.nickname = (Parser.parse line).param 0 → d.fd = c.fd)
      (different : (Parser.parse line).param 0 ≠ c.nickname) (company : InCompany s c) :
      RenamesMember s (.command i line)

/-! ## One step -/

def Client.label (c : Client) : Int × Bytes := (c.fd, c.nickname)

theorem exists_label_iff (clients : List Client) (P : Int → Bytes → Prop) :
    (∃ z ∈ clients, P z.fd z.nickname) ↔ ∃ p ∈ clients.map Client.label, P p.1 p.2 := by
  simp [Client.label]

theorem exists_label {clients clients' : List Client}
    (h : clients'.map Client.label = clients.map Client.label) (P : Int → Bytes → Prop) :
    (∃ z ∈ clients', P z.fd z.nickname) ↔ ∃ z ∈ clients, P z.fd z.nickname := by
  rw [exists_label_iff, h, ← exists_label_iff]

section Event

variable {s s' : Machine} {e : Event}

/-- The lists stay exact where they stay the same and the others do. -/
theorem ViewsExact.of_same (exact : ViewsExact s)
    (members : ∀ name fd, IsMember s' name fd → IsMember s name fd)
    (views : ∀ name fd, IsMember s name fd →
      viewOf name (queuedTo fd s') = viewOf name (queuedTo fd s))
    (present : ∀ name fd n, IsMember s' name fd → (Present s' name fd n ↔ Present s name fd n)) :
    ViewsExact s' := by
  intro name fd hfd n
  have hold := members name fd hfd
  rw [views name fd hold, present name fd n hfd]
  exact exact name fd hold n

theorem Stepped.same_view (invariant : Invariant s) (h : Stepped s e s')
    (hne : ∀ i line, e ≠ .command i line) {name : Bytes} {fd : Int} (hfd : IsMember s name fd) :
    viewOf name (queuedTo fd s') = viewOf name (queuedTo fd s) := by
  obtain ⟨d, hd, rfl, _⟩ := hfd.client invariant
  rw [h.queuedTo_eq invariant hd, h.quiet hne, List.append_nil]

structure Heard (s s' : Machine) (c : Client) (a : Announcement) : Prop where
  labels : s'.clients.map Client.label = s.clients.map Client.label
  verb : verb a.line ∈ eventWords
  spaceless : space ∉ a.channel
  event : isEventOf a.channel a.line = true
  elsewhere : ∀ name fd, IsMember s name fd → a.channel ≠ name → isEventOf name a.line = false
  queued : ∀ d ∈ s.clients, queuedTo d.fd s' = queuedTo d.fd s ++
    ((if d.fd ∈ a.recipients then [a.line] else []) ++ if d.fd = c.fd then a.replies else [])

section Announced

variable {c : Client} {a : Announcement}

theorem Heard.present (heard : Heard s s' c a) (name : Bytes) (fd : Int) (n : Bytes) :
    Present s' name fd n ↔ ∃ z ∈ s.clients, IsMember s' name z.fd ∧ z.fd ≠ fd ∧ z.nickname = n :=
  exists_label heard.labels fun x nick => IsMember s' name x ∧ x ≠ fd ∧ nick = n

theorem Heard.view (heard : Heard s s' c a) {d : Client} (hd : d ∈ s.clients) (name : Bytes) :
    viewOf name (queuedTo d.fd s') =
      (if d.fd = c.fd then a.replies else []).foldl (observe name)
        ((if d.fd ∈ a.recipients then [a.line] else []).foldl (observe name)
          (viewOf name (queuedTo d.fd s))) := by
  rw [heard.queued d hd, viewOf_append, List.foldl_append]

theorem Heard.skips (heard : Heard s s' c a) {name : Bytes} {fd : Int} (hfd : IsMember s name fd)
    (hne : a.channel ≠ name) (view : List Bytes) :
    (if fd ∈ a.recipients then [a.line] else []).foldl (observe name) view = view := by
  split
  · exact observe_elsewhere heard.verb (heard.elsewhere name fd hfd hne)
  · rfl

theorem Heard.keeps (heard : Heard s s' c a) (invariant : Invariant s) (exact : ViewsExact s)
    (announced : IrcServer.verb a.line ∉ noticed) (alone : a.replies = [])
    (members : ∀ name fd, IsMember s' name fd ↔ IsMember s name fd) : ViewsExact s' := by
  refine exact.of_same (fun name fd => (members name fd).mp) (fun name fd hfd => ?_)
    fun name fd n _ => ?_
  · obtain ⟨d, hd, rfl, _⟩ := hfd.client invariant
    rw [heard.view hd, alone, ite_self, List.foldl_nil]
    split
    · exact observe_unnoticed announced
    · rfl
  · rw [heard.present]
    simp only [members]
    rfl

theorem Heard.kicks (heard : Heard s s' c a) (invariant : Invariant s) (exact : ViewsExact s)
    (sound : c.Sound) {d : Client} (hd : d ∈ s.clients) {reason : Bytes}
    (announced : a.line = kickMessage c a.channel d.nickname reason) (alone : a.replies = [])
    (recipients : ∀ fd, IsMember s a.channel fd → fd ∈ a.recipients)
    (members : ∀ name fd, IsMember s' name fd ↔
      IsMember s name fd ∧ ¬ (a.channel = name ∧ fd = d.fd)) : ViewsExact s' := by
  intro name fd hfd n
  have hold := ((members name fd).mp hfd).1
  obtain ⟨y, hy, rfl, _⟩ := hold.client invariant
  rw [heard.view hy, alone, ite_self, List.foldl_nil, heard.present]
  by_cases hname : a.channel = name
  · subst hname
    have hnick := (invariant.identities.sound d hd).nickname_bytes.2
    have hevent := heard.event
    rw [announced] at hevent
    rw [if_pos (recipients y.fd hold), announced, List.foldl_cons, List.foldl_nil,
      observe_kick sound heard.spaceless hnick hevent, List.mem_filter,
      exact a.channel y.fd hold, decide_eq_true_eq]
    constructor
    · rintro ⟨⟨z, hz, hmember, hne, rfl⟩, hother⟩
      refine ⟨z, hz, (members _ _).mpr ⟨hmember, fun heq => hother ?_⟩, hne, rfl⟩
      exact (hmember.nickname_iff invariant hd hz).mpr heq.2
    · rintro ⟨z, hz, hmember, hne, rfl⟩
      obtain ⟨hbefore, hother⟩ := (members _ _).mp hmember
      refine ⟨⟨z, hz, hbefore, hne, rfl⟩, fun heq => hother ⟨rfl, ?_⟩⟩
      exact (hbefore.nickname_iff invariant hd hz).mp heq
  · have hsame : ∀ z, IsMember s' name z ↔ IsMember s name z := fun z => by
      rw [members]
      simp [hname]
    rw [heard.skips hold hname, exact name y.fd hold]
    simp only [hsame]
    rfl

structure Enters (s s' : Machine) (c : Client) (ch : Channel) : Prop where
  listed : ∀ fd, fd ∈ ch.memberFds ↔ IsMember s' ch.name fd
  members : ∀ name fd, IsMember s' name fd ↔ IsMember s name fd ∨ ch.name = name ∧ fd = c.fd

section Joined

variable {ch : Channel}

theorem Enters.elsewhere (enters : Enters s s' c ch) {name : Bytes} (hname : ch.name ≠ name)
    (fd : Int) : IsMember s' name fd ↔ IsMember s name fd := by
  rw [enters.members]
  simp [hname]

theorem Enters.client (enters : Enters s s' c ch) (invariant : Invariant s) (hc : c ∈ s.clients)
    {fd : Int} (hfd : IsMember s' ch.name fd) : ∃ z ∈ s.clients, z.fd = fd := by
  rcases (enters.members _ _).mp hfd with hbefore | ⟨_, rfl⟩
  · obtain ⟨x, hx, heq, _⟩ := hbefore.client invariant
    exact ⟨x, hx, heq⟩
  · exact ⟨c, hc, rfl⟩

/-- A member has the nickname of the joiner only if it is the joiner. -/
theorem Enters.nickname_iff (enters : Enters s s' c ch) (invariant : Invariant s)
    (hc : c ∈ s.clients) {z : Client} (hz : z ∈ s.clients) (hmember : IsMember s' ch.name z.fd) :
    z.nickname = c.nickname ↔ z.fd = c.fd := by
  rcases (enters.members _ _).mp hmember with hbefore | ⟨_, heq⟩
  · exact hbefore.nickname_iff invariant hc hz
  · obtain rfl := invariant.table.same_client hz hc heq
    simp

theorem Enters.nickname_valid (enters : Enters s s' c ch) (invariant : Invariant s)
    (hc : c ∈ s.clients) (named : c.nickname ≠ []) {z : Client} (hz : z ∈ s.clients)
    (hmember : IsMember s' ch.name z.fd) : checkNickValid z.nickname = true := by
  refine (invariant.identities.sound z hz).valid ?_
  rcases (enters.members _ _).mp hmember with hbefore | ⟨_, heq⟩
  · obtain ⟨x, hx, heq, hnick⟩ := hbefore.client invariant
    obtain rfl := invariant.table.same_client hx hz heq
    exact hnick
  · obtain rfl := invariant.table.same_client hz hc heq
    exact named

theorem observe_endOfNames (name : Bytes) (view : List Bytes) :
    observe name view (endOfNames c ch) = view :=
  observe_unnoticed (by rw [verb_endOfNames]; decide)

/-- The joiner reads the others in the reply to its JOIN. -/
theorem Heard.joiner (heard : Heard s s' c (joinAnnouncement c ch s.clients))
    (enters : Enters s s' c ch) (invariant : Invariant s) (hc : c ∈ s.clients)
    (named : c.nickname ≠ []) (hfd : IsMember s' ch.name c.fd) (n : Bytes) :
    n ∈ viewOf ch.name (queuedTo c.fd s') ↔
      ∃ z ∈ s.clients, IsMember s' ch.name z.fd ∧ z.fd ≠ c.fd ∧ z.nickname = n := by
  have hspace : space ∉ ch.name := heard.spaceless
  have hnames := lists_joinNames invariant.table.clients_nodup
    (fun fd hmember => enters.client invariant hc ((enters.listed fd).mp hmember))
    (fun z hz hmember =>
      enters.nickname_valid invariant hc named hz ((enters.listed z.fd).mp hmember))
    (List.ne_nil_of_mem ((enters.listed c.fd).mpr hfd))
  rw [heard.view hc, if_pos rfl, joinAnnouncement, List.foldl_cons, List.foldl_cons,
    List.foldl_nil, observe_endOfNames, observe_names (invariant.identities.sound c hc) hspace,
    hnames]
  constructor
  · rintro ⟨hother, z, hz, hmember, rfl⟩
    have hmember' := (enters.listed z.fd).mp hmember
    have hne := mt (enters.nickname_iff invariant hc hz hmember').mpr hother
    exact ⟨z, hz, hmember', hne, rfl⟩
  · rintro ⟨z, hz, hmember, hne, rfl⟩
    have hother := mt (enters.nickname_iff invariant hc hz hmember).mp hne
    exact ⟨hother, z, hz, (enters.listed z.fd).mpr hmember, rfl⟩

/-- The members before read the nickname of the joiner in its JOIN. -/
theorem Heard.welcomes (heard : Heard s s' c (joinAnnouncement c ch s.clients))
    (enters : Enters s s' c ch) (invariant : Invariant s) (exact : ViewsExact s)
    (hc : c ∈ s.clients) (named : c.nickname ≠ []) {fd : Int} (hold : IsMember s ch.name fd)
    (hne : fd ≠ c.fd) (n : Bytes) :
    n ∈ viewOf ch.name (queuedTo fd s') ↔
      ∃ z ∈ s.clients, IsMember s' ch.name z.fd ∧ z.fd ≠ fd ∧ z.nickname = n := by
  obtain ⟨y, hy, rfl, _⟩ := hold.client invariant
  have hrecipient : y.fd ∈ (joinAnnouncement c ch s.clients).recipients :=
    (enters.listed y.fd).mpr ((enters.members _ _).mpr (.inl hold))
  have hjoin : ∀ view, observe ch.name view (joinAnnouncement c ch s.clients).line =
      c.nickname :: view := fun view =>
    observe_join (invariant.identities.sound c hc) named heard.event
  rw [heard.view hy, if_neg hne, if_pos hrecipient, List.foldl_nil, List.foldl_cons,
    List.foldl_nil, hjoin, List.mem_cons, exact ch.name y.fd hold]
  constructor
  · rintro (rfl | ⟨z, hz, hmember, hother, rfl⟩)
    · exact ⟨c, hc, (enters.members _ _).mpr (.inr ⟨rfl, rfl⟩), Ne.symm hne, rfl⟩
    · exact ⟨z, hz, (enters.members _ _).mpr (.inl hmember), hother, rfl⟩
  · rintro ⟨z, hz, hmember, hother, rfl⟩
    rcases (enters.members _ _).mp hmember with hbefore | ⟨_, heq⟩
    · exact .inr ⟨z, hz, hbefore, hother, rfl⟩
    · exact .inl ((enters.nickname_iff invariant hc hz hmember).mpr heq)

theorem Heard.elsewhere_same (heard : Heard s s' c (joinAnnouncement c ch s.clients))
    (invariant : Invariant s) (hc : c ∈ s.clients) {name : Bytes} (hname : ch.name ≠ name)
    {fd : Int} (hold : IsMember s name fd) :
    viewOf name (queuedTo fd s') = viewOf name (queuedTo fd s) := by
  have hspace : space ∉ ch.name := heard.spaceless
  obtain ⟨y, hy, rfl, _⟩ := hold.client invariant
  rw [heard.view hy, heard.skips hold hname]
  split
  · rw [joinAnnouncement, List.foldl_cons, List.foldl_cons, List.foldl_nil, observe_endOfNames,
      observe_names_elsewhere (invariant.identities.sound c hc) hspace s.clients hname]
  · rfl

theorem Heard.joins (heard : Heard s s' c (joinAnnouncement c ch s.clients))
    (enters : Enters s s' c ch) (invariant : Invariant s) (exact : ViewsExact s)
    (hc : c ∈ s.clients) (registered : c.registered = true) : ViewsExact s' := by
  have sound := invariant.identities.sound c hc
  have named : c.nickname ≠ [] := sound.received.mp (sound.registered.mp registered).1
  intro name fd hfd n
  rw [heard.present]
  by_cases hname : ch.name = name
  · subst hname
    by_cases hfdc : fd = c.fd
    · subst hfdc
      exact heard.joiner enters invariant hc named hfd n
    · have hold := ((enters.members _ _).mp hfd).resolve_right fun h => hfdc h.2
      exact heard.welcomes enters invariant exact hc named hold hfdc n
  · have hold := (enters.elsewhere hname fd).mp hfd
    rw [heard.elsewhere_same invariant hc hname hold, exact name fd hold]
    simp only [enters.elsewhere hname]
    rfl

end Joined

theorem Announces.views {i : Nat} {line : Bytes} {channels : List Channel}
    (announces : Announces s.toServer c (Parser.parse line) channels a)
    (invariant : Invariant s) (exact : ViewsExact s) (hc : s.clients[i]? = some c)
    (hstep : step s (.command i line) = some s')
    (labels : s'.clients.map Client.label = s.clients.map Client.label) : ViewsExact s' := by
  obtain ⟨hchannels, delivery⟩ := announces.delivery invariant hc hstep
  have table := invariant.table
  have hmem := List.mem_of_getElem? hc
  have sound := invariant.identities.sound c hmem
  have hclean := parse_clean (step_command hc hstep).1
  have heard : Heard s s' c a := by
    refine ⟨labels, (announces.verb_mem hclean sound).1,
      (validChannelName_bytes (announces.channel_valid table)).2.1, delivery.event, ?_, ?_⟩
    · rintro name fd ⟨ch, hch, rfl, _⟩ hne
      have hevent := announces.isEventOf_iff hclean sound table (table.consistent ch hch).valid
      exact Bool.eq_false_iff.mpr fun h => hne (hevent.mp h)
    · intro d hd
      rw [(step_stepped table hstep).queuedTo_eq invariant hd, delivery.queued d hd]
  cases announces.regroups table sound hchannels with
  | joins registered ch announced listed members =>
      subst announced
      exact heard.joins ⟨listed, members⟩ invariant exact hmem registered
  | kicks d hd member reason announced alone recipients members =>
      exact heard.kicks invariant exact sound hd announced alone recipients members
  | keeps announced alone members => exact heard.keeps invariant exact announced alone members

end Announced

/-! ## Departures and new nicknames -/

theorem InCompany.of_members (table : Table s.toServer) {c : Client} {name : Bytes} {fd : Int}
    (hc : IsMember s name c.fd) (hfd : IsMember s name fd) (hne : fd ≠ c.fd) : InCompany s c := by
  obtain ⟨ch, hch, rfl, hmember⟩ := hc
  exact ⟨ch, hch, hmember, fd, (table.isMember_iff hch fd).mp hfd, hne⟩

theorem Stepped.views_same (invariant : Invariant s) (exact : ViewsExact s) (h : Stepped s e s')
    (hne : ∀ i line, e ≠ .command i line) (channels : s'.channels = s.channels)
    (labels : s'.clients.map Client.label = s.clients.map Client.label) : ViewsExact s' := by
  have members : ∀ name fd, IsMember s' name fd ↔ IsMember s name fd := fun name fd =>
    IsMember.of_channels channels
  refine exact.of_same (fun name fd => (members name fd).mp)
    (fun name fd hfd => h.same_view invariant hne hfd) fun name fd n _ => ?_
  have hpresent := exists_label labels fun x nick => IsMember s' name x ∧ x ≠ fd ∧ nick = n
  refine hpresent.trans ?_
  simp only [members]
  rfl

theorem ViewsExact.without (exact : ViewsExact s) (invariant : Invariant s) {i : Nat} {c : Client}
    (hc : s.clients[i]? = some c) (alone : ¬ InCompany s c) : ViewsExact (s.without i c) := by
  have table := invariant.table
  refine exact.of_same (fun name fd hfd => (table.isMember_without.mp hfd).1)
    (fun name fd hfd => (Stepped.disconnected i c hc).same_view invariant (by simp) hfd)
    fun name fd n hfd => ?_
  obtain ⟨hold, hfdc⟩ := table.isMember_without.mp hfd
  constructor
  · rintro ⟨z, hz, hmember, hne, hnick⟩
    exact ⟨z, List.mem_of_mem_eraseIdx hz, (table.isMember_without.mp hmember).1, hne, hnick⟩
  · rintro ⟨z, hz, hmember, hne, hnick⟩
    have hother : z.fd ≠ c.fd := fun heq =>
      alone (.of_members table (heq ▸ hmember) hold hfdc)
    rcases mem_eraseIdx_of_mem hc hz with rfl | hz
    · exact absurd rfl hother
    · exact ⟨z, hz, table.isMember_without.mpr ⟨hmember, hother⟩, hne, hnick⟩

theorem Silent.outdates (silent : Silent s e) (invariant : Invariant s) (exact : ViewsExact s)
    (hstep : step s e = some s') : ¬ ViewsCurrent s' := by
  obtain ⟨i, c, rfl, hc, ch, hch, hmember, fd, hfd, hne⟩ := silent
  have table := invariant.table
  have hmem := List.mem_of_getElem? hc
  have hold : IsMember s ch.name fd := ⟨ch, hch, rfl, hfd⟩
  have hcold : IsMember s ch.name c.fd := ⟨ch, hch, rfl, hmember⟩
  have stepped := step_stepped table hstep
  have hview := stepped.same_view invariant (by simp) hold
  cases stepped with
  | disconnected _ x hx =>
      obtain rfl := Option.some.inj (hc.symm.trans hx)
      intro current
      have hlisted : c.nickname ∈ viewOf ch.name (queuedTo fd (s.without i c)) := by
        rw [hview, exact ch.name fd hold]
        exact ⟨c, hmem, hcold, Ne.symm hne, rfl⟩
      obtain ⟨z, hz, hz', hnick⟩ :=
        current ch.name fd (table.isMember_without.mpr ⟨hold, hne⟩) _ hlisted
      obtain ⟨hzold, hother⟩ := table.isMember_without.mp hz'
      exact hother
        ((hzold.nickname_iff invariant hmem (List.mem_of_mem_eraseIdx hz)).mp hnick)

section Line

variable {i : Nat} {c : Client} {line : Bytes} {c' : Client} {channels : List Channel}
  {sends : List (Nat × Bytes)}

theorem dispatched_same_view (invariant : Invariant s) (hc : s.clients[i]? = some c)
    (clean : LF ∉ line) (effect : Dispatched s.toServer i c (Parser.parse line) c' channels sends)
    (unnoticed : ∀ call ∈ sends, verb call.2 ∉ noticed) {name : Bytes} {fd : Int}
    (hfd : IsMember s name fd) :
    viewOf name (queuedTo fd ((s.record (.line c.fd line)).settle i c' channels sends)) =
      viewOf name (queuedTo fd s) := by
  obtain ⟨d, hd, rfl, _⟩ := hfd.client invariant
  obtain ⟨j, hj⟩ := List.mem_iff_getElem?.mp hd
  have stepped := Stepped.dispatched i c hc line clean c' channels sends effect
  rw [stepped.queuedTo_eq invariant hd, dispatched_messagesTo invariant hc clean effect hj,
    viewOf_append, foldl_unnoticed]
  intro m hm
  obtain ⟨call, hcall, rfl⟩ := List.mem_map.mp hm
  exact unnoticed call (List.mem_of_mem_filter hcall)

theorem settle_labels (channels : List Channel) (sends : List (Nat × Bytes)) :
    ((s.record (.line c.fd line)).settle i c' channels sends).clients.map Client.label =
      (s.clients.map Client.label).set i c'.label :=
  settle_map i c' channels sends _ Client.label fun _ _ => rfl

theorem Dispatched.renames (effect : Dispatched s.toServer i c (Parser.parse line) c' channels sends) :
    c'.nickname = c.nickname ∨
      ((Parser.parse line).command = text "NICK" ∧
        checkNickValid ((Parser.parse line).param 0) = true ∧
        (∀ d ∈ s.clients, d.nickname = (Parser.parse line).param 0 → d.fd = c.fd) ∧
        c'.nickname = (Parser.parse line).param 0) := by
  cases effect with
  | nick command pass valid unused => exact Or.inr ⟨command, valid, unused, rfl⟩
  | _ => exact Or.inl rfl

/-- The others of a member are the same after a line of somebody who is not one of them. -/
theorem present_settled (hc : s.clients[i]? = some c) (hfd : c'.fd = c.fd) {name : Bytes} {fd : Int}
    (members : ∀ name fd, IsMember ((s.record (.line c.fd line)).settle i c' channels sends) name fd ↔
      IsMember s name fd)
    (other : IsMember s name c.fd → c.fd ≠ fd → c'.nickname = c.nickname) (n : Bytes) :
    Present ((s.record (.line c.fd line)).settle i c' channels sends) name fd n ↔
      Present s name fd n := by
  have hold := exists_label_iff s.clients fun x nick => IsMember s name x ∧ x ≠ fd ∧ nick = n
  have hnew := exists_label_iff ((s.record (.line c.fd line)).settle i c' channels sends).clients
    fun x nick => IsMember s name x ∧ x ≠ fd ∧ nick = n
  rw [settle_labels] at hnew
  have hlabel : (s.clients.map Client.label)[i]? = some c.label := by
    rw [List.getElem?_map, hc, Option.map_some]
  simp only [Present, members]
  refine hnew.trans (Iff.trans ?_ hold.symm)
  constructor
  · rintro ⟨p, hp, hmember, hne, hnick⟩
    rcases List.mem_or_eq_of_mem_set hp with hp | rfl
    · exact ⟨p, hp, hmember, hne, hnick⟩
    · rw [Client.label, hfd] at hmember hne
      exact ⟨c.label, List.mem_of_getElem? hlabel, hmember, hne,
        (other hmember hne).symm.trans hnick⟩
  · rintro ⟨p, hp, hmember, hne, hnick⟩
    rcases mem_set_of_mem hlabel hp c'.label with rfl | hp
    · have hlt := (List.getElem?_eq_some_iff.mp hlabel).choose
      exact ⟨c'.label, List.mem_set hlt _, by rwa [Client.label, hfd],
        by rwa [Client.label, hfd], (other hmember hne).trans hnick⟩
    · exact ⟨p, hp, hmember, hne, hnick⟩

theorem ViewsExact.settled (exact : ViewsExact s) (invariant : Invariant s)
    (hc : s.clients[i]? = some c) (clean : LF ∉ line)
    (effect : Dispatched s.toServer i c (Parser.parse line) c' channels sends)
    (hstep : step s (.command i line) =
      some ((s.record (.line c.fd line)).settle i c' channels sends))
    (heard : ¬ RenamesMember s (.command i line)) :
    ViewsExact ((s.record (.line c.fd line)).settle i c' channels sends) := by
  have table := invariant.table
  have sound := invariant.identities.sound c (List.mem_of_getElem? hc)
  rcases effect.regroups table sound (settle_channels _ _ _ _ _) with
    ⟨a, announces, _, rfl⟩ | ⟨unnoticed, members⟩
  · refine announces.views invariant exact hc hstep ?_
    rw [settle_labels]
    exact set_of_getElem? (by rw [List.getElem?_map, hc, Option.map_some])
  · refine exact.of_same (fun name fd => (members name fd).mp)
      (fun name fd hfd => dispatched_same_view invariant hc clean effect unnoticed hfd)
      fun name fd n hfd => present_settled hc effect.fd_eq members (fun hself hne => ?_) n
    rcases effect.renames with hsame | ⟨command, valid, unused, hnick⟩
    · exact hsame
    · by_contra different
      have hold := (members name fd).mp hfd
      exact heard (.intro i line c hc command valid unused (hnick ▸ different)
        (.of_members table hself hold (Ne.symm hne)))

end Line

theorem RenamesMember.outdates (renames : RenamesMember s e) (invariant : Invariant s)
    (exact : ViewsExact s) (hstep : step s e = some s') : ¬ ViewsCurrent s' := by
  obtain ⟨i, line, c, hc, command, valid, unused, different, ch, hch, hmember, fd, hfd, hne⟩ :=
    renames
  have table := invariant.table
  have hmem := List.mem_of_getElem? hc
  have sound := invariant.identities.sound c hmem
  have hold : IsMember s ch.name fd := ⟨ch, hch, rfl, hfd⟩
  have hnonempty := invariant.member_nickname hch hmem hmember
  have pass := sound.nickPass (sound.received.mpr hnonempty)
  obtain ⟨clean, rfl⟩ := step_command hc hstep
  have effect := Dispatched.nick (s := s.toServer) (i := i) command pass valid unused
  rw [dispatchCommand_nick command,
    nickHundler_accepts (s := s.record (.line c.fd line)) hc pass valid unused]
  have hchannels := settle_channels i (c.renamed ((Parser.parse line).param 0)) s.channels
    ((nickReplies c ((Parser.parse line).param 0)).map (i, ·)) (s.record (.line c.fd line))
  rcases effect.regroups table sound hchannels with ⟨a, _, _, hsame⟩ | ⟨unnoticed, members⟩
  · exact absurd (congrArg Client.nickname hsame) different
  · intro current
    have hlisted : c.nickname ∈ viewOf ch.name (queuedTo fd s) :=
      (exact ch.name fd hold c.nickname).mpr ⟨c, hmem, ⟨ch, hch, rfl, hmember⟩, Ne.symm hne, rfl⟩
    rw [← dispatched_same_view invariant hc clean effect unnoticed hold] at hlisted
    obtain ⟨z, hz, _, hnick⟩ := current ch.name fd ((members _ _).mpr hold) _ hlisted
    rcases settle_mem (s := s.record (.line c.fd line)) hc hz with same | ⟨j, y, hji, hy, same⟩
    · exact different ((Client.nickname_of_identity same).symm.trans hnick)
    · have hynick : c.nickname = y.nickname :=
        hnick.symm.trans (Client.nickname_of_identity same)
      exact hji (table.fd_position hy hc
        (invariant.identities.unique c hmem y (List.mem_of_getElem? hy) hynick hnonempty).symm)

/-- A step that changes neither a membership silently nor a nickname in company keeps the lists
exact. -/
theorem ViewsExact.step (exact : ViewsExact s) (invariant : Invariant s)
    (hstep : IrcServer.step s e = some s') (told : ¬ (Silent s e ∨ RenamesMember s e)) :
    ViewsExact s' := by
  obtain ⟨loud, heard⟩ := not_or.mp told
  have stepped := step_stepped invariant.table hstep
  have same := fun hne channels labels => stepped.views_same invariant exact hne channels labels
  cases stepped with
  | unconnected => exact exact
  | dropped => exact same (by simp) rfl rfl
  | connected accepted fcntl fresh =>
      have outside : ∀ name, ¬ IsMember s name accepted := by
        intro name hfd
        obtain ⟨d, hd, rfl, _⟩ := hfd.client invariant
        refine fresh ?_
        rw [invariant.table.aligned]
        exact List.mem_cons_of_mem _ (List.mem_map_of_mem hd)
      refine exact.of_same (fun name fd hfd => hfd) (fun name fd hfd =>
        (step_stepped invariant.table hstep).same_view invariant (by simp) hfd)
        fun name fd n _ => ?_
      constructor
      · rintro ⟨z, hz, hmember, hne, hnick⟩
        rcases List.mem_append.mp hz with hz | hz
        · exact ⟨z, hz, hmember, hne, hnick⟩
        · rw [List.mem_singleton.mp hz] at hmember
          exact absurd hmember (outside name)
      · rintro ⟨z, hz, hmember, hne, hnick⟩
        exact ⟨z, List.mem_append_left _ hz, hmember, hne, hnick⟩
  | buffered i c hc contents =>
      exact same (by simp) rfl (by
        rw [setClient, List.map_set]
        exact map_set_same (f := Client.label) hc rfl)
  | flushed i c hc send rest =>
      exact same (by simp) rfl (by
        rw [List.map_set]
        exact map_set_same (f := Client.label) hc rfl)
  | disconnected i c hc =>
      exact exact.without invariant hc fun company => loud ⟨i, c, rfl, hc, company⟩
  | dispatched i c hc line clean c' channels sends effect =>
      exact exact.settled invariant hc clean effect hstep heard

end Event

/-! ## Runs -/

theorem ViewsExact.current {s : Machine} (exact : ViewsExact s) : ViewsCurrent s := by
  intro name fd hfd n hn
  obtain ⟨z, hz, hmember, _, hnick⟩ := (exact name fd hfd n).mp hn
  exact ⟨z, hz, hmember, hnick⟩

/-- Members are told of every change but a departure by disconnection. A run keeps all their
lists current exactly if nobody leaves company in this way, and nobody in company changes its
nickname. -/
theorem told_iff_not_silent_running {fd : Int} {passwd : Bytes} {events : List Event} {s : Machine}
    (hrun : run step (Machine.start fd passwd) events = some s) :
    (∀ a e b, Takes step (Machine.start fd passwd) events a e b → (Told a e b ↔ ¬ Silent a e)) ∧
      ((∀ u, Visits step (Machine.start fd passwd) events u → ViewsCurrent u) ↔
        ∀ a e b, Takes step (Machine.start fd passwd) events a e b →
          ¬ Silent a e ∧ ¬ RenamesMember a e) := by
  have start := start_invariant fd passwd
  constructor
  · intro a e b taken
    obtain ⟨_, _, _, _, hstep⟩ := id taken
    exact told_iff_not_silent (start.visits taken.visits_before) hstep
  · simp only [← not_or]
    refine forall_visits_iff_of (I := Invariant) (P := ViewsExact)
      (fun _ _ _ inv hstep => inv.step hstep) (fun _ _ exact => exact.current) ?_ ?_ start ?_ hrun
    · exact fun a e b invariant exact hstep told => exact.step invariant hstep told
    · rintro a e b invariant exact hstep (silent | renames)
      · exact silent.outdates invariant exact hstep
      · exact renames.outdates invariant exact hstep
    · rintro name fd ⟨ch, hch, _⟩
      cases hch

def departedRun : List Event := sampleRun ++ [.disconnect 1]

theorem told_iff_not_silent_sample :
    ∃ s, run step (Machine.start 3 (text "pw")) departedRun = some s ∧
      (∀ a e b, Takes step (Machine.start 3 (text "pw")) departedRun a e b →
        (Told a e b ↔ ¬ Silent a e)) ∧
      ((∀ u, Visits step (Machine.start 3 (text "pw")) departedRun u → ViewsCurrent u) ↔
        ∀ a e b, Takes step (Machine.start 3 (text "pw")) departedRun a e b →
          ¬ Silent a e ∧ ¬ RenamesMember a e) := by
  have hrun : (run step (Machine.start 3 (text "pw")) departedRun).isSome = true := by decide
  obtain ⟨s, hs⟩ := Option.isSome_iff_exists.mp hrun
  exact ⟨s, hs, told_iff_not_silent_running hs⟩

/-- Whoever stays on the channel is told nothing, and keeps the departed nickname. -/
theorem not_told_reachable :
    (¬ ∀ s, Reachable s → ∀ e s', step s e = some s' → Told s e s') ∧
      ¬ ∀ s, Reachable s → ViewsCurrent s := by
  have hstep : step (stateAfter sampleRun) (.disconnect 1) = some (stateAfter departedRun) :=
    step_stateAfter sampleRun (.disconnect 1) (by decide)
  have member : IsMember (stateAfter departedRun) (text "#42") 4 := by
    unfold IsMember
    decide
  constructor
  · intro h
    have hchannel : ∃ ch ∈ (stateAfter departedRun).channels, ch.name = text "#42" ∧
        4 ∈ ch.memberFds ∧ ch.memberFds ≠
          ((stateAfter sampleRun).channelNamed (text "#42")).memberFds := by decide
    obtain ⟨ch, hch, hname, hfd, hchanged⟩ := hchannel
    have told := h _ (stateAfter_reachable sampleRun) _ _ hstep ch hch
    rw [hname] at told
    obtain ⟨m, hm, _⟩ := told (.inl (Ne.symm hchanged)) 4 hfd
    have hquiet : messagesTo 4 (added (stateAfter sampleRun) (stateAfter departedRun)) = [] := by
      decide
    rw [hquiet] at hm
    cases hm
  · intro h
    have hlisted : text "akira" ∈ viewOf (text "#42") (queuedTo 4 (stateAfter departedRun)) := by
      decide
    obtain ⟨z, hz, _, hnick⟩ := h _ (stateAfter_reachable departedRun) _ 4 member _ hlisted
    have hgone : ∀ z ∈ (stateAfter departedRun).clients, z.nickname ≠ text "akira" := by decide
    exact hgone z hz hnick

end IrcServer
