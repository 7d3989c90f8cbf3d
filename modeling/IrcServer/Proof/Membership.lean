import IrcServer.Proof.Listing
import IrcServer.Proof.Telling

/-! # Who is on a channel

The members of a channel change by JOIN, KICK and disconnection and by nothing else.
Each accepted command is one of three kinds: it adds its sender, it removes a member,
or it keeps all members.
-/

namespace IrcServer

open Search Machine

section Membership

variable {s s' : Machine} {name : Bytes} {fd : Int}

theorem Table.isMember_iff (table : Table s.toServer) {ch : Channel} (hch : ch ∈ s.channels)
    (fd : Int) : IsMember s ch.name fd ↔ fd ∈ ch.memberFds := by
  constructor
  · rintro ⟨x, hx, hname, hfd⟩
    exact table.unique_name hx hch hname ▸ hfd
  · exact fun hfd => ⟨ch, hch, rfl, hfd⟩

theorem IsMember.of_channels (h : s'.channels = s.channels) :
    IsMember s' name fd ↔ IsMember s name fd := by
  rw [IsMember, h]
  rfl

theorem isMember_snoc {ch : Channel} (h : s'.channels = s.channels ++ [ch]) :
    IsMember s' name fd ↔ IsMember s name fd ∨ ch.name = name ∧ fd ∈ ch.memberFds := by
  rw [IsMember, h]
  simp only [List.mem_append, List.mem_singleton, or_and_right, exists_or, exists_eq_left]
  rfl

theorem Table.isMember_set (table : Table s.toServer) {k : Nat} {ch ch' : Channel}
    (found : s.channels[k]? = some ch) (h : s'.channels = s.channels.set k ch')
    (hname : ch'.name = ch.name) (name : Bytes) (fd : Int) :
    IsMember s' name fd ↔
      (name ≠ ch.name ∧ IsMember s name fd) ∨ (name = ch.name ∧ fd ∈ ch'.memberFds) := by
  have hch := List.mem_of_getElem? found
  have hk : k < s.channels.length := (List.getElem?_eq_some_iff.mp found).choose
  rw [IsMember, h]
  constructor
  · rintro ⟨x, hx, rfl, hfd⟩
    obtain ⟨j, hj⟩ := List.mem_iff_getElem?.mp hx
    by_cases hjk : k = j
    · subst hjk
      rw [List.getElem?_set_self hk] at hj
      obtain rfl := Option.some.inj hj
      exact Or.inr ⟨hname, hfd⟩
    · rw [List.getElem?_set_ne hjk] at hj
      have hx := List.mem_of_getElem? hj
      refine Or.inl ⟨fun heq => hjk ?_, x, hx, rfl, hfd⟩
      have hone : AtMostOne (named ch.name) s.channels := atMostOne_of_nodup table.names ch.name
      exact hone k j ch x found hj (by simp [named]) (by simpa [named] using heq)
  · rintro (⟨hne, x, hx, rfl, hfd⟩ | ⟨rfl, hfd⟩)
    · rcases mem_set_of_mem found hx ch' with rfl | hset
      · exact absurd rfl hne
      · exact ⟨x, hset, rfl, hfd⟩
    · exact ⟨ch', List.mem_set hk ch', hname, hfd⟩

theorem Table.isMember_set_same (table : Table s.toServer) {k : Nat} {ch ch' : Channel}
    (found : s.channels[k]? = some ch) (h : s'.channels = s.channels.set k ch')
    (hname : ch'.name = ch.name) (hmembers : ch'.memberFds = ch.memberFds) (name : Bytes)
    (fd : Int) : IsMember s' name fd ↔ IsMember s name fd := by
  have hold := table.isMember_iff (List.mem_of_getElem? found) fd
  rw [table.isMember_set found h hname, hmembers, ← hold]
  by_cases hne : name = ch.name
  · simp [hne]
  · simp [hne]

theorem Table.isMember_eraseIdx (table : Table s.toServer) {k : Nat} {ch : Channel}
    (found : s.channels[k]? = some ch) (h : s'.channels = s.channels.eraseIdx k) :
    IsMember s' name fd ↔ name ≠ ch.name ∧ IsMember s name fd := by
  rw [IsMember, h]
  constructor
  · rintro ⟨x, hx, rfl, hfd⟩
    obtain ⟨j, hjk, hj⟩ := List.mem_eraseIdx_iff_getElem?.mp hx
    refine ⟨fun heq => hjk ?_, x, List.mem_of_getElem? hj, rfl, hfd⟩
    have hone : AtMostOne (named ch.name) s.channels := atMostOne_of_nodup table.names ch.name
    exact hone j k x ch hj found (by simpa [named] using heq) (by simp [named])
  · rintro ⟨hne, x, hx, rfl, hfd⟩
    rcases mem_eraseIdx_of_mem found hx with rfl | herase
    · exact absurd rfl hne
    · exact ⟨x, herase, rfl, hfd⟩

theorem Table.isMember_without (table : Table s.toServer) {i : Nat} {c : Client} :
    IsMember (s.without i c) name fd ↔ IsMember s name fd ∧ fd ≠ c.fd := by
  constructor
  · rintro ⟨x, hx, rfl, hfd⟩
    obtain ⟨ch, hch, _, rfl⟩ := table.mem_without.mp hx
    rw [(table.consistent ch hch).leave_eq] at hfd
    obtain ⟨hfd, hne⟩ := List.mem_filter.mp hfd
    exact ⟨⟨ch, hch, rfl, hfd⟩, by simpa using hne⟩
  · rintro ⟨⟨ch, hch, rfl, hfd⟩, hne⟩
    have hstays : fd ∈ ch.memberFds.filter (· ≠ c.fd) :=
      List.mem_filter.mpr ⟨hfd, by simpa using hne⟩
    refine ⟨ch.leave c.fd, table.mem_without.mpr ⟨ch, hch, List.ne_nil_of_mem hstays, rfl⟩, rfl, ?_⟩
    rwa [(table.consistent ch hch).leave_eq]

theorem IsMember.nickname_iff (invariant : Invariant s) {c d : Client} (hc : c ∈ s.clients)
    (hd : d ∈ s.clients) (h : IsMember s name d.fd) :
    d.nickname = c.nickname ↔ d.fd = c.fd := by
  obtain ⟨ch, hch, _, hfd⟩ := h
  constructor
  · exact fun hnick =>
      invariant.identities.unique d hd c hc hnick (invariant.member_nickname hch hd hfd)
  · exact fun heq => by rw [invariant.table.same_client hd hc heq]

end Membership

/-! ## Accepted commands -/

inductive Regroups (s s' : Machine) (c : Client) (a : Announcement) : Prop
  | joins (registered : c.registered = true) (ch : Channel)
      (announced : a = joinAnnouncement c ch s.clients)
      (listed : ∀ fd, fd ∈ ch.memberFds ↔ IsMember s' ch.name fd)
      (members : ∀ name fd, IsMember s' name fd ↔ IsMember s name fd ∨ ch.name = name ∧ fd = c.fd)
  | kicks (d : Client) (hd : d ∈ s.clients) (member : IsMember s a.channel d.fd) (reason : Bytes)
      (announced : a.line = kickMessage c a.channel d.nickname reason) (alone : a.replies = [])
      (recipients : ∀ fd, IsMember s a.channel fd → fd ∈ a.recipients)
      (members : ∀ name fd, IsMember s' name fd ↔
        IsMember s name fd ∧ ¬ (a.channel = name ∧ fd = d.fd))
  | keeps (announced : verb a.line ∉ noticed) (alone : a.replies = [])
      (members : ∀ name fd, IsMember s' name fd ↔ IsMember s name fd)

section Line

variable {s s' : Machine} {i : Nat} {c : Client} {message : Message} {c' : Client}
  {channels : List Channel} {sends : List (Nat × Bytes)} {a : Announcement}

theorem Announces.regroups (announces : Announces s.toServer c message channels a)
    (table : Table s.toServer) (sound : c.Sound) (h : s'.channels = channels) :
    Regroups s s' c a := by
  obtain ⟨_, hspace⟩ := sound.nickname_bytes
  have mode : ∀ ch change, verb (modeMessage c ch change) ∉ noticed := by
    intro ch change
    rw [modeMessage_eq, verb_wireLine hspace (by decide)]
    decide
  cases announces with
  | create command registered valid fresh =>
      have hnone : ∀ fd, ¬ IsMember s (message.param 0) fd := by
        rintro fd ⟨ch, hch, hname, _⟩
        exact fresh ch hch hname
      refine .joins registered _ rfl (fun fd => ?_) fun name fd => ?_
      · rw [isMember_snoc h]
        simp [Channel.founded, hnone]
      · rw [isMember_snoc h]
        simp [Channel.founded]
  | join k ch at_ =>
      have hold := table.isMember_iff (List.mem_of_getElem? at_.found)
      have hset := table.isMember_set at_.found h rfl
      refine .joins at_.registered _ rfl (fun fd => ?_) fun name fd => ?_
      · rw [hset]
        simp [Channel.joined]
      · rw [hset, Channel.joined, List.mem_append, List.mem_singleton, ← hold]
        by_cases hname : name = ch.name
        · simp [hname]
        · simp [hname, Ne.symm hname]
  | privmsg k ch =>
      refine .keeps ?_ rfl fun name fd => IsMember.of_channels h
      rw [privmsgMessage_eq, verb_wireLine hspace (by decide)]
      decide
  | topic k ch at_ =>
      refine .keeps ?_ rfl (table.isMember_set_same at_.found h rfl rfl)
      rw [topicMessage_eq, verb_wireLine hspace (by decide)]
      decide
  | kick k ch at_ two operator target d targets member =>
      have hold := table.isMember_iff (List.mem_of_getElem? at_.found)
      have hremoved : ∀ fd, fd ∈ (ch.removeMember d.fd).memberFds ↔
          IsMember s ch.name fd ∧ fd ≠ d.fd := by
        intro fd
        rw [hold, Channel.removeMember,
          erase_eq_filter (table.consistent ch (List.mem_of_getElem? at_.found)).members_nodup,
          List.mem_filter, decide_eq_true_eq]
      refine .kicks d (List.mem_of_getElem? targets.found) ((hold d.fd).mpr member) _
        (by rw [targets.nickname]) rfl (fun fd hfd => (hold fd).mp hfd) fun name fd => ?_
      split at h
      · next hlast =>
          rw [table.isMember_eraseIdx at_.found h]
          have hnone := hremoved fd
          rw [hlast] at hnone
          by_cases hname : name = ch.name
          · subst hname
            simpa using hnone
          · simp [hname, Ne.symm hname]
      · rw [table.isMember_set at_.found h rfl, hremoved]
        by_cases hname : name = ch.name
        · simp [hname]
        · simp [hname, Ne.symm hname]
  | mode k ch ch' change at_ operator changes =>
      obtain ⟨hname, hlists⟩ := changes.sameLists
      exact .keeps (mode _ _) rfl (table.isMember_set_same at_.found h hname.symm hlists.1.symm)
  | grant k ch at_ => exact .keeps (mode _ _) rfl (table.isMember_set_same at_.found h rfl rfl)
  | revoke k ch at_ => exact .keeps (mode _ _) rfl (table.isMember_set_same at_.found h rfl rfl)

/-- A line is announced, or nobody notices it and nobody's membership changes. -/
theorem Dispatched.regroups (effect : Dispatched s.toServer i c message c' channels sends)
    (table : Table s.toServer) (sound : c.Sound) (h : s'.channels = channels) :
    (∃ a, Announces s.toServer c message channels a ∧ sends = a.sends s.clients i ∧ c' = c) ∨
      ((∀ call ∈ sends, verb call.2 ∉ noticed) ∧
        ∀ name fd, IsMember s' name fd ↔ IsMember s name fd) := by
  refine or_iff_not_imp_left.mpr fun unannounced => ⟨fun call hcall => ?_, ?_⟩
  · cases effect.kind sound with
    | refused m refusal =>
        rw [List.mem_singleton.mp hcall]
        exact fun hmem => refusal.errorVerb.ne_of_not (noticed_head hmem).1 rfl
    | registers _ _ _ m welcome =>
        rw [List.mem_singleton.mp hcall, welcome]
        decide
    | replies _ _ _ _ verbs => exact (verbs call hcall).unnoticed
    | whispers =>
        rw [List.mem_singleton.mp hcall, privmsgMessage_eq,
          verb_wireLine sound.nickname_bytes.2 (by decide)]
        decide
    | announces _ a announces => exact absurd ⟨a, announces, rfl, rfl⟩ unannounced
  · cases effect with
    | invited command registered two k ch found name operator target d =>
        exact table.isMember_set_same found h (ch.addInvite_name d.fd) (ch.addInvite_memberFds d.fd)
    | announced _ a announces => exact absurd ⟨a, announces, rfl, rfl⟩ unannounced
    | _ => exact fun name fd => IsMember.of_channels h

end Line

end IrcServer
