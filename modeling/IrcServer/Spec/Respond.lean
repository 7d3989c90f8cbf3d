import IrcServer.Spec.Change
import IrcServer.Spec.Network

/-! # What a line can do

The handlers of the network are read here once. Every reaction to a line is one of six,
which says what the command was, which room was found, and who is in the room left behind.
-/

namespace IrcServer

variable {ι : Type*}

def channelCommands : List Bytes :=
  [text "JOIN", text "PRIVMSG", text "TOPIC", text "KICK", text "INVITE", text "MODE"]

def accountCommands : List Bytes := [text "PASS", text "NICK", text "USER"]

theorem channelName_first (message : Message) {word : Bytes} (h : message.command = word)
    (hne : word ≠ text "INVITE") : message.channelName = message.param 0 :=
  if_neg (h ▸ hne)

theorem not_account_of_channel {message : Message} (h : message.command ∈ channelCommands) :
    message.command ∉ accountCommands := by
  have disjoint : ∀ word ∈ channelCommands, word ∉ accountCommands := by decide +kernel
  exact disjoint _ h

def Notice.Modeless (notice : Notice) : Prop :=
  ∀ source channel change, notice ≠ .moded source channel change

def Room.TakesNobody (r r' : Room ι) : Prop :=
  ∀ y, y ∈ r'.members ∨ y ∈ r'.invited → y ∈ r.members ∨ y ∈ r.invited

theorem Room.takesNobody_expel [DecidableEq ι] {r r' : Room ι} {d : ι} (h : r' ∈ r.expel d) :
    r.TakesNobody r' := by
  intro y hy
  unfold Room.expel at h
  split at h
  · obtain rfl := Option.some.inj h
    exact hy.imp_left List.mem_of_mem_filter
  · cases h

namespace Network

variable [DecidableEq ι]

inductive Responds (net : Network ι) (x : ι) (a : Account) (message : Message) :
    Reaction ι → Prop
  | replied (b : Account) (notice : Notice) (sender : b = a ∨ message.command ∈ accountCommands)
      (modeless : notice.Modeless) : Responds net x a message (reply x b notice)
  | silent (b : Account) (sender : b = a ∨ message.command ∈ accountCommands) :
      Responds net x a message (silence b)
  | seated (name : Bytes) (r : Room ι) (named : name = message.channelName)
      (enters : net.room name = none ∧ r = .found x ∨
        ∃ r' outside, net.room name = some r' ∧ r = r'.join x outside) :
      Responds net x a message (net.seat x a name r)
  | said (outbox : ι → List Notice) (modeless : ∀ y, ∀ notice ∈ outbox y, notice.Modeless) :
      Responds net x a message { account := a, outbox := outbox }
  | announced (name : Bytes) (r : Room ι) (after : Option (Room ι)) (notice : Notice)
      (named : name = message.channelName) (found : net.room name = some r)
      (takes : ∀ r' ∈ after, r.TakesNobody r')
      (modes : ∀ source channel change, notice = .moded source channel change → channel = name) :
      Responds net x a message (announce a name r after notice)
  | invited (name : Bytes) (r : Room ι) (nick : Bytes) (outbox : ι → List Notice)
      (named : name = message.channelName) (found : net.room name = some r)
      (modeless : ∀ y, ∀ notice ∈ outbox y, notice.Modeless) :
      Responds net x a message
        { account := a
          change := some (name, some { r with invited := r.invited ∪ {y | net.Holds nick y} })
          outbox := outbox }

variable {net : Network ι} {x : ι} {a : Account} {message : Message}

theorem Responds.refused (code : Nat) (arg : Bytes) :
    net.Responds x a message (reply x a (.numeric code a.nick arg)) :=
  .replied a _ (.inl rfl) nofun

theorem Responds.account {reaction : Reaction ι} (h : net.Responds x a message reaction)
    (other : message.command ∉ accountCommands) : reaction.account = a := by
  cases h with
  | replied b notice sender => exact sender.resolve_right other
  | silent b sender => exact sender.resolve_right other
  | seated => rfl
  | said => rfl
  | announced => rfl
  | invited => rfl

/-! ## The account -/

section Account

variable (own : message.command ∈ accountCommands)

include own

theorem pass_responds : net.Responds x a message (net.pass x a message) := by
  unfold pass
  split
  · exact .refused _ _
  split
  · exact .refused _ _
  split
  · exact .silent _ (.inr own)
  · exact .refused _ _

theorem nick_responds : net.Responds x a message (net.nick x a message) := by
  unfold nick
  dsimp only
  split
  · exact .refused _ _
  split
  · exact .refused _ _
  split
  · exact .refused _ _
  split
  · exact .refused _ _
  split
  · exact .replied _ _ (.inr own) nofun
  split
  · exact .replied _ _ (.inr own) nofun
  · exact .silent _ (.inr own)

theorem user_responds : net.Responds x a message (user x a message) := by
  unfold user
  dsimp only
  split
  · exact .refused _ _
  split
  · exact .refused _ _
  split
  · exact .refused _ _
  split
  · exact .replied _ _ (.inr own) nofun
  · exact .silent _ (.inr own)

end Account

/-! ## The rooms -/

section Rooms

theorem join_responds (command : message.command = text "JOIN") :
    net.Responds x a message (net.join x a message) := by
  have named := (channelName_first message command (by decide)).symm
  unfold join
  dsimp only
  split
  · exact .refused _ _
  split
  · exact .refused _ _
  split
  · exact .refused _ _
  split
  · next fresh => exact .seated _ _ named (.inl ⟨fresh, rfl⟩)
  · next r found =>
      unfold enter
      split
      · exact .refused _ _
      · next outside =>
          split
          · exact .refused _ _
          split
          · exact .refused _ _
          split
          · exact .refused _ _
          · exact .seated _ _ named (.inr ⟨r, outside, found, rfl⟩)

theorem privmsg_responds : net.Responds x a message (net.privmsg x a message) := by
  unfold privmsg
  dsimp only
  split
  · exact .refused _ _
  split
  · exact .refused _ _
  split
  · exact .refused _ _
  split
  · split
    · exact .refused _ _
    · split
      · exact .refused _ _
      · refine .said _ fun y notice hnotice => ?_
        simp only [List.mem_ite_nil_right, List.mem_singleton] at hnotice
        rw [hnotice.2]
        exact nofun
  split
  · exact .refused _ _
  · refine .said _ fun y notice hnotice => ?_
    simp only [List.mem_ite_nil_right, List.mem_singleton] at hnotice
    rw [hnotice.2]
    exact nofun

theorem topic_responds (command : message.command = text "TOPIC") :
    net.Responds x a message (net.topic x a message) := by
  have named := (channelName_first message command (by decide)).symm
  unfold topic
  dsimp only
  split
  · exact .refused _ _
  split
  · exact .refused _ _
  split
  · exact .refused _ _
  · next r found =>
      split
      · split
        · exact .refused _ _
        · exact .replied _ _ (.inl rfl) nofun
      split
      · exact .refused _ _
      split
      · exact .refused _ _
      · refine .announced _ r _ _ named found (fun r' hr' => ?_) nofun
        obtain rfl := Option.some.inj hr'
        exact fun y hy => hy

theorem kick_responds (command : message.command = text "KICK") :
    net.Responds x a message (net.kick x a message) := by
  have named := (channelName_first message command (by decide)).symm
  unfold kick
  dsimp only
  split
  · exact .refused _ _
  split
  · exact .refused _ _
  split
  · exact .refused _ _
  · next r found =>
      split
      · exact .refused _ _
      split
      · exact .refused _ _
      split
      · exact .refused _ _
      · split
        · exact .replied _ _ (.inl rfl) nofun
        · exact .announced _ r _ _ named found (fun r' hr' => Room.takesNobody_expel hr') nofun

theorem invite_responds (command : message.command = text "INVITE") :
    net.Responds x a message (net.invite x a message) := by
  have named : message.param 1 = message.channelName := (if_pos command).symm
  unfold invite
  dsimp only
  split
  · exact .refused _ _
  split
  · exact .refused _ _
  split
  · exact .refused _ _
  split
  · exact .refused _ _
  · next r found =>
      split
      · exact .refused _ _
      split
      · exact .refused _ _
      · refine .invited _ r _ _ named found fun y notice hnotice => ?_
        simp only [List.mem_append, List.mem_ite_nil_right, List.mem_singleton] at hnotice
        rcases hnotice with ⟨_, rfl⟩ | ⟨_, rfl⟩
        · exact nofun
        · exact nofun

section Mode

variable {r : Room ι} (named : message.param 0 = message.channelName)
  (found : net.room (message.param 0) = some r)

include named found

theorem Responds.moded {r' : Room ι} {change : Bytes} (members : r'.members = r.members)
    (invited : r'.invited = r.invited) :
    net.Responds x a message (announce a (message.param 0) r (some r')
      (.moded a.nick (message.param 0) change)) := by
  refine .announced _ r _ _ named found (fun r'' hr'' => ?_) fun _ channel _ heq => ?_
  · obtain rfl := Option.some.inj hr''
    intro y hy
    rwa [members, invited] at hy
  · exact (Notice.moded.inj heq).2.1.symm

theorem appoint_responds :
    net.Responds x a message (net.appoint x a message (message.param 0) r) := by
  unfold appoint
  dsimp only
  split
  · exact .refused _ _
  split
  · exact .refused _ _
  split
  · exact .refused _ _
  · unfold hand
    dsimp only
    split
    · split
      · exact .silent a (.inl rfl)
      · exact .moded named found rfl rfl
    split
    · exact .silent a (.inl rfl)
    split
    · exact .replied _ _ (.inl rfl) nofun
    · exact .moded named found rfl rfl

theorem alter_responds : net.Responds x a message (net.alter x a message (message.param 0) r) := by
  unfold alter
  dsimp only
  split
  · exact .moded named found rfl rfl
  split
  · exact .moded named found rfl rfl
  split
  · split
    · exact .refused _ _
    split
    · exact .moded named found rfl rfl
    · exact .moded named found rfl rfl
  split
  · exact .moded named found rfl rfl
  split
  · split
    · exact .refused _ _
    · exact .moded named found rfl rfl
  split
  · exact appoint_responds named found
  · exact .refused _ _

end Mode

theorem mode_responds (command : message.command = text "MODE") :
    net.Responds x a message (net.mode x a message) := by
  have named := (channelName_first message command (by decide)).symm
  unfold mode
  dsimp only
  split
  · exact .refused _ _
  split
  · exact .refused _ _
  split
  · exact .refused _ _
  · next r found =>
      split
      · exact .refused _ _
      · exact alter_responds named found

end Rooms

theorem respond_responds (net : Network ι) (x : ι) (a : Account) (message : Message) :
    net.Responds x a message (net.respond x a message) := by
  unfold respond
  dsimp only
  split
  · next command => exact pass_responds (by rw [command]; decide)
  split
  · next command => exact nick_responds (by rw [command]; decide)
  split
  · next command => exact user_responds (by rw [command]; decide)
  split
  · next command => exact join_responds command
  split
  · exact privmsg_responds
  split
  · next command => exact topic_responds command
  split
  · next command => exact kick_responds command
  split
  · next command => exact invite_responds command
  split
  · next command => exact mode_responds command
  split
  · exact .silent a (.inl rfl)
  · exact .refused _ _

end Network

end IrcServer
