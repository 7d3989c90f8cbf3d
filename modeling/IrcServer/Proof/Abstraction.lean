import IrcServer.Proof.Clients
import IrcServer.Spec.Network

/-! # The network of a machine

The tables of a machine read as a network: an account for every client, a room for every
channel. A change of one channel is a change of one room.
-/

namespace IrcServer

open Search Machine

def Client.account (c : Client) : Account where
  nickname := noneIfEmpty c.nickname
  username := if c.userRecived then some c.username else none
  passed := c.passRecived

def Channel.room {connected : List Int} (ch : Channel) (h : ch.Consistent connected) :
    Room Int where
  members := ch.memberFds
  operators := {fd | fd ∈ ch.operatorFds}
  invited := {fd | fd ∈ ch.invitedFds}
  inviteOnly := ch.inviteOnly
  topicLocked := ch.changeTopic
  key := noneIfEmpty ch.key
  limit := if 0 < ch.limit then some ch.limit.toNat else none
  topic := noneIfEmpty ch.topic
  distinct := h.members_nodup
  inhabited := h.inhabited
  operators_members := h.operators_members

def Machine.network (s : Machine) (table : Table s.toServer) : Network Int where
  password := s.passwd
  account fd := (s.clients.find? fun c => decide (c.fd = fd)).map Client.account
  room name := (s.channels.find? (named name)).pmap
    (fun ch hch => ch.room (table.consistent ch hch)) fun _ h => List.mem_of_find?_eq_some h

/-! ## Accounts -/

section Accounts

@[simp] theorem noneIfEmpty_getD (b : Bytes) : (noneIfEmpty b).getD [] = b := by
  unfold noneIfEmpty
  split
  · next h => rw [h]; rfl
  · rfl

theorem noneIfEmpty_ne_none {b : Bytes} : noneIfEmpty b ≠ none ↔ b ≠ [] := by
  unfold noneIfEmpty
  split <;> simp_all

theorem noneIfEmpty_eq_some {b : Bytes} (h : b ≠ []) : noneIfEmpty b = some b := if_neg h

@[simp] theorem account_nick (c : Client) : c.account.nick = c.nickname := noneIfEmpty_getD _

theorem account_username (c : Client) : c.account.username ≠ none ↔ c.userRecived = true := by
  unfold Client.account
  cases c.userRecived <;> simp

theorem Client.Sound.account_registered {c : Client} (sound : c.Sound) :
    c.account.Registered ↔ c.registered = true := by
  rw [sound.registered, sound.received, Account.Registered, account_username]
  exact and_congr_left fun _ => noneIfEmpty_ne_none

variable {s : Machine} (table : Table s.toServer)

theorem network_account {c : Client} (hc : c ∈ s.clients) :
    (s.network table).account c.fd = some c.account := by
  have hfind : s.clients.find? (fun d => decide (d.fd = c.fd)) = some c := by
    cases h : s.clients.find? fun d => decide (d.fd = c.fd) with
    | none => exact absurd (List.find?_eq_none.mp h c hc) (by simp)
    | some d =>
        have hfd : d.fd = c.fd := by simpa using List.find?_some h
        rw [table.same_client (List.mem_of_find?_eq_some h) hc hfd]
  simp only [network, hfind, Option.map_some]

theorem network_account_none {fd : Int} (h : ∀ c ∈ s.clients, c.fd ≠ fd) :
    (s.network table).account fd = none := by
  have hfind : s.clients.find? (fun d => decide (d.fd = fd)) = none :=
    List.find?_eq_none.mpr fun c hc => by simpa using h c hc
  simp only [network, hfind, Option.map_none]

theorem network_account_some {fd : Int} {a : Account} (h : (s.network table).account fd = some a) :
    ∃ c ∈ s.clients, c.fd = fd ∧ c.account = a := by
  obtain ⟨c, hfind, rfl⟩ := Option.map_eq_some_iff.mp h
  exact ⟨c, List.mem_of_find?_eq_some hfind, by simpa using List.find?_some hfind, rfl⟩

theorem network_holds {nick : Bytes} {fd : Int} :
    (s.network table).Holds nick fd ↔ ∃ c ∈ s.clients, c.fd = fd ∧ c.nickname = nick := by
  constructor
  · rintro ⟨a, haccount, hnick⟩
    obtain ⟨c, hc, hfd, rfl⟩ := network_account_some table haccount
    exact ⟨c, hc, hfd, (account_nick c).symm.trans hnick⟩
  · rintro ⟨c, hc, rfl, hnick⟩
    exact ⟨c.account, network_account table hc, (account_nick c).trans hnick⟩

theorem network_holds_iff {nick : Bytes} {c : Client} (hc : c ∈ s.clients) :
    (s.network table).Holds nick c.fd ↔ c.nickname = nick := by
  rw [network_holds]
  constructor
  · rintro ⟨d, hd, hfd, hnick⟩
    rwa [← table.same_client hd hc hfd]
  · exact fun hnick => ⟨c, hc, rfl, hnick⟩

theorem exists_holds {nick : Bytes} :
    (∃ fd, (s.network table).Holds nick fd) ↔ ∃ c ∈ s.clients, c.nickname = nick := by
  constructor
  · rintro ⟨fd, hholds⟩
    obtain ⟨c, hc, _, hnick⟩ := (network_holds table).mp hholds
    exact ⟨c, hc, hnick⟩
  · rintro ⟨c, hc, hnick⟩
    exact ⟨c.fd, (network_holds_iff table hc).mpr hnick⟩

theorem network_nickOf {c : Client} (hc : c ∈ s.clients) :
    (s.network table).nickOf c.fd = c.nickname := by
  rw [Network.nickOf, network_account table hc, Option.map_some, Option.getD_some, account_nick]

end Accounts

/-! ## Rooms -/

structure Channel.Models (ch : Channel) (r : Room Int) : Prop where
  members : ch.memberFds = r.members
  operators : ∀ fd, fd ∈ ch.operatorFds ↔ fd ∈ r.operators
  invited : ∀ fd, fd ∈ ch.invitedFds ↔ fd ∈ r.invited
  inviteOnly : ch.inviteOnly = r.inviteOnly
  topicLocked : ch.changeTopic = r.topicLocked
  key : noneIfEmpty ch.key = r.key
  limit : (if 0 < ch.limit then some ch.limit.toNat else none) = r.limit
  topic : noneIfEmpty ch.topic = r.topic

section Rooms

variable {connected : List Int}

theorem Channel.Models.room_eq {ch : Channel} {r : Room Int} (models : ch.Models r)
    (h : ch.Consistent connected) : ch.room h = r :=
  Room.ext models.members (Set.ext models.operators) (Set.ext models.invited) models.inviteOnly
    models.topicLocked models.key models.limit models.topic

theorem room_models (ch : Channel) (h : ch.Consistent connected) : ch.Models (ch.room h) :=
  ⟨rfl, fun _ => Iff.rfl, fun _ => Iff.rfl, rfl, rfl, rfl, rfl, rfl⟩

theorem founded_models {name : Bytes} {fd : Int} :
    (Channel.founded name fd).Models (Room.found fd) where
  members := rfl
  operators _ := List.mem_singleton
  invited _ := by simp [Channel.founded, Room.found]
  inviteOnly := rfl
  topicLocked := rfl
  key := rfl
  limit := rfl
  topic := rfl

theorem joined_models {ch : Channel} {r : Room Int} (models : ch.Models r) {fd : Int}
    (outside : fd ∉ r.members) : (ch.joined fd).Models (r.join fd outside) :=
  { models with members := congrArg (· ++ [fd]) models.members }

theorem invited_models {ch : Channel} {r : Room Int} (models : ch.Models r) (fd : Int) :
    (ch.addInvite fd).Models { r with invited := r.invited ∪ {x | x = fd} } := by
  have hinvited : ∀ x, x ∈ (ch.addInvite fd).invitedFds ↔ x ∈ r.invited ∪ {x | x = fd} := by
    intro x
    rw [ch.mem_addInvite, models.invited]
    rfl
  unfold Channel.addInvite at hinvited ⊢
  split
  · next hmem =>
      rw [if_pos hmem] at hinvited
      exact { models with invited := hinvited }
  · next hmem =>
      rw [if_neg hmem] at hinvited
      exact { models with invited := hinvited }

theorem Channel.Models.full {ch : Channel} {r : Room Int} (models : ch.Models r) :
    (∃ limit ∈ r.limit, limit ≤ r.members.length) ↔
      0 < ch.limit ∧ ch.limit ≤ ch.memberFds.length := by
  rw [← models.limit, ← models.members]
  split
  · next hpos =>
      simp only [Option.mem_some_iff, exists_eq_left']
      omega
  · next hpos => simp [hpos]

theorem Channel.Models.keyed {ch : Channel} {r : Room Int} (models : ch.Models r)
    (given : Option Bytes) :
    r.key ≠ none ∧ given ≠ r.key ↔ ch.key ≠ [] ∧ given ≠ some ch.key := by
  rw [← models.key, noneIfEmpty_ne_none]
  refine and_congr_right fun hne => ?_
  rw [noneIfEmpty_eq_some hne]

theorem Channel.Models.restricted {ch : Channel} {r : Room Int} (models : ch.Models r) (fd : Int) :
    r.inviteOnly = true ∧ fd ∉ r.invited ↔ ch.inviteOnly = true ∧ fd ∉ ch.invitedFds := by
  rw [models.inviteOnly, models.invited]

section Fields

variable (ch : Channel) (h : ch.Consistent connected)

@[simp] theorem room_members : (ch.room h).members = ch.memberFds := rfl

@[simp] theorem mem_room_operators {fd : Int} :
    fd ∈ (ch.room h).operators ↔ fd ∈ ch.operatorFds := Iff.rfl

@[simp] theorem mem_room_invited {fd : Int} : fd ∈ (ch.room h).invited ↔ fd ∈ ch.invitedFds := Iff.rfl

@[simp] theorem room_inviteOnly : (ch.room h).inviteOnly = ch.inviteOnly := rfl

@[simp] theorem room_topicLocked : (ch.room h).topicLocked = ch.changeTopic := rfl

@[simp] theorem room_key : (ch.room h).key = noneIfEmpty ch.key := rfl

@[simp] theorem room_topic : (ch.room h).topic = noneIfEmpty ch.topic := rfl

end Fields

variable {s s' : Machine} (table : Table s.toServer) (table' : Table s'.toServer)

theorem network_room {ch : Channel} (hch : ch ∈ s.channels) :
    (s.network table).room ch.name = some (ch.room (table.consistent ch hch)) := by
  have hfind : s.channels.find? (named ch.name) = some ch := by
    cases h : s.channels.find? (named ch.name) with
    | none => exact absurd (List.find?_eq_none.mp h ch hch) (by simp [named])
    | some x =>
        have hname : x.name = ch.name := by simpa [named] using List.find?_some h
        rw [List.inj_on_of_nodup_map table.names (List.mem_of_find?_eq_some h) hch hname]
  simp [network, hfind]

theorem network_room_none {name : Bytes} (h : ∀ ch ∈ s.channels, ch.name ≠ name) :
    (s.network table).room name = none := by
  have hfind : s.channels.find? (named name) = none :=
    List.find?_eq_none.mpr fun ch hch => by simpa [named] using h ch hch
  simp [network, hfind]

theorem network_room_cases (name : Bytes) :
    (∃ ch, ∃ hch : ch ∈ s.channels, ch.name = name ∧
      (s.network table).room name = some (ch.room (table.consistent ch hch))) ∨
      ((∀ ch ∈ s.channels, ch.name ≠ name) ∧ (s.network table).room name = none) := by
  by_cases h : ∃ ch ∈ s.channels, ch.name = name
  · obtain ⟨ch, hch, rfl⟩ := h
    exact .inl ⟨ch, hch, rfl, network_room table hch⟩
  · have fresh : ∀ ch ∈ s.channels, ch.name ≠ name := fun ch hch hname => h ⟨ch, hch, hname⟩
    exact .inr ⟨fresh, network_room_none table fresh⟩

theorem network_room_kept {name : Bytes}
    (kept : ∀ x : Channel, x.name = name → (x ∈ s'.channels ↔ x ∈ s.channels)) :
    (s'.network table').room name = (s.network table).room name := by
  rcases network_room_cases table name with ⟨ch, hch, rfl, hroom⟩ | ⟨fresh, hroom⟩
  · rw [hroom, network_room table' ((kept ch rfl).mpr hch)]
    rfl
  · rw [hroom]
    exact network_room_none table' fun x hx hname => fresh x ((kept x hname).mp hx) hname

/-- The table `channels` differs from that of `s` in the channel `name` only, where it has what
`after` says. -/
structure Stores (s : Machine) (name : Bytes) (after : Option (Room Int))
    (channels : List Channel) : Prop where
  others : ∀ x : Channel, x.name ≠ name → (x ∈ channels ↔ x ∈ s.channels)
  gone : after = none → ∀ x ∈ channels, x.name ≠ name
  stored : ∀ r, after = some r → ∃ ch ∈ channels, ch.name = name ∧ ch.Models r

theorem Stores.room_eq {name : Bytes} {after : Option (Room Int)}
    (stores : Stores s name after s'.channels) :
    (s'.network table').room = Function.update (s.network table).room name after := by
  funext other
  by_cases h : other = name
  · subst h
    rw [Function.update_self]
    cases after with
    | none => exact network_room_none table' (stores.gone rfl)
    | some r =>
        obtain ⟨ch, hch, rfl, models⟩ := stores.stored r rfl
        rw [network_room table' hch, models.room_eq]
  · rw [Function.update_of_ne h]
    exact network_room_kept table table' fun x hx => stores.others x (hx ▸ h)

theorem stores_set {k : Nat} {ch ch' : Channel} {r : Room Int} (found : s.channels[k]? = some ch)
    (hname : ch'.name = ch.name) (models : ch'.Models r) :
    Stores s ch.name (some r) (s.channels.set k ch') where
  others x hx := by
    constructor
    · intro hmem
      rcases List.mem_or_eq_of_mem_set hmem with hmem | rfl
      · exact hmem
      · exact absurd hname hx
    · intro hmem
      rcases mem_set_of_mem (y := ch') found hmem with rfl | hmem
      · exact absurd rfl hx
      · exact hmem
  gone h := by cases h
  stored r' h := by
    obtain rfl := Option.some.inj h
    have hk := (List.getElem?_eq_some_iff.mp found).choose
    exact ⟨ch', List.mem_set hk _, hname, models⟩

theorem stores_snoc {ch : Channel} {r : Room Int} (models : ch.Models r) :
    Stores s ch.name (some r) (s.channels ++ [ch]) where
  others x hx := by
    rw [List.mem_append, List.mem_singleton]
    refine or_iff_left ?_
    rintro rfl
    exact hx rfl
  gone h := by cases h
  stored r' h := by
    obtain rfl := Option.some.inj h
    exact ⟨ch, by simp, rfl, models⟩

theorem stores_eraseIdx (table : Table s.toServer) {k : Nat} {ch : Channel}
    (found : s.channels[k]? = some ch) :
    Stores s ch.name none (s.channels.eraseIdx k) where
  others x hx := by
    refine ⟨List.mem_of_mem_eraseIdx, fun hmem => ?_⟩
    rcases mem_eraseIdx_of_mem found hmem with rfl | hmem
    · exact absurd rfl hx
    · exact hmem
  gone _ x hx hname := by
    rw [eraseIdx_eq_filter_key table.names found] at hx
    have hother := (List.mem_filter.mp hx).2
    simp [hname] at hother
  stored r h := by cases h

end Rooms

end IrcServer
