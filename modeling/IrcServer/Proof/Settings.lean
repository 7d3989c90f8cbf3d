import IrcServer.Proof.Delivery

/-! # The settings of a channel

The topic, the two flags, the key and the limit of a channel. An accepted TOPIC and an
accepted mode change write them, and nothing else does; a founded channel has none of
them set.
-/

namespace IrcServer

open Search Machine Transition

structure Settings where
  topic : Bytes
  inviteOnly : Bool
  changeTopic : Bool
  key : Bytes
  limit : Int

def Channel.settings (ch : Channel) : Settings :=
  ⟨ch.topic, ch.inviteOnly, ch.changeTopic, ch.key, ch.limit⟩

inductive Channel.SettingsOrigin (s : Machine) (e : Event) (ch' : Channel) : Prop
  | kept (ch : Channel) (hch : ch ∈ s.channels) (name : ch.name = ch'.name)
      (same : ch'.settings = ch.settings)
  | founded (i : Nat) (line : Bytes) (event : e = .command i line) (c : Client)
      (hc : s.clients[i]? = some c) (fresh : ∀ ch ∈ s.channels, ch.name ≠ ch'.name)
      (same : ch' = Channel.founded ch'.name c.fd)
  | titled (i : Nat) (line : Bytes) (event : e = .command i line) (c : Client)
      (hc : s.clients[i]? = some c) (k : Nat) (ch : Channel)
      (at_ : Addresses s.toServer c (Parser.parse line) "TOPIC" k ch)
      (two : 2 ≤ (Parser.parse line).params.length) (member : c.fd ∈ ch.memberFds)
      (allowed : ch.changeTopic = true → c.fd ∈ ch.operatorFds)
      (same : ch' = { ch with topic := (Parser.parse line).param 1 })
  | moded (i : Nat) (line : Bytes) (event : e = .command i line) (c : Client)
      (hc : s.clients[i]? = some c) (k : Nat) (ch : Channel)
      (at_ : Addresses s.toServer c (Parser.parse line) "MODE" k ch)
      (operator : c.fd ∈ ch.operatorFds) (change : Bytes)
      (changes : ModeChange (Parser.parse line) ch ch' change)

section Origin

variable {s s' : Machine} {e : Event} {i : Nat} {c : Client} {line : Bytes} {ch' : Channel}

theorem settings_kept (hch : ch' ∈ s.channels) : Channel.SettingsOrigin s e ch' :=
  .kept ch' hch rfl rfl

theorem addInvite_settings (ch : Channel) (fd : Int) : (ch.addInvite fd).settings = ch.settings := by
  unfold Channel.addInvite
  split <;> rfl

theorem settings_set {k : Nat} {ch new : Channel} (found : s.channels[k]? = some ch)
    (hch' : ch' ∈ s.channels.set k new) (name : ch.name = new.name)
    (same : new.settings = ch.settings) : Channel.SettingsOrigin s e ch' := by
  rcases List.mem_or_eq_of_mem_set hch' with hch' | rfl
  · exact settings_kept hch'
  · exact .kept ch (List.mem_of_getElem? found) name same

theorem Announces.settings_origin (hc : s.clients[i]? = some c) {channels : List Channel}
    {a : Announcement} (announces : Announces s.toServer c (Parser.parse line) channels a)
    (hch' : ch' ∈ channels) : Channel.SettingsOrigin s (.command i line) ch' := by
  cases announces with
  | create command registered valid fresh =>
      rcases List.mem_append.mp hch' with hch' | hch'
      · exact settings_kept hch'
      · obtain rfl := List.mem_singleton.mp hch'
        exact .founded i line rfl c hc fresh rfl
  | join k ch at_ admits => exact settings_set at_.found hch' rfl rfl
  | privmsg => exact settings_kept hch'
  | topic k ch at_ two member allowed =>
      rcases List.mem_or_eq_of_mem_set hch' with hch' | rfl
      · exact settings_kept hch'
      · exact .titled i line rfl c hc k ch at_ two member allowed rfl
  | kick k ch at_ two operator target d targets member keeps =>
      split at hch'
      · exact settings_kept (List.mem_of_mem_eraseIdx hch')
      · exact settings_set at_.found hch' rfl rfl
  | mode k ch new change at_ operator changes =>
      rcases List.mem_or_eq_of_mem_set hch' with hch' | rfl
      · exact settings_kept hch'
      · exact .moded i line rfl c hc k ch at_ operator change changes
  | grant k ch at_ operator plus three target d targets member ordinary =>
      exact settings_set at_.found hch' rfl rfl
  | revoke k ch at_ operator minus three target d targets member special several =>
      exact settings_set at_.found hch' rfl rfl

theorem Dispatched.settings_origin (hc : s.clients[i]? = some c) {c' : Client}
    {channels : List Channel} {sends : List (Nat × Bytes)}
    (effect : Dispatched s.toServer i c (Parser.parse line) c' channels sends)
    (hch' : ch' ∈ channels) : Channel.SettingsOrigin s (.command i line) ch' := by
  cases effect with
  | invited command registered two k ch found name operator target d targets outside =>
      exact settings_set found hch' (ch.addInvite_name d.fd).symm (addInvite_settings ch d.fd)
  | announced channels a announces => exact announces.settings_origin hc hch'
  | _ => exact settings_kept hch'

theorem Stepped.settings_origin (h : Stepped s e s') (hch' : ch' ∈ s'.channels) :
    Channel.SettingsOrigin s e ch' := by
  cases h with
  | dispatched i c hc line clean c' channels sends effect =>
      rw [settle_channels] at hch'
      exact effect.settings_origin hc hch'
  | disconnected i c hc =>
      obtain ⟨hmem, _⟩ := List.mem_filter.mp hch'
      obtain ⟨ch, hch, rfl⟩ := List.mem_map.mp hmem
      exact .kept ch hch rfl rfl
  | _ => exact settings_kept hch'

end Origin

/-! ## Accepted commands -/

section Accepted

variable {s s' : Machine} {i : Nat} {c : Client} {line : Bytes} {channels : List Channel}
  {a : Announcement}

theorem Announces.channels_eq (invariant : Invariant s) (hc : s.clients[i]? = some c)
    (hstep : step s (.command i line) = some s')
    (announces : Announces s.toServer c (Parser.parse line) channels a) : s'.channels = channels :=
  (announces.delivery invariant hc hstep).1

/-- A channel that a command has stored is found under its name. -/
theorem Table.stored (table : Table s'.toServer) {k : Nat} {ch new x : Channel}
    (found : s.channels[k]? = some ch) (h : s'.channels = s.channels.set k new)
    (hx : x ∈ s'.channels) (hname : x.name = new.name) : x = new := by
  have hk : k < s.channels.length := (List.getElem?_eq_some_iff.mp found).choose
  exact table.unique_name hx (h ▸ List.mem_set hk new) hname

end Accepted

end IrcServer
