import IrcServer.Library.Purge
import IrcServer.Spec.Runs

/-! # Strangers

A connection that has not given the password has an empty account and is in no room. It
can be told from nobody only by its nickname, which is the empty one. So who never asks
for the empty nickname sees a network without strangers.
-/

namespace IrcServer

variable {ι : Type*}

/-- The nickname that a line asks for, if it gives one. -/
def Message.asks (message : Message) : Option Bytes :=
  if message.command = text "PRIVMSG" ∨ message.command = text "INVITE" then message.params[0]?
  else if message.command = text "KICK" then message.params[1]?
  else if message.command = text "MODE" ∧
      (message.param 1 = text "+o" ∨ message.param 1 = text "-o") then message.params[2]?
  else none

def Message.Authenticates (password : Bytes) (message : Message) : Prop :=
  message.command = text "PASS" ∧ message.params ≠ [] ∧ password = message.param 0

def Action.connection : Action ι → ι
  | .connect x => x
  | .line x _ => x
  | .close x => x

/-- Strangers do not give the password, and the others do not ask for the empty nickname. -/
def Action.Discreet (password : Bytes) (strange : ι → Bool) : Action ι → Prop
  | .line x message =>
      if strange x then ¬ message.Authenticates password else message.asks ≠ some []
  | _ => True

instance (password : Bytes) (message : Message) : Decidable (message.Authenticates password) :=
  inferInstanceAs (Decidable (_ ∧ _ ∧ _))

instance (password : Bytes) (strange : ι → Bool) : DecidablePred (Action.Discreet password strange)
  | .connect _ => .isTrue trivial
  | .line x message => inferInstanceAs (Decidable
      (if strange x then ¬ message.Authenticates password else message.asks ≠ some []))
  | .close _ => .isTrue trivial

theorem Reaction.ite_else {p : Prop} {_ : Decidable p} {reaction other other' : Reaction ι}
    (h : ¬ p → other = other') :
    (if p then reaction else other) = if p then reaction else other' := by
  split
  · rfl
  · next hp => exact h hp

namespace Network

open Reaction

/-! ## What a line reads -/

section Reads

variable {net net' : Network ι} (holds : ∀ nick, nick ≠ [] → net.Holds nick = net'.Holds nick)
  (room : net.room = net'.room) [DecidableEq ι] (x : ι) (a : Account) (message : Message)

theorem param_ne_nil {message : Message} {k : Nat} (given : k < message.params.length)
    (h : message.params[k]? ≠ some []) : message.param k ≠ [] := by
  intro hempty
  have hsome := List.getElem?_eq_getElem given
  rw [Message.param, List.getD_eq_getElem?_getD, hsome, Option.getD_some] at hempty
  exact h (hsome.trans (congrArg some hempty))

include holds

theorem nick_reads : net.nick x a message = net'.nick x a message := by
  refine ite_else fun _ => ite_else fun _ => ite_else fun valid => ?_
  have hne : message.param 0 ≠ [] := fun hempty => valid (by rw [hempty]; rfl)
  rw [holds _ hne]

include room

theorem privmsg_reads (h : message.params[0]? ≠ some []) :
    net.privmsg x a message = net'.privmsg x a message := by
  refine ite_else fun _ => ite_else fun _ => ite_else fun two => ?_
  have hne : message.param 0 ≠ [] := param_ne_nil (by omega) h
  rw [holds _ hne, room]

theorem kick_reads (h : message.params[1]? ≠ some []) :
    net.kick x a message = net'.kick x a message := by
  refine ite_else fun _ => ite_else fun two => ?_
  have hne : message.param 1 ≠ [] := param_ne_nil (by omega) h
  rw [holds _ hne, room]

theorem invite_reads (h : message.params[0]? ≠ some []) :
    net.invite x a message = net'.invite x a message := by
  refine ite_else fun _ => ite_else fun two => ?_
  have hne : message.param 0 ≠ [] := param_ne_nil (by omega) h
  rw [holds _ hne, room]

open scoped Classical in
omit room in
theorem appoint_reads (name : Bytes) (r : Room ι) (h : message.params[2]? ≠ some []) :
    net.appoint x a message name r = net'.appoint x a message name r := by
  refine ite_else fun three => ?_
  have hne : message.param 2 ≠ [] := param_ne_nil (by omega) h
  have hholds := holds _ hne
  have hexists : (∃ y, net.Holds (message.param 2) y) = ∃ y, net'.Holds (message.param 2) y := by
    rw [hholds]
  have hfind : r.members.find? (net.Holds (message.param 2) ·) =
      r.members.find? (net'.Holds (message.param 2) ·) := by rw [hholds]
  rw [hexists]
  refine ite_else fun _ => ?_
  split
  · next hnone =>
      rw [hfind] at hnone
      split
      · rfl
      · next hsome => cases hsome.symm.trans hnone
  · next d hsome =>
      rw [hfind] at hsome
      split
      · next hnone => cases hnone.symm.trans hsome
      · next d' hd' =>
          obtain rfl := Option.some.inj (hsome.symm.trans hd')
          rfl

theorem mode_reads (h : message.param 1 = text "+o" ∨ message.param 1 = text "-o" →
    message.params[2]? ≠ some []) : net.mode x a message = net'.mode x a message := by
  refine ite_else fun _ => ite_else fun _ => ?_
  rw [room]
  split
  · rfl
  · next r _ =>
      refine ite_else fun _ => ite_else fun _ => ite_else fun _ => ite_else fun _ =>
        ite_else fun _ => ite_else fun _ => ?_
      by_cases operator : message.param 1 = text "+o" ∨ message.param 1 = text "-o"
      · rw [if_pos operator, if_pos operator]
        exact appoint_reads holds x a message _ r (h operator)
      · rw [if_neg operator, if_neg operator]

omit holds room in
theorem seat_reads {name : Bytes} {r : Room ι}
    (names : ∀ y ∈ r.members, net.nickOf y = net'.nickOf y) :
    net.seat x a name r = net'.seat x a name r := by
  have hlist : ∀ mark : ι → Bool, (r.members.map fun y => (net.nickOf y, mark y)) =
      r.members.map fun y => (net'.nickOf y, mark y) := fun mark =>
    List.map_congr_left fun y hy => by rw [names y hy]
  unfold seat
  rw [hlist]

omit holds in
theorem join_reads (self : net.nickOf x = net'.nickOf x)
    (names : ∀ name r, net'.room name = some r → ∀ y ∈ r.members, net.nickOf y = net'.nickOf y) :
    net.join x a message = net'.join x a message := by
  refine ite_else fun _ => ite_else fun _ => ite_else fun _ => ?_
  rw [room]
  split
  · refine seat_reads x a fun y hy => ?_
    rw [List.mem_singleton.mp hy, self]
  · next r found =>
      unfold enter
      split
      · rfl
      · refine ite_else fun _ => ite_else fun _ => ite_else fun _ => seat_reads x a fun y hy => ?_
        rcases List.mem_append.mp hy with hy | hy
        · exact names _ r found y hy
        · rw [List.mem_singleton.mp hy, self]

omit holds in
theorem topic_reads : net.topic x a message = net'.topic x a message := by
  refine ite_else fun _ => ite_else fun _ => ?_
  rw [room]

theorem respond_reads (password : net.password = net'.password)
    (self : net.nickOf x = net'.nickOf x)
    (names : ∀ name r, net'.room name = some r → ∀ y ∈ r.members, net.nickOf y = net'.nickOf y)
    (h : message.asks ≠ some []) : net.respond x a message = net'.respond x a message := by
  unfold respond
  dsimp only
  by_cases pass : message.command = text "PASS"
  · rw [if_pos pass, if_pos pass, Network.pass, Network.pass, password]
  rw [if_neg pass, if_neg pass, nick_reads holds x a message, join_reads room x a message self names,
    topic_reads room x a message]
  refine ite_else fun _ => ite_else fun _ => ite_else fun _ => ?_
  by_cases privmsg : message.command = text "PRIVMSG"
  · rw [Message.asks, if_pos (.inl privmsg)] at h
    rw [if_pos privmsg, if_pos privmsg, privmsg_reads holds room x a message h]
  rw [if_neg privmsg, if_neg privmsg]
  refine ite_else fun _ => ?_
  by_cases kick : message.command = text "KICK"
  · have hinvite : message.command ≠ text "INVITE" := fun h' => message.not_other kick h' (by decide)
    rw [Message.asks, if_neg (not_or.mpr ⟨privmsg, hinvite⟩), if_pos kick] at h
    rw [if_pos kick, if_pos kick, kick_reads holds room x a message h]
  rw [if_neg kick, if_neg kick]
  by_cases invite : message.command = text "INVITE"
  · rw [Message.asks, if_pos (.inr invite)] at h
    rw [if_pos invite, if_pos invite, invite_reads holds room x a message h]
  rw [if_neg invite, if_neg invite]
  by_cases mode : message.command = text "MODE"
  · rw [Message.asks, if_neg (not_or.mpr ⟨privmsg, invite⟩), if_neg kick] at h
    rw [if_pos mode, if_pos mode, mode_reads holds room x a message fun operator => ?_]
    rwa [if_pos ⟨mode, operator⟩] at h
  rw [if_neg mode, if_neg mode]

end Reads

/-! ## What a stranger is told -/

theorem unregistered_empty : ¬ ({} : Account).Registered := fun h => h.1 rfl

section Stranger

variable [DecidableEq ι]

/-- At most a reply to the stranger itself. -/
def Ignores (x : ι) (reaction : Reaction ι) : Prop :=
  ∃ notices, reaction = ⟨{}, none, fun y => if y = x then notices else []⟩

theorem reply_ignores (x : ι) (notice : Notice) : Ignores x (reply x {} notice) := ⟨_, rfl⟩

theorem silence_ignores (x : ι) : Ignores x (silence {}) := by
  refine ⟨[], ?_⟩
  simp only [silence, ite_self]

/-- Commands that need a registration are refused. -/
theorem ignores_unregistered {x : ι} {_ : Decidable ¬ ({} : Account).Registered} {notice : Notice}
    {reaction : Reaction ι} :
    Ignores x (if ¬ ({} : Account).Registered then reply x {} notice else reaction) := by
  rw [if_pos unregistered_empty]
  exact reply_ignores x notice

theorem respond_stranger (net : Network ι) (x : ι) {message : Message}
    (h : ¬ message.Authenticates net.password) : Ignores x (net.respond x {} message) := by
  have pass : message.command = text "PASS" → Ignores x (net.pass x {} message) := by
    intro command
    unfold pass
    split
    · exact reply_ignores x _
    split
    · exact reply_ignores x _
    · next given =>
        split
        · next password => exact absurd ⟨command, given, password⟩ h
        · exact reply_ignores x _
  -- without the password the two names are refused
  have nick : Ignores x (net.nick x {} message) := reply_ignores x _
  have user : Ignores x (user x {} message) := by
    unfold user
    dsimp only
    split
    · exact reply_ignores x _
    split
    · exact reply_ignores x _
    · next passed => exact absurd rfl passed
  unfold respond
  dsimp only
  split
  · next command => exact pass command
  split
  · exact nick
  split
  · exact user
  split
  · exact ignores_unregistered
  split
  · exact ignores_unregistered
  split
  · exact ignores_unregistered
  split
  · exact ignores_unregistered
  split
  · exact ignores_unregistered
  split
  · exact ignores_unregistered
  split
  · exact silence_ignores x
  · exact reply_ignores x _

end Stranger

/-! ## Without strangers -/

/-- The second network is the first without the strangers, who have empty accounts. -/
structure Without (secret : Bytes) (strange : ι → Bool) (net net' : Network ι) : Prop where
  password : net.password = secret
  password' : net'.password = secret
  account : ∀ x, strange x = false → net.account x = net'.account x
  empty : ∀ x a, strange x = true → net.account x = some a → a = {}
  absent : ∀ x, strange x = true → net'.account x = none
  room : net.room = net'.room
  closed : net'.Closed

section Without

variable {secret : Bytes} {strange : ι → Bool} {net net' : Network ι} {x : ι}
  (h : Without secret strange net net')

include h

theorem Without.member {name : Bytes} {r : Room ι} (found : net'.room name = some r) {y : ι}
    (hy : y ∈ r.members ∨ y ∈ r.invited) : strange y = false := by
  by_contra hstrange
  rw [Bool.not_eq_false] at hstrange
  exact h.closed name r found y hy (h.absent y hstrange)

theorem Without.holds (nick : Bytes) (hne : nick ≠ []) : net.Holds nick = net'.Holds nick := by
  funext y
  cases hstrange : strange y with
  | false => simp only [Holds, h.account y hstrange]
  | true =>
      simp only [Holds, h.absent y hstrange, eq_iff_iff]
      constructor
      · rintro ⟨a, ha, rfl⟩
        exact absurd (h.empty y a hstrange ha ▸ rfl) hne
      · rintro ⟨a, ha, _⟩
        cases ha

variable [DecidableEq ι]

theorem Without.respond (known : strange x = false) (a : Account) {message : Message}
    (asks : message.asks ≠ some []) : net.respond x a message = net'.respond x a message := by
  have names : ∀ y, strange y = false → net.nickOf y = net'.nickOf y := fun y hy => by
    rw [nickOf, nickOf, h.account y hy]
  exact respond_reads h.holds h.room x a message (h.password.trans h.password'.symm) (names x known)
    (fun _ _ found y hy => names y (h.member found (.inl hy))) asks

theorem Without.hidden (hstrange : strange x = true) {u : Network ι} {after : Option Account}
    (password : u.password = net.password) (account : u.account = Function.update net.account x after)
    (empty : ∀ a, after = some a → a = {}) (room : u.room = net.room) :
    Without secret strange u net' := by
  refine ⟨password.trans h.password, h.password', fun y hy => ?_, fun y a hy ha => ?_, h.absent,
    room.trans h.room, h.closed⟩
  · have hne : y ≠ x := by
      rintro rfl
      exact Bool.false_ne_true (hy.symm.trans hstrange)
    rw [account, Function.update_of_ne hne, h.account y hy]
  · rw [account, Function.update_apply] at ha
    split at ha
    · exact empty a ha
    · exact h.empty y a hy ha

theorem Without.shown (known : strange x = false) {u u' : Network ι} {after : Option Account}
    (password : u.password = net.password) (password' : u'.password = net'.password)
    (account : u.account = Function.update net.account x after)
    (account' : u'.account = Function.update net'.account x after) (room : u.room = u'.room)
    (closed : u'.Closed) : Without secret strange u u' := by
  have other : ∀ {y}, strange y = true → y ≠ x := by
    rintro y hy rfl
    exact Bool.false_ne_true (known.symm.trans hy)
  refine ⟨password.trans h.password, password'.trans h.password', fun y hy => ?_,
    fun y a hy ha => ?_, fun y hy => ?_, room, closed⟩
  · rw [account, account', Function.update_apply, Function.update_apply, h.account y hy]
  · rw [account, Function.update_of_ne (other hy)] at ha
    exact h.empty y a hy ha
  · rw [account', Function.update_of_ne (other hy)]
    exact h.absent y hy

theorem Without.close_hidden (hstrange : strange x = true) :
    Without secret strange (net.close x) net' := by
  refine h.hidden hstrange rfl rfl (fun _ h => absurd h (by simp)) (funext fun name => ?_)
  have hclose : (net.close x).room name = (net'.room name).bind (·.leave x) := by
    simp only [close, h.room]
  rw [hclose, h.room]
  cases hroom : net'.room name with
  | none => rfl
  | some r =>
      have outside : ¬ (x ∈ r.members ∨ x ∈ r.invited) := fun hx =>
        Bool.false_ne_true ((h.member hroom hx).symm.trans hstrange)
      exact Room.leave_outside (not_or.mp outside).1 (not_or.mp outside).2

end Without

/-! ## Runs -/

section Runs

variable [DecidableEq ι] {secret : Bytes} {strange : ι → Bool}

/-- A network and its mail, and those without the strangers. -/
structure Unnoticed (secret : Bytes) (strange : ι → Bool)
    (state state' : Network ι × (ι → List Notice)) : Prop where
  network : Without secret strange state.1 state'.1
  mail : ∀ x, strange x = false → state.2 x = state'.2 x

theorem deliver_blind : Purge.Blind (fun (state : Network ι × _) action => (deliver state action, ()))
    (Action.Discreet secret strange) (fun action => !strange action.connection)
    (Unnoticed secret strange) := by
  constructor
  · exact fun _ _ _ _ _ _ => rfl
  · intro state state' action discreet h visible
    have known : strange action.connection = false := by simpa using visible
    cases action with
    | connect x =>
        simp only [deliver_connect]
        refine ⟨h.network.shown known rfl rfl rfl rfl h.network.room (h.network.closed.connect x),
          fun y hy => ?_⟩
        simp only [Function.update_apply, h.mail y hy]
    | close x =>
        simp only [deliver_close]
        refine ⟨h.network.shown known rfl rfl rfl rfl ?_ (h.network.closed.close x), h.mail⟩
        simp only [close, h.network.room]
    | line x message =>
        have known : strange x = false := known
        have asks : message.asks ≠ some [] := by
          rwa [Action.Discreet, if_neg (Bool.eq_false_iff.mp known)] at discreet
        have haccount := h.network.account x known
        cases connected : state.1.account x with
        | none =>
            have connected' := haccount.symm.trans connected
            simp only [deliver, act, connected, connected', List.append_nil]
            exact h
        | some a =>
            have connected' := haccount.symm.trans connected
            have respond := h.network.respond known a asks
            have within := respond_within x a message h.network.closed
              (by simp [connected'])
            simp only [deliver_line state connected, deliver_line state' connected', respond]
            refine ⟨h.network.shown known rfl rfl rfl rfl ?_ (h.network.closed.apply within),
              fun y hy => by simp only [h.mail y hy]⟩
            simp only [apply, h.network.room]
  · intro state state' action discreet h hidden
    have hstrange : strange action.connection = true := by simpa using hidden
    cases action with
    | connect x =>
        simp only [deliver_connect]
        refine ⟨h.network.hidden hstrange rfl rfl (fun a ha => (Option.some.inj ha).symm) rfl,
          fun y hy => ?_⟩
        have hne : y ≠ x := by
          rintro rfl
          exact Bool.false_ne_true (hy.symm.trans hstrange)
        simp only [Function.update_of_ne hne, h.mail y hy]
    | close x =>
        simp only [deliver_close]
        exact ⟨h.network.close_hidden hstrange, h.mail⟩
    | line x message =>
        have hstrange : strange x = true := hstrange
        cases connected : state.1.account x with
        | none =>
            simp only [deliver, act, connected, List.append_nil]
            exact h
        | some a =>
            obtain rfl := h.network.empty x a hstrange connected
            have refused : ¬ message.Authenticates state.1.password := by
              rw [h.network.password]
              rwa [Action.Discreet, if_pos hstrange] at discreet
            obtain ⟨notices, hrespond⟩ := respond_stranger state.1 x refused
            simp only [deliver_line state connected, hrespond]
            refine ⟨h.network.hidden hstrange rfl rfl (fun a ha => (Option.some.inj ha).symm) rfl,
              fun y hy => ?_⟩
            have hne : y ≠ x := by
              rintro rfl
              exact Bool.false_ne_true (hy.symm.trans hstrange)
            simp only [if_neg hne, List.append_nil, h.mail y hy]

/-- The others are told the same as in a run without strangers. -/
theorem replay_unnoticed {actions : List (Action ι)}
    (discreet : ∀ action ∈ actions, action.Discreet secret strange) :
    Unnoticed secret strange (replay secret actions)
      (replay secret (actions.filter fun action => !strange action.connection)) := by
  have start : Unnoticed secret strange ((Network.start secret : Network ι), fun _ => [])
      (Network.start secret, fun _ => []) :=
    ⟨⟨rfl, rfl, fun _ _ => rfl, fun _ _ _ h => absurd h (by simp [Network.start]), fun _ _ => rfl,
      rfl, fun _ _ h => absurd h (by simp [Network.start])⟩, fun _ _ => rfl⟩
  exact deliver_blind.outcome start discreet

/-- The run without strangers is one that the network can be given. -/
theorem legal_without {actions : List (Action ι)} (legal : Legal secret actions)
    (discreet : ∀ action ∈ actions, action.Discreet secret strange) :
    Legal secret (actions.filter fun action => !strange action.connection) := by
  induction legal with
  | nil => exact .nil
  | snoc actions action before allowed ih =>
      have discreet' := fun a ha => discreet a (List.mem_append_left _ ha)
      have network := (replay_unnoticed discreet').network
      rw [List.filter_append]
      cases known : strange action.connection with
      | true => simpa [known] using ih discreet'
      | false =>
          have hlast : [action].filter (fun action => !strange action.connection) = [action] := by
            simp [known]
          rw [hlast]
          refine .snoc _ action (ih discreet') ?_
          cases action with
          | connect x => exact (network.account x known).symm.trans allowed
          | line x message => exact fun h => allowed ((network.account x known).trans h)
          | close x => exact fun h => allowed ((network.account x known).trans h)

end Runs

end Network

end IrcServer
