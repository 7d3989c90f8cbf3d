import Mathlib.Data.Set.Insert
import Mathlib.Order.BooleanAlgebra.Set
import Mathlib.Logic.Function.Basic
import IrcServer.Spec.Notice

/-! # The network

What the server is for, without tables, positions, descriptors and buffers: accounts,
rooms found by their names, and the reaction to a message as a function of the two.
Connections are the elements of any type. A room cannot be built empty, with a member
twice, or with an operator who is not a member.
-/

namespace IrcServer

/-- No text is no value. -/
def noneIfEmpty (b : Bytes) : Option Bytes := if b = [] then none else some b

/-! ## Accounts and rooms -/

structure Account where
  nickname : Option Bytes := none
  username : Option Bytes := none
  passed : Bool := false

namespace Account

def nick (a : Account) : Bytes := a.nickname.getD []

def Registered (a : Account) : Prop := a.nickname ≠ none ∧ a.username ≠ none

end Account

@[ext]
structure Room (ι : Type*) where
  /-- In the order of joining. -/
  members : List ι
  operators : Set ι
  invited : Set ι := ∅
  inviteOnly : Bool := false
  topicLocked : Bool := false
  key : Option Bytes := none
  limit : Option Nat := none
  topic : Option Bytes := none
  distinct : members.Nodup
  inhabited : members ≠ []
  operators_members : ∀ x ∈ operators, x ∈ members

namespace Room

variable {ι : Type*}

def found (x : ι) : Room ι where
  members := [x]
  operators := {x}
  distinct := List.nodup_singleton x
  inhabited := List.cons_ne_nil _ _
  operators_members _ hy := List.mem_singleton.mpr hy

def join (r : Room ι) (x : ι) (outside : x ∉ r.members) : Room ι where
  __ := r
  members := r.members ++ [x]
  distinct := by
    have hdisjoint : r.members.Disjoint [x] := by simpa using outside
    exact r.distinct.append (List.nodup_singleton x) hdisjoint
  inhabited := List.append_ne_nil_of_left_ne_nil r.inhabited _
  operators_members y hy := List.mem_append_left _ (r.operators_members y hy)

/-- A room that its last member leaves is gone. -/
def expel [DecidableEq ι] (r : Room ι) (x : ι) : Option (Room ι) :=
  if left : r.members.filter (fun y => y ≠ x) ≠ [] then
    some
      { r with
        members := r.members.filter fun y => y ≠ x
        operators := r.operators \ {x}
        distinct := r.distinct.filter _
        inhabited := left
        operators_members := fun y hy =>
          List.mem_filter.mpr ⟨r.operators_members y hy.1, by simpa using hy.2⟩ }
  else none

/-- Whoever leaves the network is not invited any more either. -/
def leave [DecidableEq ι] (r : Room ι) (x : ι) : Option (Room ι) :=
  (r.expel x).map fun r => { r with invited := r.invited \ {x} }

theorem leave_outside [DecidableEq ι] {r : Room ι} {x : ι} (outside : x ∉ r.members)
    (uninvited : x ∉ r.invited) : r.leave x = some r := by
  have hmembers : r.members.filter (fun y => y ≠ x) = r.members := by
    apply List.filter_eq_self.mpr
    intro y hy
    exact decide_eq_true fun heq => outside (heq ▸ hy)
  have hoperators : r.operators \ {x} = r.operators :=
    Set.sdiff_singleton_eq_self fun hx => outside (r.operators_members x hx)
  have hleft : r.members.filter (fun y => y ≠ x) ≠ [] := by
    rw [hmembers]
    exact r.inhabited
  rw [leave, expel, dif_pos hleft, Option.map_some]
  exact congrArg some (Room.ext hmembers hoperators (Set.sdiff_singleton_eq_self uninvited) rfl rfl
    rfl rfl rfl)

def grant (r : Room ι) (x : ι) (member : x ∈ r.members) : Room ι :=
  { r with
    operators := insert x r.operators
    operators_members := by
      rintro y (rfl | hy)
      · exact member
      · exact r.operators_members y hy }

def revoke (r : Room ι) (x : ι) : Room ι :=
  { r with
    operators := r.operators \ {x}
    operators_members := fun y hy => r.operators_members y hy.1 }

end Room

@[ext]
structure Network (ι : Type*) where
  password : Bytes
  account : ι → Option Account
  room : Bytes → Option (Room ι)

/-- The reaction to a message: the account of its sender, at most one room by name, and what
everybody is told. -/
@[ext]
structure Reaction (ι : Type*) where
  account : Account
  change : Option (Bytes × Option (Room ι)) := none
  outbox : ι → List Notice

namespace Network

variable {ι : Type*}

def start (password : Bytes) : Network ι where
  password := password
  account _ := none
  room _ := none

/-- `x` is connected under this nickname; the empty one is that of everybody without a nickname. -/
def Holds (net : Network ι) (nick : Bytes) (x : ι) : Prop :=
  ∃ a, net.account x = some a ∧ a.nick = nick

def nickOf (net : Network ι) (x : ι) : Bytes := ((net.account x).map Account.nick).getD []

variable [DecidableEq ι]

def reply (x : ι) (a : Account) (notice : Notice) : Reaction ι where
  account := a
  outbox y := if y = x then [notice] else []

def silence (a : Account) : Reaction ι where
  account := a
  outbox _ := []

def announce (a : Account) (name : Bytes) (r : Room ι) (after : Option (Room ι)) (notice : Notice) :
    Reaction ι where
  account := a
  change := some (name, after)
  outbox y := if y ∈ r.members then [notice] else []

/-! ## Registration -/

section Registration

variable (net : Network ι) (x : ι) (a : Account) (message : Message)

open scoped Classical in
noncomputable def pass : Reaction ι :=
  if a.Registered then reply x a (.numeric 462 a.nick [])
  else if message.params = [] then reply x a (.numeric 461 a.nick (text "PASS"))
  else if net.password = message.param 0 then silence { a with passed := true }
  else reply x a (.numeric 464 a.nick [])

open scoped Classical in
noncomputable def nick : Reaction ι :=
  let new := message.param 0
  if a.passed = false then reply x a (.numeric 451 a.nick [])
  else if message.params = [] then reply x a (.numeric 431 a.nick [])
  else if checkNickValid new = false then reply x a (.numeric 432 a.nick new)
  else if ∃ y, y ≠ x ∧ net.Holds new y then reply x a (.numeric 433 a.nick new)
  else if a.Registered then reply x { a with nickname := some new } (.renamed new)
  else if a.username ≠ none then reply x { a with nickname := some new } (.numeric 1 new [])
  else silence { a with nickname := some new }

open scoped Classical in
noncomputable def user : Reaction ι :=
  let new := message.param 0
  if a.Registered then reply x a (.numeric 462 a.nick [])
  else if a.passed = false then reply x a (.numeric 451 a.nick [])
  else if message.params.length < 4 then reply x a (.numeric 461 a.nick (text "USER"))
  else if a.nickname ≠ none then reply x { a with username := some new } (.numeric 1 a.nick [])
  else silence { a with username := some new }

end Registration

/-! ## Rooms -/

section Rooms

variable (net : Network ι) (x : ι) (a : Account) (message : Message)

open scoped Classical in
/-- `r` is the room with the new member in it. -/
noncomputable def seat (name : Bytes) (r : Room ι) : Reaction ι where
  account := a
  change := some (name, some r)
  outbox y :=
    (if y ∈ r.members then [.joined a.nick name] else []) ++
      if y = x then
        [.names a.nick name (r.members.map fun z => (net.nickOf z, decide (z ∈ r.operators))),
          .endOfNames a.nick name]
      else []

open scoped Classical in
noncomputable def enter (name : Bytes) (r : Room ι) : Reaction ι :=
  if member : x ∈ r.members then reply x a (.numeric 443 a.nick name)
  else if r.inviteOnly = true ∧ x ∉ r.invited then reply x a (.numeric 473 a.nick name)
  else if r.key ≠ none ∧ message.params[1]? ≠ r.key then reply x a (.numeric 475 a.nick name)
  else if ∃ limit ∈ r.limit, limit ≤ r.members.length then reply x a (.numeric 471 a.nick name)
  else net.seat x a name (r.join x member)

open scoped Classical in
noncomputable def join : Reaction ι :=
  let name := message.param 0
  if ¬ a.Registered then reply x a (.numeric 451 a.nick [])
  else if message.params = [] then reply x a (.numeric 461 a.nick (text "JOIN"))
  else if validChannelName name = false then reply x a (.numeric 403 a.nick name)
  else
    match net.room name with
    | none => net.seat x a name (.found x)
    | some r => net.enter x a message name r

open scoped Classical in
noncomputable def privmsg : Reaction ι :=
  let target := message.param 0
  let body := message.param 1
  if ¬ a.Registered then reply x a (.numeric 451 a.nick [])
  else if message.params = [] then reply x a (.numeric 411 a.nick [])
  else if message.params.length < 2 ∨ body = [] then reply x a (.numeric 412 a.nick [])
  else if target.head? = some hash then
    match net.room target with
    | none => reply x a (.numeric 403 a.nick target)
    | some r =>
        if x ∉ r.members then reply x a (.numeric 404 a.nick target)
        else
          { account := a
            outbox := fun y => if y ∈ r.members ∧ y ≠ x then [.said a.nick target body] else [] }
  else if ¬ ∃ y, net.Holds target y then reply x a (.numeric 401 a.nick target)
  else
    { account := a
      outbox := fun y => if net.Holds target y then [.said a.nick target body] else [] }

open scoped Classical in
noncomputable def topic : Reaction ι :=
  let name := message.param 0
  let new := message.param 1
  if ¬ a.Registered then reply x a (.numeric 451 a.nick [])
  else if message.params = [] then reply x a (.numeric 461 a.nick (text "TOPIC"))
  else
    match net.room name with
    | none => reply x a (.numeric 403 a.nick name)
    | some r =>
        if message.params.length = 1 then
          match r.topic with
          | none => reply x a (.numeric 331 a.nick name)
          | some topic => reply x a (.topicIs a.nick name topic)
        else if x ∉ r.members then reply x a (.numeric 442 a.nick name)
        else if r.topicLocked = true ∧ x ∉ r.operators then reply x a (.numeric 482 a.nick name)
        else
          announce a name r (some { r with topic := noneIfEmpty new }) (.titled a.nick name new)

open scoped Classical in
noncomputable def kick : Reaction ι :=
  let name := message.param 0
  let target := message.param 1
  if ¬ a.Registered then reply x a (.numeric 451 a.nick [])
  else if message.params.length < 2 then reply x a (.numeric 461 a.nick (text "KICK"))
  else
    match net.room name with
    | none => reply x a (.numeric 403 a.nick name)
    | some r =>
        if x ∉ r.operators then reply x a (.numeric 482 a.nick name)
        else if ¬ ∃ y, net.Holds target y then reply x a (.numeric 401 a.nick target)
        else
          match r.members.find? (net.Holds target ·) with
          | none => reply x a (.numeric 441 a.nick (target ++ text " " ++ name))
          | some d =>
              if r.operators = {d} ∧ r.members ≠ [d] then reply x a (.lastKick a.nick)
              else
                announce a name r (r.expel d)
                  (.kicked a.nick name target (message.params.getD 2 a.nick))

open scoped Classical in
noncomputable def invite : Reaction ι :=
  let target := message.param 0
  let name := message.param 1
  if ¬ a.Registered then reply x a (.numeric 451 a.nick [])
  else if message.params.length < 2 then reply x a (.numeric 461 a.nick (text "INVITE"))
  else if ¬ ∃ y, net.Holds target y then reply x a (.numeric 401 a.nick target)
  else
    match net.room name with
    | none => reply x a (.numeric 403 a.nick name)
    | some r =>
        if x ∉ r.operators then reply x a (.numeric 482 a.nick name)
        else if ∃ y ∈ r.members, net.Holds target y then
          reply x a (.numeric 443 a.nick (target ++ text " " ++ name))
        else
          { account := a
            change := some (name, some { r with invited := r.invited ∪ {y | net.Holds target y} })
            outbox := fun y =>
              (if net.Holds target y then [.invited a.nick target name] else []) ++
                if y = x then [.numeric 341 a.nick (target ++ text " " ++ name)] else [] }

open scoped Classical in
noncomputable def hand (name : Bytes) (r : Room ι) (d : ι) (member : d ∈ r.members) : Reaction ι :=
  let change := message.param 1 ++ text " " ++ message.param 2
  if message.param 1 = text "+o" then
    if d ∈ r.operators then silence a
    else announce a name r (some (r.grant d member)) (.moded a.nick name change)
  else if d ∉ r.operators then silence a
  else if r.operators = {d} then reply x a (.lastMode a.nick)
  else announce a name r (some (r.revoke d)) (.moded a.nick name change)

open scoped Classical in
noncomputable def appoint (name : Bytes) (r : Room ι) : Reaction ι :=
  let target := message.param 2
  if message.params.length < 3 then reply x a (.numeric 461 a.nick (text "MODE"))
  else if ¬ ∃ y, net.Holds target y then reply x a (.numeric 401 a.nick target)
  else
    match hfind : r.members.find? (net.Holds target ·) with
    | none => reply x a (.numeric 441 a.nick (target ++ text " " ++ name))
    | some d => hand x a message name r d (List.mem_of_find?_eq_some hfind)

open scoped Classical in
noncomputable def alter (name : Bytes) (r : Room ι) : Reaction ι :=
  let mode := message.param 1
  let arg := message.param 2
  if mode = text "+i" ∨ mode = text "-i" then
    announce a name r (some { r with inviteOnly := mode = text "+i" }) (.moded a.nick name mode)
  else if mode = text "+t" ∨ mode = text "-t" then
    announce a name r (some { r with topicLocked := mode = text "+t" }) (.moded a.nick name mode)
  else if mode = text "+k" ∨ mode = text "-k" then
    if message.params.length < 3 then reply x a (.numeric 461 a.nick (text "MODE"))
    else if mode = text "+k" then
      announce a name r (some { r with key := noneIfEmpty arg })
        (.moded a.nick name (text "+k " ++ arg))
    else announce a name r (some { r with key := none }) (.moded a.nick name (text "-k"))
  else if mode = text "-l" then
    announce a name r (some { r with limit := none }) (.moded a.nick name (text "-l"))
  else if mode = text "+l" then
    if message.params.length < 3 ∨ arg = [] ∨ arg.all isDigit = false ∨ atoi arg ≤ 0 then
      reply x a (.numeric 461 a.nick (text "MODE"))
    else
      announce a name r (some { r with limit := some (atoi arg).toNat })
        (.moded a.nick name (text "+l " ++ arg))
  else if mode = text "+o" ∨ mode = text "-o" then net.appoint x a message name r
  else reply x a (.numeric 472 a.nick mode)

open scoped Classical in
noncomputable def mode : Reaction ι :=
  let name := message.param 0
  if ¬ a.Registered then reply x a (.numeric 451 a.nick [])
  else if message.params.length < 2 then reply x a (.numeric 461 a.nick (text "MODE"))
  else
    match net.room name with
    | none => reply x a (.numeric 403 a.nick name)
    | some r =>
        if x ∉ r.operators then reply x a (.numeric 482 a.nick name)
        else net.alter x a message name r

/-- The reaction to any message of the connection `x` with the account `a`. -/
noncomputable def respond : Reaction ι :=
  let command := message.command
  if command = text "PASS" then net.pass x a message
  else if command = text "NICK" then net.nick x a message
  else if command = text "USER" then user x a message
  else if command = text "JOIN" then net.join x a message
  else if command = text "PRIVMSG" then net.privmsg x a message
  else if command = text "TOPIC" then net.topic x a message
  else if command = text "KICK" then net.kick x a message
  else if command = text "INVITE" then net.invite x a message
  else if command = text "MODE" then net.mode x a message
  else if command = [] then silence a
  else reply x a (.numeric 421 a.nick command)

end Rooms

/-! ## Actions -/

def connect (net : Network ι) (x : ι) : Network ι :=
  { net with account := Function.update net.account x (some {}) }

def close (net : Network ι) (x : ι) : Network ι where
  password := net.password
  account := Function.update net.account x none
  room name := (net.room name).bind (·.leave x)

/-- A connection that is closed at once leaves no trace. -/
theorem close_connect {net : Network ι} {x : ι} (fresh : net.account x = none)
    (outside : ∀ name r, net.room name = some r → x ∉ r.members ∧ x ∉ r.invited) :
    (net.connect x).close x = net := by
  apply Network.ext
  · rfl
  · simp only [close, connect]
    rw [Function.update_idem, ← fresh, Function.update_eq_self]
  · funext name
    cases h : net.room name with
    | none => simp only [close, connect, h, Option.bind_none]
    | some r =>
        have hr := outside name r h
        simp only [close, connect, h, Option.bind_some, Room.leave_outside hr.1 hr.2]

def apply (net : Network ι) (x : ι) (reaction : Reaction ι) : Network ι where
  password := net.password
  account := Function.update net.account x (some reaction.account)
  room :=
    match reaction.change with
    | none => net.room
    | some (name, after) => Function.update net.room name after

/-! An action is about the account of its connection alone. -/

section Others

variable (net : Network ι) {x y : ι} (h : y ≠ x)

include h

theorem connect_account : (net.connect x).account y = net.account y :=
  Function.update_of_ne h _ _

theorem close_account : (net.close x).account y = net.account y :=
  Function.update_of_ne h _ _

theorem apply_account (reaction : Reaction ι) : (net.apply x reaction).account y = net.account y :=
  Function.update_of_ne h _ _

end Others

end Network

inductive Action (ι : Type*) where
  | connect (x : ι)
  | line (x : ι) (message : Message)
  | close (x : ι)
  deriving DecidableEq

namespace Network

variable {ι : Type*} [DecidableEq ι]

/-- The network after an action, and what everybody is told. -/
noncomputable def act (net : Network ι) : Action ι → Network ι × (ι → List Notice)
  | .connect x => (net.connect x, fun _ => [])
  | .line x message =>
      match net.account x with
      | none => (net, fun _ => [])
      | some a =>
          let reaction := net.respond x a message
          (net.apply x reaction, reaction.outbox)
  | .close x => (net.close x, fun _ => [])

/-- A network and what every connection has been told so far. A new connection begins with
nothing. -/
noncomputable def deliver (state : Network ι × (ι → List Notice)) (action : Action ι) :
    Network ι × (ι → List Notice) :=
  let (net, told) := state.1.act action
  let before := match action with
    | .connect x => Function.update state.2 x []
    | _ => state.2
  (net, fun y => before y ++ told y)

theorem deliver_connect (state : Network ι × (ι → List Notice)) (x : ι) :
    deliver state (.connect x) = (state.1.connect x, Function.update state.2 x []) :=
  Prod.ext rfl (funext fun _ => List.append_nil _)

theorem deliver_line (state : Network ι × (ι → List Notice)) {x : ι} {a : Account}
    (connected : state.1.account x = some a) (message : Message) :
    deliver state (.line x message) =
      (state.1.apply x (state.1.respond x a message),
        fun y => state.2 y ++ (state.1.respond x a message).outbox y) := by
  simp only [deliver, act, connected]

theorem deliver_close (state : Network ι × (ι → List Notice)) (x : ι) :
    deliver state (.close x) = (state.1.close x, state.2) :=
  Prod.ext rfl (funext fun _ => List.append_nil _)

noncomputable def replay (password : Bytes) (actions : List (Action ι)) :
    Network ι × (ι → List Notice) :=
  actions.foldl deliver (start password, fun _ => [])

theorem replay_append (password : Bytes) (before after : List (Action ι)) :
    replay password (before ++ after) = after.foldl deliver (replay password before) :=
  List.foldl_append

end Network

end IrcServer
