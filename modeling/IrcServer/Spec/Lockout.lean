import IrcServer.Spec.Network

/-! # Letting somebody in

An operator can take the limit and the key from a room and invite whom it likes. Whoever
is not barred can join, with the key.
-/

namespace IrcServer

variable {ι : Type*}

/-- No JOIN of `y` can succeed, whatever key it gives. -/
def Room.Bars (r : Room ι) (y : ι) : Prop :=
  r.inviteOnly = true ∧ y ∉ r.invited ∨ ∃ limit ∈ r.limit, limit ≤ r.members.length

namespace Room

def unlimited (r : Room ι) : Room ι := { r with limit := none }

def unlocked (r : Room ι) : Room ι := { r with key := none }

def inviting (r : Room ι) (A : Set ι) : Room ι := { r with invited := r.invited ∪ A }

end Room

def Message.order (command : String) (params : List Bytes) : Message := ⟨[], text command, params⟩

namespace Network

def store (net : Network ι) (name : Bytes) (r : Room ι) : Network ι :=
  { net with room := Function.update net.room name (some r) }

@[simp] theorem store_room (net : Network ι) (name : Bytes) (r : Room ι) :
    (net.store name r).room name = some r :=
  Function.update_self ..

variable [DecidableEq ι] {net : Network ι} {x y : ι} {a b : Account} {name : Bytes} {r : Room ι}

theorem apply_store (connected : net.account x = some a) {reaction : Reaction ι}
    (account : reaction.account = a) (change : reaction.change = some (name, some r)) :
    net.apply x reaction = net.store name r := by
  refine Network.ext rfl ?_ ?_
  · rw [apply, account, ← connected, Function.update_eq_self]
    rfl
  · simp only [apply, change, store]

/-! ## The commands -/

section Operator

variable (registered : a.Registered) (found : net.room name = some r) (operator : x ∈ r.operators)

include registered found operator

theorem respond_mode {mode : Bytes} {rest : List Bytes} :
    net.respond x a (.order "MODE" (name :: mode :: rest)) =
      net.alter x a (.order "MODE" (name :: mode :: rest)) name r := by
  have hcommand : (Message.order "MODE" (name :: mode :: rest)).command = text "MODE" := by
    change (text "MODE").map toUpper = text "MODE"
    decide
  have hparam : (Message.order "MODE" (name :: mode :: rest)).param 0 = name := rfl
  have hlength : ¬ (Message.order "MODE" (name :: mode :: rest)).params.length < 2 := by
    simp [Message.order]
  unfold respond
  simp only [hcommand]
  rw [if_neg (by decide), if_neg (by decide), if_neg (by decide), if_neg (by decide),
    if_neg (by decide), if_neg (by decide), if_neg (by decide), if_neg (by decide), if_pos trivial]
  unfold Network.mode
  simp only [hparam, found]
  rw [if_neg (not_not.mpr registered), if_neg hlength, if_neg (not_not.mpr operator)]

theorem respond_unlimit :
    net.respond x a (.order "MODE" [name, text "-l"]) =
      announce a name r (some r.unlimited) (.moded a.nick name (text "-l")) := by
  rw [respond_mode registered found operator]
  unfold alter
  have hmode : (Message.order "MODE" [name, text "-l"]).param 1 = text "-l" := rfl
  simp only [hmode]
  rw [if_neg (by decide), if_neg (by decide), if_neg (by decide), if_pos trivial]
  rfl

theorem respond_unlock (arg : Bytes) :
    net.respond x a (.order "MODE" [name, text "-k", arg]) =
      announce a name r (some r.unlocked) (.moded a.nick name (text "-k")) := by
  rw [respond_mode registered found operator]
  unfold alter
  have hmode : (Message.order "MODE" [name, text "-k", arg]).param 1 = text "-k" := rfl
  have hlength : ¬ (Message.order "MODE" [name, text "-k", arg]).params.length < 3 := by
    simp [Message.order]
  simp only [hmode]
  rw [if_neg (by decide), if_neg (by decide), if_pos (by decide), if_neg hlength,
    if_neg (by decide)]
  rfl

theorem respond_invite (holder : net.Holds b.nick y) (absent : ∀ z ∈ r.members, ¬ net.Holds b.nick z) :
    (net.respond x a (.order "INVITE" [b.nick, name])).account = a ∧
      (net.respond x a (.order "INVITE" [b.nick, name])).change =
        some (name, some (r.inviting {z | net.Holds b.nick z})) := by
  have hcommand : (Message.order "INVITE" [b.nick, name]).command = text "INVITE" := by
    change (text "INVITE").map toUpper = text "INVITE"
    decide
  have htarget : (Message.order "INVITE" [b.nick, name]).param 0 = b.nick := rfl
  have hname : (Message.order "INVITE" [b.nick, name]).param 1 = name := rfl
  have hlength : ¬ (Message.order "INVITE" [b.nick, name]).params.length < 2 := by
    simp [Message.order]
  have outside : ¬ ∃ z ∈ r.members,
      net.Holds ((Message.order "INVITE" [b.nick, name]).param 0) z :=
    fun ⟨z, hz, hholds⟩ => absent z hz hholds
  unfold respond
  simp only [hcommand]
  rw [if_neg (by decide), if_neg (by decide), if_neg (by decide), if_neg (by decide),
    if_neg (by decide), if_neg (by decide), if_neg (by decide), if_pos trivial]
  unfold invite
  simp only [htarget, hname, found]
  rw [if_neg (not_not.mpr registered), if_neg hlength, if_neg (not_not.mpr ⟨y, holder⟩),
    if_neg (not_not.mpr operator), if_neg outside]
  exact ⟨rfl, rfl⟩

end Operator

theorem respond_join {rest : List Bytes} (registered : b.Registered)
    (valid : validChannelName name = true) (found : net.room name = some r)
    (outside : y ∉ r.members) (unbarred : ¬ r.Bars y) (key : r.key = none ∨ rest[0]? = r.key) :
    (net.respond y b (.order "JOIN" (name :: rest))).change =
      some (name, some (r.join y outside)) := by
  have hcommand : (Message.order "JOIN" (name :: rest)).command = text "JOIN" := by
    change (text "JOIN").map toUpper = text "JOIN"
    decide
  have hparam : (Message.order "JOIN" (name :: rest)).param 0 = name := rfl
  have given : (Message.order "JOIN" (name :: rest)).params ≠ [] := List.cons_ne_nil _ _
  have hkey : ¬ (r.key ≠ none ∧ (Message.order "JOIN" (name :: rest)).params[1]? ≠ r.key) := by
    rintro ⟨locked, wrong⟩
    exact wrong (key.resolve_left locked)
  unfold respond
  simp only [hcommand]
  rw [if_neg (by decide), if_neg (by decide), if_neg (by decide), if_pos trivial]
  unfold join
  simp only [hparam, found]
  rw [if_neg (not_not.mpr registered), if_neg given, if_neg (by simp [valid])]
  rw [enter, dif_neg outside, if_neg fun h => unbarred (.inl h), if_neg hkey,
    if_neg fun h => unbarred (.inr h)]
  rfl

/-! ## Conversations -/

noncomputable def after (net : Network ι) (speech : List (ι × Message)) : Network ι :=
  speech.foldl (fun net said => (net.act (.line said.1 said.2)).1) net

theorem after_cons (connected : net.account x = some a) (message : Message)
    (speech : List (ι × Message)) :
    net.after ((x, message) :: speech) = (net.apply x (net.respond x a message)).after speech := by
  simp only [after, List.foldl_cons, act, connected]

theorem after_join (connected : net.account y = some b) {rest : List Bytes}
    (registered : b.Registered) (valid : validChannelName name = true)
    (found : net.room name = some r) (outside : y ∉ r.members) (unbarred : ¬ r.Bars y)
    (key : r.key = none ∨ rest[0]? = r.key) :
    ∃ r', (net.after [(y, .order "JOIN" (name :: rest))]).room name = some r' ∧
      y ∈ r'.members := by
  have change := respond_join registered valid found outside unbarred key
  refine ⟨r.join y outside, ?_, List.mem_append_right _ (List.mem_singleton_self y)⟩
  rw [after_cons connected]
  simp only [after, List.foldl_nil, apply, change, Function.update_self]

section Operator

variable (operates : net.account x = some a) (registered : a.Registered)
  (found : net.room name = some r) (operator : x ∈ r.operators) {speech : List (ι × Message)}

include operates registered found operator

theorem after_unlimit :
    net.after ((x, .order "MODE" [name, text "-l"]) :: speech) =
      (net.store name r.unlimited).after speech := by
  have reaction := respond_unlimit registered found operator
  rw [after_cons operates, apply_store operates (congrArg Reaction.account reaction)
    (congrArg Reaction.change reaction)]

theorem after_unlock (arg : Bytes) :
    net.after ((x, .order "MODE" [name, text "-k", arg]) :: speech) =
      (net.store name r.unlocked).after speech := by
  have reaction := respond_unlock registered found operator arg
  rw [after_cons operates, apply_store operates (congrArg Reaction.account reaction)
    (congrArg Reaction.change reaction)]

theorem after_invite (holder : net.Holds b.nick y) (absent : ∀ z ∈ r.members, ¬ net.Holds b.nick z) :
    net.after ((x, .order "INVITE" [b.nick, name]) :: speech) =
      (net.store name (r.inviting {z | net.Holds b.nick z})).after speech := by
  obtain ⟨account, change⟩ := respond_invite registered found operator holder absent
  rw [after_cons operates, apply_store operates account change]

end Operator

/-- An operator lets in whom it likes. -/
theorem after_operator (operates : net.account x = some a) (registered : a.Registered)
    (found : net.room name = some r) (operator : x ∈ r.operators) (arg : Bytes)
    (connected : net.account y = some b) (registered' : b.Registered)
    (alone : ∀ z, net.Holds b.nick z → z = y) (valid : validChannelName name = true)
    (outside : y ∉ r.members) :
    ∃ r', (net.after [(x, .order "MODE" [name, text "-l"]), (x, .order "MODE" [name, text "-k", arg]),
        (x, .order "INVITE" [b.nick, name]), (y, .order "JOIN" [name])]).room name = some r' ∧
      y ∈ r'.members := by
  have absent : ∀ z ∈ r.members, ¬ net.Holds b.nick z := fun z hz h => outside (alone z h ▸ hz)
  have holder : net.Holds b.nick y := ⟨b, connected, rfl⟩
  let net₁ := net.store name r.unlimited
  let net₂ := net₁.store name r.unlimited.unlocked
  have operates₁ : net₁.account x = some a := operates
  let net₃ := net₂.store name (r.unlimited.unlocked.inviting {z | net.Holds b.nick z})
  have operates₂ : net₂.account x = some a := operates
  have connected₃ : net₃.account y = some b := connected
  rw [after_unlimit operates registered found operator,
    after_unlock operates₁ registered (store_room net name _) operator,
    after_invite operates₂ registered (store_room net₁ name _) operator holder absent]
  refine after_join connected₃ registered' valid (store_room net₂ name _) outside ?_ (.inl rfl)
  rintro (⟨_, uninvited⟩ | ⟨limit, hlimit, _⟩)
  · exact uninvited (.inr holder)
  · cases hlimit

end Network

end IrcServer
