import IrcServer.Library.Purge
import IrcServer.Spec.Change
import IrcServer.Spec.Runs

/-! # Rooms do not know of each other

A line about a room reads the accounts and this room, and changes nothing but this room.
So a view of some rooms and of the accounts is blind to the lines about the others.
-/

namespace IrcServer

variable {ι : Type*}

/-- A line about a channel that is not `seen` is hidden; everything else is visible. -/
def Action.visible (seen : Bytes → Bool) : Action ι → Bool
  | .line _ message => !channelCommands.contains message.command || seen message.channelName
  | _ => true

theorem visible_swap {x y : ι} {m m' : Message} (command : m.command ∈ channelCommands)
    (command' : m'.command ∈ channelCommands) (hne : m.channelName ≠ m'.channelName)
    (before after : List (Action ι)) (name : Bytes) :
    (before ++ .line x m :: .line y m' :: after).filter (Action.visible (· == name)) =
      (before ++ .line y m' :: .line x m :: after).filter (Action.visible (· == name)) := by
  have other : m.channelName = name → m'.channelName ≠ name := fun h h' => hne (h.trans h'.symm)
  by_cases hname : m.channelName = name
  · simp [Action.visible, command, command', hname, other hname]
  · simp [List.filter_cons, Action.visible, command, command', hname]

namespace Network

structure Same (seen : Bytes → Bool) (net net' : Network ι) : Prop where
  password : net.password = net'.password
  account : net.account = net'.account
  room : ∀ name, seen name = true → net.room name = net'.room name

theorem same_equivalence (seen : Bytes → Bool) :
    Equivalence (Same seen : Network ι → Network ι → Prop) where
  refl _ := ⟨rfl, rfl, fun _ _ => rfl⟩
  symm h := ⟨h.password.symm, h.account.symm, fun name hname => (h.room name hname).symm⟩
  trans h h' := ⟨h.password.trans h'.password, h.account.trans h'.account, fun name hname =>
    (h.room name hname).trans (h'.room name hname)⟩

variable [DecidableEq ι]

section Reads

variable (x : ι) (a : Account) (message : Message)

/-- A reaction reads the password, the accounts, and the room that its line is about. -/
theorem respond_local {net net' : Network ι} (password : net.password = net'.password)
    (account : net.account = net'.account)
    (room : message.command ∈ channelCommands →
      net.room message.channelName = net'.room message.channelName) :
    net.respond x a message = net'.respond x a message := by
  obtain ⟨p, accounts, rooms⟩ := net
  obtain ⟨p', accounts', rooms'⟩ := net'
  simp only at password account room
  subst password account
  have first : ∀ {word}, message.command = word → word ∈ channelCommands → word ≠ text "INVITE" →
      rooms (message.param 0) = rooms' (message.param 0) := fun h hword hne =>
    channelName_first message h hne ▸ room (h ▸ hword)
  refine ite_congr rfl (fun _ => rfl) fun _ => ite_congr rfl (fun _ => rfl) fun _ =>
    ite_congr rfl (fun _ => rfl) fun _ => ite_congr rfl (fun h => ?_) fun _ =>
    ite_congr rfl (fun h => ?_) fun _ => ite_congr rfl (fun h => ?_) fun _ =>
    ite_congr rfl (fun h => ?_) fun _ => ite_congr rfl (fun h => ?_) fun _ =>
    ite_congr rfl (fun h => ?_) fun _ => rfl
  · simp only [join, first h (by decide) (by decide)]
    rfl
  · simp only [privmsg, first h (by decide) (by decide)]
    rfl
  · simp only [topic, first h (by decide) (by decide)]
  · simp only [kick, first h (by decide) (by decide)]
    rfl
  · have hroom : rooms (message.param 1) = rooms' (message.param 1) := by
      have hname : message.channelName = message.param 1 := if_pos h
      exact hname ▸ room (h ▸ by decide)
    simp only [invite, hroom]
    rfl
  · simp only [mode, first h (by decide) (by decide)]
    rfl

end Reads

end Network

/-! ## What a reaction changes -/

structure Reaction.About (a : Account) (name : Bytes) (reaction : Reaction ι) : Prop where
  account : reaction.account = a
  change : ∀ p ∈ reaction.change, p.1 = name

namespace Network

variable [DecidableEq ι] (net : Network ι) (x : ι) (a : Account) (message : Message)

theorem respond_about (h : message.command ∈ channelCommands) :
    (net.respond x a message).About a message.channelName := by
  have responds := respond_responds net x a message
  refine ⟨responds.account (not_account_of_channel h), fun p hp => ?_⟩
  generalize net.respond x a message = reaction at responds hp
  cases responds with
  | replied => cases hp
  | silent => cases hp
  | said => cases hp
  | seated name r named =>
      cases hp
      exact named
  | announced name r after notice named =>
      cases hp
      exact named
  | invited name r nick outbox named =>
      cases hp
      exact named

/-! ## The blind view -/

theorem act_line {net : Network ι} {x : ι} {a : Account} (h : net.account x = some a)
    (message : Message) : net.act (.line x message) =
      (net.apply x (net.respond x a message), (net.respond x a message).outbox) := by
  simp only [act, h]

theorem act_unknown {net : Network ι} {x : ι} (h : net.account x = none) (message : Message) :
    net.act (.line x message) = (net, fun _ => []) := by
  simp only [act, h]

theorem Same.connect {seen : Bytes → Bool} {net net' : Network ι} (same : Same seen net net')
    (x : ι) : Same seen (net.connect x) (net'.connect x) :=
  ⟨same.password, congrArg (Function.update · x _) same.account, same.room⟩

theorem Same.close {seen : Bytes → Bool} {net net' : Network ι} (same : Same seen net net') (x : ι) :
    Same seen (net.close x) (net'.close x) :=
  ⟨same.password, congrArg (Function.update · x _) same.account, fun name hname =>
    congrArg (Option.bind · _) (same.room name hname)⟩

theorem Same.apply {seen : Bytes → Bool} {net net' : Network ι} (same : Same seen net net') (x : ι)
    (reaction : Reaction ι) : Same seen (net.apply x reaction) (net'.apply x reaction) := by
  refine ⟨same.password, congrArg (Function.update · x _) same.account, fun name hname => ?_⟩
  cases hchange : reaction.change with
  | none => simpa only [Network.apply, hchange] using same.room name hname
  | some p =>
      simp only [Network.apply, hchange, Function.update_apply]
      rw [same.room name hname]

theorem Same.untouched {seen : Bytes → Bool} {net net' : Network ι} (same : Same seen net net')
    {x : ι} {a : Account} (connected : net.account x = some a) {name : Bytes}
    (unseen : seen name = false) {reaction : Reaction ι} (about : reaction.About a name) :
    Same seen (net.apply x reaction) net' := by
  refine ⟨same.password, ?_, fun name' hname' => ?_⟩
  · rw [← same.account]
    simp only [Network.apply, about.account, ← connected, Function.update_eq_self]
  · rw [← same.room name' hname']
    cases hchange : reaction.change with
    | none => simp only [Network.apply, hchange]
    | some p =>
        have hne : name' ≠ p.1 := by
          rw [about.change p hchange]
          rintro rfl
          exact Bool.false_ne_true (unseen.symm.trans hname')
        simp only [Network.apply, hchange, Function.update_of_ne hne]

/-- The view of some rooms is blind to the lines about the others. -/
theorem act_blind (seen : Bytes → Bool) :
    Purge.Blind (act : Network ι → _) (fun _ => True) (Action.visible seen) (Same seen) := by
  have same_reaction : ∀ {net net' : Network ι} {x : ι} {message : Message} (a : Account),
      Same seen net net' → Action.visible seen (.line x message) = true →
      net.respond x a message = net'.respond x a message := by
    intro net net' x message a same visible
    refine respond_local x a message same.password same.account fun h => same.room _ ?_
    simpa [Action.visible, h] using visible
  constructor
  · intro net net' action _ same visible
    cases action with
    | connect x => rfl
    | close x => rfl
    | line x message =>
        cases haccount : net.account x with
        | none => rw [act_unknown haccount, act_unknown (same.account ▸ haccount)]
        | some a =>
            rw [act_line haccount, act_line (same.account ▸ haccount), same_reaction a same visible]
  · intro net net' action _ same visible
    cases action with
    | connect x => exact same.connect x
    | close x => exact same.close x
    | line x message =>
        cases haccount : net.account x with
        | none =>
            rw [act_unknown haccount, act_unknown (same.account ▸ haccount)]
            exact same
        | some a =>
            rw [act_line haccount, act_line (same.account ▸ haccount), same_reaction a same visible]
            exact same.apply x _
  · intro net net' action _ same hidden
    cases action with
    | connect x => cases hidden
    | close x => cases hidden
    | line x message =>
        simp only [Action.visible, Bool.or_eq_false_iff, Bool.not_eq_false',
          List.contains_iff_mem] at hidden
        cases haccount : net.account x with
        | none =>
            rw [act_unknown haccount]
            exact same
        | some a =>
            rw [act_line haccount]
            exact same.untouched haccount hidden.2 (respond_about net x a message hidden.1)

/-! ## Letters -/

/-- What a connection has been told since it was made, each notice with the action that it
answers. -/
def letters (x : ι) (entries : List (Action ι × (ι → List Notice))) : List (Action ι × Notice) :=
  entries.foldl (fun told entry => (if entry.1 = .connect x then [] else told) ++
    (entry.2 x).map fun notice => (entry.1, notice)) []

theorem replay_outcome (password : Bytes) (actions : List (Action ι)) :
    (replay password actions).1 = Purge.outcome act (start password) actions := by
  induction actions using List.reverseRecOn with
  | nil => rfl
  | append_singleton actions action ih =>
      rw [replay_append, Purge.outcome, List.foldl_append]
      exact congrArg (fun net => (act net action).1) ih

/-- The mail is the letters without what they answer. -/
theorem replay_letters (password : Bytes) (actions : List (Action ι)) (x : ι) :
    (replay password actions).2 x =
      (letters x (Purge.transcript act (start password) actions)).map Prod.snd := by
  induction actions using List.reverseRecOn with
  | nil => rfl
  | append_singleton actions action ih =>
      have hnet := replay_outcome password actions
      rw [replay_append, Purge.transcript_append, letters, List.foldl_append, ← letters, ← hnet]
      simp only [Purge.transcript, List.foldl_cons, List.foldl_nil, deliver, List.map_append,
        List.map_map]
      rw [apply_ite (List.map Prod.snd), ← ih]
      refine congrArg₂ (· ++ ·) ?_ (List.map_id _).symm
      cases action with
      | connect y =>
          simp only [Function.update_apply, Action.connect.injEq, List.map_nil, eq_comm]
      | line y message => rfl
      | close y => rfl

theorem letters_snoc (x : ι) (entries : List (Action ι × (ι → List Notice)))
    (entry : Action ι × (ι → List Notice)) :
    letters x (entries ++ [entry]) = (if entry.1 = .connect x then [] else letters x entries) ++
      (entry.2 x).map fun notice => (entry.1, notice) := by
  rw [letters, List.foldl_append]
  rfl

theorem letters_filter (seen : Bytes → Bool) (x : ι)
    (entries : List (Action ι × (ι → List Notice))) :
    letters x (entries.filter fun entry => entry.1.visible seen) =
      (letters x entries).filter fun letter => letter.1.visible seen := by
  induction entries using List.reverseRecOn with
  | nil => rfl
  | append_singleton entries entry ih =>
      rw [letters_snoc, List.filter_append, List.filter_append, List.filter_map]
      cases hentry : entry.1.visible seen with
      | true =>
          have hanswer : (entry.2 x).filter ((fun letter => letter.1.visible seen) ∘
              fun notice => (entry.1, notice)) = entry.2 x :=
            List.filter_eq_self.mpr fun _ _ => hentry
          have hlast : [entry].filter (fun entry => entry.1.visible seen) = [entry] := by simp [hentry]
          rw [hanswer, hlast, letters_snoc, ih]
          split <;> rfl
      | false =>
          have hanswer : (entry.2 x).filter ((fun letter => letter.1.visible seen) ∘
              fun notice => (entry.1, notice)) = [] :=
            List.filter_eq_nil_iff.mpr fun _ _ => by simp [hentry]
          have hlast : [entry].filter (fun entry => entry.1.visible seen) = [] := by simp [hentry]
          have hne : entry.1 ≠ .connect x := fun heq => by simp [heq, Action.visible] at hentry
          rw [hanswer, hlast, List.append_nil, if_neg hne, List.map_nil, List.append_nil, ih]

end Network

end IrcServer
