import Mathlib.Data.Set.Image
import Mathlib.Logic.Equiv.Basic
import IrcServer.Spec.Runs

/-! # Renamed connections

Who a connection is called does not matter to the network: with the connections renamed
it reacts to the renamed messages with the renamed notices.
-/

namespace IrcServer

variable {ι κ : Type*} (e : ι ≃ κ)

/-! ## Rooms -/

namespace Room

def rename (r : Room ι) : Room κ where
  members := r.members.map e
  operators := Set.preimage e.symm r.operators
  invited := Set.preimage e.symm r.invited
  inviteOnly := r.inviteOnly
  topicLocked := r.topicLocked
  key := r.key
  limit := r.limit
  topic := r.topic
  distinct := r.distinct.map e.injective
  inhabited := fun h => r.inhabited (List.map_eq_nil_iff.mp h)
  operators_members y hy := List.mem_map.mpr ⟨e.symm y, r.operators_members _ hy, e.apply_symm_apply y⟩

variable (r : Room ι)

theorem mem_rename_members {y : κ} : y ∈ (r.rename e).members ↔ e.symm y ∈ r.members := by
  rw [rename, List.mem_map]
  constructor
  · rintro ⟨x, hx, rfl⟩
    rwa [e.symm_apply_apply]
  · exact fun hy => ⟨_, hy, e.apply_symm_apply y⟩

theorem apply_mem_rename_members {x : ι} : e x ∈ (r.rename e).members ↔ x ∈ r.members := by
  rw [mem_rename_members, e.symm_apply_apply]

theorem apply_mem_rename_operators {x : ι} : e x ∈ (r.rename e).operators ↔ x ∈ r.operators := by
  rw [rename, Set.mem_preimage, e.symm_apply_apply]

theorem apply_mem_rename_invited {x : ι} : e x ∈ (r.rename e).invited ↔ x ∈ r.invited := by
  rw [rename, Set.mem_preimage, e.symm_apply_apply]

theorem preimage_singleton (x : ι) : Set.preimage e.symm {x} = {e x} := by
  ext y
  exact e.symm_apply_eq

theorem preimage_insert (x : ι) (A : Set ι) :
    Set.preimage e.symm (insert x A) = insert (e x) (Set.preimage e.symm A) := by
  rw [Set.insert_eq, Set.preimage_union, preimage_singleton]
  rfl

theorem preimage_without (x : ι) (A : Set ι) :
    Set.preimage e.symm (A \ {x}) = Set.preimage e.symm A \ {e x} := by
  rw [Set.preimage_sdiff, preimage_singleton]

theorem rename_operators_eq {x : ι} : (r.rename e).operators = {e x} ↔ r.operators = {x} := by
  rw [rename, ← preimage_singleton]
  exact (Set.preimage_injective.mpr e.symm.surjective).eq_iff

theorem rename_members_eq {x : ι} : (r.rename e).members = [e x] ↔ r.members = [x] :=
  (List.map_injective_iff.mpr e.injective).eq_iff (b := [x])

theorem rename_found (x : ι) : (found x).rename e = found (e x) :=
  Room.ext rfl (preimage_singleton e x) rfl rfl rfl rfl rfl rfl

theorem rename_join {x : ι} (outside : x ∉ r.members) :
    (r.join x outside).rename e =
      (r.rename e).join (e x) (mt (apply_mem_rename_members e r).mp outside) :=
  Room.ext List.map_append rfl rfl rfl rfl rfl rfl rfl

theorem rename_grant {x : ι} (member : x ∈ r.members) :
    (r.grant x member).rename e =
      (r.rename e).grant (e x) ((apply_mem_rename_members e r).mpr member) :=
  Room.ext rfl (preimage_insert e x r.operators) rfl rfl rfl rfl rfl rfl

theorem rename_revoke (x : ι) : (r.revoke x).rename e = (r.rename e).revoke (e x) :=
  Room.ext rfl (preimage_without e x r.operators) rfl rfl rfl rfl rfl rfl

variable [DecidableEq ι] [DecidableEq κ]

theorem filter_rename (x : ι) :
    (r.rename e).members.filter (fun y => y ≠ e x) = (r.members.filter fun y => y ≠ x).map e := by
  rw [rename, List.filter_map]
  congr 2
  funext y
  simp

theorem rename_expel (x : ι) : (r.expel x).map (rename e) = (r.rename e).expel (e x) := by
  have hfilter := filter_rename e r x
  by_cases left : r.members.filter (fun y => y ≠ x) = []
  · have left' : (r.rename e).members.filter (fun y => y ≠ e x) = [] := by rw [hfilter, left]; rfl
    rw [expel, expel, dif_neg (not_not.mpr left), dif_neg (not_not.mpr left')]
    rfl
  · have left' : (r.rename e).members.filter (fun y => y ≠ e x) ≠ [] := by
      rw [hfilter]
      exact fun h => left (List.map_eq_nil_iff.mp h)
    rw [expel, expel, dif_pos left, dif_pos left', Option.map_some]
    exact congrArg some
      (Room.ext hfilter.symm (preimage_without e x r.operators) rfl rfl rfl rfl rfl rfl)

theorem rename_leave (x : ι) : (r.leave x).map (rename e) = (r.rename e).leave (e x) := by
  rw [leave, leave, ← rename_expel, Option.map_map, Option.map_map]
  congr 1
  funext r
  exact Room.ext rfl rfl (preimage_without e x r.invited) rfl rfl rfl rfl rfl

omit [DecidableEq ι] [DecidableEq κ] in
theorem preimage_eq_self {e : ι ≃ ι} {A : Set ι} (h : ∀ x ∈ A, e x = x) :
    Set.preimage e.symm A = A := by
  ext x
  constructor
  · intro hx
    have hfixed := h _ hx
    rw [e.apply_symm_apply] at hfixed
    rw [hfixed]
    exact hx
  · intro hx
    rw [Set.mem_preimage, e.symm_apply_eq.mpr (h x hx).symm]
    exact hx

omit [DecidableEq ι] [DecidableEq κ] in
theorem rename_eq_self {e : ι ≃ ι} (h : ∀ x, x ∈ r.members ∨ x ∈ r.invited → e x = x) :
    r.rename e = r := by
  have members : r.members.map e = r.members := by
    rw [List.map_congr_left fun x hx => h x (.inl hx), List.map_id']
  exact Room.ext members (preimage_eq_self fun x hx => h x (.inl (r.operators_members x hx)))
    (preimage_eq_self fun x hx => h x (.inr hx)) rfl rfl rfl rfl rfl

end Room

/-! ## Reactions -/

namespace Reaction

def rename (reaction : Reaction ι) : Reaction κ where
  account := reaction.account
  change := reaction.change.map fun p => (p.1, p.2.map (Room.rename e))
  outbox y := reaction.outbox (e.symm y)

theorem rename_ite {p q : Prop} {_ : Decidable p} {_ : Decidable q} {u v : Reaction κ}
    {u' v' : Reaction ι} (h : p ↔ q) (hu : u = u'.rename e) (hv : v = v'.rename e) :
    (if p then u else v) = (if q then u' else v').rename e := by
  by_cases hp : p
  · rw [if_pos hp, if_pos (h.mp hp), hu]
  · rw [if_neg hp, if_neg (mt h.mpr hp), hv]

end Reaction

namespace Network

variable (net : Network ι)

def rename : Network κ where
  password := net.password
  account y := net.account (e.symm y)
  room name := (net.room name).map (Room.rename e)

theorem rename_account (x : ι) : (net.rename e).account (e x) = net.account x :=
  congrArg net.account (e.symm_apply_apply x)

theorem holds_rename {nick : Bytes} {y : κ} :
    (net.rename e).Holds nick y ↔ net.Holds nick (e.symm y) := Iff.rfl

theorem exists_holds_rename {nick : Bytes} :
    (∃ y, (net.rename e).Holds nick y) ↔ ∃ x, net.Holds nick x :=
  e.symm.exists_congr_right (q := net.Holds nick)

theorem nickOf_rename (x : ι) : (net.rename e).nickOf (e x) = net.nickOf x := by
  rw [nickOf, nickOf, rename_account]

variable [DecidableEq ι] [DecidableEq κ] (x : ι) (a : Account) (message : Message)

theorem reply_rename (notice : Notice) :
    reply (e x) a notice = (reply x a notice).rename e :=
  Reaction.ext rfl rfl (funext fun _ => if_congr e.symm_apply_eq.symm rfl rfl)

omit [DecidableEq ι] [DecidableEq κ] in
theorem silence_rename : (silence a : Reaction κ) = (silence a : Reaction ι).rename e := rfl

theorem announce_rename {name : Bytes} {r : Room ι} {after : Option (Room ι)}
    {after' : Option (Room κ)} {notice : Notice} (h : after' = after.map (Room.rename e)) :
    announce a name (r.rename e) after' notice = (announce a name r after notice).rename e := by
  subst h
  exact Reaction.ext rfl rfl (funext fun _ => if_congr (r.mem_rename_members e) rfl rfl)

/-! ## Registration -/

open Reaction

theorem pass_rename : (net.rename e).pass (e x) a message = (net.pass x a message).rename e := by
  apply rename_ite e Iff.rfl (reply_rename e x a _)
  apply rename_ite e Iff.rfl (reply_rename e x a _)
  exact rename_ite e Iff.rfl rfl (reply_rename e x a _)

theorem nick_rename : (net.rename e).nick (e x) a message = (net.nick x a message).rename e := by
  have taken : (∃ y, y ≠ e x ∧ (net.rename e).Holds (message.param 0) y) ↔
      ∃ y, y ≠ x ∧ net.Holds (message.param 0) y := by
    refine e.symm.exists_congr fun y => ?_
    rw [holds_rename, ne_eq, ne_eq, e.symm_apply_eq]
  apply rename_ite e Iff.rfl (reply_rename e x a _)
  apply rename_ite e Iff.rfl (reply_rename e x a _)
  apply rename_ite e Iff.rfl (reply_rename e x a _)
  apply rename_ite e taken (reply_rename e x a _)
  apply rename_ite e Iff.rfl (reply_rename e x _ _)
  exact rename_ite e Iff.rfl (reply_rename e x _ _) rfl

theorem user_rename : user (e x) a message = (user x a message).rename e := by
  apply rename_ite e Iff.rfl (reply_rename e x a _)
  apply rename_ite e Iff.rfl (reply_rename e x a _)
  apply rename_ite e Iff.rfl (reply_rename e x a _)
  exact rename_ite e Iff.rfl (reply_rename e x _ _) rfl

/-! ## Rooms -/

omit [DecidableEq ι] [DecidableEq κ] in
/-- Two reactions to what is found under a name. -/
theorem rename_room_cases {name : Bytes} {none' : Reaction κ} {some' : Room κ → Reaction κ}
    {none'' : Reaction ι} {some'' : Room ι → Reaction ι} (hnone : none' = none''.rename e)
    (hsome : ∀ r, some' (r.rename e) = (some'' r).rename e) :
    (match (net.rename e).room name with | none => none' | some r => some' r) =
      Reaction.rename e (match net.room name with | none => none'' | some r => some'' r) := by
  simp only [rename]
  cases net.room name with
  | none => exact hnone
  | some r => exact hsome r

open scoped Classical in
theorem seat_rename (name : Bytes) (r : Room ι) :
    (net.rename e).seat (e x) a name (r.rename e) = (net.seat x a name r).rename e := by
  have names : (r.rename e).members.map
        (fun z => ((net.rename e).nickOf z, decide (z ∈ (r.rename e).operators))) =
      r.members.map fun z => (net.nickOf z, decide (z ∈ r.operators)) := by
    rw [Room.rename, List.map_map]
    refine List.map_congr_left fun z _ => Prod.ext (nickOf_rename e net z) ?_
    simp
  refine Reaction.ext rfl rfl (funext fun y => ?_)
  simp only [seat, Reaction.rename, names, r.mem_rename_members e, e.symm_apply_eq]

theorem enter_rename (name : Bytes) (r : Room ι) :
    (net.rename e).enter (e x) a message name (r.rename e) =
      (net.enter x a message name r).rename e := by
  unfold enter
  by_cases member : x ∈ r.members
  · rw [dif_pos member, dif_pos ((r.apply_mem_rename_members e).mpr member)]
    exact reply_rename e x a _
  · rw [dif_neg member, dif_neg (mt (r.apply_mem_rename_members e).mp member)]
    have invited := not_congr (r.apply_mem_rename_invited e (x := x))
    have full : (∃ limit ∈ (r.rename e).limit, limit ≤ (r.rename e).members.length) ↔
        ∃ limit ∈ r.limit, limit ≤ r.members.length := by
      rw [Room.rename, List.length_map]
    apply rename_ite e (and_congr Iff.rfl invited) (reply_rename e x a _)
    apply rename_ite e Iff.rfl (reply_rename e x a _)
    apply rename_ite e full (reply_rename e x a _)
    rw [← seat_rename, Room.rename_join]

theorem join_rename : (net.rename e).join (e x) a message = (net.join x a message).rename e := by
  apply rename_ite e Iff.rfl (reply_rename e x a _)
  apply rename_ite e Iff.rfl (reply_rename e x a _)
  apply rename_ite e Iff.rfl (reply_rename e x a _)
  apply rename_room_cases e net
  · rw [← seat_rename, Room.rename_found]
  · exact enter_rename e net x a message _

theorem privmsg_rename :
    (net.rename e).privmsg (e x) a message = (net.privmsg x a message).rename e := by
  apply rename_ite e Iff.rfl (reply_rename e x a _)
  apply rename_ite e Iff.rfl (reply_rename e x a _)
  apply rename_ite e Iff.rfl (reply_rename e x a _)
  apply rename_ite e Iff.rfl
  · apply rename_room_cases e net (reply_rename e x a _)
    intro r
    apply rename_ite e (not_congr (r.apply_mem_rename_members e)) (reply_rename e x a _)
    refine Reaction.ext rfl rfl (funext fun y => if_congr ?_ rfl rfl)
    rw [r.mem_rename_members e, ne_eq, ne_eq, e.symm_apply_eq]
  · exact rename_ite e (not_congr (exists_holds_rename e net)) (reply_rename e x a _) rfl

theorem topic_rename : (net.rename e).topic (e x) a message = (net.topic x a message).rename e := by
  apply rename_ite e Iff.rfl (reply_rename e x a _)
  apply rename_ite e Iff.rfl (reply_rename e x a _)
  apply rename_room_cases e net (reply_rename e x a _)
  intro r
  apply rename_ite e Iff.rfl
  · have htopic : (r.rename e).topic = r.topic := rfl
    rw [htopic]
    cases r.topic with
    | none => exact reply_rename e x a _
    | some topic => exact reply_rename e x a _
  · apply rename_ite e (not_congr (r.apply_mem_rename_members e)) (reply_rename e x a _)
    apply rename_ite e (and_congr Iff.rfl (not_congr (r.apply_mem_rename_operators e)))
      (reply_rename e x a _)
    exact announce_rename e a rfl

omit [DecidableEq ι] [DecidableEq κ] in
open scoped Classical in
theorem find_rename (nick : Bytes) (r : Room ι) :
    (r.rename e).members.find? ((net.rename e).Holds nick ·) =
      (r.members.find? (net.Holds nick ·)).map e := by
  rw [Room.rename, List.find?_map]
  congr 2
  funext y
  exact decide_eq_decide.mpr (by rw [holds_rename, e.symm_apply_apply])

theorem kick_rename : (net.rename e).kick (e x) a message = (net.kick x a message).rename e := by
  apply rename_ite e Iff.rfl (reply_rename e x a _)
  apply rename_ite e Iff.rfl (reply_rename e x a _)
  apply rename_room_cases e net (reply_rename e x a _)
  intro r
  apply rename_ite e (not_congr (r.apply_mem_rename_operators e)) (reply_rename e x a _)
  apply rename_ite e (not_congr (exists_holds_rename e net)) (reply_rename e x a _)
  rw [find_rename]
  generalize List.find? _ r.members = found
  cases found with
  | none => exact reply_rename e x a _
  | some d =>
      apply rename_ite e
        (and_congr (r.rename_operators_eq e) (not_congr (r.rename_members_eq e)))
        (reply_rename e x a _)
      exact announce_rename e a (r.rename_expel e d).symm

open scoped Classical in
theorem invite_rename :
    (net.rename e).invite (e x) a message = (net.invite x a message).rename e := by
  apply rename_ite e Iff.rfl (reply_rename e x a _)
  apply rename_ite e Iff.rfl (reply_rename e x a _)
  apply rename_ite e (not_congr (exists_holds_rename e net)) (reply_rename e x a _)
  apply rename_room_cases e net (reply_rename e x a _)
  intro r
  have present : (∃ y ∈ (r.rename e).members, (net.rename e).Holds (message.param 0) y) ↔
      ∃ y ∈ r.members, net.Holds (message.param 0) y := by
    refine e.symm.exists_congr fun y => ?_
    rw [r.mem_rename_members e, holds_rename]
  apply rename_ite e (not_congr (r.apply_mem_rename_operators e)) (reply_rename e x a _)
  apply rename_ite e present (reply_rename e x a _)
  exact Reaction.ext rfl rfl (funext fun y => congrArg₂ (· ++ ·)
    (if_congr (holds_rename e net) rfl rfl) (if_congr e.symm_apply_eq.symm rfl rfl))

/-! ## MODE -/

theorem hand_rename (name : Bytes) (r : Room ι) {d : ι} (member : d ∈ r.members) :
    hand (e x) a message name (r.rename e) (e d) ((r.apply_mem_rename_members e).mpr member) =
      (hand x a message name r d member).rename e := by
  apply rename_ite e Iff.rfl
  · apply rename_ite e (r.apply_mem_rename_operators e) (silence_rename e a)
    exact announce_rename e a (congrArg some (r.rename_grant e member).symm)
  · apply rename_ite e (not_congr (r.apply_mem_rename_operators e)) (silence_rename e a)
    apply rename_ite e (r.rename_operators_eq e) (reply_rename e x a _)
    exact announce_rename e a (congrArg some (r.rename_revoke e d).symm)

open scoped Classical in
theorem appoint_rename (name : Bytes) (r : Room ι) :
    (net.rename e).appoint (e x) a message name (r.rename e) =
      (net.appoint x a message name r).rename e := by
  apply rename_ite e Iff.rfl (reply_rename e x a _)
  apply rename_ite e (not_congr (exists_holds_rename e net)) (reply_rename e x a _)
  have hfind := find_rename e net (message.param 2) r
  split
  · next hnone =>
      rw [hnone, eq_comm, Option.map_eq_none_iff] at hfind
      split
      · exact reply_rename e x a _
      · next hsome => cases hsome.symm.trans hfind
  · next d' hsome =>
      rw [hsome, eq_comm, Option.map_eq_some_iff] at hfind
      obtain ⟨d, hd, rfl⟩ := hfind
      split
      · next hnone => cases hnone.symm.trans hd
      · next d'' hd'' =>
          obtain rfl := Option.some.inj (hd.symm.trans hd'')
          exact hand_rename e x a message name r _

theorem alter_rename (name : Bytes) (r : Room ι) :
    (net.rename e).alter (e x) a message name (r.rename e) =
      (net.alter x a message name r).rename e := by
  refine rename_ite e Iff.rfl (announce_rename e a (by rfl)) ?_
  refine rename_ite e Iff.rfl (announce_rename e a (by rfl)) ?_
  apply rename_ite e Iff.rfl
  · apply rename_ite e Iff.rfl (reply_rename e x a _)
    exact rename_ite e Iff.rfl (announce_rename e a (by rfl)) (announce_rename e a (by rfl))
  refine rename_ite e Iff.rfl (announce_rename e a (by rfl)) ?_
  apply rename_ite e Iff.rfl
  · exact rename_ite e Iff.rfl (reply_rename e x a _) (announce_rename e a (by rfl))
  exact rename_ite e Iff.rfl (appoint_rename e net x a message name r) (reply_rename e x a _)

theorem mode_rename : (net.rename e).mode (e x) a message = (net.mode x a message).rename e := by
  apply rename_ite e Iff.rfl (reply_rename e x a _)
  apply rename_ite e Iff.rfl (reply_rename e x a _)
  apply rename_room_cases e net (reply_rename e x a _)
  intro r
  exact rename_ite e (not_congr (r.apply_mem_rename_operators e)) (reply_rename e x a _)
    (alter_rename e net x a message _ r)

/-- Every reaction is carried over. -/
theorem respond_rename :
    (net.rename e).respond (e x) a message = (net.respond x a message).rename e := by
  apply rename_ite e Iff.rfl (pass_rename e net x a message)
  apply rename_ite e Iff.rfl (nick_rename e net x a message)
  apply rename_ite e Iff.rfl (user_rename e x a message)
  apply rename_ite e Iff.rfl (join_rename e net x a message)
  apply rename_ite e Iff.rfl (privmsg_rename e net x a message)
  apply rename_ite e Iff.rfl (topic_rename e net x a message)
  apply rename_ite e Iff.rfl (kick_rename e net x a message)
  apply rename_ite e Iff.rfl (invite_rename e net x a message)
  apply rename_ite e Iff.rfl (mode_rename e net x a message)
  exact rename_ite e Iff.rfl rfl (reply_rename e x a _)

/-! ## Actions -/

theorem connect_rename : (net.connect x).rename e = (net.rename e).connect (e x) := by
  refine Network.ext rfl (funext fun y => ?_) rfl
  simp only [connect, rename, Function.update_apply, e.symm_apply_eq]

theorem close_rename : (net.close x).rename e = (net.rename e).close (e x) := by
  refine Network.ext rfl (funext fun y => ?_) (funext fun name => ?_)
  · simp only [close, rename, Function.update_apply, e.symm_apply_eq]
  · simp only [close, rename]
    cases net.room name with
    | none => rfl
    | some r => exact r.rename_leave e x

theorem apply_rename (reaction : Reaction ι) :
    (net.apply x reaction).rename e = (net.rename e).apply (e x) (reaction.rename e) := by
  refine Network.ext rfl (funext fun y => ?_) (funext fun name => ?_)
  · simp only [apply, rename, Reaction.rename, Function.update_apply, e.symm_apply_eq]
  · simp only [apply, rename, Reaction.rename]
    cases reaction.change with
    | none => rfl
    | some p =>
        simp only [Option.map_some, Function.update_apply]
        split <;> rfl

omit [DecidableEq ι] [DecidableEq κ] in
theorem rename_eq_self {net : Network ι} {e : ι ≃ ι}
    (accounts : ∀ x, net.account x ≠ none → e x = x)
    (rooms : ∀ name r, net.room name = some r → ∀ x, x ∈ r.members ∨ x ∈ r.invited → e x = x) :
    net.rename e = net := by
  refine Network.ext rfl (funext fun y => ?_) (funext fun name => ?_)
  · change net.account (e.symm y) = net.account y
    by_cases hy : net.account y = none
    · by_cases hback : net.account (e.symm y) = none
      · rw [hback, hy]
      · have hfixed := accounts _ hback
        rw [e.apply_symm_apply] at hfixed
        rw [← hfixed]
    · rw [e.symm_apply_eq.mpr (accounts y hy).symm]
  · simp only [rename]
    cases hroom : net.room name with
    | none => rfl
    | some r => exact congrArg some (r.rename_eq_self (rooms name r hroom))

omit [DecidableEq ι] [DecidableEq κ] in
theorem rename_trans {μ : Type*} (f : κ ≃ μ) : (net.rename e).rename f = net.rename (e.trans f) := by
  refine Network.ext rfl rfl (funext fun name => ?_)
  simp only [rename, Option.map_map]
  cases net.room name with
  | none => rfl
  | some r => exact congrArg some (Room.ext (List.map_map ..) rfl rfl rfl rfl rfl rfl rfl)

end Network

/-! ## Numbers for connections -/

/-- The number of the connection that each name stands for, and the first number not yet given. -/
structure Numbering (ι : Type*) where
  session : ι → Nat
  next : Nat

namespace Numbering

variable {ι : Type*}

def start : Numbering ι := ⟨fun _ => 0, 0⟩

/-- An action under the number of its connection; a new connection gets the next number. -/
def number (m : Numbering ι) : Action ι → Action Nat
  | .connect _ => .connect m.next
  | .line x message => .line (m.session x) message
  | .close x => .close (m.session x)

variable [DecidableEq ι]

def after (m : Numbering ι) : Action ι → Numbering ι
  | .connect x => ⟨Function.update m.session x m.next, m.next + 1⟩
  | _ => m

def run (state : Numbering ι × List (Action Nat)) (action : Action ι) :
    Numbering ι × List (Action Nat) :=
  (state.1.after action, state.2 ++ [state.1.number action])

end Numbering

/-- The numbering after the actions, and the actions with every connection under its number. -/
def numbered {ι : Type*} [DecidableEq ι] (actions : List (Action ι)) :
    Numbering ι × List (Action Nat) :=
  actions.foldl Numbering.run (Numbering.start, [])

/-! ## A replay under numbers -/

/-- The same network and the same mail, under numbers that have been given. -/
structure Renumbered {ι : Type*} (state : Network ι × (ι → List Notice)) (m : Numbering ι)
    (state' : Network Nat × (Nat → List Notice)) (e : ι ≃ Nat) : Prop where
  network : state.1.rename e = state'.1
  session : ∀ x, state.1.account x ≠ none → e x = m.session x
  given : ∀ x, state.1.account x ≠ none → e x < m.next
  mail : ∀ x, state.1.account x ≠ none → state'.2 (e x) = state.2 x

section Renumbered

open Network

variable {ι : Type*} [DecidableEq ι] {state : Network ι × (ι → List Notice)} {m : Numbering ι}
  {state' : Network Nat × (Nat → List Notice)} {e : ι ≃ Nat} {x : ι}

/-- The next number is given to a connection, whatever its name was good for before. -/
theorem Renumbered.connect (h : Renumbered state m state' e) (closed : state.1.Closed)
    (fresh : state.1.account x = none) :
    Renumbered (deliver state (.connect x)) (m.after (.connect x))
      (deliver state' (m.number (.connect x))) (e.trans (Equiv.swap (e x) m.next)) := by
  have others : ∀ z, state.1.account z ≠ none → Equiv.swap (e x) m.next (e z) = e z := by
    intro z hz
    have hne : e z ≠ e x := fun heq => hz (e.injective heq ▸ fresh)
    exact Equiv.swap_apply_of_ne_of_ne hne (h.given z hz).ne
  have unmoved : state'.1.rename (Equiv.swap (e x) m.next) = state'.1 := by
    rw [← h.network]
    apply rename_eq_self
    · intro y hy
      have hmoved := others (e.symm y) hy
      rwa [e.apply_symm_apply] at hmoved
    · intro name r' hr' y hy
      obtain ⟨r, hr, rfl⟩ := Option.map_eq_some_iff.mp hr'
      have hknown : e.symm y ∈ r.members ∨ e.symm y ∈ r.invited :=
        hy.imp (r.mem_rename_members e).mp id
      have hmoved := others (e.symm y) (closed name r hr _ hknown)
      rwa [e.apply_symm_apply] at hmoved
  have new : (e.trans (Equiv.swap (e x) m.next)) x = m.next := Equiv.swap_apply_left _ _
  have old : ∀ z, z ≠ x → (state.1.connect x).account z ≠ none →
      state.1.account z ≠ none := fun z hne hz => by
    rwa [connect_account _ hne] at hz
  rw [deliver_connect]
  constructor
  · rw [connect_rename, new, ← rename_trans, h.network, unmoved]
    rfl
  · intro z hz
    by_cases hzx : z = x
    · subst hzx
      simp only [new, Numbering.after, Function.update_self]
    · simp only [Numbering.after, Function.update_of_ne hzx]
      exact (others z (old z hzx hz)).trans (h.session z (old z hzx hz))
  · intro z hz
    by_cases hzx : z = x
    · subst hzx
      rw [new]
      exact Nat.lt_succ_self _
    · exact (others z (old z hzx hz)).symm ▸ Nat.lt_succ_of_lt (h.given z (old z hzx hz))
  · intro z hz
    rw [Numbering.number, deliver_connect]
    by_cases hzx : z = x
    · subst hzx
      simp only [new, Function.update_self]
    · have hz := old z hzx hz
      have hmoved : (e.trans (Equiv.swap (e x) m.next)) z = e z := others z hz
      simp only [hmoved, Function.update_of_ne (h.given z hz).ne, Function.update_of_ne hzx,
        h.mail z hz]

theorem Renumbered.line (h : Renumbered state m state' e) {a : Account}
    (connected : state.1.account x = some a) (message : Message) :
    Renumbered (deliver state (.line x message)) (m.after (.line x message))
      (deliver state' (m.number (.line x message))) e := by
  have hx : state.1.account x ≠ none := by simp [connected]
  have connected' : state'.1.account (m.session x) = some a := by
    rw [← h.network, ← h.session x hx, rename_account, connected]
  have reaction : state'.1.respond (m.session x) a message =
      (state.1.respond x a message).rename e := by
    rw [← h.network, ← h.session x hx, respond_rename]
  have old : ∀ z, (state.1.apply x (state.1.respond x a message)).account z ≠ none →
      state.1.account z ≠ none := by
    intro z hz
    by_cases hzx : z = x
    · exact hzx ▸ hx
    · rwa [apply_account _ hzx] at hz
  rw [Numbering.number, deliver_line state connected, deliver_line state' connected', reaction]
  constructor
  · rw [apply_rename, h.network, h.session x hx]
  · exact fun z hz => h.session z (old z hz)
  · exact fun z hz => h.given z (old z hz)
  · intro z hz
    simp only [Reaction.rename, h.mail z (old z hz), e.symm_apply_apply]

theorem Renumbered.close (h : Renumbered state m state' e) (connected : state.1.account x ≠ none) :
    Renumbered (deliver state (.close x)) (m.after (.close x))
      (deliver state' (m.number (.close x))) e := by
  have old : ∀ z, (state.1.close x).account z ≠ none → state.1.account z ≠ none := by
    intro z hz
    by_cases hzx : z = x
    · exact hzx ▸ connected
    · rwa [close_account _ hzx] at hz
  rw [Numbering.number, deliver_close, deliver_close]
  constructor
  · rw [close_rename, h.network, h.session x connected]
  · exact fun z hz => h.session z (old z hz)
  · exact fun z hz => h.given z (old z hz)
  · exact fun z hz => h.mail z (old z hz)

/-- Numbers instead of names, from the start on. -/
theorem Legal.renumbered {password : Bytes} {actions : List (Action ι)} (h : Legal password actions)
    (names : ι ≃ Nat) :
    ∃ e, Renumbered (replay password actions) (numbered actions).1
      (replay password (numbered actions).2) e := by
  induction h with
  | nil => exact ⟨names, rfl, by simp [replay, start], by simp [replay, start],
      by simp [replay, start]⟩
  | snoc actions action before allowed ih =>
      obtain ⟨e, h⟩ := ih
      have hnumbered : numbered (actions ++ [action]) = Numbering.run (numbered actions) action :=
        List.foldl_append
      rw [hnumbered, Numbering.run, replay_append, replay_append]
      cases action with
      | connect x => exact ⟨_, h.connect (replay_closed password actions) allowed⟩
      | line x message =>
          obtain ⟨a, connected⟩ := Option.ne_none_iff_exists'.mp allowed
          exact ⟨e, h.line connected message⟩
      | close x => exact ⟨e, h.close allowed⟩

theorem Legal.numbered {password : Bytes} {actions : List (Action ι)} (h : Legal password actions)
    (names : ι ≃ Nat) : Legal password (IrcServer.numbered actions).2 := by
  induction h with
  | nil => exact .nil
  | snoc actions action before allowed ih =>
      obtain ⟨e, h⟩ := before.renumbered names
      have hnumbered : IrcServer.numbered (actions ++ [action]) =
          Numbering.run (IrcServer.numbered actions) action := List.foldl_append
      have known : ∀ {x}, (replay password actions).1.account x ≠ none →
          (replay password (IrcServer.numbered actions).2).1.account
            ((IrcServer.numbered actions).1.session x) ≠ none := by
        intro x hx
        rwa [← h.network, ← h.session x hx, rename_account]
      rw [hnumbered]
      refine ih.snoc _ _ ?_
      cases action with
      | connect x =>
          have hnext := e.apply_symm_apply (IrcServer.numbered actions).1.next
          have free : (replay password (IrcServer.numbered actions).2).1.account
              (IrcServer.numbered actions).1.next = none := by
            rw [← h.network, ← hnext, rename_account]
            by_contra taken
            exact (h.given _ taken).ne hnext
          exact free
      | line x message => exact known allowed
      | close x => exact known allowed

end Renumbered

end IrcServer
