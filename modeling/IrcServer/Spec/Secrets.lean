import Mathlib.Logic.Embedding.Basic
import IrcServer.Spec.Respond

/-! # Secrets

The password and the keys of the rooms are compared with what the clients give, and with
nothing else. With other secrets, and clients that give the other secrets, the network does
the same and tells everybody the same, but for the key in the announcement of a key.
-/

namespace IrcServer

/-- Another password, and other keys for every room. What is no key stays none. -/
structure Disguise where
  password : Bytes ↪ Bytes
  key : Bytes → Bytes ↪ Bytes
  key_nil : ∀ name, key name [] = []

/-! ## Messages -/

namespace Message

def rewrite (message : Message) (k : Nat) (f : Bytes → Bytes) : Message :=
  { message with params := message.params.modify k f }

section Rewrite

variable (message : Message) {j k : Nat} (f : Bytes → Bytes)

@[simp] theorem rewrite_command : (message.rewrite k f).command = message.command := rfl

@[simp] theorem rewrite_length : (message.rewrite k f).params.length = message.params.length :=
  List.length_modify ..

theorem rewrite_empty : (message.rewrite k f).params = [] ↔ message.params = [] := by
  rw [← List.length_eq_zero_iff, rewrite_length, List.length_eq_zero_iff]

theorem rewrite_getElem? : (message.rewrite k f).params[k]? = message.params[k]?.map f := by
  simp [rewrite]

theorem rewrite_param (h : f [] = []) : (message.rewrite k f).param k = f (message.param k) := by
  rw [param, param, List.getD_eq_getElem?_getD, List.getD_eq_getElem?_getD, rewrite_getElem?]
  cases message.params[k]? with
  | none => exact h.symm
  | some b => rfl

theorem rewrite_param_ne (h : j ≠ k) : (message.rewrite k f).param j = message.param j := by
  have hget : (message.rewrite k f).params[j]? = message.params[j]? := by
    simp [rewrite, h.symm]
  rw [param, param, List.getD_eq_getElem?_getD, List.getD_eq_getElem?_getD, hget]

end Rewrite

/-- The message of a client that gives the other secrets. -/
def disguise (σ : Disguise) (message : Message) : Message :=
  if message.command = text "PASS" then message.rewrite 0 σ.password
  else if message.command = text "JOIN" then message.rewrite 1 (σ.key (message.param 0))
  else if message.command = text "MODE" ∧ message.param 1 = text "+k" then
    message.rewrite 2 (σ.key (message.param 0))
  else message

section Disguise

variable (σ : Disguise) {message : Message}

@[simp] theorem disguise_command : (message.disguise σ).command = message.command := by
  unfold disguise
  split
  · rfl
  split
  · rfl
  split <;> rfl

theorem disguise_same {command : Bytes} (h : message.command = command)
    (pass : command ≠ text "PASS") (join : command ≠ text "JOIN") (mode : command ≠ text "MODE") :
    message.disguise σ = message := by
  subst h
  rw [disguise, if_neg pass, if_neg join, if_neg fun h => mode h.1]

theorem disguise_pass (h : message.command = text "PASS") :
    message.disguise σ = message.rewrite 0 σ.password := if_pos h

theorem disguise_join (h : message.command = text "JOIN") :
    message.disguise σ = message.rewrite 1 (σ.key (message.param 0)) := by
  have pass : message.command ≠ text "PASS" := by
    rw [h]
    decide
  rw [disguise, if_neg pass, if_pos h]

theorem disguise_mode (h : message.command = text "MODE") :
    message.disguise σ =
      if message.param 1 = text "+k" then message.rewrite 2 (σ.key (message.param 0))
      else message := by
  have pass : message.command ≠ text "PASS" := by
    rw [h]
    decide
  have join : message.command ≠ text "JOIN" := by
    rw [h]
    decide
  rw [disguise, if_neg pass, if_neg join]
  simp only [h, true_and]

end Disguise

end Message

/-! ## Notices -/

def Notice.disguise (σ : Disguise) : Notice → Notice
  | .moded source name change =>
      if change.take 3 = text "+k " then .moded source name (text "+k " ++ σ.key name (change.drop 3))
      else .moded source name change
  | notice => notice

section Notices

variable (σ : Disguise) (source name : Bytes)

theorem Notice.keyed_disguise (key : Bytes) :
    Notice.disguise σ (.moded source name (text "+k " ++ key)) =
      .moded source name (text "+k " ++ σ.key name key) := by
  have hlength : (text "+k ").length = 3 := by decide
  rw [disguise, List.take_left' hlength, if_pos rfl, List.drop_left' hlength]

theorem Notice.moded_disguise {change : Bytes} (h : change.take 3 ≠ text "+k ") :
    Notice.disguise σ (.moded source name change) = .moded source name change :=
  if_neg h

end Notices

theorem Notice.told_disguise (σ : Disguise) {p : Prop} {_ : Decidable p} {notice notice' : Notice}
    (h : notice' = notice.disguise σ) :
    (if p then [notice'] else []) = (if p then [notice] else []).map (Notice.disguise σ) := by
  by_cases hp : p
  · rw [if_pos hp, if_pos hp, h, List.map_singleton]
  · rw [if_neg hp, if_neg hp, List.map_nil]

/-! ## Reactions -/

variable {ι : Type*} (σ : Disguise)

def Room.disguise (f : Bytes ↪ Bytes) (r : Room ι) : Room ι := { r with key := r.key.map f }

def Network.disguise (net : Network ι) : Network ι where
  password := σ.password net.password
  account := net.account
  room name := (net.room name).map (Room.disguise (σ.key name))

namespace Reaction

def disguise (reaction : Reaction ι) : Reaction ι where
  account := reaction.account
  change := reaction.change.map fun p => (p.1, p.2.map (Room.disguise (σ.key p.1)))
  outbox y := (reaction.outbox y).map (Notice.disguise σ)

theorem disguise_ite {p q : Prop} {_ : Decidable p} {_ : Decidable q} {u v u' v' : Reaction ι}
    (h : p ↔ q) (hu : q → u = u'.disguise σ) (hv : ¬ q → v = v'.disguise σ) :
    (if p then u else v) = (if q then u' else v').disguise σ := by
  by_cases hq : q
  · rw [if_pos hq, if_pos (h.mpr hq), hu hq]
  · rw [if_neg hq, if_neg (mt h.mp hq), hv hq]

end Reaction

namespace Network

open Reaction Message Notice

variable [DecidableEq ι] (net : Network ι) (x : ι) (a : Account) (message : Message)

theorem reply_disguise {notice : Notice} (h : notice.disguise σ = notice) :
    reply x a notice = (reply x a notice).disguise σ :=
  Reaction.ext rfl rfl (funext fun _ => told_disguise σ h.symm)

omit [DecidableEq ι] in
theorem silence_disguise : (silence a : Reaction ι) = (silence a).disguise σ := rfl

theorem announce_disguise {name : Bytes} {r : Room ι} {after after' : Option (Room ι)}
    {notice notice' : Notice} (h : after' = after.map (Room.disguise (σ.key name)))
    (hnotice : notice' = notice.disguise σ) :
    announce a name (r.disguise (σ.key name)) after' notice' =
      (announce a name r after notice).disguise σ := by
  subst h
  exact Reaction.ext rfl rfl (funext fun _ => told_disguise σ hnotice)

theorem refused_disguise {p q : Prop} {_ : Decidable p} {_ : Decidable q} {notice : Notice}
    {v v' : Reaction ι} (h : p ↔ q) (plain : notice.disguise σ = notice)
    (hv : ¬ q → v = v'.disguise σ) :
    (if p then reply x a notice else v) = (if q then reply x a notice else v').disguise σ :=
  Reaction.disguise_ite σ h (fun _ => reply_disguise σ x a plain) hv

/-! ## Registration -/


theorem pass_disguise :
    (net.disguise σ).pass x a (message.rewrite 0 σ.password) = (net.pass x a message).disguise σ := by
  refine refused_disguise σ x a Iff.rfl rfl fun _ => ?_
  refine refused_disguise σ x a (rewrite_empty message _) rfl fun given => ?_
  have hparam : (message.rewrite 0 σ.password).param 0 = σ.password (message.param 0) := by
    rw [param, param, List.getD_eq_getElem?_getD, List.getD_eq_getElem?_getD, rewrite_getElem?,
      ← List.head?_eq_getElem?, List.head?_eq_some_head given]
    rfl
  have correct : (net.disguise σ).password = (message.rewrite 0 σ.password).param 0 ↔
      net.password = message.param 0 := by
    rw [hparam]
    exact σ.password.injective.eq_iff
  exact disguise_ite σ correct (fun _ => rfl) fun _ => reply_disguise σ x a rfl

theorem nick_disguise : (net.disguise σ).nick x a message = (net.nick x a message).disguise σ := by
  refine refused_disguise σ x a Iff.rfl rfl fun _ => ?_
  refine refused_disguise σ x a Iff.rfl rfl fun _ => ?_
  refine refused_disguise σ x a Iff.rfl rfl fun _ => ?_
  refine refused_disguise σ x a Iff.rfl rfl fun _ => ?_
  refine refused_disguise σ x _ Iff.rfl rfl fun _ => ?_
  exact refused_disguise σ x _ Iff.rfl rfl fun _ => rfl

theorem user_disguise : user x a message = (user x a message).disguise σ := by
  refine refused_disguise σ x a Iff.rfl rfl fun _ => ?_
  refine refused_disguise σ x a Iff.rfl rfl fun _ => ?_
  refine refused_disguise σ x a Iff.rfl rfl fun _ => ?_
  exact refused_disguise σ x _ Iff.rfl rfl fun _ => rfl

/-! ## Rooms -/

omit [DecidableEq ι] in
theorem disguise_room_cases {name : Bytes} {none' none'' : Reaction ι}
    {some' some'' : Room ι → Reaction ι} (hnone : none' = none''.disguise σ)
    (hsome : ∀ r, some' (r.disguise (σ.key name)) = (some'' r).disguise σ) :
    (match (net.disguise σ).room name with | none => none' | some r => some' r) =
      Reaction.disguise σ (match net.room name with | none => none'' | some r => some'' r) := by
  simp only [disguise]
  cases net.room name with
  | none => exact hnone
  | some r => exact hsome r

theorem expel_disguise (f : Bytes ↪ Bytes) (r : Room ι) :
    (r.disguise f).expel x = (r.expel x).map (Room.disguise f) := by
  by_cases left : r.members.filter (fun y => y ≠ x) ≠ []
  · rw [Room.expel, Room.expel, dif_pos left]
    exact dif_pos left
  · rw [Room.expel, Room.expel, dif_neg left]
    exact dif_neg left

theorem leave_disguise (f : Bytes ↪ Bytes) (r : Room ι) :
    (r.disguise f).leave x = (r.leave x).map (Room.disguise f) := by
  rw [Room.leave, Room.leave, expel_disguise, Option.map_map, Option.map_map]
  rfl

theorem seat_disguise (name : Bytes) (r : Room ι) :
    (net.disguise σ).seat x a name (r.disguise (σ.key name)) = (net.seat x a name r).disguise σ := by
  refine Reaction.ext rfl rfl (funext fun y => ?_)
  simp only [seat, Reaction.disguise, List.map_append]
  refine congrArg₂ (· ++ ·) (told_disguise σ rfl) ?_
  split <;> rfl

/-- The key is compared with the second parameter. -/
theorem enter_disguise (name : Bytes) (r : Room ι) :
    (net.disguise σ).enter x a (message.rewrite 1 (σ.key name)) name (r.disguise (σ.key name)) =
      (net.enter x a message name r).disguise σ := by
  unfold enter
  by_cases member : x ∈ r.members
  · rw [dif_pos member]
    exact (dif_pos member).trans (reply_disguise σ x a rfl)
  · rw [dif_neg member]
    refine (dif_neg member).trans ?_
    have locked : (r.disguise (σ.key name)).key ≠ none ∧
        (message.rewrite 1 (σ.key name)).params[1]? ≠ (r.disguise (σ.key name)).key ↔
          r.key ≠ none ∧ message.params[1]? ≠ r.key := by
      rw [rewrite_getElem?]
      exact and_congr (not_congr Option.map_eq_none_iff)
        (not_congr (Option.map_injective (σ.key name).injective).eq_iff)
    refine refused_disguise σ x a Iff.rfl rfl fun _ => ?_
    refine refused_disguise σ x a locked rfl fun _ => ?_
    refine refused_disguise σ x a Iff.rfl rfl fun _ => ?_
    exact seat_disguise σ net x a name (r.join x member)

theorem join_disguise :
    (net.disguise σ).join x a (message.rewrite 1 (σ.key (message.param 0))) =
      (net.join x a message).disguise σ := by
  have hname : (message.rewrite 1 (σ.key (message.param 0))).param 0 = message.param 0 :=
    rewrite_param_ne message _ (by decide)
  unfold join
  simp only [hname, rewrite_empty]
  refine refused_disguise σ x a Iff.rfl rfl fun _ => ?_
  refine refused_disguise σ x a Iff.rfl rfl fun _ => ?_
  refine refused_disguise σ x a Iff.rfl rfl fun _ => ?_
  apply disguise_room_cases σ net
  · exact seat_disguise σ net x a _ (.found x)
  · exact enter_disguise σ net x a message _

theorem privmsg_disguise :
    (net.disguise σ).privmsg x a message = (net.privmsg x a message).disguise σ := by
  refine refused_disguise σ x a Iff.rfl rfl fun _ => ?_
  refine refused_disguise σ x a Iff.rfl rfl fun _ => ?_
  refine refused_disguise σ x a Iff.rfl rfl fun _ => ?_
  refine disguise_ite σ Iff.rfl (fun _ => ?_) fun _ => ?_
  · apply disguise_room_cases σ net (reply_disguise σ x a rfl)
    intro r
    exact refused_disguise σ x a Iff.rfl rfl fun _ =>
      Reaction.ext rfl rfl (funext fun _ => told_disguise σ rfl)
  · exact refused_disguise σ x a Iff.rfl rfl fun _ =>
      Reaction.ext rfl rfl (funext fun _ => told_disguise σ rfl)

theorem topic_disguise : (net.disguise σ).topic x a message = (net.topic x a message).disguise σ := by
  refine refused_disguise σ x a Iff.rfl rfl fun _ => ?_
  refine refused_disguise σ x a Iff.rfl rfl fun _ => ?_
  apply disguise_room_cases σ net (reply_disguise σ x a rfl)
  intro r
  refine disguise_ite σ Iff.rfl (fun _ => ?_) fun _ => ?_
  · have htopic : (r.disguise (σ.key (message.param 0))).topic = r.topic := rfl
    rw [htopic]
    cases r.topic with
    | none => exact reply_disguise σ x a rfl
    | some topic => exact reply_disguise σ x a rfl
  · refine refused_disguise σ x a Iff.rfl rfl fun _ => ?_
    refine refused_disguise σ x a Iff.rfl rfl fun _ => ?_
    exact announce_disguise σ a rfl rfl

omit [DecidableEq ι] in
open scoped Classical in
theorem find_disguise (f : Bytes ↪ Bytes) (nick : Bytes) (r : Room ι) :
    (r.disguise f).members.find? ((net.disguise σ).Holds nick ·) =
      r.members.find? (net.Holds nick ·) := rfl

theorem kick_disguise : (net.disguise σ).kick x a message = (net.kick x a message).disguise σ := by
  refine refused_disguise σ x a Iff.rfl rfl fun _ => ?_
  refine refused_disguise σ x a Iff.rfl rfl fun _ => ?_
  apply disguise_room_cases σ net (reply_disguise σ x a rfl)
  intro r
  refine refused_disguise σ x a Iff.rfl rfl fun _ => ?_
  refine refused_disguise σ x a Iff.rfl rfl fun _ => ?_
  rw [find_disguise]
  generalize List.find? _ r.members = found
  cases found with
  | none => exact reply_disguise σ x a rfl
  | some d =>
      refine refused_disguise σ x a Iff.rfl rfl fun _ => ?_
      exact announce_disguise σ a (expel_disguise d _ r) rfl

theorem invite_disguise :
    (net.disguise σ).invite x a message = (net.invite x a message).disguise σ := by
  refine refused_disguise σ x a Iff.rfl rfl fun _ => ?_
  refine refused_disguise σ x a Iff.rfl rfl fun _ => ?_
  refine refused_disguise σ x a Iff.rfl rfl fun _ => ?_
  apply disguise_room_cases σ net (reply_disguise σ x a rfl)
  intro r
  refine refused_disguise σ x a Iff.rfl rfl fun _ => ?_
  refine refused_disguise σ x a Iff.rfl rfl fun _ => ?_
  refine Reaction.ext rfl rfl (funext fun y => ?_)
  simp only [Reaction.disguise, List.map_append]
  exact congrArg₂ (· ++ ·) (told_disguise σ rfl) (told_disguise σ rfl)

/-! ## MODE -/

theorem hand_disguise (name : Bytes) (r : Room ι) {d : ι} (member : d ∈ r.members)
    (mode : message.param 1 = text "+o" ∨ message.param 1 = text "-o") :
    hand x a message name (r.disguise (σ.key name)) d member =
      (hand x a message name r d member).disguise σ := by
  have plain : Notice.moded a.nick name (message.param 1 ++ text " " ++ message.param 2) =
      (Notice.moded a.nick name (message.param 1 ++ text " " ++ message.param 2)).disguise σ := by
    refine (moded_disguise σ a.nick name ?_).symm
    rcases mode with h | h
    · rw [h]
      exact (by decide : text "+o " ≠ text "+k ")
    · rw [h]
      exact (by decide : text "-o " ≠ text "+k ")
  refine disguise_ite σ Iff.rfl (fun _ => ?_) fun _ => ?_
  · refine disguise_ite σ Iff.rfl (fun _ => silence_disguise σ a) fun _ => ?_
    exact announce_disguise σ a rfl plain
  · refine disguise_ite σ Iff.rfl (fun _ => silence_disguise σ a) fun _ => ?_
    refine refused_disguise σ x a Iff.rfl rfl fun _ => ?_
    exact announce_disguise σ a rfl plain

open scoped Classical in
theorem appoint_disguise (name : Bytes) (r : Room ι)
    (mode : message.param 1 = text "+o" ∨ message.param 1 = text "-o") :
    (net.disguise σ).appoint x a message name (r.disguise (σ.key name)) =
      (net.appoint x a message name r).disguise σ := by
  refine refused_disguise σ x a Iff.rfl rfl fun _ => ?_
  refine refused_disguise σ x a Iff.rfl rfl fun _ => ?_
  split
  · next hnone =>
      rw [find_disguise] at hnone
      split
      · apply reply_disguise σ x a
        rfl
      · next hsome => cases hnone.symm.trans hsome
  · next d hsome =>
      rw [find_disguise] at hsome
      split
      · next hnone => cases hnone.symm.trans hsome
      · next d' hd' =>
          obtain rfl := Option.some.inj (hsome.symm.trans hd')
          exact hand_disguise σ x a message name r _ mode

theorem noneIfEmpty_map {f : Bytes ↪ Bytes} (h : f [] = []) (b : Bytes) :
    noneIfEmpty (f b) = (noneIfEmpty b).map f := by
  have hempty : f b = [] ↔ b = [] := by rw [← h, f.injective.eq_iff, h]
  by_cases hb : b = []
  · rw [noneIfEmpty, noneIfEmpty, if_pos (hempty.mpr hb), if_pos hb, Option.map_none]
  · rw [noneIfEmpty, noneIfEmpty, if_neg (mt hempty.mp hb), if_neg hb, Option.map_some]

theorem alter_lock (name : Bytes) (r : Room ι) (mode : message.param 1 = text "+k") :
    net.alter x a message name r =
      if message.params.length < 3 then reply x a (.numeric 461 a.nick (text "MODE"))
      else announce a name r (some { r with key := noneIfEmpty (message.param 2) })
        (.moded a.nick name (text "+k " ++ message.param 2)) := by
  unfold alter
  simp only [mode]
  rw [if_neg (by decide), if_neg (by decide), if_pos (by decide), if_pos trivial]

/-- The key is the third parameter, and announced. -/
theorem lock_disguise (name : Bytes) (r : Room ι) (mode : message.param 1 = text "+k") :
    (net.disguise σ).alter x a (message.rewrite 2 (σ.key name)) name (r.disguise (σ.key name)) =
      (net.alter x a message name r).disguise σ := by
  have hmode : (message.rewrite 2 (σ.key name)).param 1 = message.param 1 :=
    rewrite_param_ne message _ (by decide)
  rw [alter_lock net x a message name r mode,
    alter_lock _ x a (message.rewrite 2 (σ.key name)) name _ (hmode.trans mode), rewrite_length,
    rewrite_param message (σ.key name) (σ.key_nil name), noneIfEmpty_map (σ.key_nil name)]
  refine refused_disguise σ x a Iff.rfl rfl fun _ => ?_
  exact announce_disguise σ a rfl (keyed_disguise σ a.nick name _).symm

theorem alter_disguise (name : Bytes) (r : Room ι) (mode : message.param 1 ≠ text "+k") :
    (net.disguise σ).alter x a message name (r.disguise (σ.key name)) =
      (net.alter x a message name r).disguise σ := by
  have plain : ∀ {change : Bytes}, change.take 3 ≠ text "+k " →
      Notice.moded a.nick name change = (Notice.moded a.nick name change).disguise σ :=
    fun h => (moded_disguise σ a.nick name h).symm
  refine disguise_ite σ Iff.rfl (fun h => announce_disguise σ a rfl (plain ?_)) fun _ => ?_
  · rcases h with h | h <;> rw [h] <;> decide
  refine disguise_ite σ Iff.rfl (fun h => announce_disguise σ a rfl (plain ?_)) fun _ => ?_
  · rcases h with h | h <;> rw [h] <;> decide
  refine disguise_ite σ Iff.rfl (fun _ => ?_) fun _ => ?_
  · refine refused_disguise σ x a Iff.rfl rfl fun _ => ?_
    exact disguise_ite σ Iff.rfl (fun h => absurd h mode) fun _ => announce_disguise σ a rfl rfl
  refine disguise_ite σ Iff.rfl (fun _ => announce_disguise σ a rfl rfl) fun _ => ?_
  refine disguise_ite σ Iff.rfl (fun _ => ?_) fun _ => ?_
  · refine refused_disguise σ x a Iff.rfl rfl fun _ => announce_disguise σ a rfl (plain ?_)
    exact (by decide : text "+l " ≠ text "+k ")
  exact disguise_ite σ Iff.rfl (appoint_disguise σ net x a message name r)
    fun _ => reply_disguise σ x a rfl

theorem mode_disguise (h : message.command = text "MODE") :
    (net.disguise σ).mode x a (message.disguise σ) = (net.mode x a message).disguise σ := by
  rw [disguise_mode σ h]
  split
  · next key =>
      have hname : (message.rewrite 2 (σ.key (message.param 0))).param 0 = message.param 0 :=
        rewrite_param_ne message _ (by decide)
      unfold mode
      simp only [hname, rewrite_length]
      refine refused_disguise σ x a Iff.rfl rfl fun _ => ?_
      refine refused_disguise σ x a Iff.rfl rfl fun _ => ?_
      apply disguise_room_cases σ net (reply_disguise σ x a rfl)
      intro r
      exact refused_disguise σ x a Iff.rfl rfl fun _ => lock_disguise σ net x a message _ r key
  · next key =>
      refine refused_disguise σ x a Iff.rfl rfl fun _ => ?_
      refine refused_disguise σ x a Iff.rfl rfl fun _ => ?_
      apply disguise_room_cases σ net (reply_disguise σ x a rfl)
      intro r
      exact refused_disguise σ x a Iff.rfl rfl fun _ => alter_disguise σ net x a message _ r key

/-- Every reaction is the same but for the secrets. -/
theorem respond_disguise :
    (net.disguise σ).respond x a (message.disguise σ) = (net.respond x a message).disguise σ := by
  unfold respond
  simp only [disguise_command]
  refine disguise_ite σ Iff.rfl (fun h => ?_) fun _ => ?_
  · rw [disguise_pass σ h]
    exact pass_disguise σ net x a message
  refine disguise_ite σ Iff.rfl (fun h => ?_) fun _ => ?_
  · rw [disguise_same σ h (by decide) (by decide) (by decide)]
    exact nick_disguise σ net x a message
  refine disguise_ite σ Iff.rfl (fun h => ?_) fun _ => ?_
  · rw [disguise_same σ h (by decide) (by decide) (by decide)]
    exact user_disguise σ x a message
  refine disguise_ite σ Iff.rfl (fun h => ?_) fun _ => ?_
  · rw [disguise_join σ h]
    exact join_disguise σ net x a message
  refine disguise_ite σ Iff.rfl (fun h => ?_) fun _ => ?_
  · rw [disguise_same σ h (by decide) (by decide) (by decide)]
    exact privmsg_disguise σ net x a message
  refine disguise_ite σ Iff.rfl (fun h => ?_) fun _ => ?_
  · rw [disguise_same σ h (by decide) (by decide) (by decide)]
    exact topic_disguise σ net x a message
  refine disguise_ite σ Iff.rfl (fun h => ?_) fun _ => ?_
  · rw [disguise_same σ h (by decide) (by decide) (by decide)]
    exact kick_disguise σ net x a message
  refine disguise_ite σ Iff.rfl (fun h => ?_) fun _ => ?_
  · rw [disguise_same σ h (by decide) (by decide) (by decide)]
    exact invite_disguise σ net x a message
  refine disguise_ite σ Iff.rfl (mode_disguise σ net x a message) fun _ => ?_
  exact disguise_ite σ Iff.rfl (fun _ => rfl) fun _ => reply_disguise σ x a rfl

end Network

/-! ## Actions -/

def Action.disguise : Action ι → Action ι
  | .connect x => .connect x
  | .line x message => .line x (message.disguise σ)
  | .close x => .close x

namespace Network

variable [DecidableEq ι] (net : Network ι) (x : ι)

theorem close_disguise : (net.close x).disguise σ = (net.disguise σ).close x := by
  refine Network.ext rfl rfl (funext fun name => ?_)
  simp only [close, disguise]
  cases net.room name with
  | none => rfl
  | some r => exact (leave_disguise x _ r).symm

theorem apply_disguise (reaction : Reaction ι) :
    (net.apply x reaction).disguise σ = (net.disguise σ).apply x (reaction.disguise σ) := by
  refine Network.ext rfl rfl (funext fun name => ?_)
  simp only [apply, disguise, Reaction.disguise]
  cases reaction.change with
  | none => rfl
  | some p =>
      simp only [Option.map_some, Function.update_apply]
      split
      · next h => rw [h]
      · rfl

/-- The same with the other secrets, and everybody told the same but for the keys announced. -/
theorem deliver_disguise (state : Network ι × (ι → List Notice)) (action : Action ι) :
    deliver (state.1.disguise σ, fun y => (state.2 y).map (Notice.disguise σ)) (action.disguise σ) =
      ((deliver state action).1.disguise σ,
        fun y => ((deliver state action).2 y).map (Notice.disguise σ)) := by
  cases action with
  | connect x =>
      rw [Action.disguise, deliver_connect, deliver_connect]
      refine Prod.ext rfl (funext fun y => ?_)
      simp only [Function.update_apply]
      split <;> rfl
  | line x message =>
      cases haccount : state.1.account x with
      | none =>
          have haccount' : (state.1.disguise σ).account x = none := haccount
          simp only [Action.disguise, deliver, act, haccount, haccount', List.append_nil]
      | some a =>
          have haccount' : (state.1.disguise σ).account x = some a := haccount
          rw [Action.disguise, deliver_line state haccount,
            deliver_line (state.1.disguise σ, fun y => (state.2 y).map (Notice.disguise σ)) haccount',
            respond_disguise]
          refine Prod.ext (apply_disguise σ state.1 x _).symm (funext fun y => ?_)
          exact List.map_append.symm
  | close x =>
      rw [Action.disguise, deliver_close, deliver_close, close_disguise]

theorem replay_disguise (password : Bytes) (actions : List (Action ι)) :
    replay (σ.password password) (actions.map (Action.disguise σ)) =
      ((replay password actions).1.disguise σ,
        fun y => ((replay password actions).2 y).map (Notice.disguise σ)) := by
  induction actions using List.reverseRecOn with
  | nil => rfl
  | append_singleton actions action ih =>
      rw [List.map_append, replay_append, replay_append, ih]
      exact deliver_disguise σ (replay password actions) action

end Network

/-! ## Who is told a key -/

def Notice.reveals : Notice → Option Bytes
  | .moded _ name change => if change.take 3 = text "+k " then some name else none
  | _ => none

theorem Notice.mode_of_reveals (notice : Notice) {name : Bytes} (h : name ∈ notice.reveals) :
    ∃ source change, notice = .moded source name change := by
  cases notice with
  | moded source channel change =>
      obtain ⟨_, hname⟩ := Option.ite_none_right_eq_some.mp h
      obtain rfl := Option.some.inj hname
      exact ⟨source, change, rfl⟩
  | _ => cases h

theorem Notice.disguise_same {notice : Notice}
    (h : ∀ name ∈ notice.reveals, ∀ key, σ.key name key = key) : notice.disguise σ = notice := by
  cases notice with
  | moded source name change =>
      by_cases keyed : change.take 3 = text "+k "
      · have hkey := h name (if_pos keyed) (change.drop 3)
        rw [disguise, if_pos keyed, hkey, ← keyed, List.take_append_drop]
      · exact if_neg keyed
  | _ => rfl

/-- A key is announced to the members of the room. -/
def Reaction.Confides (net : Network ι) (reaction : Reaction ι) : Prop :=
  ∀ y, ∀ notice ∈ reaction.outbox y, ∀ name ∈ notice.reveals,
    ∃ r, net.room name = some r ∧ y ∈ r.members

namespace Network

variable [DecidableEq ι] {net : Network ι} (x : ι) (a : Account) (message : Message)

theorem respond_confides : (net.respond x a message).Confides net := by
  have responds := respond_responds net x a message
  intro y notice hnotice name hname
  generalize net.respond x a message = reaction at responds hnotice
  have revealed := notice.mode_of_reveals hname
  obtain ⟨source, change, rfl⟩ := revealed
  cases responds with
  | replied b told sender modeless =>
      simp only [reply, List.mem_ite_nil_right, List.mem_singleton] at hnotice
      exact absurd hnotice.2.symm (modeless source name change)
  | silent => exact absurd hnotice List.not_mem_nil
  | said outbox modeless => exact absurd rfl (modeless y _ hnotice source name change)
  | seated =>
      simp only [seat, List.mem_append, List.mem_ite_nil_right, List.mem_cons, List.not_mem_nil,
        or_false] at hnotice
      rcases hnotice with ⟨_, h⟩ | ⟨_, h | h⟩
      · cases h
      · cases h
      · cases h
  | announced room r after told named found takes modes =>
      simp only [announce, List.mem_ite_nil_right, List.mem_singleton] at hnotice
      obtain rfl := modes source name change hnotice.2.symm
      exact ⟨r, found, hnotice.1⟩
  | invited room r nick outbox named found modeless =>
      exact absurd rfl (modeless y _ hnotice source name change)

/-- Whoever has been in no room whose keys are others has been told the same. -/
theorem replay_confides (password : Bytes) (actions : List (Action ι)) {y : ι}
    (outside : ∀ before after, actions = before ++ after → .connect y ∉ after →
      ∀ name r, (replay password before).1.room name = some r → y ∈ r.members →
        ∀ key, σ.key name key = key) :
    ∀ notice ∈ (replay password actions).2 y, notice.disguise σ = notice := by
  induction actions using List.reverseRecOn with
  | nil => exact fun _ h => absurd h List.not_mem_nil
  | append_singleton actions action ih =>
      have later : action ≠ .connect y →
          ∀ notice ∈ (replay password actions).2 y, notice.disguise σ = notice := by
        intro hne
        refine ih fun before after heq hafter => outside before (after ++ [action]) ?_ ?_
        · rw [heq, List.append_assoc]
        · exact List.not_mem_append hafter fun h => hne (List.mem_singleton.mp h).symm
      rw [replay_append]
      change ∀ notice ∈ (deliver (replay password actions) action).2 y, notice.disguise σ = notice
      cases action with
      | connect x =>
          rw [deliver_connect]
          by_cases hx : y = x
          · subst hx
            simp
          · simp only [Function.update_of_ne hx]
            exact later fun h => hx (Action.connect.inj h).symm
      | close x =>
          rw [deliver_close]
          exact later fun h => nomatch h
      | line x message =>
          have before := later fun h => nomatch h
          cases haccount : (replay password actions).1.account x with
          | none => simpa only [deliver, act, haccount, List.append_nil] using before
          | some a =>
              rw [deliver_line _ haccount]
              intro notice hnotice
              rcases List.mem_append.mp hnotice with hold | hnew
              · exact before notice hold
              · refine Notice.disguise_same σ fun name hname => ?_
                obtain ⟨r, found, member⟩ := respond_confides x a message y notice hnew name hname
                exact outside actions [.line x message] rfl (by simp) name r found member

end Network

end IrcServer
