import IrcServer.Spec.Respond

/-! # Runs of the network

The actions that can follow each other: a new connection has the name of no other, and
only connections act. In every network that such actions lead to, the rooms hold nobody
who is not connected.
-/

namespace IrcServer

variable {ι : Type*}

namespace Network

def Allows (net : Network ι) : Action ι → Prop
  | .connect x => net.account x = none
  | .line x _ => net.account x ≠ none
  | .close x => net.account x ≠ none

def Closed (net : Network ι) : Prop :=
  ∀ name r, net.room name = some r → ∀ x, x ∈ r.members ∨ x ∈ r.invited → net.account x ≠ none

end Network

inductive Legal [DecidableEq ι] (password : Bytes) : List (Action ι) → Prop
  | nil : Legal password []
  | snoc (actions : List (Action ι)) (action : Action ι) (before : Legal password actions)
      (allowed : (Network.replay password actions).1.Allows action) :
      Legal password (actions ++ [action])

/-! ## Who is in a room -/

/-- Whoever is in the room that a reaction leaves behind is connected. -/
def Reaction.Within (net : Network ι) (reaction : Reaction ι) : Prop :=
  ∀ name r, reaction.change = some (name, some r) →
    ∀ x, x ∈ r.members ∨ x ∈ r.invited → net.account x ≠ none

namespace Network

variable [DecidableEq ι] {net : Network ι} (x : ι) (a : Account) (message : Message)

theorem Responds.within {x : ι} {a : Account} {message : Message} {reaction : Reaction ι}
    (h : net.Responds x a message reaction) (closed : net.Closed)
    (connected : net.account x ≠ none) : reaction.Within net := by
  intro name r hchange y hy
  cases h with
  | replied => cases hchange
  | silent => cases hchange
  | said => cases hchange
  | seated _ _ _ enters =>
      cases hchange
      rcases enters with ⟨_, rfl⟩ | ⟨r', outside, found, rfl⟩
      · rcases hy with hy | hy
        · rw [List.mem_singleton.mp hy]
          exact connected
        · exact absurd hy id
      · rcases hy with hy | hy
        · rcases List.mem_append.mp hy with hy | hy
          · exact closed _ r' found y (.inl hy)
          · rw [List.mem_singleton.mp hy]
            exact connected
        · exact closed _ r' found y (.inr hy)
  | announced _ r' _ _ _ found takes =>
      cases hchange
      exact closed _ r' found y (takes r rfl y hy)
  | invited _ r' _ _ _ found =>
      cases hchange
      rcases hy with hy | hy | ⟨b, hb, _⟩
      · exact closed _ r' found y (.inl hy)
      · exact closed _ r' found y (.inr hy)
      · rw [hb]
        exact Option.some_ne_none b

theorem respond_within (closed : net.Closed) (connected : net.account x ≠ none) :
    (net.respond x a message).Within net :=
  (respond_responds net x a message).within closed connected

/-! ## Runs -/

variable {x}

theorem Closed.connect (closed : net.Closed) (y : ι) : (net.connect y).Closed := by
  intro name r found z hz
  by_cases hzy : z = y
  · subst hzy
    simp [Network.connect]
  · rw [connect_account net hzy]
    exact closed name r found z hz

theorem Closed.close (closed : net.Closed) (y : ι) : (net.close y).Closed := by
  intro name r' found z hz
  obtain ⟨r, hr, hleave⟩ := Option.bind_eq_some_iff.mp found
  obtain ⟨r'', hexpel, rfl⟩ := Option.map_eq_some_iff.mp hleave
  have hne : z ≠ y := by
    rintro rfl
    rcases hz with hz | hz
    · unfold Room.expel at hexpel
      split at hexpel
      · obtain rfl := Option.some.inj hexpel
        simpa using (List.mem_filter.mp hz).2
      · cases hexpel
    · exact hz.2 rfl
  rw [close_account net hne]
  exact closed name r hr z (Room.takesNobody_expel hexpel z (hz.imp_right And.left))

theorem Closed.apply (closed : net.Closed) {reaction : Reaction ι} (within : reaction.Within net) :
    (net.apply x reaction).Closed := by
  intro name r found z hz
  by_cases hzx : z = x
  · subst hzx
    simp [Network.apply]
  · rw [apply_account net hzx]
    cases hchange : reaction.change with
    | none =>
        simp only [Network.apply, hchange] at found
        exact closed name r found z hz
    | some p =>
        simp only [Network.apply, hchange, Function.update_apply] at found
        split at found
        · have hafter : reaction.change = some (p.1, some r) := by rw [hchange, ← found]
          exact within _ r hafter z hz
        · exact closed name r found z hz

theorem Closed.act (closed : net.Closed) {action : Action ι} : (net.act action).1.Closed := by
  cases action with
  | connect y => exact closed.connect y
  | close y => exact closed.close y
  | line y message =>
      simp only [Network.act]
      split
      · exact closed
      · next a connected =>
          exact closed.apply (respond_within y a message closed (by simp [connected]))

/-- Nobody but the connected is in a room. -/
theorem replay_closed (password : Bytes) (actions : List (Action ι)) :
    (replay password actions).1.Closed := by
  induction actions using List.reverseRecOn with
  | nil => exact fun name r found => absurd found (by simp [replay, start])
  | append_singleton actions action ih =>
      rw [replay_append]
      exact ih.act

end Network

end IrcServer
