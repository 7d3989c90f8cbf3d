import Mathlib.Data.List.Basic
import Mathlib.Tactic.Common

/-! # What a part of the actions cannot change

A system answers every action. A view of its states is blind to some of the actions if
these leave it as it is, and if the answers to all others, and what they do to the view,
can be read off the view. Then the answers to the others are the same without the
hidden actions, and do not depend on how the two kinds are interleaved.
-/

namespace IrcServer.Purge

variable {σ α ο : Type*} {act : σ → α → σ × ο}

def transcript (act : σ → α → σ × ο) : σ → List α → List (α × ο)
  | _, [] => []
  | s, a :: as => (a, (act s a).2) :: transcript act (act s a).1 as

def outcome (act : σ → α → σ × ο) (s : σ) (as : List α) : σ := as.foldl (fun s a => (act s a).1) s

theorem transcript_append (s : σ) (as bs : List α) :
    transcript act s (as ++ bs) = transcript act s as ++ transcript act (outcome act s as) bs := by
  induction as generalizing s with
  | nil => rfl
  | cons a as ih => exact congrArg (List.cons _) (ih _)

/-- As long as all actions are `good`. -/
structure Blind (act : σ → α → σ × ο) (good : α → Prop) (visible : α → Bool)
    (same : σ → σ → Prop) : Prop where
  answer : ∀ s t a, good a → same s t → visible a = true → (act s a).2 = (act t a).2
  step : ∀ s t a, good a → same s t → visible a = true → same (act s a).1 (act t a).1
  hidden : ∀ s t a, good a → same s t → visible a = false → same (act s a).1 t

section Blind

variable {good : α → Prop} {visible : α → Bool} {same : σ → σ → Prop}
  (blind : Blind act good visible same)

include blind

/-- The state after the visible actions alone shows the same. -/
theorem Blind.outcome {s t : σ} (h : same s t) {as : List α} (allGood : ∀ a ∈ as, good a) :
    same (outcome act s as) (outcome act t (as.filter visible)) := by
  induction as generalizing s t with
  | nil => exact h
  | cons a as ih =>
      obtain ⟨hgood, hrest⟩ := List.forall_mem_cons.mp allGood
      cases ha : visible a with
      | true =>
          rw [List.filter_cons_of_pos ha]
          exact ih (blind.step s t a hgood h ha) hrest
      | false =>
          rw [List.filter_cons_of_neg (by simp [ha])]
          exact ih (blind.hidden s t a hgood h ha) hrest

/-- Every visible action is answered as if the hidden ones were not there. -/
theorem Blind.purge {s t : σ} (h : same s t) {as : List α} (allGood : ∀ a ∈ as, good a) :
    (transcript act s as).filter (fun entry => visible entry.1) =
      transcript act t (as.filter visible) := by
  induction as generalizing s t with
  | nil => rfl
  | cons a as ih =>
      obtain ⟨hgood, hrest⟩ := List.forall_mem_cons.mp allGood
      cases ha : visible a with
      | true =>
          simp only [transcript, List.filter_cons, ha, if_true]
          rw [blind.answer s t a hgood h ha, ih (blind.step s t a hgood h ha) hrest]
      | false =>
          simp only [transcript, List.filter_cons, ha, Bool.false_eq_true, if_false]
          exact ih (blind.hidden s t a hgood h ha) hrest

theorem Blind.interleaved {s : σ} (equiv : Equivalence same) {as bs : List α}
    (goodAs : ∀ a ∈ as, good a) (goodBs : ∀ b ∈ bs, good b)
    (h : as.filter visible = bs.filter visible) :
    same (Purge.outcome act s as) (Purge.outcome act s bs) ∧
      (transcript act s as).filter (fun entry => visible entry.1) =
        (transcript act s bs).filter (fun entry => visible entry.1) := by
  have first := blind.outcome (equiv.refl s) goodAs
  have second := blind.outcome (equiv.refl s) goodBs
  rw [← h] at second
  constructor
  · exact equiv.trans first (equiv.symm second)
  · rw [blind.purge (equiv.refl s) goodAs, blind.purge (equiv.refl s) goodBs, h]

end Blind

end IrcServer.Purge
