import Mathlib.Data.List.Basic
import Mathlib.Tactic.Common

/-! # Flags that stay set

A property of the states that no step undoes, and that some steps establish, holds at the
end of a run exactly if it held at the start or some step has established it.
-/

namespace IrcServer.Latch

variable {σ ε : Type*} {step : σ → ε → σ}

/-- One of the steps satisfies `Sets`, in the state in which it is taken. -/
def Happens (step : σ → ε → σ) (Sets : σ → ε → Prop) (s : σ) (es : List ε) : Prop :=
  ∃ before e after, es = before ++ e :: after ∧ Sets (before.foldl step s) e

theorem not_happens_nil {Sets : σ → ε → Prop} {s : σ} : ¬ Happens step Sets s [] := by
  rintro ⟨before, e, after, heq, _⟩
  simp at heq

theorem happens_cons {Sets : σ → ε → Prop} {s : σ} {e : ε} {es : List ε} :
    Happens step Sets s (e :: es) ↔ Sets s e ∨ Happens step Sets (step s e) es := by
  constructor
  · rintro ⟨before, f, after, heq, hsets⟩
    cases before with
    | nil =>
        obtain ⟨rfl, rfl⟩ := List.cons.inj heq
        exact .inl hsets
    | cons g before =>
        obtain ⟨rfl, rfl⟩ := List.cons.inj heq
        exact .inr ⟨before, f, after, rfl, hsets⟩
  · rintro (hsets | ⟨before, f, after, rfl, hsets⟩)
    · exact ⟨[], e, es, rfl, hsets⟩
    · exact ⟨e :: before, f, after, rfl, hsets⟩

/-- `good` steps keep the invariant `I`, under which a step sets the flag `P` or leaves it. -/
structure Latched (step : σ → ε → σ) (good : ε → Prop) (I P : σ → Prop) (Sets : σ → ε → Prop) :
    Prop where
  invariant : ∀ s e, good e → I s → I (step s e)
  flag : ∀ s e, good e → I s → (P (step s e) ↔ P s ∨ Sets s e)

theorem Latched.iff_happens {good : ε → Prop} {I P : σ → Prop} {Sets : σ → ε → Prop}
    (h : Latched step good I P Sets) {s : σ} (hs : I s) {es : List ε} (allGood : ∀ e ∈ es, good e) :
    P (es.foldl step s) ↔ P s ∨ Happens step Sets s es := by
  induction es generalizing s with
  | nil => exact (or_iff_left not_happens_nil).symm
  | cons e es ih =>
      obtain ⟨hgood, hrest⟩ := List.forall_mem_cons.mp allGood
      rw [List.foldl_cons, ih (h.invariant s e hgood hs) hrest, h.flag s e hgood hs, happens_cons,
        or_assoc]

end IrcServer.Latch
