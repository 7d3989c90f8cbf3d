import Mathlib.Tactic.Common

/-! # Runs of a guarded step function

A component is a step function that may refuse an event. A run executes a list
of events; everything below is about `run` itself: composition at any cut,
invariants, the refinement of one system by another, and the exact
condition under which a property survives every step of a run.
-/

namespace IrcServer.Transition

variable {σ ε : Type*} {step : σ → ε → Option σ}

/-- Execute the events in order. The run is `none` from the first refused event on. -/
def run (step : σ → ε → Option σ) : σ → List ε → Option σ
  | s, [] => some s
  | s, e :: es => (step s e).bind fun s' => run step s' es

@[simp] theorem run_nil (s : σ) : run step s [] = some s := rfl

theorem run_cons (s : σ) (e : ε) (es : List ε) :
    run step s (e :: es) = (step s e).bind fun s' => run step s' es := rfl

theorem run_cons_some {s t : σ} {e : ε} {es : List ε} :
    run step s (e :: es) = some t ↔ ∃ s', step s e = some s' ∧ run step s' es = some t := by
  rw [run_cons, Option.bind_eq_some_iff]

theorem run_append (s : σ) (es fs : List ε) :
    run step s (es ++ fs) = (run step s es).bind fun s' => run step s' fs := by
  induction es generalizing s with
  | nil => rfl
  | cons e es ih =>
      rw [List.cons_append, run_cons, run_cons, Option.bind_assoc]
      simp only [ih]

theorem run_append_some {s t : σ} {es fs : List ε} :
    run step s (es ++ fs) = some t ↔ ∃ m, run step s es = some m ∧ run step m fs = some t := by
  rw [run_append, Option.bind_eq_some_iff]

theorem run_snoc {s m t : σ} {es : List ε} {e : ε} (h : run step s es = some m)
    (he : step m e = some t) : run step s (es ++ [e]) = some t := by
  rw [run_append, h, Option.bind_some, run_cons, he]
  rfl

/-! ## Invariants -/

/-- What every step preserves holds at the end of every run. -/
theorem run_invariant {P : σ → Prop} (preserved : ∀ s e s', P s → step s e = some s' → P s')
    {s t : σ} {es : List ε} (hs : P s) (h : run step s es = some t) : P t := by
  induction es generalizing s with
  | nil => cases h; exact hs
  | cons e es ih =>
      obtain ⟨s', he, hrest⟩ := run_cons_some.mp h
      exact ih (preserved s e s' hs he) hrest

/-- A system whose single steps are runs of a finer one has only runs of the finer one. -/
theorem run_refines {φ : Type*} {coarse : σ → φ → Option σ} {I : σ → Prop}
    (preserved : ∀ s e s', I s → step s e = some s' → I s')
    (refines : ∀ s f s', I s → coarse s f = some s' → ∃ es, run step s es = some s')
    {s t : σ} {fs : List φ} (hs : I s) (h : run coarse s fs = some t) :
    ∃ es, run step s es = some t := by
  induction fs generalizing s with
  | nil => exact ⟨[], h⟩
  | cons f fs ih =>
      obtain ⟨m, hm, hrest⟩ := run_cons_some.mp h
      obtain ⟨es, hes⟩ := refines s f m hs hm
      obtain ⟨es', hes'⟩ := ih (run_invariant preserved hs hes) hrest
      exact ⟨es ++ es', run_append_some.mpr ⟨m, hes, hes'⟩⟩

/-! ## States and steps of one run -/

/-- `t` is one of the states the run from `s` passes through, its two ends included. -/
def Visits (step : σ → ε → Option σ) (s : σ) (es : List ε) (t : σ) : Prop :=
  ∃ before after, es = before ++ after ∧ run step s before = some t

/-- The run from `s` takes event `e` in state `a` and reaches `b`. -/
def Takes (step : σ → ε → Option σ) (s : σ) (es : List ε) (a : σ) (e : ε) (b : σ) : Prop :=
  ∃ before after, es = before ++ e :: after ∧ run step s before = some a ∧ step a e = some b

theorem Visits.start (s : σ) (es : List ε) : Visits step s es s := ⟨[], es, rfl, rfl⟩

theorem Visits.finish {s t : σ} {es : List ε} (h : run step s es = some t) :
    Visits step s es t := ⟨es, [], (List.append_nil es).symm, h⟩

theorem Visits.cons {s s' t : σ} {e : ε} {es : List ε} (he : step s e = some s')
    (h : Visits step s' es t) : Visits step s (e :: es) t := by
  obtain ⟨before, after, rfl, hrun⟩ := h
  exact ⟨e :: before, after, rfl, run_cons_some.mpr ⟨s', he, hrun⟩⟩

theorem visits_cons {s s' t : σ} {e : ε} {es : List ε} (he : step s e = some s') :
    Visits step s (e :: es) t ↔ t = s ∨ Visits step s' es t := by
  constructor
  · rintro ⟨before, after, hes, hrun⟩
    cases before with
    | nil => cases hrun; exact Or.inl rfl
    | cons f before =>
        cases hes
        obtain ⟨m, hm, hrest⟩ := run_cons_some.mp hrun
        rw [he] at hm
        cases hm
        exact Or.inr ⟨before, after, rfl, hrest⟩
  · rintro (rfl | h)
    · exact Visits.start t (e :: es)
    · exact h.cons he

theorem visits_snoc {s m t u : σ} {es : List ε} {e : ε} (h : run step s es = some m)
    (he : step m e = some t) (hu : Visits step s (es ++ [e]) u) : Visits step s es u ∨ u = t := by
  obtain ⟨before, after, heq, hrun⟩ := hu
  rcases List.eq_nil_or_concat after with rfl | ⟨init, last, rfl⟩
  · rw [List.append_nil] at heq
    rw [← heq, run_snoc h he] at hrun
    exact Or.inr (Option.some.inj hrun).symm
  · rw [List.concat_eq_append, ← List.append_assoc] at heq
    exact Or.inl ⟨before, init, (List.append_inj' heq rfl).1, hrun⟩

theorem visits_nil {s u : σ} (h : Visits step s [] u) : u = s := by
  obtain ⟨before, after, heq, hrun⟩ := h
  obtain ⟨rfl, rfl⟩ := List.append_eq_nil_iff.mp heq.symm
  exact (Option.some.inj hrun).symm

theorem Takes.head {s s' : σ} {e : ε} {es : List ε} (he : step s e = some s') :
    Takes step s (e :: es) s e s' := ⟨[], es, rfl, rfl, he⟩

theorem Takes.cons {s s' a b : σ} {e f : ε} {es : List ε} (he : step s e = some s')
    (h : Takes step s' es a f b) : Takes step s (e :: es) a f b := by
  obtain ⟨before, after, rfl, hrun, hstep⟩ := h
  exact ⟨e :: before, after, rfl, run_cons_some.mpr ⟨s', he, hrun⟩, hstep⟩

theorem Takes.visits_before {s a b : σ} {es : List ε} {e : ε} (h : Takes step s es a e b) :
    Visits step s es a := by
  obtain ⟨before, after, rfl, hrun, _⟩ := h
  exact ⟨before, e :: after, rfl, hrun⟩

theorem Visits.invariant {P : σ → Prop} (preserved : ∀ s e s', P s → step s e = some s' → P s')
    {s t : σ} {es : List ε} (hs : P s) (h : Visits step s es t) : P t := by
  obtain ⟨before, _, _, hrun⟩ := h
  exact run_invariant preserved hs hrun

/-- An invariant that is preserved by the steps which the run takes. -/
theorem run_invariant_takes {P : σ → Prop} {s t : σ} {es : List ε} (h : run step s es = some t)
    (preserved : ∀ a e b, Takes step s es a e b → P a → P b) (hs : P s) : P t := by
  induction es generalizing s with
  | nil =>
      obtain rfl := Option.some.inj h
      exact hs
  | cons e es ih =>
      obtain ⟨m, hm, hrest⟩ := run_cons_some.mp h
      have first := preserved s e m (.head hm) hs
      exact ih hrest (fun a f b htakes => preserved a f b (htakes.cons hm)) first

theorem takes_cons {s s' a b : σ} {e f : ε} {es : List ε} (he : step s e = some s')
    (h : Takes step s (e :: es) a f b) : (a = s ∧ f = e) ∨ Takes step s' es a f b := by
  obtain ⟨before, after, heq, hrun, hstep⟩ := h
  cases before with
  | nil =>
      cases hrun
      exact Or.inl ⟨rfl, (List.cons.inj heq).1.symm⟩
  | cons g before =>
      cases heq
      obtain ⟨m, hm, hrest⟩ := run_cons_some.mp hrun
      rw [he] at hm
      cases hm
      exact Or.inr ⟨before, after, rfl, hrest, hstep⟩

/-! ## Exact conditions -/

/-- When every step keeps `P` unless it is a `Bad` one, and a `Bad` step breaks the weaker `Q`,
then `Q` holds in all states of a run exactly if the run takes no `Bad` step. `I` is what may be
assumed of every state. -/
theorem forall_visits_iff_of {I P Q : σ → Prop} {Bad : σ → ε → Prop}
    (invariant : ∀ s e s', I s → step s e = some s' → I s')
    (weaker : ∀ s, I s → P s → Q s)
    (good : ∀ s e s', I s → P s → step s e = some s' → ¬ Bad s e → P s')
    (bad : ∀ s e s', I s → P s → step s e = some s' → Bad s e → ¬ Q s')
    {s t : σ} {es : List ε} (hI : I s) (hP : P s) (h : run step s es = some t) :
    (∀ u, Visits step s es u → Q u) ↔ ∀ a e b, Takes step s es a e b → ¬ Bad a e := by
  induction es generalizing s with
  | nil =>
      constructor
      · rintro _ a e b ⟨before, after, heq, _⟩
        simp at heq
      · intro _ u hu
        rw [visits_nil hu]
        exact weaker s hI hP
  | cons e es ih =>
      obtain ⟨s', he, hrest⟩ := run_cons_some.mp h
      by_cases hbad : Bad s e
      · refine iff_of_false (fun hall => ?_) fun hgood => hgood s e s' (Takes.head he) hbad
        exact bad s e s' hI hP he hbad (hall s' ((Visits.start s' es).cons he))
      · have hlater := ih (invariant s e s' hI he) (good s e s' hI hP he hbad) hrest
        constructor
        · intro hall a f b taken
          rcases takes_cons he taken with ⟨rfl, rfl⟩ | taken
          · exact hbad
          · exact hlater.mp (fun u hu => hall u (hu.cons he)) a f b taken
        · intro hgood u hu
          rcases (visits_cons he).mp hu with rfl | hu
          · exact weaker u hI hP
          · exact hlater.mpr (fun a f b taken => hgood a f b (taken.cons he)) u hu

/-- When every step keeps `P` exactly if it is not a `Bad` one, `P` holds in all states of a
run exactly if the run takes no `Bad` step. -/
theorem forall_visits_iff {I P : σ → Prop} {Bad : σ → ε → Prop}
    (invariant : ∀ s e s', I s → step s e = some s' → I s')
    (exact : ∀ s e s', I s → P s → step s e = some s' → (P s' ↔ ¬ Bad s e))
    {s t : σ} {es : List ε} (hI : I s) (hP : P s) (h : run step s es = some t) :
    (∀ u, Visits step s es u → P u) ↔ ∀ a e b, Takes step s es a e b → ¬ Bad a e := by
  refine forall_visits_iff_of invariant (fun _ _ hs => hs) ?_ ?_ hI hP h
  · exact fun s e s' hI hP he hgood => (exact s e s' hI hP he).mpr hgood
  · exact fun s e s' hI hP he hbad hP' => (exact s e s' hI hP he).mp hP' hbad

/-- When a `Bad` step leads from `P` to `Q`, where the system stays, and every other step keeps
`P`, a run ends in `P` without a `Bad` step, or in `Q` after one. -/
theorem run_exact {P Q : σ → Prop} {Bad : σ → ε → Prop}
    (good : ∀ s e s', P s → step s e = some s' → ¬ Bad s e → P s')
    (bad : ∀ s e s', P s → step s e = some s' → Bad s e → Q s')
    (stays : ∀ s e s', Q s → step s e = some s' → Q s')
    {s t : σ} {es : List ε} (hs : P s) (h : run step s es = some t) :
    (P t ∧ ∀ a e b, Takes step s es a e b → ¬ Bad a e) ∨
      (Q t ∧ ∃ a e b, Takes step s es a e b ∧ Bad a e) := by
  induction es generalizing s with
  | nil =>
      cases h
      refine Or.inl ⟨hs, ?_⟩
      rintro a e b ⟨before, after, heq, _⟩
      simp at heq
  | cons e es ih =>
      obtain ⟨s', he, hrest⟩ := run_cons_some.mp h
      by_cases hbad : Bad s e
      · exact Or.inr ⟨run_invariant stays (bad s e s' hs he hbad) hrest, s, e, s', .head he, hbad⟩
      · rcases ih (good s e s' hs he hbad) hrest with ⟨ht, hnone⟩ | ⟨ht, a, f, b, taken, hf⟩
        · refine Or.inl ⟨ht, fun a f b taken => ?_⟩
          rcases takes_cons he taken with ⟨rfl, rfl⟩ | taken
          · exact hbad
          · exact hnone a f b taken
        · exact Or.inr ⟨ht, a, f, b, taken.cons he, hf⟩

/-! ## What happened last -/

theorem takes_nil {s a b : σ} {e : ε} (h : Takes step s [] a e b) : False := by
  obtain ⟨before, after, heq, _⟩ := h
  simp at heq

/-- A run that ends in `A` was in `A` all the time, or has entered `A` in a last step. -/
theorem run_last_entry {A : σ → Prop} {s t : σ} {es : List ε} (h : run step s es = some t)
    (ht : A t) :
    (∀ u, Visits step s es u → A u) ∨
      ∃ before e during a b, es = before ++ e :: during ∧ run step s before = some a ∧ ¬ A a ∧
        step a e = some b ∧ run step b during = some t ∧ ∀ u, Visits step b during u → A u := by
  induction es generalizing s with
  | nil =>
      cases h
      refine Or.inl fun u hu => ?_
      rwa [visits_nil hu]
  | cons e es ih =>
      obtain ⟨s', he, hrest⟩ := run_cons_some.mp h
      rcases ih hrest with hall | ⟨before, f, during, a, b, rfl, hbefore, hrest⟩
      · by_cases hs : A s
        · refine Or.inl fun u hu => ?_
          rcases (visits_cons he).mp hu with rfl | hu
          · exact hs
          · exact hall u hu
        · exact Or.inr ⟨[], e, es, s, s', rfl, rfl, hs, he, hrest, hall⟩
      · exact Or.inr ⟨e :: before, f, during, a, b, rfl, run_cons_some.mpr ⟨s', he, hbefore⟩, hrest⟩

/-- `x` is what the last writing step of the run writes, or `x₀` when no step of it writes. -/
def LastWrite {β : Type*} (step : σ → ε → Option σ) (Writes : σ → ε → β → Prop) (s : σ)
    (es : List ε) (x₀ x : β) : Prop :=
  (x = x₀ ∧ ∀ a e b y, Takes step s es a e b → ¬ Writes a e y) ∨
    ∃ before e after a b, es = before ++ e :: after ∧ run step s before = some a ∧
      step a e = some b ∧ Writes a e x ∧ ∀ u f v y, Takes step b after u f v → ¬ Writes u f y

theorem LastWrite.cons {β : Type*} {Writes : σ → ε → β → Prop} {s s' : σ} {e : ε} {es : List ε}
    {x₀ x₁ x : β} (he : step s e = some s') (h : LastWrite step Writes s' es x₁ x)
    (hfirst : Writes s e x₁ ∨ x₁ = x₀ ∧ ∀ y, ¬ Writes s e y) :
    LastWrite step Writes s (e :: es) x₀ x := by
  rcases h with ⟨rfl, hnone⟩ | ⟨before, f, after, a, b, rfl, hbefore, hrest⟩
  · rcases hfirst with hwrites | ⟨rfl, hkeeps⟩
    · exact Or.inr ⟨[], e, es, s, s', rfl, rfl, he, hwrites, hnone⟩
    · refine Or.inl ⟨rfl, fun a f b y taken => ?_⟩
      rcases takes_cons he taken with ⟨rfl, rfl⟩ | taken
      · exact hkeeps y
      · exact hnone a f b y taken
  · exact Or.inr ⟨e :: before, f, after, a, b, rfl, run_cons_some.mpr ⟨s', he, hbefore⟩, hrest⟩

/-- A value `V` of the state that a writing step sets and every other step keeps is always the one
written last. `I` is what may be assumed of the states of the run. -/
theorem run_lastWrite {β : Type*} {I : σ → Prop} {V : σ → β → Prop} {Writes : σ → ε → β → Prop}
    (written : ∀ s e s' y, I s → I s' → step s e = some s' → Writes s e y → V s' y)
    (kept : ∀ s e s' x, I s → I s' → step s e = some s' → (∀ y, ¬ Writes s e y) → V s x → V s' x)
    {s t : σ} {es : List ε} {x₀ : β} (hV : V s x₀) (h : run step s es = some t)
    (hI : ∀ u, Visits step s es u → I u) : ∃ x, LastWrite step Writes s es x₀ x ∧ V t x := by
  induction es generalizing s x₀ with
  | nil =>
      cases h
      exact ⟨x₀, Or.inl ⟨rfl, fun _ _ _ _ taken => (takes_nil taken).elim⟩, hV⟩
  | cons e es ih =>
      obtain ⟨s', he, hrest⟩ := run_cons_some.mp h
      have hs := hI s (.start s _)
      have hs' := hI s' ((Visits.start s' es).cons he)
      have hlater : ∀ u, Visits step s' es u → I u := fun u hu => hI u (hu.cons he)
      by_cases hwrites : ∃ y, Writes s e y
      · obtain ⟨y, hy⟩ := hwrites
        obtain ⟨x, hlast, hx⟩ := ih (written s e s' y hs hs' he hy) hrest hlater
        exact ⟨x, hlast.cons he (.inl hy), hx⟩
      · have hnone : ∀ y, ¬ Writes s e y := fun y hy => hwrites ⟨y, hy⟩
        obtain ⟨x, hlast, hx⟩ := ih (kept s e s' x₀ hs hs' he hnone hV) hrest hlater
        exact ⟨x, hlast.cons he (.inr ⟨rfl, hnone⟩), hx⟩

end IrcServer.Transition
