import IrcServer.Library.Transition

/-! # Runs and what is seen of them

Every step of a guarded step function shows some inputs. A second system that takes the
inputs one by one, and knows no states of the first, simulates it if one step is
simulated by the inputs that it shows.
-/

namespace IrcServer.Transition

variable {σ τ ε ι : Type*} {step : σ → ε → Option σ} {shows : σ → ε → List ι}

/-- The inputs that the steps of a run show, in order. -/
def trace (step : σ → ε → Option σ) (shows : σ → ε → List ι) : σ → List ε → List ι
  | _, [] => []
  | s, e :: es =>
      match step s e with
      | none => []
      | some s' => shows s e ++ trace step shows s' es

theorem trace_cons {s s' : σ} {e : ε} (he : step s e = some s') (es : List ε) :
    trace step shows s (e :: es) = shows s e ++ trace step shows s' es := by
  simp only [trace, he]

/-- What relates the two systems is kept by every run, taken input by input. -/
theorem run_simulates {take : τ → ι → τ} {R : σ → τ → Prop}
    (simulates : ∀ s e s' t, R s t → step s e = some s' → R s' ((shows s e).foldl take t))
    {s s' : σ} {t : τ} {es : List ε} (hs : R s t) (h : run step s es = some s') :
    R s' ((trace step shows s es).foldl take t) := by
  induction es generalizing s t with
  | nil =>
      obtain rfl := Option.some.inj h
      exact hs
  | cons e es ih =>
      obtain ⟨m, he, hrest⟩ := run_cons_some.mp h
      rw [trace_cons he, List.foldl_append]
      exact ih (simulates s e m t hs he) hrest

end IrcServer.Transition
