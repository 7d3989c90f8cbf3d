import Mathlib.Data.List.Induction
import Mathlib.Data.List.Nodup
import IrcServer.Library.Transition

/-! # Resources that are acquired and released

A log of acquisitions and releases is replayed against the set of resources that are
held. The replay is refused when a resource is acquired while it is held, or released
while it is not; and the logs it ends with nothing held for are exactly those in which every
acquisition has one release.
-/

namespace IrcServer.Ownership

open Transition

inductive Use (ρ : Type*) where
  | acquire (r : ρ)
  | release (r : ρ)
  deriving DecidableEq

variable {ρ : Type*} [DecidableEq ρ]

def use (held : List ρ) : Use ρ → Option (List ρ)
  | .acquire r => if r ∈ held then none else some (r :: held)
  | .release r => if r ∈ held then some (held.erase r) else none

/-- At the end of the log `r` has been acquired and not released since. -/
def Holds (log : List (Use ρ)) (r : ρ) : Prop :=
  ∃ before after, log = before ++ .acquire r :: after ∧ .release r ∉ after

/-- The part of the log before `r` is acquired again. -/
def tenure (r : ρ) (log : List (Use ρ)) : List (Use ρ) := log.takeWhile (· ≠ .acquire r)

/-- Every acquisition is released exactly once, and nothing is released that is not held. -/
structure ReleasedOnce (log : List (Use ρ)) : Prop where
  once : ∀ before r after, log = before ++ .acquire r :: after →
    (tenure r after).count (.release r) = 1
  held : ∀ before r after, log = before ++ .release r :: after → Holds before r

/-! ## What is held -/

omit [DecidableEq ρ] in
theorem holds_snoc {log : List (Use ρ)} {u : Use ρ} {r : ρ} :
    Holds (log ++ [u]) r ↔ u = .acquire r ∨ (u ≠ .release r ∧ Holds log r) := by
  constructor
  · rintro ⟨before, after, heq, hafter⟩
    rcases List.eq_nil_or_concat after with rfl | ⟨init, last, rfl⟩
    · exact .inl (List.singleton_injective (List.append_inj' heq rfl).2)
    · rw [List.concat_eq_append, ← List.cons_append, ← List.append_assoc] at heq
      obtain ⟨rfl, hlast⟩ := List.append_inj' heq rfl
      obtain rfl := List.singleton_injective hlast
      rw [List.concat_eq_append] at hafter
      refine .inr ⟨fun hu => hafter (by simp [hu]), before, init, rfl, fun hmem => ?_⟩
      exact hafter (List.mem_append_left _ hmem)
  · rintro (rfl | ⟨hne, before, after, rfl, hafter⟩)
    · exact ⟨log, [], rfl, List.not_mem_nil⟩
    · refine ⟨before, after ++ [u], by simp, fun hmem => ?_⟩
      rcases List.mem_append.mp hmem with hmem | hmem
      · exact hafter hmem
      · exact hne (List.mem_singleton.mp hmem).symm

omit [DecidableEq ρ] in
/-- Only what is not released is still held, however often the rest is released. -/
theorem holds_append_release {log : List (Use ρ)} {released : List ρ} {r : ρ} :
    Holds (log ++ released.map .release) r ↔ Holds log r ∧ r ∉ released := by
  induction released using List.reverseRecOn with
  | nil => simp
  | append_singleton released q ih =>
      rw [List.map_append, ← List.append_assoc]
      simp only [List.map_cons, List.map_nil, holds_snoc, ih, List.mem_append, List.mem_singleton]
      grind

theorem use_acquire {held held' : List ρ} {r : ρ} :
    use held (.acquire r) = some held' ↔ r ∉ held ∧ held' = r :: held := by
  by_cases hr : r ∈ held <;> simp [use, hr, eq_comm]

theorem use_release {held held' : List ρ} {r : ρ} :
    use held (.release r) = some held' ↔ r ∈ held ∧ held' = held.erase r := by
  by_cases hr : r ∈ held <;> simp [use, hr, eq_comm]

theorem use_nodup {held held' : List ρ} {u : Use ρ} (nodup : held.Nodup)
    (h : use held u = some held') : held'.Nodup := by
  cases u with
  | acquire r =>
      obtain ⟨hr, rfl⟩ := use_acquire.mp h
      exact List.nodup_cons.mpr ⟨hr, nodup⟩
  | release r =>
      obtain ⟨_, rfl⟩ := use_release.mp h
      exact nodup.erase r

theorem replay_nodup {log : List (Use ρ)} {held : List ρ} (h : run use [] log = some held) :
    held.Nodup :=
  run_invariant (fun _ _ _ nodup hu => use_nodup nodup hu) List.nodup_nil h

theorem mem_replay {log : List (Use ρ)} {held : List ρ} (h : run use [] log = some held) (r : ρ) :
    r ∈ held ↔ Holds log r := by
  induction log using List.reverseRecOn generalizing held with
  | nil =>
      cases h
      constructor
      · exact fun hr => absurd hr List.not_mem_nil
      · rintro ⟨before, after, heq, _⟩
        simp at heq
  | append_singleton log u ih =>
      obtain ⟨before, hbefore, hlast⟩ := run_append_some.mp h
      obtain ⟨after, hu, hend⟩ := run_cons_some.mp hlast
      obtain rfl := Option.some.inj hend
      rw [holds_snoc, ← ih hbefore]
      cases u with
      | acquire q =>
          obtain ⟨_, rfl⟩ := use_acquire.mp hu
          simp [eq_comm]
      | release q =>
          obtain ⟨_, rfl⟩ := use_release.mp hu
          rw [(replay_nodup hbefore).mem_erase_iff]
          simp [eq_comm]

/-! ## Logs that end with nothing held -/

/-- What is not held is not released before it is acquired. -/
theorem count_tenure_of_not_mem {log : List (Use ρ)} {held final : List ρ} {r : ρ} (hr : r ∉ held)
    (h : run use held log = some final) : (tenure r log).count (.release r) = 0 := by
  induction log generalizing held with
  | nil => rfl
  | cons u log ih =>
      obtain ⟨next, hu, hrest⟩ := run_cons_some.mp h
      cases u with
      | acquire q =>
          obtain ⟨_, rfl⟩ := use_acquire.mp hu
          by_cases hq : q = r
          · simp [tenure, hq]
          · have hnext := ih (by simp [Ne.symm hq, hr]) hrest
            simpa [tenure, hq] using hnext
      | release q =>
          obtain ⟨hheld, rfl⟩ := use_release.mp hu
          have hq : q ≠ r := fun heq => hr (heq ▸ hheld)
          have hnext := ih (fun hmem => hr (List.mem_of_mem_erase hmem)) hrest
          simpa [tenure, hq] using hnext

theorem count_tenure_of_mem {log : List (Use ρ)} {held final : List ρ} {r : ρ} (hr : r ∈ held)
    (nodup : held.Nodup) (hfinal : r ∉ final) (h : run use held log = some final) :
    (tenure r log).count (.release r) = 1 := by
  induction log generalizing held with
  | nil =>
      obtain rfl := Option.some.inj h
      exact absurd hr hfinal
  | cons u log ih =>
      obtain ⟨next, hu, hrest⟩ := run_cons_some.mp h
      have hnodup := use_nodup nodup hu
      cases u with
      | acquire q =>
          obtain ⟨hq, rfl⟩ := use_acquire.mp hu
          have hne : q ≠ r := fun heq => hq (heq ▸ hr)
          have hnext := ih (List.mem_cons_of_mem q hr) hnodup hrest
          simpa [tenure, hne] using hnext
      | release q =>
          obtain ⟨_, rfl⟩ := use_release.mp hu
          by_cases hq : q = r
          · subst hq
            have hnext := count_tenure_of_not_mem nodup.not_mem_erase hrest
            simpa [tenure] using hnext
          · have hnext := ih ((List.mem_erase_of_ne (Ne.symm hq)).mpr hr) hnodup hrest
            simpa [tenure, hq] using hnext

/-- No use of a log is refused in which every acquisition is released once. -/
theorem ReleasedOnce.replay {log before after : List (Use ρ)} (h : ReleasedOnce log)
    (heq : log = before ++ after) : ∃ held, run use [] before = some held := by
  induction before using List.reverseRecOn generalizing after with
  | nil => exact ⟨[], rfl⟩
  | append_singleton before u ih =>
      rw [List.append_assoc, List.singleton_append] at heq
      obtain ⟨held, hheld⟩ := ih heq
      cases u with
      | acquire r =>
          have hr : r ∉ held := by
            intro hmem
            -- `r` would have been acquired before, and not released in between
            obtain ⟨early, between, hbefore, hbetween⟩ := (mem_replay hheld r).mp hmem
            have hcount := h.once early r (between ++ .acquire r :: after) (by simp [heq, hbefore])
            have htenure : tenure r (between ++ .acquire r :: after) <+: between := by
              rw [tenure, List.takeWhile_append]
              split
              · simp
              · exact List.takeWhile_prefix _
            have hnone := List.count_eq_zero.mpr fun hmem => hbetween (htenure.subset hmem)
            rw [hcount] at hnone
            cases hnone
          exact ⟨r :: held, run_snoc hheld (use_acquire.mpr ⟨hr, rfl⟩)⟩
      | release r =>
          have hr := (mem_replay hheld r).mpr (h.held before r after heq)
          exact ⟨held.erase r, run_snoc hheld (use_release.mpr ⟨hr, rfl⟩)⟩

/-- Every acquisition is released once exactly when the replay ends with nothing held. -/
theorem releasedOnce_iff {log : List (Use ρ)} : ReleasedOnce log ↔ run use [] log = some [] := by
  constructor
  · intro h
    obtain ⟨held, hheld⟩ := h.replay (List.append_nil log).symm
    have hempty : held = [] := by
      rw [List.eq_nil_iff_forall_not_mem]
      intro r hr
      obtain ⟨before, after, heq, hafter⟩ := (mem_replay hheld r).mp hr
      have hcount := h.once before r after heq
      have hnone : (tenure r after).count (.release r) = 0 :=
        List.count_eq_zero.mpr fun hmem => hafter (List.takeWhile_subset _ hmem)
      rw [hcount] at hnone
      cases hnone
    rw [hheld, hempty]
  · intro h
    constructor
    · rintro before r after rfl
      obtain ⟨held, hbefore, hrest⟩ := run_append_some.mp h
      obtain ⟨next, hu, hafter⟩ := run_cons_some.mp hrest
      have hnodup := use_nodup (replay_nodup hbefore) hu
      obtain ⟨_, rfl⟩ := use_acquire.mp hu
      exact count_tenure_of_mem List.mem_cons_self hnodup List.not_mem_nil hafter
    · rintro before r after rfl
      obtain ⟨held, hbefore, hrest⟩ := run_append_some.mp h
      obtain ⟨next, hu, _⟩ := run_cons_some.mp hrest
      exact (mem_replay hbefore r).mp (use_release.mp hu).1

/-! ## Releasing many -/

theorem replay_releases {held rs others : List ρ} (h : held.Perm (rs ++ others)) :
    ∃ final, run use held (rs.map .release) = some final ∧ final.Perm others := by
  induction rs generalizing held with
  | nil => exact ⟨held, rfl, h⟩
  | cons r rs ih =>
      have hr : r ∈ held := h.mem_iff.mpr List.mem_cons_self
      have hnext : (held.erase r).Perm (rs ++ others) := by
        have herase := h.erase r
        rwa [List.cons_append, List.erase_cons_head] at herase
      obtain ⟨final, hrun, hperm⟩ := ih hnext
      exact ⟨final, run_cons_some.mpr ⟨_, use_release.mpr ⟨hr, rfl⟩, hrun⟩, hperm⟩

end IrcServer.Ownership
