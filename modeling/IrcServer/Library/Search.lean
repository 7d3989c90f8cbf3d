import Mathlib.Data.List.Basic
import Mathlib.Data.List.Nodup
import Mathlib.Data.List.Perm.Subperm
import Mathlib.Tactic.Common

/-! # Linear searches and positions

Two disciplines of a linear search return a position: stop at the first match
(`List.findIdx?`), or keep the last one (`lastMatch`). On a list with at most one
match they agree. The last section relates a position to the value stored there, and
bounds the length of a list of distinct numbers.
-/

namespace IrcServer.Search

variable {α : Type*}

def lastMatch (p : α → Bool) : List α → Option Nat
  | [] => none
  | x :: xs =>
      match lastMatch p xs with
      | some k => some (k + 1)
      | none => if p x then some 0 else none

def AtMostOne (p : α → Bool) (xs : List α) : Prop :=
  ∀ (i j : Nat) (x y : α), xs[i]? = some x → xs[j]? = some y → p x = true → p y = true → i = j

theorem lastMatch_none {p : α → Bool} {xs : List α} :
    lastMatch p xs = none ↔ ∀ x ∈ xs, p x = false := by
  induction xs with
  | nil => simp [lastMatch]
  | cons x xs ih =>
      rw [lastMatch]
      cases h : lastMatch p xs with
      | none =>
          have hrest := ih.mp h
          by_cases hx : p x
          · simp [hx]
          · simpa [hx] using hrest
      | some k =>
          have hrest : ¬ ∀ y ∈ xs, p y = false := fun hall => by
            rw [ih.mpr hall] at h
            cases h
          simp only [reduceCtorEq, List.mem_cons, forall_eq_or_imp, false_iff]
          exact fun hall => hrest hall.2

theorem lastMatch_some {p : α → Bool} {xs : List α} {k : Nat} (h : lastMatch p xs = some k) :
    ∃ x, xs[k]? = some x ∧ p x = true := by
  induction xs generalizing k with
  | nil => simp [lastMatch] at h
  | cons x xs ih =>
      rw [lastMatch] at h
      cases hrest : lastMatch p xs with
      | none =>
          by_cases hx : p x
          · simp only [hrest, hx, if_true, Option.some.injEq] at h
            subst h
            exact ⟨x, rfl, hx⟩
          · simp [hrest, hx] at h
      | some m =>
          simp only [hrest, Option.some.injEq] at h
          subst h
          exact ih hrest

theorem lastMatch_map {β : Type*} (p : β → Bool) (f : α → β) (xs : List α) :
    lastMatch p (xs.map f) = lastMatch (p ∘ f) xs := by
  induction xs with
  | nil => rfl
  | cons x xs ih => rw [List.map_cons, lastMatch, lastMatch, ih, Function.comp_apply]

theorem findIdx?_some {p : α → Bool} {xs : List α} {k : Nat} (h : xs.findIdx? p = some k) :
    ∃ x, xs[k]? = some x ∧ p x = true := by
  obtain ⟨hk, hx, _⟩ := List.findIdx?_eq_some_iff_getElem.mp h
  exact ⟨xs[k], List.getElem?_eq_getElem hk, hx⟩

theorem AtMostOne.lastMatch_eq {p : α → Bool} {xs : List α} (h : AtMostOne p xs) {k : Nat} {x : α}
    (hk : xs[k]? = some x) (hx : p x = true) : lastMatch p xs = some k := by
  cases hm : lastMatch p xs with
  | none =>
      have hfalse := lastMatch_none.mp hm x (List.mem_of_getElem? hk)
      rw [hx] at hfalse
      cases hfalse
  | some m =>
      obtain ⟨y, hy, hpy⟩ := lastMatch_some hm
      rw [h k m x y hk hy hx hpy]

theorem AtMostOne.findIdx?_eq {p : α → Bool} {xs : List α} (h : AtMostOne p xs) {k : Nat} {x : α}
    (hk : xs[k]? = some x) (hx : p x = true) : xs.findIdx? p = some k := by
  cases hm : xs.findIdx? p with
  | none =>
      have hfalse := List.findIdx?_eq_none_iff.mp hm x (List.mem_of_getElem? hk)
      rw [hx] at hfalse
      cases hfalse
  | some m =>
      obtain ⟨y, hy, hpy⟩ := findIdx?_some hm
      rw [h k m x y hk hy hx hpy]

/-- Where at most one element matches, the first match is the last one. -/
theorem AtMostOne.findIdx?_eq_lastMatch {p : α → Bool} {xs : List α}
    (h : AtMostOne p xs) : xs.findIdx? p = lastMatch p xs := by
  cases hfirst : xs.findIdx? p with
  | none => exact (lastMatch_none.mpr (List.findIdx?_eq_none_iff.mp hfirst)).symm
  | some k =>
      obtain ⟨x, hk, hx⟩ := findIdx?_some hfirst
      exact (h.lastMatch_eq hk hx).symm

/-- A key that takes distinct values on the list matches at most once. -/
theorem atMostOne_of_nodup {β : Type*} [DecidableEq β] {f : α → β} {xs : List α}
    (h : (xs.map f).Nodup) (b : β) : AtMostOne (fun x => decide (f x = b)) xs := by
  intro i j x y hi hj hx hy
  have hfx : f x = b := by simpa using hx
  have hfy : f y = b := by simpa using hy
  have hlt : i < (xs.map f).length := by
    rw [List.length_map]
    exact (List.getElem?_eq_some_iff.mp hi).choose
  refine (List.getElem?_inj hlt h).mp ?_
  rw [List.getElem?_map, List.getElem?_map, hi, hj, Option.map_some, Option.map_some, hfx, hfy]

/-! ## Positions -/

theorem set_of_getElem? {xs : List α} {k : Nat} {x : α} (h : xs[k]? = some x) : xs.set k x = xs := by
  obtain ⟨hk, rfl⟩ := List.getElem?_eq_some_iff.mp h
  exact List.set_getElem_self hk

theorem modify_of_getElem? {xs : List α} {k : Nat} {x : α} (h : xs[k]? = some x) (f : α → α) :
    xs.modify k f = xs.set k (f x) := by
  obtain ⟨hk, rfl⟩ := List.getElem?_eq_some_iff.mp h
  apply List.ext_getElem?
  intro j
  by_cases hj : k = j
  · subst hj
    simp [hk]
  · simp [hj]

theorem map_modify_same {β : Type*} {f : α → β} {g : α → α} (h : ∀ x, f (g x) = f x) (xs : List α)
    (k : Nat) : (xs.modify k g).map f = xs.map f := by
  apply List.ext_getElem?
  intro j
  simp only [List.getElem?_map, List.getElem?_modify]
  cases xs[j]? with
  | none => rfl
  | some x => by_cases hj : k = j <;> simp [hj, h]

theorem map_eraseIdx {β : Type*} (f : α → β) (xs : List α) (k : Nat) :
    (xs.eraseIdx k).map f = (xs.map f).eraseIdx k := by
  simp [List.eraseIdx_eq_take_drop_succ]

theorem mem_set_of_mem {xs : List α} {k : Nat} {x z : α} (hk : xs[k]? = some x) (hz : z ∈ xs)
    (y : α) : z = x ∨ z ∈ xs.set k y := by
  obtain ⟨j, hj⟩ := List.mem_iff_getElem?.mp hz
  by_cases hjk : k = j
  · subst hjk
    rw [hk] at hj
    exact Or.inl (Option.some.inj hj).symm
  · refine Or.inr (List.mem_iff_getElem?.mpr ⟨j, ?_⟩)
    rw [List.getElem?_set_ne hjk, hj]

theorem mem_eraseIdx_of_mem {xs : List α} {k : Nat} {x z : α} (hk : xs[k]? = some x)
    (hz : z ∈ xs) : z = x ∨ z ∈ xs.eraseIdx k := by
  obtain ⟨j, hj⟩ := List.mem_iff_getElem?.mp hz
  by_cases hjk : j = k
  · subst hjk
    rw [hk] at hj
    exact Or.inl (Option.some.inj hj).symm
  · exact Or.inr (List.mem_eraseIdx_iff_getElem?.mpr ⟨j, hjk, hj⟩)

theorem filter_set {p : α → Bool} {xs : List α} {k : Nat} {x y : α} (hk : xs[k]? = some x)
    (hx : p x = false) (hy : p y = false) : (xs.set k y).filter p = xs.filter p := by
  induction xs generalizing k with
  | nil => rfl
  | cons z xs ih =>
      cases k with
      | zero =>
          obtain rfl := Option.some.inj hk
          simp [hx, hy]
      | succ k =>
          have hrest := ih (k := k) (by simpa using hk)
          rw [List.set_cons_succ, List.filter_cons, List.filter_cons, hrest]

theorem filter_eraseIdx {p : α → Bool} {xs : List α} {k : Nat} {x : α} (hk : xs[k]? = some x)
    (hx : p x = false) : (xs.eraseIdx k).filter p = xs.filter p := by
  induction xs generalizing k with
  | nil => rfl
  | cons z xs ih =>
      cases k with
      | zero =>
          obtain rfl := Option.some.inj hk
          simp [hx]
      | succ k =>
          have hrest := ih (k := k) (by simpa using hk)
          rw [List.eraseIdx_cons_succ, List.filter_cons, List.filter_cons, hrest]

/-- Without duplicates, deleting the first occurrence deletes the value. -/
theorem erase_eq_filter [DecidableEq α] {xs : List α} (h : xs.Nodup) (x : α) :
    xs.erase x = xs.filter (· ≠ x) := by
  rw [h.erase_eq_filter]
  exact List.filter_congr fun y _ => by by_cases hy : y = x <;> simp [hy]

theorem exists_map_eq {β : Type*} {f : α → β} {P : α → Prop} {ys : List β}
    (h : ∀ y ∈ ys, ∃ x, P x ∧ f x = y) : ∃ xs : List α, xs.map f = ys ∧ ∀ x ∈ xs, P x := by
  induction ys with
  | nil => exact ⟨[], rfl, fun x hx => absurd hx List.not_mem_nil⟩
  | cons y ys ih =>
      obtain ⟨x, hx, rfl⟩ := h y List.mem_cons_self
      obtain ⟨xs, rfl, hxs⟩ := ih fun z hz => h z (List.mem_cons_of_mem _ hz)
      exact ⟨x :: xs, rfl, List.forall_mem_cons.mpr ⟨hx, hxs⟩⟩

theorem eq_singleton_iff_length {xs : List α} {x : α} (hx : x ∈ xs) :
    xs = [x] ↔ xs.length = 1 := by
  constructor
  · rintro rfl
    rfl
  · intro hone
    obtain ⟨y, rfl⟩ := List.length_eq_one_iff.mp hone
    rw [List.mem_singleton.mp hx]

theorem eq_singleton_iff {xs : List α} (h : xs.Nodup) {x : α} (hx : x ∈ xs) :
    xs = [x] ↔ ∀ y ∈ xs, y = x := by
  constructor
  · rintro rfl y hy
    exact List.mem_singleton.mp hy
  · intro hall
    have heq := List.eq_replicate_of_mem hall
    have hle : xs.length ≤ 1 := List.nodup_replicate.mp (heq ▸ h)
    have hpos := List.length_pos_of_mem hx
    have hone : xs.length = 1 := by omega
    rw [heq, hone, List.replicate_one]

theorem ne_singleton_iff {xs : List α} (h : xs.Nodup) {x : α} (hx : x ∈ xs) :
    xs ≠ [x] ↔ ∃ y ∈ xs, y ≠ x := by
  rw [ne_eq, eq_singleton_iff h hx]
  simp only [not_forall, exists_prop, ne_eq]

theorem eraseIdx_eq_filter [DecidableEq α] {xs : List α} (h : xs.Nodup) {k : Nat} {x : α}
    (hk : xs[k]? = some x) : xs.eraseIdx k = xs.filter (· ≠ x) := by
  obtain ⟨hlt, rfl⟩ := List.getElem?_eq_some_iff.mp hk
  rw [← erase_eq_filter h, h.erase_getElem k hlt]

/-- Where a key takes distinct values, deleting a position deletes the elements with its key. -/
theorem eraseIdx_eq_filter_key {β : Type*} [DecidableEq β] {f : α → β} {xs : List α}
    (h : (xs.map f).Nodup) {k : Nat} {x : α} (hk : xs[k]? = some x) :
    xs.eraseIdx k = xs.filter fun y => decide (f y ≠ f x) := by
  induction xs generalizing k with
  | nil => rfl
  | cons z xs ih =>
      rw [List.map_cons, List.nodup_cons] at h
      cases k with
      | zero =>
          obtain rfl := Option.some.inj hk
          have hrest : xs.filter (fun y => decide (f y ≠ f z)) = xs := by
            apply List.filter_eq_self.mpr
            intro y hy
            exact decide_eq_true fun heq => h.1 (heq ▸ List.mem_map_of_mem hy)
          rw [List.eraseIdx_cons_zero, List.filter_cons_of_neg (by simp), hrest]
      | succ k =>
          have hx : xs[k]? = some x := by simpa using hk
          have hz : f z ≠ f x := fun heq =>
            h.1 (heq ▸ List.mem_map_of_mem (List.mem_of_getElem? hx))
          rw [List.eraseIdx_cons_succ, List.filter_cons_of_pos (by simpa using hz), ih h.2 hx]

theorem mem_eraseIdx_iff_key {β : Type*} [DecidableEq β] {f : α → β} {xs : List α}
    (h : (xs.map f).Nodup) {k : Nat} {x z : α} (hk : xs[k]? = some x) :
    z ∈ xs.eraseIdx k ↔ f z ≠ f x ∧ z ∈ xs := by
  rw [eraseIdx_eq_filter_key h hk, List.mem_filter, decide_eq_true_eq, and_comm]

theorem mem_set_iff_key {β : Type*} [DecidableEq β] {f : α → β} {xs : List α}
    (h : (xs.map f).Nodup) {k : Nat} {x y z : α} (hk : xs[k]? = some x) :
    z ∈ xs.set k y ↔ z = y ∨ f z ≠ f x ∧ z ∈ xs := by
  have hlt := (List.getElem?_eq_some_iff.mp hk).choose
  rw [← mem_eraseIdx_iff_key h hk]
  constructor
  · intro hz
    obtain ⟨j, hj⟩ := List.mem_iff_getElem?.mp hz
    by_cases hjk : k = j
    · subst hjk
      rw [List.getElem?_set_self hlt] at hj
      exact .inl (Option.some.inj hj).symm
    · rw [List.getElem?_set_ne hjk] at hj
      exact .inr (List.mem_eraseIdx_iff_getElem?.mpr ⟨j, Ne.symm hjk, hj⟩)
  · rintro (rfl | hz)
    · exact List.mem_set hlt z
    · obtain ⟨j, hjk, hj⟩ := List.mem_eraseIdx_iff_getElem?.mp hz
      exact List.mem_of_getElem? ((List.getElem?_set_ne (Ne.symm hjk)).trans hj)

/-- Distinct integers from an interval are no more than the interval holds. -/
theorem length_le_of_nodup {xs : List Int} (h : xs.Nodup) {n : Nat}
    (bounded : ∀ x ∈ xs, 0 ≤ x ∧ x < n) : xs.length ≤ n := by
  have hnodup : (xs.map Int.toNat).Nodup := h.map_on fun x hx y hy heq => by
    have hx' := bounded x hx
    have hy' := bounded y hy
    omega
  have hsub : xs.map Int.toNat ⊆ List.range n := by
    intro k hk
    obtain ⟨x, hx, rfl⟩ := List.mem_map.mp hk
    have hx' := bounded x hx
    exact List.mem_range.mpr (by omega)
  have hlen := (hnodup.subperm hsub).length_le
  rwa [List.length_map, List.length_range] at hlen

end IrcServer.Search
