import Mathlib.Data.List.Basic
import Mathlib.Tactic.Common

/-! # Streams cut at a delimiter

`split d xs` cuts a stream at every occurrence of `d`: the terminated segments
in order, and what stands after the last delimiter. The lemmas say how splitting
composes with appending, so that a stream may be fed in pieces, and how it undoes
joining.
-/

namespace IrcServer.Framing

variable {α : Type*} [DecidableEq α]

/-- The segments terminated by `d`, without it, and the unterminated remainder. -/
def split (d : α) : List α → List (List α) × List α
  | [] => ([], [])
  | x :: xs =>
      if x = d then ([] :: (split d xs).1, (split d xs).2)
      else
        match (split d xs).1 with
        | [] => ([], x :: (split d xs).2)
        | segment :: segments => ((x :: segment) :: segments, (split d xs).2)

/-- All pieces between delimiters, the last one included. -/
def fields (d : α) (xs : List α) : List (List α) := (split d xs).1 ++ [(split d xs).2]

@[simp] theorem split_nil (d : α) : split d [] = ([], []) := rfl

theorem split_cons_delim (d : α) (xs : List α) :
    split d (d :: xs) = ([] :: (split d xs).1, (split d xs).2) := by
  simp [split]

theorem split_of_not_mem {d : α} {xs : List α} (h : d ∉ xs) : split d xs = ([], xs) := by
  induction xs with
  | nil => rfl
  | cons x xs ih =>
      obtain ⟨hx, hxs⟩ := List.ne_and_not_mem_of_not_mem_cons h
      rw [split, if_neg (Ne.symm hx), ih hxs]

theorem split_segment {d : α} {segment : List α} (h : d ∉ segment) (xs : List α) :
    split d (segment ++ d :: xs) = (segment :: (split d xs).1, (split d xs).2) := by
  induction segment with
  | nil => exact split_cons_delim d xs
  | cons x segment ih =>
      obtain ⟨hx, hrest⟩ := List.ne_and_not_mem_of_not_mem_cons h
      rw [List.cons_append, split, if_neg (Ne.symm hx), ih hrest]

theorem cut_of_findIdx? {d : α} {xs : List α} {k : Nat} (h : xs.findIdx? (· == d) = some k) :
    d ∉ xs.take k ∧ xs = xs.take k ++ d :: xs.drop (k + 1) := by
  obtain ⟨hk, hd, hfirst⟩ := List.findIdx?_eq_some_iff_getElem.mp h
  have hat : xs[k] = d := by simpa using hd
  constructor
  · intro hmem
    obtain ⟨j, hj, hjd⟩ := List.mem_iff_getElem.mp hmem
    rw [List.length_take] at hj
    rw [List.getElem_take] at hjd
    exact hfirst j (by omega) (by simpa using hjd)
  · rw [← hat, List.getElem_cons_drop hk, List.take_append_drop]

theorem split_remainder_not_mem (d : α) (xs : List α) : d ∉ (split d xs).2 := by
  induction xs with
  | nil => simp
  | cons x xs ih =>
      rw [split]
      split
      · exact ih
      · next hx =>
          split
          · exact List.not_mem_cons_of_ne_of_not_mem (Ne.symm hx) ih
          · exact ih

/-- Splitting in two pieces: the remainder of the first is put in front of the second. -/
theorem split_append (d : α) (xs ys : List α) :
    split d (xs ++ ys) =
      ((split d xs).1 ++ (split d ((split d xs).2 ++ ys)).1, (split d ((split d xs).2 ++ ys)).2) := by
  induction xs with
  | nil => rfl
  | cons x xs ih =>
      by_cases hx : x = d
      · subst hx
        rw [List.cons_append, split_cons_delim, split_cons_delim, ih]
        rfl
      · rw [List.cons_append, split, if_neg hx, ih, split, if_neg hx]
        cases hs : (split d xs).1 with
        | nil => simp [split, hx]
        | cons segment segments => simp

theorem split_join (d : α) (xs : List α) :
    ((split d xs).1.flatMap (· ++ [d])) ++ (split d xs).2 = xs := by
  induction xs with
  | nil => rfl
  | cons x xs ih =>
      by_cases hx : x = d
      · subst hx
        rw [split_cons_delim]
        simpa using ih
      · rw [split, if_neg hx]
        cases hs : (split d xs).1 with
        | nil => simpa [hs] using ih
        | cons segment segments => simpa [hs] using ih

theorem split_segment_not_mem {d : α} {xs segment : List α} (h : segment ∈ (split d xs).1) :
    d ∉ segment := by
  induction xs generalizing segment with
  | nil => simp at h
  | cons x xs ih =>
      by_cases hx : x = d
      · subst hx
        rw [split_cons_delim] at h
        rcases List.mem_cons.mp h with rfl | h
        · exact List.not_mem_nil
        · exact ih h
      · rw [split, if_neg hx] at h
        cases hs : (split d xs).1 with
        | nil => simp [hs] at h
        | cons first segments =>
            rw [hs] at ih
            simp only [hs] at h
            rcases List.mem_cons.mp h with rfl | h
            · exact List.not_mem_cons_of_ne_of_not_mem (Ne.symm hx) (ih List.mem_cons_self)
            · exact ih (List.mem_cons_of_mem _ h)

/-- A concatenation of terminated segments splits into exactly these segments. -/
theorem split_flatMap {d : α} {segments : List (List α)} (h : ∀ segment ∈ segments, d ∉ segment) :
    split d (segments.flatMap (· ++ [d])) = (segments, []) := by
  induction segments with
  | nil => rfl
  | cons segment segments ih =>
      have hfirst : d ∉ segment := h segment List.mem_cons_self
      have hrest := ih fun s hs => h s (List.mem_cons_of_mem _ hs)
      rw [List.flatMap_cons, List.append_assoc, List.singleton_append, split_segment hfirst, hrest]

theorem fields_segment {d : α} {segment : List α} (h : d ∉ segment) (xs : List α) :
    fields d (segment ++ d :: xs) = segment :: fields d xs := by
  rw [fields, split_segment h]
  rfl

theorem fields_of_not_mem {d : α} {xs : List α} (h : d ∉ xs) : fields d xs = [xs] := by
  rw [fields, split_of_not_mem h]
  rfl

theorem fields_cons_delim (d : α) (xs : List α) : fields d (d :: xs) = [] :: fields d xs :=
  fields_segment List.not_mem_nil xs

theorem fields_cons {d x : α} (hx : x ≠ d) (xs : List α) :
    ∃ first rest, fields d xs = first :: rest ∧ fields d (x :: xs) = (x :: first) :: rest := by
  rw [fields, fields, split, if_neg hx]
  cases hs : (split d xs).1 with
  | nil => exact ⟨_, _, rfl, rfl⟩
  | cons segment segments => exact ⟨_, _, rfl, rfl⟩

theorem fields_append_delim (d : α) (xs ys : List α) :
    fields d (xs ++ d :: ys) = fields d xs ++ fields d ys := by
  induction xs with
  | nil => exact fields_cons_delim d ys
  | cons x xs ih =>
      by_cases hx : x = d
      · subst hx
        rw [List.cons_append, fields_cons_delim, fields_cons_delim, ih, List.cons_append]
      · obtain ⟨first, rest, hxs, hcons⟩ := fields_cons hx xs
        obtain ⟨first', rest', hall, hcons'⟩ := fields_cons hx (xs ++ d :: ys)
        rw [ih, hxs, List.cons_append] at hall
        obtain ⟨rfl, rfl⟩ := List.cons.inj hall
        rw [List.cons_append, hcons', hcons, List.cons_append]

theorem fields_filter {d : α} {p : α → Bool} (hd : p d = true) (xs : List α) :
    fields d (xs.filter p) = (fields d xs).map (List.filter p) := by
  induction xs with
  | nil => rfl
  | cons x xs ih =>
      by_cases hx : x = d
      · subst hx
        rw [List.filter_cons_of_pos hd, fields_cons_delim, fields_cons_delim, ih]
        rfl
      · obtain ⟨first, rest, hxs, hcons⟩ := fields_cons hx xs
        rw [hxs] at ih
        rw [hcons]
        by_cases hp : p x = true
        · obtain ⟨first', rest', hfilter, hcons'⟩ := fields_cons hx (xs.filter p)
          rw [ih, List.map_cons] at hfilter
          obtain ⟨rfl, rfl⟩ := List.cons.inj hfilter
          rw [List.filter_cons_of_pos hp, hcons', List.map_cons, List.filter_cons_of_pos hp]
        · rw [List.filter_cons_of_neg hp, ih, List.map_cons, List.map_cons,
            List.filter_cons_of_neg hp]

/-! ## Joining pieces -/

/-- A piece is put behind the stream, with a delimiter in between unless it is the first. -/
def joinPiece (d : α) (xs piece : List α) : List α :=
  (if xs.isEmpty then xs else xs ++ [d]) ++ piece

theorem fields_foldl_joinPiece {d : α} {pieces : List (List α)} (h : ∀ piece ∈ pieces, d ∉ piece)
    {xs : List α} (hne : xs ≠ []) :
    fields d (pieces.foldl (joinPiece d) xs) = fields d xs ++ pieces := by
  induction pieces generalizing xs with
  | nil => simp
  | cons piece pieces ih =>
      have hpiece : fields d piece = [piece] := fields_of_not_mem (h piece List.mem_cons_self)
      have hstep : joinPiece d xs piece = xs ++ d :: piece := by simp [joinPiece, hne]
      have hmore : xs ++ d :: piece ≠ [] := by simp
      have hrest := ih (fun w hw => h w (List.mem_cons_of_mem _ hw)) hmore
      rw [List.foldl_cons, hstep, hrest, fields_append_delim, hpiece, List.append_assoc,
        List.singleton_append]

/-- Joined pieces are read back, if the first is not empty. -/
theorem fields_joined {d : α} {first : List α} {pieces : List (List α)}
    (h : ∀ piece ∈ first :: pieces, d ∉ piece) (hne : first ≠ []) :
    fields d ((first :: pieces).foldl (joinPiece d) []) = first :: pieces := by
  have hfirst : fields d first = [first] := fields_of_not_mem (h first List.mem_cons_self)
  have hrest := fields_foldl_joinPiece (fun w hw => h w (List.mem_cons_of_mem _ hw)) hne
  rwa [hfirst, List.singleton_append] at hrest

omit [DecidableEq α] in
theorem foldl_joinPiece {d : α} {pieces : List (List α)} {xs : List α} (hne : xs ≠ []) :
    pieces.foldl (joinPiece d) xs = [d].intercalate (xs :: pieces) := by
  induction pieces generalizing xs with
  | nil => rw [List.foldl_nil, List.intercalate_singleton]
  | cons piece pieces ih =>
      have hstep : joinPiece d xs piece = xs ++ d :: piece := by simp [joinPiece, hne]
      have hmore : xs ++ d :: piece ≠ [] := by simp
      have hrest := ih hmore
      rw [List.foldl_cons, hstep, hrest, List.intercalate_cons_cons]
      cases pieces with
      | nil => simp
      | cons next pieces => simp [List.intercalate_cons_cons]

omit [DecidableEq α] in
/-- Pieces that are not empty are joined with the delimiter in between. -/
theorem foldl_joinPiece_eq {d : α} {pieces : List (List α)} (h : ∀ piece ∈ pieces, piece ≠ []) :
    pieces.foldl (joinPiece d) [] = [d].intercalate pieces := by
  cases pieces with
  | nil => rfl
  | cons first pieces => exact foldl_joinPiece (h first List.mem_cons_self)

theorem intercalate_fields (d : α) (xs : List α) : [d].intercalate (fields d xs) = xs := by
  induction xs with
  | nil => rfl
  | cons x xs ih =>
      by_cases hx : x = d
      · subst hx
        obtain ⟨first, rest, hfields⟩ : ∃ first rest, fields x xs = first :: rest :=
          List.exists_cons_of_ne_nil (by simp [fields])
        rw [fields_cons_delim, hfields, List.intercalate_cons_cons, ← hfields, ih]
        rfl
      · obtain ⟨first, rest, hxs, hcons⟩ := fields_cons hx xs
        rw [hxs] at ih
        rw [hcons]
        cases rest with
        | nil =>
            rw [List.intercalate_singleton] at ih ⊢
            rw [ih]
        | cons next rest =>
            rw [List.intercalate_cons_cons] at ih ⊢
            rw [← ih]
            rfl

/-! ## Feeding a stream in pieces -/

section Feeding

variable {β : Type*}

/-- A consumer holds the remainder of the stream read so far and acts on every segment
that a new piece completes. -/
def feed (d : α) (act : β → List α → β) (state : List α × β) (piece : List α) : List α × β :=
  ((split d (state.1 ++ piece)).2, (split d (state.1 ++ piece)).1.foldl act state.2)

/-- Feeding two pieces is feeding their concatenation. -/
theorem feed_append (d : α) (act : β → List α → β) (state : List α × β) (xs ys : List α) :
    feed d act (feed d act state xs) ys = feed d act state (xs ++ ys) := by
  have happend := split_append d (state.1 ++ xs) ys
  rw [List.append_assoc] at happend
  simp only [feed, happend, List.foldl_append]

theorem feed_nil {d : α} (act : β → List α → β) {state : List α × β} (h : d ∉ state.1) :
    feed d act state [] = state := by
  rw [feed, List.append_nil, split_of_not_mem h]
  rfl

theorem feed_segment {d : α} (act : β → List α → β) {segment : List α} (h : d ∉ segment)
    (rest : List α) (b : β) :
    feed d act (segment ++ d :: rest, b) [] = feed d act (rest, act b segment) [] := by
  simp only [feed, List.append_nil, split_segment h, List.foldl_cons]

end Feeding

end IrcServer.Framing
