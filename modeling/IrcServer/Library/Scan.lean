import Mathlib.Algebra.BigOperators.Group.List.Basic
import Mathlib.Algebra.GroupWithZero.Nat
import Mathlib.Tactic.Common

/-! # Loops over a sequence that changes under them

`for (i = 0; i < size;)` over a sequence that the body shortens at the current position,
without advancing, or lengthens at its end, advancing. What lies behind the position is a
queue: every turn takes its first element off and may put new ones at its end. So the
elements are looked at in order, each once, and the loop ends if an element is heavier
than all that its turn puts there.
-/

namespace IrcServer.Scan

variable {σ ι α : Type*}

/-- A turn that was made: the position and the state at its start, and its input. -/
structure Turn (σ ι : Type*) where
  position : Nat
  state : σ
  input : ι

/-- The loop from position `i` on: the turns made and the last state. `inputs k` is the input of
turn `k`. The result is `none` when `fuel` turns are not enough. -/
def loop (size : σ → Nat) (body : ι → Nat → σ → Nat × σ) :
    Nat → (Nat → ι) → Nat → σ → Option (List (Turn σ ι) × σ)
  | 0, _, i, s => if i < size s then none else some ([], s)
  | fuel + 1, inputs, i, s =>
      if i < size s then
        let (j, t) := body (inputs 0) i s
        (loop size body fuel (fun k => inputs (k + 1)) j t).map fun (turns, u) =>
          (⟨i, s, inputs 0⟩ :: turns, u)
      else some ([], s)

/-- The position and the state in front of turn `k`. -/
def before (body : ι → Nat → σ → Nat × σ) (inputs : Nat → ι) (i : Nat) (s : σ) : Nat → Nat × σ
  | 0 => (i, s)
  | k + 1 =>
      let (j, t) := before body inputs i s k
      body (inputs k) j t

/-- What a turn at position `i` may do to the sequence. The elements it adds are `New` ones. -/
inductive Turned (view : σ → List α) (weight : α → Nat) (New : α → Prop) (i : Nat) (s : σ) :
    Nat × σ → Prop
  | passed (t : σ) (x : α) (fresh : List α) (looked : (view s)[i]? = some x)
      (grown : view t = view s ++ fresh) (new : ∀ y ∈ fresh, New y)
      (lighter : (fresh.map weight).sum < weight x) : Turned view weight New i s (i + 1, t)
  | erased (t : σ) (shrunk : view t = (view s).eraseIdx i) : Turned view weight New i s (i, t)

def Turn.look (view : σ → List α) (turn : Turn σ ι) : Option α :=
  (view turn.state)[turn.position]?

def Turn.passes (body : ι → Nat → σ → Nat × σ) (turn : Turn σ ι) : Bool :=
  decide ((body turn.input turn.position turn.state).1 = turn.position + 1)

section Loop

variable {size : σ → Nat} {body : ι → Nat → σ → Nat × σ} {fuel : Nat} {inputs : Nat → ι} {i : Nat}
  {s t : σ} {turns : List (Turn σ ι)}

theorem loop_done (h : ¬ i < size s) : loop size body fuel inputs i s = some ([], s) := by
  cases fuel <;> rw [loop, if_neg h]

theorem loop_turn (h : i < size s) :
    loop size body (fuel + 1) inputs i s =
      (loop size body fuel (fun k => inputs (k + 1)) (body (inputs 0) i s).1
        (body (inputs 0) i s).2).map fun result => (⟨i, s, inputs 0⟩ :: result.1, result.2) := by
  rw [loop, if_pos h]

theorem loop_cases (h : loop size body fuel inputs i s = some (turns, t)) :
    (¬ i < size s ∧ turns = [] ∧ t = s) ∨
      ∃ fuel' rest, fuel = fuel' + 1 ∧ i < size s ∧ turns = ⟨i, s, inputs 0⟩ :: rest ∧
        loop size body fuel' (fun k => inputs (k + 1)) (body (inputs 0) i s).1
          (body (inputs 0) i s).2 = some (rest, t) := by
  by_cases hi : i < size s
  · cases fuel with
    | zero => simp [loop, hi] at h
    | succ fuel =>
        rw [loop_turn hi] at h
        obtain ⟨⟨rest, u⟩, hrest, heq⟩ := Option.map_eq_some_iff.mp h
        cases heq
        exact Or.inr ⟨fuel, rest, rfl, hi, rfl, hrest⟩
  · rw [loop_done hi] at h
    cases h
    exact Or.inl ⟨hi, rfl, rfl⟩

theorem loop_length_le (h : loop size body fuel inputs i s = some (turns, t)) :
    turns.length ≤ fuel := by
  induction fuel generalizing inputs i s turns with
  | zero =>
      rcases loop_cases h with ⟨_, rfl, _⟩ | ⟨fuel, rest, hfuel, _⟩
      · simp
      · omega
  | succ fuel ih =>
      rcases loop_cases h with ⟨_, rfl, _⟩ | ⟨fuel', rest, hfuel, _, rfl, hrest⟩
      · simp
      · obtain rfl := Nat.succ.inj hfuel
        have hlength := ih hrest
        simpa using hlength

theorem before_turn (k : Nat) :
    before body inputs i s (k + 1) =
      before body (fun k => inputs (k + 1)) (body (inputs 0) i s).1 (body (inputs 0) i s).2 k := by
  induction k with
  | zero => rfl
  | succ k ih => rw [before, ih, before]

/-- Turn `k` takes input `k`, and begins where the turns in front of it have led. -/
theorem loop_threaded (h : loop size body fuel inputs i s = some (turns, t)) :
    (∀ k turn, turns[k]? = some turn → turn.input = inputs k ∧
      (turn.position, turn.state) = before body inputs i s k) ∧
      t = (before body inputs i s turns.length).2 := by
  induction fuel generalizing inputs i s turns with
  | zero =>
      rcases loop_cases h with ⟨_, rfl, rfl⟩ | ⟨fuel, rest, hfuel, _⟩
      · exact ⟨by simp, rfl⟩
      · omega
  | succ fuel ih =>
      rcases loop_cases h with ⟨_, rfl, rfl⟩ | ⟨fuel', rest, hfuel, _, rfl, hrest⟩
      · exact ⟨by simp, rfl⟩
      · obtain rfl := Nat.succ.inj hfuel
        obtain ⟨hturns, hend⟩ := ih hrest
        refine ⟨fun k turn hk => ?_, ?_⟩
        · cases k with
          | zero =>
              obtain rfl := Option.some.inj hk
              exact ⟨rfl, rfl⟩
          | succ k =>
              rw [before_turn]
              exact hturns k turn hk
        · rw [List.length_cons, before_turn]
          exact hend

/-- What every turn preserves holds at the start of every turn, and at the end. -/
theorem loop_invariant {P : σ → Prop} (preserved : ∀ x i s, i < size s → P s → P (body x i s).2)
    (hs : P s) (h : loop size body fuel inputs i s = some (turns, t)) :
    P t ∧ ∀ turn ∈ turns, turn.position < size turn.state ∧ P turn.state := by
  induction fuel generalizing inputs i s turns with
  | zero =>
      rcases loop_cases h with ⟨_, rfl, rfl⟩ | ⟨fuel, rest, hfuel, _⟩
      · exact ⟨hs, by simp⟩
      · omega
  | succ fuel ih =>
      rcases loop_cases h with ⟨_, rfl, rfl⟩ | ⟨fuel', rest, hfuel, hi, rfl, hrest⟩
      · exact ⟨hs, by simp⟩
      · obtain rfl := Nat.succ.inj hfuel
        obtain ⟨hend, hturns⟩ := ih (preserved (inputs 0) i s hi hs) hrest
        refine ⟨hend, fun turn hturn => ?_⟩
        rcases List.mem_cons.mp hturn with rfl | hturn
        · exact ⟨hi, hs⟩
        · exact hturns turn hturn

/-- A loop whose turns all go on, over a sequence that keeps its size: `P k` is what the turns at
the positions below `k` have brought about. -/
theorem loop_sweep {P : Nat → σ → Prop} {n : Nat} (sized : ∀ k s, P k s → size s = n)
    (sweeps : ∀ k s, k < n → P k s →
      (body (inputs k) k s).1 = k + 1 ∧ P (k + 1) (body (inputs k) k s).2)
    (hi : i ≤ n) (hs : P i s) :
    ∃ turns t, loop size body (n - i) (fun k => inputs (i + k)) i s = some (turns, t) ∧ P n t := by
  induction hrest : n - i generalizing i s with
  | zero =>
      obtain rfl : i = n := by omega
      have hend : ¬ i < size s := by rw [sized i s hs]; omega
      exact ⟨[], s, loop_done hend, hs⟩
  | succ rest ih =>
      have hlt : i < n := by omega
      obtain ⟨hnext, hP⟩ := sweeps i s hlt hs
      obtain ⟨turns, t, hloop, ht⟩ := ih (by omega) hP (by omega)
      have hshift : (fun k => inputs (i + 1 + k)) = fun k => inputs (i + (k + 1)) := by
        funext k
        rw [Nat.add_right_comm, Nat.add_assoc]
      rw [loop_turn (by rw [sized i s hs]; exact hlt), Nat.add_zero, hnext, ← hshift, hloop]
      exact ⟨_, t, rfl, ht⟩

end Loop

/-! ## Loops whose turns keep to `Turned` -/

section Turned

variable {view : σ → List α} {weight : α → Nat} {New : α → Prop}
  {body : ι → Nat → σ → Nat × σ} {P : σ → Prop} {inputs : Nat → ι} {i : Nat} {s t : σ}
  {turns : List (Turn σ ι)}

theorem drop_eraseIdx {xs : List α} (h : i < xs.length) : (xs.eraseIdx i).drop i = xs.drop (i + 1) := by
  rw [List.eraseIdx_eq_take_drop_succ, List.drop_left' (List.length_take_of_le (Nat.le_of_lt h))]

theorem take_eraseIdx {xs : List α} (h : i < xs.length) : (xs.eraseIdx i).take i = xs.take i := by
  rw [List.eraseIdx_eq_take_drop_succ, List.take_left' (List.length_take_of_le (Nat.le_of_lt h))]

/-- What is still to be looked at: the first element is taken off, and some may be added. -/
theorem Turned.drop {next : Nat × σ} {x : α} (h : Turned view weight New i s next)
    (hx : (view s)[i]? = some x) (positive : 0 < weight x) :
    ∃ fresh, (view next.2).drop next.1 = (view s).drop (i + 1) ++ fresh ∧
      (∀ y ∈ fresh, New y) ∧ (fresh.map weight).sum < weight x := by
  have hi : i < (view s).length := (List.getElem?_eq_some_iff.mp hx).choose
  cases h with
  | passed t y fresh looked grown new lighter =>
      obtain rfl := Option.some.inj (looked.symm.trans hx)
      exact ⟨fresh, by rw [grown, List.drop_append_of_le_length hi], new, lighter⟩
  | erased t shrunk =>
      exact ⟨[], by rw [shrunk, drop_eraseIdx hi, List.append_nil], by simp, by simpa using positive⟩

theorem Turned.take {x : ι} (h : Turned view weight New i s (body x i s)) (hi : i < (view s).length) :
    (view (body x i s).2).take (body x i s).1 =
      (view s).take i ++
        if (⟨i, s, x⟩ : Turn σ ι).passes body then (Turn.look view (⟨i, s, x⟩ : Turn σ ι)).toList
          else [] := by
  unfold Turn.passes Turn.look
  cases hbody : body x i s with
  | mk j t =>
      rw [hbody] at h
      cases h with
      | passed t y fresh looked grown =>
          rw [grown, List.take_append_of_le_length hi, List.take_add_one]
          simp
      | erased t shrunk =>
          rw [shrunk, take_eraseIdx hi]
          simp

variable {size : σ → Nat} {fuel : Nat} (sized : ∀ s, size s = (view s).length)
  (preserved : ∀ x i s, i < size s → P s → P (body x i s).2)
  (turned : ∀ x i s, i < size s → P s → Turned view weight New i s (body x i s))
  (positive : ∀ x, 0 < weight x)

include sized preserved turned positive

/-- The loop ends, after no more turns than what is still to be looked at weighs. -/
theorem loop_terminates (hs : P s) (enough : (((view s).drop i).map weight).sum ≤ fuel) :
    ∃ turns t, loop size body fuel inputs i s = some (turns, t) := by
  induction fuel generalizing inputs i s with
  | zero =>
      refine ⟨[], s, loop_done fun hi => ?_⟩
      rw [sized] at hi
      -- an element still to be looked at would weigh something
      rw [List.drop_eq_getElem_cons hi, List.map_cons, List.sum_cons] at enough
      have hpositive := positive (view s)[i]
      omega
  | succ fuel ih =>
      by_cases hi : i < size s
      · have hview : i < (view s).length := sized s ▸ hi
        obtain ⟨fresh, hdrop, _, hlighter⟩ :=
          (turned (inputs 0) i s hi hs).drop (List.getElem?_eq_getElem hview) (positive (view s)[i])
        rw [List.drop_eq_getElem_cons hview, List.map_cons, List.sum_cons] at enough
        have hrest : (((view (body (inputs 0) i s).2).drop (body (inputs 0) i s).1).map weight).sum
            ≤ fuel := by
          rw [hdrop, List.map_append, List.sum_append]
          omega
        obtain ⟨turns, t, hloop⟩ : ∃ turns t, loop size body fuel (fun k => inputs (k + 1))
            (body (inputs 0) i s).1 (body (inputs 0) i s).2 = some (turns, t) :=
          ih (preserved (inputs 0) i s hi hs) hrest
        exact ⟨⟨i, s, inputs 0⟩ :: turns, t, by rw [loop_turn hi, hloop, Option.map_some]⟩
      · exact ⟨[], s, loop_done hi⟩

/-- Every element that is there at the start is looked at once, in order, and so is every element
added later. -/
theorem loop_looks (hs : P s) (h : loop size body fuel inputs i s = some (turns, t)) :
    ∃ fresh, turns.map (Turn.look view) = ((view s).drop i ++ fresh).map some ∧
      ∀ y ∈ fresh, New y := by
  induction fuel generalizing inputs i s turns with
  | zero =>
      rcases loop_cases h with ⟨hi, rfl, rfl⟩ | ⟨fuel, rest, hfuel, _⟩
      · rw [sized] at hi
        exact ⟨[], by rw [List.drop_eq_nil_of_le (Nat.le_of_not_lt hi)]; rfl, by simp⟩
      · omega
  | succ fuel ih =>
      rcases loop_cases h with ⟨hi, rfl, rfl⟩ | ⟨fuel', rest, hfuel, hi, rfl, hrest⟩
      · rw [sized] at hi
        exact ⟨[], by rw [List.drop_eq_nil_of_le (Nat.le_of_not_lt hi)]; rfl, by simp⟩
      · obtain rfl := Nat.succ.inj hfuel
        have hview : i < (view s).length := sized s ▸ hi
        have hx : (view s)[i]? = some (view s)[i] := List.getElem?_eq_getElem hview
        obtain ⟨fresh, hdrop, hnew, _⟩ := (turned (inputs 0) i s hi hs).drop hx (positive (view s)[i])
        obtain ⟨later, hlater, hlaterNew⟩ := ih (preserved (inputs 0) i s hi hs) hrest
        refine ⟨fresh ++ later, ?_, fun y hy => (List.mem_append.mp hy).elim (hnew y) (hlaterNew y)⟩
        rw [List.map_cons, hlater, hdrop, Turn.look, hx, List.append_assoc,
          List.drop_eq_getElem_cons hview, List.cons_append, List.map_cons]

omit positive

/-- At the end the sequence consists of the elements whose turns went on. -/
theorem loop_remains (hs : P s) (h : loop size body fuel inputs i s = some (turns, t)) :
    view t = (view s).take i ++
      (turns.filter (Turn.passes body)).filterMap (Turn.look view) := by
  induction fuel generalizing inputs i s turns with
  | zero =>
      rcases loop_cases h with ⟨hi, rfl, rfl⟩ | ⟨fuel, rest, hfuel, _⟩
      · rw [sized] at hi
        rw [List.take_of_length_le (Nat.le_of_not_lt hi)]
        simp
      · omega
  | succ fuel ih =>
      rcases loop_cases h with ⟨hi, rfl, rfl⟩ | ⟨fuel', rest, hfuel, hi, rfl, hrest⟩
      · rw [sized] at hi
        rw [List.take_of_length_le (Nat.le_of_not_lt hi)]
        simp
      · obtain rfl := Nat.succ.inj hfuel
        have hview : i < (view s).length := sized s ▸ hi
        have hlook : (⟨i, s, inputs 0⟩ : Turn σ ι).look view = some (view s)[i] :=
          List.getElem?_eq_getElem hview
        rw [ih (preserved (inputs 0) i s hi hs) hrest, (turned (inputs 0) i s hi hs).take hview]
        by_cases hpasses : (⟨i, s, inputs 0⟩ : Turn σ ι).passes body
        · rw [if_pos hpasses, List.filter_cons_of_pos hpasses, List.filterMap_cons_some hlook, hlook,
            Option.toList_some, List.append_assoc, List.singleton_append]
        · simp [hpasses]

end Turned

end IrcServer.Scan
