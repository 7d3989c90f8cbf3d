import Mathlib.Data.List.Induction
import IrcServer.Model.Loop

/-! # Reading the history

A descriptor number is reused, so what belongs to one connection is what the
history holds since the number was last accepted.
-/

namespace IrcServer

def sinceAccepted (fd : Int) (history : List Entry) : List Entry :=
  history.foldl (fun entries entry => if entry = .accepted fd then [] else entries ++ [entry]) []

def messagesTo (fd : Int) (entries : List Entry) : List Bytes :=
  entries.filterMap fun
    | .queued fd' message => if fd' = fd then some message else none
    | _ => none

def linesFrom (fd : Int) (entries : List Entry) : List Bytes :=
  entries.filterMap fun
    | .line fd' contents => if fd' = fd then some contents else none
    | _ => none

/-- Everything queued to the present connection `fd`. -/
def queuedTo (fd : Int) (server : Machine) : List Bytes :=
  messagesTo fd (sinceAccepted fd server.history)

def added (before after : Machine) : List Entry := after.history.drop before.history.length

theorem sinceAccepted_snoc (fd : Int) (history : List Entry) (entry : Entry) :
    sinceAccepted fd (history ++ [entry]) =
      if entry = .accepted fd then [] else sinceAccepted fd history ++ [entry] := by
  simp [sinceAccepted]

theorem sinceAccepted_append {fd : Int} {entries : List Entry} (h : .accepted fd ∉ entries)
    (history : List Entry) :
    sinceAccepted fd (history ++ entries) = sinceAccepted fd history ++ entries := by
  induction entries generalizing history with
  | nil => simp
  | cons entry entries ih =>
      obtain ⟨hne, hrest⟩ := List.ne_and_not_mem_of_not_mem_cons h
      rw [List.append_cons, ih hrest, sinceAccepted_snoc, if_neg (Ne.symm hne)]
      simp

theorem sinceAccepted_accepted (fd : Int) (history : List Entry) :
    sinceAccepted fd (history ++ [.accepted fd]) = [] := by
  rw [sinceAccepted_snoc, if_pos rfl]

theorem mem_of_mem_sinceAccepted {fd : Int} {history : List Entry} {entry : Entry}
    (h : entry ∈ sinceAccepted fd history) : entry ∈ history := by
  induction history using List.reverseRecOn with
  | nil => exact h
  | append_singleton history last ih =>
      rw [sinceAccepted_snoc] at h
      split at h
      · cases h
      · rcases List.mem_append.mp h with h | h
        · exact List.mem_append_left _ (ih h)
        · exact List.mem_append_right _ h

@[simp] theorem messagesTo_append (fd : Int) (xs ys : List Entry) :
    messagesTo fd (xs ++ ys) = messagesTo fd xs ++ messagesTo fd ys :=
  List.filterMap_append

@[simp] theorem linesFrom_append (fd : Int) (xs ys : List Entry) :
    linesFrom fd (xs ++ ys) = linesFrom fd xs ++ linesFrom fd ys :=
  List.filterMap_append

theorem mem_messagesTo {fd : Int} {entries : List Entry} {m : Bytes} :
    m ∈ messagesTo fd entries ↔ .queued fd m ∈ entries := by
  rw [messagesTo, List.mem_filterMap]
  constructor
  · rintro ⟨entry, hmem, h⟩
    cases entry with
    | queued fd' message =>
        dsimp only at h
        split at h
        · next hfd =>
            cases h
            exact hfd ▸ hmem
        · cases h
    | _ => cases h
  · intro h
    exact ⟨_, h, if_pos rfl⟩

theorem mem_linesFrom {fd : Int} {entries : List Entry} {contents : Bytes} :
    contents ∈ linesFrom fd entries ↔ .line fd contents ∈ entries := by
  rw [linesFrom, List.mem_filterMap]
  constructor
  · rintro ⟨entry, hmem, h⟩
    cases entry with
    | line fd' bytes =>
        dsimp only at h
        split at h
        · next hfd =>
            cases h
            exact hfd ▸ hmem
        · cases h
    | _ => cases h
  · intro h
    exact ⟨_, h, if_pos rfl⟩

end IrcServer
