import Mathlib.Data.List.TakeWhile
import IrcServer.Model.Bytes

/-! # `Parser::parse`

The seven index loops of the source advance one cursor; here the cursor is the
part of the line that is still to be read. The parameter loop alternates between
skipping blanks and filling `token`; the optional argument is the token being
filled.
-/

namespace IrcServer

structure Message where
  prefixText : Bytes
  cmd : Bytes
  params : List Bytes
  deriving Repr, DecidableEq

/-- `params[k]`; the handlers check the number of parameters first. -/
def Message.param (message : Message) (k : Nat) : Bytes := message.params.getD k []

namespace Parser

def isBlank (c : UInt8) : Bool := c == space || c == tab

def skip (rest : Bytes) : Bytes := rest.dropWhile isBlank

/-- Read up to the next blank: the bytes read, and what is left. -/
def word (rest : Bytes) : Bytes × Bytes := (rest.takeWhile (!isBlank ·), rest.dropWhile (!isBlank ·))

def paramsFrom : Option Bytes → Bytes → List Bytes
  | none, [] => []
  | none, c :: rest =>
      if isBlank c then paramsFrom none rest
      else if c = colon then [rest]
      else paramsFrom (some [c]) rest
  | some token, [] => [token]
  | some token, c :: rest =>
      if isBlank c then token :: paramsFrom none rest
      else paramsFrom (some (token ++ [c])) rest

/-- The optional prefix: the bytes after a leading `:`, and what is left. -/
def prefixPart (line : Bytes) : Bytes × Bytes :=
  match skip line with
  | [] => ([], [])
  | c :: rest => if c = colon then word rest else ([], c :: rest)

def parse (line : Bytes) : Message :=
  let afterPrefix := prefixPart line
  let command := word (skip afterPrefix.2)
  ⟨afterPrefix.1, command.1, paramsFrom none command.2⟩

example : parse (text ":kaw  KICK #42\takira :too  loud") =
    ⟨text "kaw", text "KICK", [text "#42", text "akira", text "too  loud"]⟩ := by decide

/-! ## Words -/

/-- A word of the line: not empty, no blank in it, no colon in front. -/
structure IsWord (w : Bytes) : Prop where
  nonempty : w ≠ []
  unblanked : ∀ c ∈ w, isBlank c = false
  uncoloned : w.head? ≠ some colon

theorem skip_of_head {c : UInt8} {rest : Bytes} (h : isBlank c = false) :
    skip (c :: rest) = c :: rest := by
  simp [skip, h]

def Delimited (rest : Bytes) : Prop := ∀ c, rest.head? = some c → isBlank c = true

theorem delimited_space (rest : Bytes) : Delimited (space :: rest) := by
  intro c hc
  obtain rfl := Option.some.inj hc
  rfl

theorem word_delimited {w rest : Bytes} (h : ∀ c ∈ w, isBlank c = false) (delimited : Delimited rest) :
    word (w ++ rest) = (w, rest) := by
  have hall : ∀ c ∈ w, (!isBlank c) = true := by simpa using h
  cases rest with
  | nil =>
      rw [List.append_nil, word, List.takeWhile_eq_self_iff.mpr hall,
        List.dropWhile_eq_nil_iff.mpr hall]
  | cons c rest =>
      have hc : isBlank c = true := delimited c rfl
      rw [word, List.takeWhile_append_of_pos hall, List.dropWhile_append_of_pos hall]
      simp [hc]

/-- A word that has started runs to the next blank. -/
theorem paramsFrom_token {w : Bytes} (h : ∀ c ∈ w, isBlank c = false) (token rest : Bytes) :
    paramsFrom (some token) (w ++ rest) = paramsFrom (some (token ++ w)) rest := by
  induction w generalizing token with
  | nil => simp
  | cons c w ih =>
      have hc : isBlank c = false := h c List.mem_cons_self
      rw [List.cons_append, paramsFrom, if_neg (by simp [hc]),
        ih (fun d hd => h d (List.mem_cons_of_mem c hd))]
      simp

@[simp] theorem paramsFrom_none_space (rest : Bytes) :
    paramsFrom none (space :: rest) = paramsFrom none rest := by
  simp [paramsFrom, isBlank]

theorem paramsFrom_trailing (rest : Bytes) : paramsFrom none (colon :: rest) = [rest] := by
  simp [paramsFrom, show isBlank colon = false from rfl]

/-- A middle parameter is the word up to the next blank, or to the end of the line. -/
theorem paramsFrom_word {w rest : Bytes} (h : IsWord w) (delimited : Delimited rest) :
    paramsFrom none (w ++ rest) = w :: paramsFrom none rest := by
  cases w with
  | nil => exact absurd rfl h.nonempty
  | cons c w =>
      have hc : isBlank c = false := h.unblanked c List.mem_cons_self
      have hcolon : c ≠ colon := fun heq => h.uncoloned (by simp [heq])
      rw [List.cons_append, paramsFrom, if_neg (by simp [hc]), if_neg hcolon,
        paramsFrom_token (fun d hd => h.unblanked d (List.mem_cons_of_mem c hd))]
      cases rest with
      | nil => rfl
      | cons d rest =>
          have hd : isBlank d = true := delimited d rfl
          simp [paramsFrom, hd]

/-- Words separated by one space each are read back one by one. -/
theorem paramsFrom_words {ws : List Bytes} (h : ∀ w ∈ ws, IsWord w) (rest : Bytes) :
    paramsFrom none (ws.flatMap (· ++ [space]) ++ rest) = ws ++ paramsFrom none rest := by
  induction ws with
  | nil => rfl
  | cons w ws ih =>
      have hw : IsWord w := h w List.mem_cons_self
      have hrest := ih fun v hv => h v (List.mem_cons_of_mem w hv)
      rw [List.flatMap_cons, List.append_assoc, List.append_assoc, List.singleton_append,
        paramsFrom_word hw (delimited_space _), paramsFrom_none_space, hrest]
      rfl

theorem parse_command {cmd : Bytes} (h : IsWord cmd) (rest : Bytes) :
    parse (cmd ++ space :: rest) = ⟨[], cmd, paramsFrom none rest⟩ := by
  cases cmd with
  | nil => exact absurd rfl h.nonempty
  | cons c cmd =>
      have hc : isBlank c = false := h.unblanked c List.mem_cons_self
      have hcolon : c ≠ colon := fun heq => h.uncoloned (by simp [heq])
      have hprefix : prefixPart (c :: cmd ++ space :: rest) = ([], c :: cmd ++ space :: rest) := by
        rw [prefixPart, List.cons_append, skip_of_head hc]
        simp [hcolon]
      have hskip : skip (c :: cmd ++ space :: rest) = c :: cmd ++ space :: rest := by
        rw [List.cons_append, skip_of_head hc]
      rw [parse, hprefix]
      simp only [hskip, word_delimited h.unblanked (delimited_space rest), paramsFrom_none_space]

theorem paramsFrom_some (token rest : Bytes) :
    paramsFrom (some token) rest = (token ++ (word rest).1) :: paramsFrom none (word rest).2 := by
  induction rest generalizing token with
  | nil => simp [paramsFrom, word]
  | cons c rest ih =>
      cases hc : isBlank c with
      | true => simp [paramsFrom, word, hc]
      | false =>
          rw [paramsFrom, if_neg (by simp [hc]), ih]
          simp [word, hc]

@[simp] theorem skip_space (rest : Bytes) : skip (space :: rest) = skip rest := by
  simp [skip, show isBlank space = true from rfl]

/-- A prefix is read up to where it is delimited, and the rest does not depend on it. -/
theorem parse_prefixed {p rest : Bytes} (h : ∀ c ∈ p, isBlank c = false)
    (delimited : Delimited rest) :
    parse (colon :: p ++ rest) =
      ⟨p, (word (skip rest)).1, paramsFrom none (word (skip rest)).2⟩ := by
  have hskip : skip (colon :: p ++ rest) = colon :: p ++ rest := skip_of_head (by decide)
  have hprefix : prefixPart (colon :: p ++ rest) = (p, rest) := by
    rw [prefixPart, hskip]
    simp [word_delimited h delimited]
  rw [parse, hprefix]

theorem parse_prefixed_space {p : Bytes} (h : ∀ c ∈ p, isBlank c = false) (body : Bytes) :
    parse (colon :: p ++ space :: body) =
      ⟨p, (word (skip body)).1, paramsFrom none (word (skip body)).2⟩ := by
  rw [parse_prefixed h (delimited_space body), skip_space]

theorem parse_unprefixed {body : Bytes}
    (h : ∀ c, body.head? = some c → isBlank c = false ∧ c ≠ colon) :
    parse body = ⟨[], (word (skip body)).1, paramsFrom none (word (skip body)).2⟩ := by
  cases body with
  | nil => rfl
  | cons c rest =>
      obtain ⟨hblank, hcolon⟩ := h c rfl
      have hprefix : prefixPart (c :: rest) = ([], c :: rest) := by
        rw [prefixPart, skip_of_head hblank]
        simp [hcolon]
      rw [parse, hprefix]

/-! ## What parsing cannot introduce -/

theorem mem_of_mem_paramsFrom {line p : Bytes} {token : Option Bytes} {c : UInt8}
    (hp : p ∈ paramsFrom token line) (hc : c ∈ p) : c ∈ line ∨ ∃ t, token = some t ∧ c ∈ t := by
  induction line generalizing token with
  | nil =>
      cases token with
      | none => simp [paramsFrom] at hp
      | some t =>
          simp only [paramsFrom, List.mem_singleton] at hp
          exact Or.inr ⟨t, rfl, hp ▸ hc⟩
  | cons d line ih =>
      cases token with
      | none =>
          rw [paramsFrom] at hp
          split at hp
          · rcases ih hp with h | ⟨t, ht, _⟩
            · exact Or.inl (List.mem_cons_of_mem d h)
            · cases ht
          · split at hp
            · rw [List.mem_singleton] at hp
              exact Or.inl (List.mem_cons_of_mem d (hp ▸ hc))
            · rcases ih hp with h | ⟨t, ht, hct⟩
              · exact Or.inl (List.mem_cons_of_mem d h)
              · cases ht
                rw [List.mem_singleton] at hct
                exact Or.inl (hct ▸ List.mem_cons_self)
      | some t =>
          rw [paramsFrom] at hp
          split at hp
          · rcases List.mem_cons.mp hp with rfl | hp
            · exact Or.inr ⟨p, rfl, hc⟩
            · rcases ih hp with h | ⟨u, hu, _⟩
              · exact Or.inl (List.mem_cons_of_mem d h)
              · cases hu
          · rcases ih hp with h | ⟨u, hu, hcu⟩
            · exact Or.inl (List.mem_cons_of_mem d h)
            · cases hu
              rcases List.mem_append.mp hcu with h | h
              · exact Or.inr ⟨t, rfl, h⟩
              · rw [List.mem_singleton] at h
                exact Or.inl (h ▸ List.mem_cons_self)

/-- Only the last parameter can be empty. -/
theorem paramsFrom_head_ne_nil {line p q : Bytes} {ps : List Bytes} {token : Option Bytes}
    (h : paramsFrom token line = p :: q :: ps) (ht : ∀ t, token = some t → t ≠ []) : p ≠ [] := by
  induction line generalizing token with
  | nil => cases token <;> simp [paramsFrom] at h
  | cons c line ih =>
      cases token with
      | none =>
          rw [paramsFrom] at h
          split at h
          · exact ih h ht
          · split at h
            · cases h
            · exact ih h fun t hsome => by
                cases hsome
                exact List.cons_ne_nil c []
      | some t =>
          rw [paramsFrom] at h
          split at h
          · obtain ⟨rfl, _⟩ := List.cons.inj h
            exact ht t rfl
          · exact ih h fun u hsome => by
              cases hsome
              exact List.append_ne_nil_of_right_ne_nil _ (List.cons_ne_nil c [])

theorem param_zero_ne_nil {line : Bytes} (two : 2 ≤ (parse line).params.length) :
    (parse line).param 0 ≠ [] := by
  rw [Message.param]
  cases hparams : (parse line).params with
  | nil => simp [hparams] at two
  | cons p rest =>
      cases rest with
      | nil => simp [hparams] at two
      | cons q ps => exact paramsFrom_head_ne_nil hparams fun t ht => by cases ht

theorem mem_of_mem_word {rest : Bytes} {c : UInt8} :
    (c ∈ (word rest).1 → c ∈ rest) ∧ (c ∈ (word rest).2 → c ∈ rest) :=
  ⟨fun h => List.takeWhile_subset _ h, fun h => List.dropWhile_subset _ h⟩

theorem mem_of_mem_prefixPart {line : Bytes} {c : UInt8} (h : c ∈ (prefixPart line).2) :
    c ∈ line := by
  have hskip : ∀ d, d ∈ skip line → d ∈ line := fun d hd => List.dropWhile_subset _ hd
  unfold prefixPart at h
  cases hs : skip line with
  | nil => simp [hs] at h
  | cons d rest =>
      rw [hs] at h hskip
      dsimp only at h
      split at h
      · exact hskip c (List.mem_cons_of_mem d (mem_of_mem_word.2 h))
      · exact hskip c h

/-- Every byte of the command and of the parameters stands in the line. -/
theorem mem_of_mem_parse {line : Bytes} {c : UInt8} :
    (c ∈ (parse line).cmd → c ∈ line) ∧ (∀ p ∈ (parse line).params, c ∈ p → c ∈ line) := by
  have hskip : ∀ d, d ∈ skip (prefixPart line).2 → d ∈ line := fun d hd =>
    mem_of_mem_prefixPart (List.dropWhile_subset _ hd)
  constructor
  · intro h
    exact hskip c (mem_of_mem_word.1 h)
  · intro p hp hc
    rcases mem_of_mem_paramsFrom hp hc with h | ⟨t, ht, _⟩
    · exact hskip c (mem_of_mem_word.2 h)
    · cases ht

end Parser

end IrcServer
