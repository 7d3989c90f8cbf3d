import IrcServer.Model.Parser

/-! # The normal form of messages

What the parser returns is a well-formed message, and every well-formed message is
what the parser returns for the line it is rendered to. So a line and its rendering
mean the same, and the well-formed messages are exactly the parsed ones.
-/

namespace IrcServer

open IrcServer.Parser

/-- Only the last parameter may be empty, hold a blank or start with a colon. -/
structure Message.WellFormed (message : Message) : Prop where
  source : ∀ c ∈ message.prefixText, isBlank c = false
  command : ∀ c ∈ message.cmd, isBlank c = false
  bare : message.cmd = [] → message.params = []
  middle : ∀ p ∈ message.params.dropLast, IsWord p

/-- `" :<last>"`, if there are parameters. -/
def renderLast (params : List Bytes) : Bytes :=
  match params.getLast? with
  | none => []
  | some last => space :: colon :: last

/-- `":<prefix> <cmd>"`, then `" <p>"` for each parameter but the last. -/
def render (message : Message) : Bytes :=
  colon :: message.prefixText ++ space :: (message.cmd ++
    (message.params.dropLast.flatMap (space :: ·) ++ renderLast message.params))

/-! ## Parsed messages are well formed -/

theorem word_unblanked (rest : Bytes) : ∀ c ∈ (word rest).1, isBlank c = false := by
  intro c hc
  simpa using List.mem_takeWhile_imp hc

theorem prefixPart_unblanked (line : Bytes) : ∀ c ∈ (prefixPart line).1, isBlank c = false := by
  unfold prefixPart
  cases skip line with
  | nil => simp
  | cons c rest =>
      dsimp only
      split
      · exact word_unblanked rest
      · simp

/-- Every parameter but the last is a word, once the token that is being filled is one. -/
theorem paramsFrom_middle (token : Option Bytes) (line : Bytes)
    (h : ∀ t, token = some t → IsWord t) : ∀ p ∈ (paramsFrom token line).dropLast, IsWord p := by
  fun_induction paramsFrom token line with
  | case1 => simp
  | case2 c rest hblank ih => exact ih (by simp)
  | case3 => simp
  | case4 c rest hblank hcolon ih =>
      refine ih fun t ht => ?_
      obtain rfl := Option.some.inj ht
      exact ⟨List.cons_ne_nil c [], by simpa using hblank, by simpa using hcolon⟩
  | case5 token => simp
  | case6 token c rest hblank ih =>
      intro p hp
      cases hmore : paramsFrom none rest with
      | nil => simp [hmore] at hp
      | cons q qs =>
          rw [hmore] at hp ih
          rcases List.mem_cons.mp hp with rfl | hp
          · exact h p rfl
          · exact ih (by simp) p hp
  | case7 token c rest hblank ih =>
      refine ih fun t ht => ?_
      obtain rfl := Option.some.inj ht
      have hword : IsWord token := h token rfl
      refine ⟨List.append_ne_nil_of_left_ne_nil hword.nonempty [c], fun d hd => ?_, ?_⟩
      · rcases List.mem_append.mp hd with hd | hd
        · exact hword.unblanked d hd
        · simpa [List.mem_singleton.mp hd] using hblank
      · rw [List.head?_append_of_ne_nil _ hword.nonempty]
        exact hword.uncoloned

theorem skip_head {line : Bytes} {c : UInt8} (h : (skip line).head? = some c) :
    isBlank c = false := by
  have hhead := List.head?_dropWhile_not isBlank line
  rw [skip] at h
  rw [h] at hhead
  simpa using hhead

theorem parse_wellFormed (line : Bytes) : (parse line).WellFormed where
  source := prefixPart_unblanked line
  command := word_unblanked _
  bare := by
    intro hcmd
    -- an empty command word means that nothing is left of the line
    have hnothing : skip (prefixPart line).2 = [] := by
      cases hrest : skip (prefixPart line).2 with
      | nil => rfl
      | cons c rest =>
          have hhead : (skip (prefixPart line).2).head? = some c := by rw [hrest]; rfl
          have hc : isBlank c = false := skip_head hhead
          simp [parse, hrest, word, hc] at hcmd
    simp [parse, hnothing, word, paramsFrom]
  middle := paramsFrom_middle none _ (by simp)

/-! ## Rendered messages are read back -/

theorem flatMap_space_cons (ws : List Bytes) (rest : Bytes) :
    ws.flatMap (space :: ·) ++ space :: rest = space :: (ws.flatMap (· ++ [space]) ++ rest) := by
  induction ws with
  | nil => rfl
  | cons w ws ih => simp [ih]

theorem delimited_render (params : List Bytes) :
    Delimited (params.dropLast.flatMap (space :: ·) ++ renderLast params) := by
  cases hlast : params.getLast? with
  | none =>
      rw [List.getLast?_eq_none_iff.mp hlast]
      intro c hc
      cases hc
  | some last =>
      rw [renderLast, hlast]
      dsimp only
      rw [flatMap_space_cons]
      exact delimited_space _

theorem paramsFrom_render {params : List Bytes} (h : ∀ p ∈ params.dropLast, IsWord p) :
    paramsFrom none (params.dropLast.flatMap (space :: ·) ++ renderLast params) = params := by
  cases hlast : params.getLast? with
  | none =>
      rw [List.getLast?_eq_none_iff.mp hlast]
      rfl
  | some last =>
      have hparams : params.dropLast ++ [last] = params := by
        obtain ⟨init, rfl⟩ := List.getLast?_eq_some_iff.mp hlast
        simp
      rw [renderLast, hlast]
      dsimp only
      rw [flatMap_space_cons, paramsFrom_none_space, paramsFrom_words h, paramsFrom_trailing,
        hparams]

theorem parse_render {message : Message} (h : message.WellFormed) :
    parse (render message) = message := by
  have delimited := delimited_render message.params
  have hskip : skip (message.cmd ++
      (message.params.dropLast.flatMap (space :: ·) ++ renderLast message.params)) =
      message.cmd ++ (message.params.dropLast.flatMap (space :: ·) ++ renderLast message.params) := by
    cases hcmd : message.cmd with
    | nil => rw [h.bare hcmd]; rfl
    | cons c cmd => exact skip_of_head (h.command c (hcmd ▸ List.mem_cons_self))
  rw [render, parse_prefixed_space h.source, hskip, word_delimited h.command delimited,
    paramsFrom_render h.middle]

/-- The parser and the rendering are inverse to each other on well-formed messages. -/
theorem parse_normalForm :
    (∀ line, (parse line).WellFormed) ∧
      (∀ message : Message, message.WellFormed → parse (render message) = message) ∧
      (∀ line, parse (render (parse line)) = parse line) ∧
      ∀ message : Message, (∃ line, parse line = message) ↔ message.WellFormed := by
  refine ⟨parse_wellFormed, fun _ h => parse_render h,
    fun line => parse_render (parse_wellFormed line), fun message => ⟨?_, fun h => ?_⟩⟩
  · rintro ⟨line, rfl⟩
    exact parse_wellFormed line
  · exact ⟨render message, parse_render h⟩

end IrcServer
