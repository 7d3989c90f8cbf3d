import IrcServer.Proof.Isolation
import IrcServer.Proof.Normal

/-! # Who a message comes from

Whatever a line makes the server send to others carries the nickname the server has
on record for the sender. The prefix of the line plays no part: the handlers see the
command word, in capitals, and the parameters.
-/

namespace IrcServer

open Search Machine Transition
open IrcServer.Parser

/-- What stands in front of the command word: blanks, or a prefix between blanks. -/
inductive Lead : Bytes → Bytes → Prop
  | bare (blanks word : Bytes) (h : ∀ c ∈ blanks, isBlank c = true)
      (uncoloned : word.head? ≠ some colon) : Lead blanks word
  | prefixed (blanks p gap word : Bytes) (h : ∀ c ∈ blanks, isBlank c = true)
      (source : ∀ c ∈ p, isBlank c = false) (hgap : ∀ c ∈ gap, isBlank c = true) (parted : gap ≠ []) :
      Lead (blanks ++ colon :: (p ++ gap)) word

/-- The line `lead ++ (word ++ rest)` has the command word `word`. -/
structure CommandWord (lead word rest : Bytes) : Prop where
  lead : Lead lead word
  nonempty : word ≠ []
  unblanked : ∀ c ∈ word, isBlank c = false
  delimited : Delimited rest

structure PrefixFree (s : Machine) (i : Nat) : Prop where
  replaced : ∀ p q body, (∀ c ∈ p, isBlank c = false) → (∀ c ∈ q, isBlank c = false) →
    dispatchCommand i (colon :: p ++ space :: body) s =
      dispatchCommand i (colon :: q ++ space :: body) s
  dropped : ∀ p body, (∀ c ∈ p, isBlank c = false) →
    (∀ c, body.head? = some c → isBlank c = false ∧ c ≠ colon) →
    dispatchCommand i (colon :: p ++ space :: body) s = dispatchCommand i body s
  recased : ∀ lead word word' rest, CommandWord lead word rest →
    word'.map toUpper = word.map toUpper →
    dispatchCommand i (lead ++ (word' ++ rest)) s = dispatchCommand i (lead ++ (word ++ rest)) s

/-- Messages to others name their sender, and the line cannot choose another one. -/
structure Unspoofed (s : Machine) : Prop where
  source : ∀ i j c d line s', s.clients[i]? = some c → s.clients[j]? = some d → i ≠ j →
    step s (.command i line) = some s' →
      (s'.clientAt j).sendBuffer = d.sendBuffer ++ (messagesTo d.fd (added s s')).flatten ∧
      ∀ m ∈ messagesTo d.fd (added s s'), colon :: c.nickname ++ [space] <+: m
  lines : ∀ i, PrefixFree s i
  located : ∀ line, (parse line).cmd ≠ [] → ∃ lead rest,
    line = lead ++ ((parse line).cmd ++ rest) ∧ CommandWord lead (parse line).cmd rest

/-! ## The source of a message -/

theorem wireLine_source (source word rest : Bytes) :
    colon :: source ++ [space] <+: wireLine source word rest :=
  ⟨word ++ space :: rest ++ crlf, by simp [wireLine]⟩

/-- What goes to others starts with the nickname of the sender. -/
theorem Dispatched.source {s : Server} {i : Nat} {c : Client} {message : Message} {c' : Client}
    {channels : List Channel} {sends : List (Nat × Bytes)}
    (effect : Dispatched s i c message c' channels sends) (clean : message.Clean) (sound : c.Sound) :
    ∀ call ∈ sends, call.1 ≠ i → colon :: c.nickname ++ [space] <+: call.2 := by
  have mine : ∀ replies : List Bytes, ∀ call ∈ replies.map (i, ·),
      call.1 ≠ i → colon :: c.nickname ++ [space] <+: call.2 := by
    intro replies call hcall hne
    obtain ⟨reply, _, rfl⟩ := List.mem_map.mp hcall
    exact absurd rfl hne
  cases effect with
  | silent => simp
  | passed => simp
  | refused m => exact mine [m]
  | answered k ch => exact mine [topicReply c ch]
  | nick => exact mine _
  | user => exact mine _
  | whispered =>
      intro call hcall _
      rw [List.mem_singleton.mp hcall, privmsgMessage_eq]
      exact wireLine_source _ _ _
  | invited =>
      intro call hcall hne
      simp only [List.mem_cons, List.not_mem_nil, or_false] at hcall
      rcases hcall with rfl | rfl
      · rw [inviteMessage_eq]
        exact wireLine_source _ _ _
      · exact absurd rfl hne
  | announced channels a announces =>
      intro call hcall hne
      rcases List.mem_append.mp hcall with hcall | hcall
      · obtain ⟨k, _, rfl⟩ := List.mem_map.mp hcall
        obtain ⟨word, _, rest, hline, _⟩ := announces.shape clean sound.nickname_bytes.1
        rw [hline]
        exact wireLine_source _ _ _
      · exact mine _ call hcall hne

theorem dispatched_source {s s' : Machine} (invariant : Invariant s) {i j : Nat} {c d : Client}
    (hc : s.clients[i]? = some c) (hd : s.clients[j]? = some d) (distinct : i ≠ j) {line : Bytes}
    (hstep : step s (.command i line) = some s') :
    (s'.clientAt j).sendBuffer = d.sendBuffer ++ (messagesTo d.fd (added s s')).flatten ∧
      ∀ m ∈ messagesTo d.fd (added s s'), colon :: c.nickname ++ [space] <+: m := by
  cases step_stepped invariant.table hstep with
  | dispatched _ x hx _ clean c' channels sends effect =>
      obtain rfl := Option.some.inj (hc.symm.trans hx)
      have hafter := settle_other (s := s.record (.line c.fd line)) i c' channels sends
        (Ne.symm distinct) hd
      rw [dispatched_messagesTo invariant hc clean effect hd, Server.clientAt_of_getElem? hafter]
      refine ⟨rfl, fun m hm => ?_⟩
      obtain ⟨call, hcall, rfl⟩ := List.mem_map.mp hm
      obtain ⟨hmem, hj⟩ := List.mem_filter.mp hcall
      have hother : call.1 ≠ i := fun heq => distinct (heq ▸ of_decide_eq_true hj)
      exact effect.source (parse_clean clean) (invariant.identities.sound c (List.mem_of_getElem? hc))
        call hmem hother

/-! ## What the handlers see -/

section Reading

variable (i : Nat) (s : Machine)

theorem handlers_params {message message' : Message} (h : message.params = message'.params) :
    passHundler i message s = passHundler i message' s ∧
      nickHundler i message s = nickHundler i message' s ∧
      userHandler i message s = userHandler i message' s ∧
      joinHandler i message s = joinHandler i message' s ∧
      privmsgHandler i message s = privmsgHandler i message' s ∧
      topicHandler i message s = topicHandler i message' s ∧
      kickHandler i message s = kickHandler i message' s ∧
      inviteHandler i message s = inviteHandler i message' s ∧
      modes i message s = modes i message' s := by
  obtain ⟨p, cmd, params⟩ := message
  obtain ⟨q, cmd', params'⟩ := message'
  obtain rfl : params = params' := h
  exact ⟨rfl, rfl, rfl, rfl, rfl, rfl, rfl, rfl, rfl⟩

/-- Two lines with the same command in capitals and the same parameters do the same. -/
theorem dispatchCommand_congr {line line' : Bytes}
    (command : (parse line).command = (parse line').command)
    (params : (parse line).params = (parse line').params) :
    dispatchCommand i line s = dispatchCommand i line' s := by
  obtain ⟨hpass, hnick, huser, hjoin, hprivmsg, htopic, hkick, hinvite, hmode⟩ :=
    handlers_params i s params
  have hword : (parse line).cmd.map toUpper = (parse line').cmd.map toUpper := command
  simp only [dispatchCommand, hword, hpass, hnick, huser, hjoin, hprivmsg, htopic, hkick, hinvite,
    hmode]

end Reading

/-! ## The command word -/

theorem skip_blanks {blanks : Bytes} (h : ∀ c ∈ blanks, isBlank c = true) (rest : Bytes) :
    skip (blanks ++ rest) = skip rest :=
  List.dropWhile_append_of_pos h

theorem parse_blanks {blanks : Bytes} (h : ∀ c ∈ blanks, isBlank c = true) (rest : Bytes) :
    parse (blanks ++ rest) = parse rest := by
  simp only [parse, prefixPart, skip_blanks h]

theorem CommandWord.parse_eq {lead word rest : Bytes} (h : CommandWord lead word rest) :
    ∃ p, parse (lead ++ (word ++ rest)) = ⟨p, word, paramsFrom none rest⟩ := by
  obtain ⟨hlead, nonempty, unblanked, delimited⟩ := h
  obtain ⟨c, more, rfl⟩ := List.exists_cons_of_ne_nil nonempty
  have hc : isBlank c = false := unblanked c List.mem_cons_self
  have hskip : skip (c :: more ++ rest) = c :: more ++ rest := skip_of_head hc
  have hword := word_delimited unblanked delimited
  cases hlead with
  | bare blanks _ hblanks uncoloned =>
      have hcolon : c ≠ colon := fun heq => uncoloned (by rw [heq]; rfl)
      have hstart : ∀ d, (c :: more ++ rest).head? = some d → isBlank d = false ∧ d ≠ colon := by
        rintro d ⟨⟩
        exact ⟨hc, hcolon⟩
      refine ⟨[], ?_⟩
      rw [parse_blanks hblanks, parse_unprefixed hstart, hskip, hword]
  | prefixed blanks p gap _ hblanks source hgap parted =>
      obtain ⟨g, gap, rfl⟩ := List.exists_cons_of_ne_nil parted
      have hdelimited : Delimited (g :: gap ++ (c :: more ++ rest)) := by
        rintro d ⟨⟩
        exact hgap g List.mem_cons_self
      have hline : blanks ++ colon :: (p ++ g :: gap) ++ (c :: more ++ rest) =
          blanks ++ (colon :: p ++ (g :: gap ++ (c :: more ++ rest))) := by simp
      refine ⟨p, ?_⟩
      rw [hline, parse_blanks hblanks, parse_prefixed source hdelimited, skip_blanks hgap, hskip,
        hword]

theorem toUpper_separator {c d : UInt8} (h : toUpper c = toUpper d) :
    isBlank c = isBlank d ∧ (c = colon ↔ d = colon) := by
  constructor <;> grind [toUpper, isLower, isBlank, space, tab, colon]

theorem CommandWord.recase {lead word word' rest : Bytes} (h : CommandWord lead word rest)
    (same : word'.map toUpper = word.map toUpper) : CommandWord lead word' rest := by
  obtain ⟨hlead, nonempty, unblanked, delimited⟩ := h
  have hunblanked : ∀ c ∈ word', isBlank c = false := by
    intro c hc
    have hupper : toUpper c ∈ word.map toUpper := same ▸ List.mem_map_of_mem hc
    obtain ⟨d, hd, heq⟩ := List.mem_map.mp hupper
    rw [← (toUpper_separator heq).1]
    exact unblanked d hd
  refine ⟨?_, ?_, hunblanked, delimited⟩
  · cases hlead with
    | bare _ _ hblanks uncoloned =>
        refine .bare lead word' hblanks fun hcolon => uncoloned ?_
        have hhead : (word'.head?).map toUpper = (word.head?).map toUpper := by
          rw [← List.head?_map, ← List.head?_map, same]
        rw [hcolon] at hhead
        obtain ⟨d, hd, heq⟩ := Option.map_eq_some_iff.mp hhead.symm
        rw [hd, (toUpper_separator heq).2.mpr rfl]
    | prefixed blanks p gap _ hblanks source hgap parted =>
        exact .prefixed blanks p gap word' hblanks source hgap parted
  · rintro rfl
    exact nonempty (List.map_eq_nil_iff.mp same.symm)

theorem prefixFree (s : Machine) (i : Nat) : PrefixFree s i := by
  constructor
  · intro p q body hp hq
    apply dispatchCommand_congr <;>
      simp only [Message.command, parse_prefixed_space hp, parse_prefixed_space hq]
  · intro p body hp hbody
    apply dispatchCommand_congr <;>
      simp only [Message.command, parse_prefixed_space hp, parse_unprefixed hbody]
  · intro lead word word' rest h same
    obtain ⟨p, hp⟩ := h.parse_eq
    obtain ⟨q, hq⟩ := (h.recase same).parse_eq
    apply dispatchCommand_congr <;> simp only [Message.command, hp, hq, same]

theorem skip_spec (line : Bytes) : ∃ blanks, line = blanks ++ skip line ∧
    (∀ c ∈ blanks, isBlank c = true) ∧ ∀ c, (skip line).head? = some c → isBlank c = false :=
  ⟨line.takeWhile isBlank, (List.takeWhile_append_dropWhile).symm,
    fun _ hc => List.mem_takeWhile_imp hc, fun _ hc => skip_head hc⟩

theorem word_spec (rest : Bytes) : rest = (word rest).1 ++ (word rest).2 ∧
    Delimited (word rest).2 := by
  refine ⟨(List.takeWhile_append_dropWhile).symm, fun c hc => ?_⟩
  have hhead := List.head?_dropWhile_not (!isBlank ·) rest
  rw [word] at hc
  rw [hc] at hhead
  simpa using hhead

/-- The command word of a line stands in it, behind blanks and perhaps a prefix. -/
theorem command_located {line : Bytes} (h : (parse line).cmd ≠ []) : ∃ lead rest,
    line = lead ++ ((parse line).cmd ++ rest) ∧ CommandWord lead (parse line).cmd rest := by
  obtain ⟨blanks, hline, hblanks, hhead⟩ := skip_spec line
  cases hskip : skip line with
  | nil =>
      have hparse : (parse line).cmd = [] := by simp only [parse, prefixPart, hskip]; rfl
      exact absurd hparse h
  | cons c rest =>
      rw [hskip] at hline hhead
      have hc : isBlank c = false := hhead c rfl
      by_cases hcolon : c = colon
      · -- behind a prefix and the blanks that end it
        obtain ⟨hword, hdelimited⟩ := word_spec rest
        obtain ⟨gap, hgap, hblank, hunblanked⟩ := skip_spec (word rest).2
        obtain ⟨hcmd, hafter⟩ := word_spec (skip (word rest).2)
        have hparse : (parse line).cmd = (word (skip (word rest).2)).1 := by
          simp [parse, prefixPart, hskip, hcolon]
        rw [hparse] at h ⊢
        have hparted : gap ≠ [] := by
          rintro rfl
          rw [List.nil_append] at hgap
          cases hnext : skip (word rest).2 with
          | nil => exact h (by rw [hnext]; rfl)
          | cons d more =>
              rw [hnext] at hgap hunblanked
              have hd : isBlank d = true := hdelimited d (by rw [hgap]; rfl)
              rw [hunblanked d rfl] at hd
              cases hd
        refine ⟨blanks ++ colon :: ((word rest).1 ++ gap), _, ?_,
          .prefixed blanks (word rest).1 gap _ hblanks (word_unblanked rest) hblank hparted,
          h, word_unblanked _, hafter⟩
        rw [← hcmd, List.append_assoc, List.cons_append, List.append_assoc, ← hgap, ← hword,
          ← hcolon, ← hline]
      · -- no prefix
        have hparse : (parse line).cmd = (word (c :: rest)).1 := by
          simp [parse, prefixPart, hskip, hcolon, skip_of_head hc]
        obtain ⟨hcmd, hafter⟩ := word_spec (c :: rest)
        rw [hparse] at h ⊢
        refine ⟨blanks, _, by rw [← hcmd, ← hline], .bare blanks _ hblanks ?_, h, word_unblanked _,
          hafter⟩
        simp [word, hc, hcolon]

/-! ## Reachable states -/

theorem unspoofed_reachable {s : Machine} (h : Reachable s) : Unspoofed s where
  source := fun _ _ _ _ _ _ hc hd distinct hstep =>
    dispatched_source h.invariant hc hd distinct hstep
  lines := prefixFree s
  located := fun _ hcmd => command_located hcmd

theorem unspoofed_sample : Unspoofed (stateAfter sampleRun) :=
  unspoofed_reachable (stateAfter_reachable sampleRun)

end IrcServer
