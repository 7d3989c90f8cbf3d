import IrcServer.Proof.Addressing
import IrcServer.Proof.Delivery
import IrcServer.Proof.Normal

/-! # Event lines decode to the event

The handlers print the event line of a command by hand, and the parser reads it as it
reads any line. It finds the values the command acted on, with one exception: a
channel key is printed without the colon that a text has in front.
-/

namespace IrcServer

open Search Machine Transition
open IrcServer.Parser

def eventVerbs : List Bytes := eventWords ++ [text "INVITE"]

/-- The mode, and the argument that a key, a limit and an operator have. -/
def modeParams (message : Message) : List Bytes :=
  if message.param 1 = text "+k" ∨ message.param 1 = text "+l" ∨ message.param 1 = text "+o" ∨
      message.param 1 = text "-o" then
    [message.param 1, message.param 2]
  else [message.param 1]

/-- The values an accepted command acts on, in the order of its event line. -/
def eventParams (c : Client) (message : Message) : List Bytes :=
  if message.command = text "JOIN" then [message.param 0]
  else if message.command = text "KICK" then
    [message.param 0, message.param 1,
      if message.params.length > 2 then message.param 2 else c.nickname]
  else if message.command = text "MODE" then message.param 0 :: modeParams message
  else [message.param 0, message.param 1]

def eventMessage (c : Client) (message : Message) : Message :=
  ⟨c.nickname, message.command, eventParams c message⟩

/-- Without its line terminator, `m` is parsed into the event. -/
def Decodes (c : Client) (message : Message) (m : Bytes) : Prop :=
  ∃ body, m = body ++ crlf ∧ parse body = eventMessage c message

def Decoded (s s' : Machine) (c : Client) (message : Message) : Prop :=
  ∀ fd m, .queued fd m ∈ added s s' → verb m ∈ eventVerbs → Decodes c message m

/-- An operator sets a key that is not one word: it is empty, has a blank in it, or starts with a
colon. -/
structure Garbles (s : Server) (c : Client) (message : Message) : Prop where
  command : message.command = text "MODE"
  mode : message.param 1 = text "+k"
  three : 3 ≤ message.params.length
  operator : ∃ ch ∈ s.channels, ch.name = message.param 0 ∧ c.fd ∈ ch.operatorFds
  unreadable : ¬ IsWord (message.param 2)

/-! ## Words of an event line -/

theorem isWord_nickname {nick : Bytes} (valid : checkNickValid nick = true) : IsWord nick := by
  obtain ⟨_, hspace, htab, hcolon⟩ := checkNickValid_bytes valid
  refine ⟨?_, fun c hc => ?_, fun hhead => hcolon (List.mem_of_head? hhead)⟩
  · rintro rfl
    cases valid
  · have hne : c ≠ space := fun h => hspace (h ▸ hc)
    have hne' : c ≠ tab := fun h => htab (h ▸ hc)
    simp [isBlank, hne, hne']

/-- A parameter that another one follows is a word. -/
theorem isWord_param {line : Bytes} {k : Nat} (h : k + 1 < (parse line).params.length) :
    IsWord ((parse line).param k) := by
  refine (parse_wellFormed line).middle _ ?_
  have hk : k < (parse line).params.dropLast.length := by
    rw [List.length_dropLast]
    omega
  have hget : (parse line).params.dropLast[k] = (parse line).param k := by
    have hparam : (parse line).params[k]? = some (parse line).params[k] :=
      List.getElem?_eq_getElem (by omega)
    rw [List.getElem_dropLast, Message.param, List.getD_eq_getElem?_getD, hparam, Option.getD_some]
  rw [← hget]
  exact List.getElem_mem hk

theorem length_le_of_mem_paramsFrom {token : Option Bytes} {line p : Bytes}
    (h : p ∈ paramsFrom token line) : p.length ≤ (token.getD []).length + line.length := by
  fun_induction paramsFrom token line with
  | case1 => cases h
  | case2 c rest hblank ih =>
      have hle := ih h
      simp at hle ⊢
      omega
  | case3 c rest =>
      rw [List.mem_singleton.mp h]
      simp
  | case4 c rest hblank hcolon ih =>
      have hle := ih h
      simp at hle ⊢
      omega
  | case5 token =>
      rw [List.mem_singleton.mp h]
      simp
  | case6 token c rest hblank ih =>
      rcases List.mem_cons.mp h with rfl | h
      · simp
      · have hle := ih h
        simp at hle ⊢
        omega
  | case7 token c rest hblank ih =>
      have hle := ih h
      simp at hle ⊢
      omega

theorem paramsFrom_self_iff {w : Bytes} : paramsFrom none w = [w] ↔ IsWord w := by
  constructor
  · intro h
    cases w with
    | nil => cases h
    | cons c rest =>
        have hblank : isBlank c = false := by
          rw [Bool.eq_false_iff]
          intro hblank
          rw [paramsFrom, if_pos hblank] at h
          have hle := length_le_of_mem_paramsFrom (h ▸ List.mem_singleton_self (c :: rest))
          simp only [Option.getD_none, List.length_nil, List.length_cons] at hle
          omega
        have hcolon : c ≠ colon := by
          rintro rfl
          rw [paramsFrom_trailing] at h
          have hlength := congrArg List.length (List.singleton_injective h)
          simp at hlength
        rw [paramsFrom, if_neg (by simp [hblank]), if_neg hcolon, paramsFrom_some] at h
        have hword : (word rest).1 = rest := by simpa using (List.cons.inj h).1
        refine ⟨List.cons_ne_nil c rest, fun d hd => ?_, by simpa using hcolon⟩
        rcases List.mem_cons.mp hd with rfl | hd
        · exact hblank
        · rw [← hword] at hd
          exact word_unblanked rest d hd
  · intro h
    have hdelimited : Delimited [] := fun c hc => by cases hc
    have hread := paramsFrom_word h hdelimited
    rwa [List.append_nil] at hread

/-! ## Event lines as the parser reads them -/

/-- The prefix and the verb are read back, and the rest is parameters. -/
theorem parse_eventLine {source verb : Bytes} (hsource : ∀ c ∈ source, isBlank c = false)
    (hverb : IsWord verb) (rest : Bytes) :
    parse (colon :: source ++ space :: verb ++ space :: rest) =
      ⟨source, verb, paramsFrom none rest⟩ := by
  have hline : colon :: source ++ space :: verb ++ space :: rest =
      colon :: source ++ space :: (verb ++ space :: rest) := by simp
  obtain ⟨c, more, rfl⟩ := List.exists_cons_of_ne_nil hverb.nonempty
  have hskip : skip (c :: more ++ space :: rest) = c :: more ++ space :: rest :=
    skip_of_head (hverb.unblanked c List.mem_cons_self)
  rw [hline, parse_prefixed_space hsource, hskip,
    word_delimited hverb.unblanked (delimited_space rest)]
  simp only [paramsFrom_none_space]

theorem decodes_iff {c : Client} (sound : c.Sound) {message : Message} {verb rest : Bytes}
    (hverb : IsWord verb) (command : message.command = verb) :
    Decodes c message (wireLine c.nickname verb rest) ↔
      paramsFrom none rest = eventParams c message := by
  have hsource : ∀ b ∈ c.nickname, isBlank b = false := by
    by_cases hne : c.nickname = []
    · simp [hne]
    · exact (isWord_nickname (sound.valid hne)).unblanked
  have hparse := parse_eventLine hsource hverb rest
  constructor
  · rintro ⟨body, hline, hbody⟩
    rw [← List.append_cancel_right hline, hparse, eventMessage] at hbody
    exact (Message.mk.inj hbody).2.2
  · intro h
    exact ⟨_, rfl, by rw [hparse, h, eventMessage, command]⟩

theorem paramsFrom_trailed {w : Bytes} (h : IsWord w) (rest : Bytes) :
    paramsFrom none (w ++ space :: colon :: rest) = [w, rest] := by
  rw [paramsFrom_word h (delimited_space _), paramsFrom_none_space, paramsFrom_trailing]

theorem paramsFrom_last {w : Bytes} (h : IsWord w) (rest : Bytes) :
    paramsFrom none (w ++ space :: rest) = w :: paramsFrom none rest := by
  rw [paramsFrom_word h (delimited_space _), paramsFrom_none_space]

/-! ## Accepted commands -/

section Line

variable {s : Machine} {i : Nat} {c : Client} {line : Bytes} {c' : Client}
  {channels : List Channel} {sends : List (Nat × Bytes)}

theorem isWord_command {command : String} (h : text command ∈ eventVerbs) : IsWord (text command) := by
  have hall : ∀ verb ∈ eventVerbs, verb ≠ [] ∧ verb.all (fun c => !isBlank c) = true ∧
      verb.head? ≠ some colon := by decide
  obtain ⟨nonempty, unblanked, uncoloned⟩ := hall _ h
  exact isWord_of_all nonempty unblanked uncoloned

theorem eventParams_join {message : Message} (command : message.command = text "JOIN") :
    eventParams c message = [message.param 0] := if_pos command

theorem eventParams_kick {message : Message} (command : message.command = text "KICK") :
    eventParams c message = [message.param 0, message.param 1,
      if message.params.length > 2 then message.param 2 else c.nickname] := by
  rw [eventParams, if_neg (by rw [command]; decide), if_pos command]

theorem eventParams_mode {message : Message} (command : message.command = text "MODE") :
    eventParams c message = message.param 0 :: modeParams message := by
  rw [eventParams, if_neg (by rw [command]; decide), if_neg (by rw [command]; decide),
    if_pos command]

theorem eventParams_pair {message : Message}
    (command : message.command ∈ [text "PRIVMSG", text "TOPIC", text "INVITE"]) :
    eventParams c message = [message.param 0, message.param 1] := by
  have hother : ∀ command ∈ [text "PRIVMSG", text "TOPIC", text "INVITE"],
      command ≠ text "JOIN" ∧ command ≠ text "KICK" ∧ command ≠ text "MODE" := by decide
  obtain ⟨hjoin, hkick, hmode⟩ := hother _ command
  rw [eventParams, if_neg hjoin, if_neg hkick, if_neg hmode]

theorem modeParams_single {message : Message} {mode : String} (h : message.param 1 = text mode)
    (single : text mode ∈ [text "+i", text "-i", text "+t", text "-t", text "-k", text "-l"]) :
    paramsFrom none (text mode) = modeParams message := by
  have hall : ∀ mode ∈ [text "+i", text "-i", text "+t", text "-t", text "-k", text "-l"],
      paramsFrom none mode = [mode] ∧ mode ∉ [text "+k", text "+l", text "+o", text "-o"] := by
    decide
  obtain ⟨hword, hnot⟩ := hall _ single
  rw [modeParams, h, if_neg (by simpa using hnot), hword]

/-- A mode with an argument is read back exactly when the argument is a word. -/
theorem modeParams_pair {message : Message} {mode : String} (h : message.param 1 = text mode)
    (pair : text mode ∈ [text "+k", text "+l", text "+o", text "-o"]) :
    paramsFrom none (text mode ++ space :: message.param 2) = modeParams message ↔
      IsWord (message.param 2) := by
  have hall : ∀ mode ∈ [text "+k", text "+l", text "+o", text "-o"],
      mode ≠ [] ∧ mode.all (fun c => !isBlank c) = true ∧ mode.head? ≠ some colon := by decide
  obtain ⟨nonempty, unblanked, uncoloned⟩ := hall _ pair
  rw [paramsFrom_last (isWord_of_all nonempty unblanked uncoloned), modeParams, h,
    if_pos (by simpa using pair), ← paramsFrom_self_iff]
  simp

theorem isWord_digits {w : Bytes} (nonempty : w ≠ []) (digits : w.all isDigit = true) : IsWord w := by
  have hdigit : ∀ c ∈ w, isDigit c = true := List.all_eq_true.mp digits
  refine ⟨nonempty, fun c hc => ?_, fun hhead => ?_⟩
  · rw [Bool.eq_false_iff]
    intro hblank
    have hseparator : c = space ∨ c = tab := by simpa [isBlank] using hblank
    rcases hseparator with rfl | rfl
    · exact absurd (hdigit _ hc) (by decide)
    · exact absurd (hdigit _ hc) (by decide)
  · exact absurd (hdigit _ (List.mem_of_head? hhead)) (by decide)

theorem ModeChange.read_iff {message : Message} {ch ch' : Channel} {change : Bytes}
    (changes : ModeChange message ch ch' change) :
    paramsFrom none change = modeParams message ↔
      (message.param 1 = text "+k" → IsWord (message.param 2)) := by
  have single : ∀ {mode : String}, message.param 1 = text mode →
      text mode ∈ [text "+i", text "-i", text "+t", text "-t", text "-k", text "-l"] →
      (paramsFrom none (text mode) = modeParams message ↔
        (message.param 1 = text "+k" → IsWord (message.param 2))) := by
    intro mode h hmode
    have hkey : text "+k" ∉ [text "+i", text "-i", text "+t", text "-t", text "-k", text "-l"] := by
      decide
    exact ⟨fun _ heq => absurd (h.symm.trans heq ▸ hmode) hkey, fun _ => modeParams_single h hmode⟩
  have echoed : ∀ {mode : String}, message.param 1 = text mode →
      text mode ∈ [text "+i", text "-i", text "+t", text "-t", text "-k", text "-l"] →
      (paramsFrom none (message.param 1) = modeParams message ↔
        (message.param 1 = text "+k" → IsWord (message.param 2))) := by
    intro mode h hmode
    have hread := single h hmode
    rwa [← h] at hread
  cases changes with
  | inviteOnly h => exact h.elim (fun h => echoed h (by decide)) fun h => echoed h (by decide)
  | changeTopic h => exact h.elim (fun h => echoed h (by decide)) fun h => echoed h (by decide)
  | noKey h => exact single h (by decide)
  | noLimit h => exact single h (by decide)
  | key h three =>
      have hpair := modeParams_pair h (by decide)
      rw [show text "+k" ++ space :: message.param 2 = text "+k " ++ message.param 2 from rfl] at hpair
      rw [hpair]
      exact ⟨fun hword _ => hword, fun hword => hword h⟩
  | limit h three digits =>
      have hpair := modeParams_pair h (by decide)
      rw [show text "+l" ++ space :: message.param 2 = text "+l " ++ message.param 2 from rfl] at hpair
      rw [hpair]
      exact ⟨fun hword _ => hword, fun _ => isWord_digits digits.1 digits.2⟩

theorem ModeChange.three {message : Message} {ch ch' : Channel} {change : Bytes}
    (changes : ModeChange message ch ch' change) (h : message.param 1 = text "+k") :
    3 ≤ message.params.length := by
  have other : ∀ mode ∈ [text "+i", text "-i", text "+t", text "-t", text "-k", text "+l", text "-l"],
      message.param 1 ≠ mode := by
    rw [h]
    decide
  cases changes with
  | key _ three => exact three
  | inviteOnly h' => exact h'.elim (absurd · (other _ (by decide))) (absurd · (other _ (by decide)))
  | changeTopic h' => exact h'.elim (absurd · (other _ (by decide))) (absurd · (other _ (by decide)))
  | noKey h' => exact absurd h' (other _ (by decide))
  | limit h' => exact absurd h' (other _ (by decide))
  | noLimit h' => exact absurd h' (other _ (by decide))

theorem ModeChange.two {message : Message} {ch ch' : Channel} {change : Bytes}
    (changes : ModeChange message ch ch' change) : 2 ≤ message.params.length := by
  cases changes with
  | inviteOnly h => exact h.elim (two_of_param · (by decide)) (two_of_param · (by decide))
  | changeTopic h => exact h.elim (two_of_param · (by decide)) (two_of_param · (by decide))
  | key h => exact two_of_param h (by decide)
  | noKey h => exact two_of_param h (by decide)
  | limit h => exact two_of_param h (by decide)
  | noLimit h => exact two_of_param h (by decide)

theorem isWord_member (invariant : Invariant s) {nick : Bytes} {target : Nat} {d : Client} {k : Nat}
    {ch : Channel} (targets : Targets s.toServer nick target d) (found : s.channels[k]? = some ch)
    (member : d.fd ∈ ch.memberFds) : IsWord nick := by
  have hd := List.mem_of_getElem? targets.found
  have hne := invariant.member_nickname (List.mem_of_getElem? found) hd member
  rw [← targets.nickname]
  exact isWord_nickname ((invariant.identities.sound d hd).valid hne)

/-- The event line of an accepted channel command decodes unless it sets such a key. -/
theorem Announces.decodes_iff {a : Announcement}
    (announces : Announces s.toServer c (parse line) channels a) (invariant : Invariant s)
    (sound : c.Sound) : Decodes c (parse line) a.line ↔ ¬ Garbles s.toServer c (parse line) := by
  have other : (parse line).command ≠ text "MODE" → Decodes c (parse line) a.line →
      (Decodes c (parse line) a.line ↔ ¬ Garbles s.toServer c (parse line)) := fun hne hdecodes =>
    ⟨fun _ h => hne h.command, fun _ => hdecodes⟩
  have granted : ∀ {mode : String}, (parse line).param 1 = text mode → text mode ≠ text "+k" →
      Decodes c (parse line) a.line →
      (Decodes c (parse line) a.line ↔ ¬ Garbles s.toServer c (parse line)) :=
    fun hmode hne hdecodes => ⟨fun _ h => hne (hmode.symm.trans h.mode), fun _ => hdecodes⟩
  -- the parameter that names the channel has another one behind it
  have named : ∀ {k : Nat} {ch : Channel} {command : String},
      Addresses s.toServer c (parse line) command k ch → 2 ≤ (parse line).params.length →
      IsWord ch.name := by
    intro k ch command at_ two
    rw [at_.name]
    exact isWord_param (by omega)
  have hjoin : IsWord (text "JOIN") := isWord_command (by decide)
  have hmode : IsWord (text "MODE") := isWord_command (by decide)
  cases announces with
  | create command registered valid fresh =>
      refine other (by rw [command]; decide) ?_
      rw [joinAnnouncement, joinMessage_eq, IrcServer.decodes_iff sound hjoin command,
        paramsFrom_trailing, eventParams_join command]
      rfl
  | join k ch at_ =>
      refine other (by rw [at_.command]; decide) ?_
      rw [joinAnnouncement, joinMessage_eq, IrcServer.decodes_iff sound hjoin at_.command,
        paramsFrom_trailing, eventParams_join at_.command, ← at_.name]
      rfl
  | privmsg k ch at_ two =>
      refine other (by rw [at_.command]; decide) ?_
      have hprivmsg : IsWord (text "PRIVMSG") := isWord_command (by decide)
      rw [privmsgMessage_eq, IrcServer.decodes_iff sound hprivmsg at_.command,
        paramsFrom_trailed (named at_ two), eventParams_pair (by rw [at_.command]; decide), at_.name]
  | topic k ch at_ two =>
      refine other (by rw [at_.command]; decide) ?_
      have htopic : IsWord (text "TOPIC") := isWord_command (by decide)
      rw [topicMessage_eq, IrcServer.decodes_iff sound htopic at_.command,
        paramsFrom_trailed (named at_ two), eventParams_pair (by rw [at_.command]; decide), at_.name]
  | kick k ch at_ two operator target d targets member =>
      refine other (by rw [at_.command]; decide) ?_
      have hkick : IsWord (text "KICK") := isWord_command (by decide)
      have hnick := isWord_member invariant targets at_.found member
      rw [kickMessage_eq, IrcServer.decodes_iff sound hkick at_.command,
        paramsFrom_last (named at_ two), paramsFrom_trailed hnick, eventParams_kick at_.command,
        at_.name]
  | mode k ch ch' change at_ operator changes =>
      rw [modeMessage_eq, IrcServer.decodes_iff sound hmode at_.command,
        paramsFrom_last (named at_ changes.two), eventParams_mode at_.command, at_.name,
        List.cons_inj_right, changes.read_iff]
      constructor
      · exact fun hread garbles => garbles.unreadable (hread garbles.mode)
      · intro hnot hkey
        by_contra hunreadable
        exact hnot ⟨at_.command, hkey, changes.three hkey,
          ⟨ch, List.mem_of_getElem? at_.found, at_.name, operator⟩, hunreadable⟩
  | grant k ch at_ operator plus three target d targets member =>
      refine granted plus (by decide) ?_
      have hnick := isWord_member invariant targets at_.found member
      rw [modeMessage_eq, IrcServer.decodes_iff sound hmode at_.command,
        paramsFrom_last (named at_ (by omega)), eventParams_mode at_.command, at_.name,
        List.cons_inj_right]
      exact (modeParams_pair plus (by decide)).mpr hnick
  | revoke k ch at_ operator minus three target d targets member =>
      refine granted minus (by decide) ?_
      have hnick := isWord_member invariant targets at_.found member
      rw [modeMessage_eq, IrcServer.decodes_iff sound hmode at_.command,
        paramsFrom_last (named at_ (by omega)), eventParams_mode at_.command, at_.name,
        List.cons_inj_right]
      exact (modeParams_pair minus (by decide)).mpr hnick

/-! ## Dispatched lines -/

/-- No reply has the verb of an event line: it starts with a digit, a colon, or the letter of a
notice. -/
theorem eventVerbs_head {verb : Bytes} (h : verb ∈ eventVerbs) :
    verb.head? ∉ [some 48, some 51, some 52, some 78, some colon] := by
  revert verb
  decide

theorem not_eventVerb {verb : Bytes} (first : UInt8) (hfirst : verb.head? = some first)
    (h : some first ∈ [some 48, some 51, some 52, some 78, some colon]) : verb ∉ eventVerbs :=
  fun hmem => eventVerbs_head hmem (hfirst ▸ h)

theorem welcome_not_eventVerb (c : Client) : verb (replyCmd 1 c []) ∉ eventVerbs := by
  rw [verb_welcome]
  decide

theorem Dispatched.eventLines (effect : Dispatched s.toServer i c (parse line) c' channels sends)
    (sound : c.Sound) (call : Nat × Bytes) (hcall : call ∈ sends)
    (hverb : verb call.2 ∈ eventVerbs) :
    Decodes c (parse line) call.2 ∨
      ∃ channels a, Announces s.toServer c (parse line) channels a ∧ call.2 = a.line := by
  cases effect with
  | silent => cases hcall
  | passed => cases hcall
  | refused m refusal =>
      rw [List.mem_singleton.mp hcall] at hverb
      rcases refusal.errorVerb.head with h | h
      · exact absurd hverb (not_eventVerb 52 h (by decide))
      · exact absurd hverb (not_eventVerb 78 h (by decide))
  | answered k ch =>
      rw [List.mem_singleton.mp hcall] at hverb
      rcases verb_topicReply c ch with h | h
      · exact absurd (h ▸ hverb) (by decide)
      · exact absurd (h ▸ hverb) (by decide)
  | nick command pass valid =>
      obtain ⟨m, hm, rfl⟩ := List.mem_map.mp hcall
      unfold nickReplies at hm
      split at hm
      · have hecho : verb m = colon :: (parse line).param 0 := by
          rw [List.mem_singleton.mp hm]
          exact verb_renameReply (checkNickValid_bytes valid).2.1
        exact absurd hverb (not_eventVerb colon (by rw [hecho]; rfl) (by decide))
      · split at hm
        · rw [List.mem_singleton.mp hm] at hverb
          exact absurd hverb (welcome_not_eventVerb _)
        · cases hm
  | user =>
      obtain ⟨m, hm, rfl⟩ := List.mem_map.mp hcall
      unfold userReplies at hm
      split at hm
      · rw [List.mem_singleton.mp hm] at hverb
        exact absurd hverb (welcome_not_eventVerb _)
      · cases hm
  | whispered command registered two body nick target d targets =>
      refine Or.inl ?_
      have hword : IsWord ((parse line).param 0) := isWord_param (by omega)
      rw [List.mem_singleton.mp hcall, privmsgMessage_eq,
        decodes_iff sound (isWord_command (by decide)) command, paramsFrom_trailed hword,
        eventParams_pair (by rw [command]; decide)]
  | invited command registered two k ch found name operator target d targets =>
      simp only [List.mem_cons, List.not_mem_nil, or_false] at hcall
      rcases hcall with rfl | rfl
      · refine Or.inl ?_
        have hword : IsWord ((parse line).param 0) := isWord_param (by omega)
        rw [inviteMessage_eq, decodes_iff sound (isWord_command (by decide)) command,
          paramsFrom_trailed hword, eventParams_pair (by rw [command]; decide), name]
      · rw [verb_replyCmd c (by simp [replyCmd, crlf])] at hverb
        exact absurd hverb (by decide)
  | announced channels a announces =>
      rcases List.mem_append.mp hcall with hcall | hcall
      · obtain ⟨j, _, rfl⟩ := List.mem_map.mp hcall
        exact Or.inr ⟨channels, a, announces, rfl⟩
      · obtain ⟨reply, hreply, rfl⟩ := List.mem_map.mp hcall
        rcases announces.replies with hnone | ⟨ch, _, _, htwo⟩
        · rw [hnone] at hreply
          cases hreply
        · rw [htwo] at hreply
          simp only [List.mem_cons, List.not_mem_nil, or_false] at hreply
          rcases hreply with rfl | rfl
          · rw [verb_namesReply] at hverb
            exact absurd hverb (by decide)
          · rw [verb_endOfNames] at hverb
            exact absurd hverb (by decide)

theorem Garbles.announces (garbles : Garbles s.toServer c (parse line)) (invariant : Invariant s)
    (hc : c ∈ s.clients) : ∃ channels a, Announces s.toServer c (parse line) channels a ∧
      c.fd ∈ a.recipients := by
  obtain ⟨ch, hch, name, operator⟩ := garbles.operator
  obtain ⟨k, hk⟩ := List.mem_iff_getElem?.mp hch
  have member := (invariant.table.consistent ch hch).operators_members c.fd operator
  obtain ⟨x, hx, hfd, registered⟩ := invariant.identities.members ch hch c.fd member
  obtain rfl := invariant.table.same_client hx hc hfd
  have at_ : Addresses s.toServer x (parse line) "MODE" k ch :=
    ⟨garbles.command, registered, hk, name⟩
  exact ⟨_, _, .mode k ch _ _ at_ operator (.key garbles.mode garbles.three), member⟩

end Line

/-! ## Steps -/

/-- The event lines of a line decode exactly if it does not set such a key. -/
theorem decoded_iff_not_garbles {s s' : Machine} (h : Reachable s) {i : Nat} {c : Client}
    (hc : s.clients[i]? = some c) {line : Bytes} (hstep : step s (.command i line) = some s') :
    Decoded s s' c (parse line) ↔ ¬ Garbles s.toServer c (parse line) := by
  have invariant := h.invariant
  have hmem := List.mem_of_getElem? hc
  have sound := invariant.identities.sound c hmem
  constructor
  · intro decoded garbles
    obtain ⟨channels, a, announces, recipient⟩ := garbles.announces invariant hmem
    have hqueued := (announces.delivery invariant hc hstep).2.queued c hmem
    have hline : a.line ∈ messagesTo c.fd (added s s') := by simp [hqueued, recipient]
    have hverb := (announces.verb_mem (parse_clean (step_command hc hstep).1) sound).1
    have hdecodes := decoded c.fd a.line (mem_messagesTo.mp hline) (List.mem_append_left _ hverb)
    exact (announces.decodes_iff invariant sound).mp hdecodes garbles
  · intro hnot fd m hm hverb
    cases step_stepped invariant.table hstep with
    | dispatched _ x hx _ clean c' channels sends effect =>
        obtain rfl := Option.some.inj (hc.symm.trans hx)
        rw [added_eq (dispatched_history invariant hc clean effect)] at hm
        obtain ⟨call, hcall, heq⟩ := List.mem_map.mp (List.mem_of_ne_of_mem Entry.noConfusion hm)
        obtain ⟨_, rfl⟩ := Entry.queued.inj heq
        rcases effect.eventLines sound call hcall hverb with hdecodes | ⟨_, a, announces, hline⟩
        · exact hdecodes
        · rw [hline]
          exact (announces.decodes_iff invariant sound).mpr hnot

def keyed : Bytes := text "MODE #42 +k :a b"

theorem decoded_iff_not_garbles_sample :
    ∃ s s' c, Reachable s ∧ s.clients[0]? = some c ∧ step s (.command 0 keyed) = some s' ∧
      (Decoded s s' c (parse keyed) ↔ ¬ Garbles s.toServer c (parse keyed)) := by
  have hstep := step_stateAfter sampleRun (.command 0 keyed) (by decide)
  have hc : ((stateAfter sampleRun).clients[0]?).isSome = true := by decide
  obtain ⟨c, hc⟩ := Option.isSome_iff_exists.mp hc
  exact ⟨_, _, c, stateAfter_reachable sampleRun, hc, hstep,
    decoded_iff_not_garbles (stateAfter_reachable sampleRun) hc hstep⟩

/-- The key of two words is read back as two parameters. -/
theorem not_decoded_reachable :
    ¬ ∀ s, Reachable s → ∀ i c line s', s.clients[i]? = some c →
      step s (.command i line) = some s' → Decoded s s' c (parse line) := by
  intro h
  have hstep := step_stateAfter sampleRun (.command 0 keyed) (by decide)
  have hc : ((stateAfter sampleRun).clients[0]?).isSome = true := by decide
  obtain ⟨c, hc⟩ := Option.isSome_iff_exists.mp hc
  have hqueued : Entry.queued 5 (text ":kaw MODE #42 +k a b" ++ crlf) ∈
      added (stateAfter sampleRun) (stateAfter (sampleRun ++ [.command 0 keyed])) := by decide
  obtain ⟨body, hbody, hparse⟩ := h _ (stateAfter_reachable sampleRun) 0 c keyed _ hc hstep 5 _
    hqueued (by decide)
  rw [← List.append_cancel_right hbody] at hparse
  have hcommand : (parse keyed).command = text "MODE" := by decide
  have hparams : (parse (text ":kaw MODE #42 +k a b")).params =
      (parse keyed).param 0 :: modeParams (parse keyed) := by
    rw [hparse]
    exact eventParams_mode (c := c) hcommand
  exact absurd hparams (by decide)

end IrcServer
