import IrcServer.Library.Framing
import IrcServer.Spec.Effect

/-! # The shape of outgoing messages

Every message but one has the shape `:<source> <verb> <rest>` and a line terminator.
The verb, the second word, is the command of an event line or the code of a numeric
reply, and no handler lets a line feed into the rest.
-/

namespace IrcServer

open Framing

/-- One line: it ends in CR LF and has no other line feed. -/
def Framed (m : Bytes) : Prop := ∃ body, m = body ++ crlf ∧ LF ∉ body

/-- `":<source> <verb> <rest>"` and the line terminator. -/
def wireLine (source verb rest : Bytes) : Bytes :=
  colon :: source ++ space :: verb ++ space :: rest ++ crlf

def verb (m : Bytes) : Bytes := (fields space m).getD 1 []

def target (m : Bytes) : Bytes := (fields space m).getD 2 []

def codeText (code : Nat) : Bytes :=
  [UInt8.ofNat (48 + code / 100), UInt8.ofNat (48 + code / 10 % 10), UInt8.ofNat (48 + code % 10)]

theorem codeText_clean {code : Nat} (h : code < 1000) :
    LF ∉ codeText code ∧ space ∉ codeText code := by
  have digit : ∀ d < 10, UInt8.ofNat (48 + d) ≠ LF ∧ UInt8.ofNat (48 + d) ≠ space := by decide
  have h₁ := digit (code / 100) (by omega)
  have h₂ := digit (code / 10 % 10) (by omega)
  have h₃ := digit (code % 10) (by omega)
  simp only [codeText, List.mem_cons, List.not_mem_nil, or_false, not_or]
  exact ⟨⟨h₁.1.symm, h₂.1.symm, h₃.1.symm⟩, ⟨h₁.2.symm, h₂.2.symm, h₃.2.symm⟩⟩

section WireLine

variable {source word rest : Bytes}

theorem wireLine_ne_nil : wireLine source word rest ≠ [] := by
  simp [wireLine]

theorem wireLine_framed (hsource : LF ∉ source) (hword : LF ∉ word) (hrest : LF ∉ rest) :
    Framed (wireLine source word rest) := by
  refine ⟨colon :: source ++ space :: word ++ space :: rest, rfl, ?_⟩
  have hcolon : LF ≠ colon := by decide
  have hspace : LF ≠ space := by decide
  simp [hsource, hword, hrest, hcolon, hspace]

theorem fields_wireLine (hsource : space ∉ source) (hword : space ∉ word) (rest : Bytes) :
    fields space (wireLine source word rest) =
      (colon :: source) :: word :: fields space (rest ++ crlf) := by
  have hfirst : space ∉ colon :: source :=
    List.not_mem_cons_of_ne_of_not_mem (by decide) hsource
  have hshape : wireLine source word rest =
      (colon :: source) ++ space :: (word ++ space :: (rest ++ crlf)) := by
    simp [wireLine]
  rw [hshape, fields_segment hfirst, fields_segment hword]

theorem verb_wireLine (hsource : space ∉ source) (hword : space ∉ word) :
    verb (wireLine source word rest) = word := by
  rw [verb, fields_wireLine hsource hword]
  rfl

/-- The third word, when a space follows it. -/
theorem target_wireLine (hsource : space ∉ source) (hword : space ∉ word) {name : Bytes}
    (hname : space ∉ name) : target (wireLine source word (name ++ space :: rest)) = name := by
  have hshape : name ++ space :: rest ++ crlf = name ++ space :: (rest ++ crlf) := by simp
  rw [target, fields_wireLine hsource hword, hshape, fields_segment hname]
  rfl

theorem target_wireLine_last (hsource : space ∉ source) (hword : space ∉ word)
    (hrest : space ∉ rest) : target (wireLine source word rest) = rest ++ crlf := by
  have hlast : space ∉ rest ++ crlf := by
    simp [hrest, show space ∉ crlf from by decide]
  rw [target, fields_wireLine hsource hword, fields_of_not_mem hlast]
  rfl

end WireLine

/-! ## Event lines -/

section Messages

variable (c : Client) (name nick body : Bytes)

theorem joinMessage_eq :
    joinMessage c name = wireLine c.nickname (text "JOIN") (colon :: name) := by
  simp [joinMessage, wireLine, show text ":" = [colon] from rfl,
    show text " JOIN :" = space :: (text "JOIN" ++ [space, colon]) from rfl]

theorem privmsgMessage_eq :
    privmsgMessage c name body =
      wireLine c.nickname (text "PRIVMSG") (name ++ space :: colon :: body) := by
  simp [privmsgMessage, wireLine, show text ":" = [colon] from rfl,
    show text " PRIVMSG " = space :: (text "PRIVMSG" ++ [space]) from rfl,
    show text " :" = [space, colon] from rfl]

theorem topicMessage_eq :
    topicMessage c name body =
      wireLine c.nickname (text "TOPIC") (name ++ space :: colon :: body) := by
  simp [topicMessage, wireLine, show text ":" = [colon] from rfl,
    show text " TOPIC " = space :: (text "TOPIC" ++ [space]) from rfl,
    show text " :" = [space, colon] from rfl]

theorem kickMessage_eq :
    kickMessage c name nick body =
      wireLine c.nickname (text "KICK") (name ++ space :: (nick ++ space :: colon :: body)) := by
  simp [kickMessage, wireLine, show text ":" = [colon] from rfl,
    show text " KICK " = space :: (text "KICK" ++ [space]) from rfl,
    show text " " = [space] from rfl, show text " :" = [space, colon] from rfl]

theorem modeMessage_eq :
    modeMessage c name body = wireLine c.nickname (text "MODE") (name ++ space :: body) := by
  simp [modeMessage, wireLine, show text ":" = [colon] from rfl,
    show text " MODE " = space :: (text "MODE" ++ [space]) from rfl,
    show text " " = [space] from rfl]

theorem inviteMessage_eq :
    inviteMessage c nick name =
      wireLine c.nickname (text "INVITE") (nick ++ space :: colon :: name) := by
  simp [inviteMessage, wireLine, show text ":" = [colon] from rfl,
    show text " INVITE " = space :: (text "INVITE" ++ [space]) from rfl,
    show text " :" = [space, colon] from rfl]

/-! ## Replies of the server -/

theorem kickNotice_eq :
    kickNotice c = wireLine (text "ircserv") (text "NOTICE")
      (c.nickname ++ text " :You cannot kick the last channel operator") := by
  simp [kickNotice, wireLine,
    show text ":ircserv NOTICE " =
      colon :: (text "ircserv" ++ space :: (text "NOTICE" ++ [space])) from rfl]

theorem modeNotice_eq :
    modeNotice c = wireLine (text "ircserv") (text "NOTICE")
      (c.nickname ++ text " :You cannot remove the last channel operator") := by
  simp [modeNotice, wireLine,
    show text ":ircserv NOTICE " =
      colon :: (text "ircserv" ++ space :: (text "NOTICE" ++ [space])) from rfl]

theorem namesReply_eq (ch : Channel) (clients : List Client) :
    namesReply c ch clients = wireLine (text "ircserv") (codeText 353)
      (c.nickname ++ text " = " ++ ch.name ++ text " :" ++ joinNames ch clients) := by
  simp [namesReply, wireLine,
    show text ":ircserv 353 " =
      colon :: (text "ircserv" ++ space :: (codeText 353 ++ [space])) from rfl]

theorem endOfNames_eq (ch : Channel) :
    endOfNames c ch = wireLine (text "ircserv") (codeText 366)
      (c.nickname ++ text " " ++ ch.name ++ text " :End of /NAMES list") := by
  simp [endOfNames, wireLine,
    show text ":ircserv 366 " =
      colon :: (text "ircserv" ++ space :: (codeText 366 ++ [space])) from rfl]

theorem replyHead_eq (code : String) (tail : Bytes) :
    replyHead code c ++ tail ++ crlf =
      wireLine (text "ircserv") (text code) (c.nickname ++ tail) := by
  simp [replyHead, wireLine,
    show text ":ircserv " = colon :: (text "ircserv" ++ [space]) from rfl,
    show text " " = [space] from rfl]

theorem numeric_cmd (code : String) (cmd tail : Bytes) (number : Nat)
    (hcode : text code = codeText number) (hclean : LF ∉ text " " ++ tail)
    (hnumber : number < 1000) :
    number < 1000 ∧ ∃ rest, replyHead code c ++ text " " ++ cmd ++ tail ++ crlf =
        wireLine (text "ircserv") (codeText number) rest ∧
      (LF ∉ c.nickname → LF ∉ cmd → LF ∉ rest) := by
  refine ⟨hnumber, c.nickname ++ (text " " ++ cmd ++ tail), ?_, ?_⟩
  · rw [← hcode, ← replyHead_eq]
    simp only [List.append_assoc]
  · intro hnick hcmd
    simp only [List.mem_append, not_or] at hclean ⊢
    exact ⟨hnick, ⟨hclean.1, hcmd⟩, hclean.2⟩

theorem numeric_bare (code : String) (tail : Bytes) (number : Nat)
    (hcode : text code = codeText number) (hclean : LF ∉ tail) (hnumber : number < 1000)
    (cmd : Bytes) :
    number < 1000 ∧ ∃ rest, replyHead code c ++ tail ++ crlf =
        wireLine (text "ircserv") (codeText number) rest ∧
      (LF ∉ c.nickname → LF ∉ cmd → LF ∉ rest) := by
  refine ⟨hnumber, c.nickname ++ tail, ?_, fun hnick _ => ?_⟩
  · rw [← hcode, replyHead_eq]
  · exact fun h => (List.mem_append.mp h).elim hnick hclean

theorem replyCmd_eq (cmd : Bytes) {code : Nat} (known : replyCmd code c cmd ≠ []) :
    code < 1000 ∧ ∃ rest, replyCmd code c cmd = wireLine (text "ircserv") (codeText code) rest ∧
      (LF ∉ c.nickname → LF ∉ cmd → LF ∉ rest) := by
  unfold replyCmd at known ⊢
  split at known
  case h_1 =>
    refine ⟨by decide,
      c.nickname ++ (text " :Welcome to the Internet Relay Network " ++ c.nickname),
      ?_, fun hnick _ => ?_⟩
    · rw [show codeText 1 = text "001" from rfl, ← replyHead_eq]
      simp only [List.append_assoc]
    · have hclean : LF ∉ text " :Welcome to the Internet Relay Network " := by decide
      simp [hnick, hclean]
  case h_29 => exact absurd rfl known
  case h_12 | h_18 | h_19 | h_20 | h_22 | h_23 =>
    exact numeric_bare c _ _ _ rfl (by decide) (by decide) cmd
  all_goals exact numeric_cmd c _ cmd _ _ rfl (by decide) (by decide)

def eventWords : List Bytes :=
  [text "JOIN", text "PRIVMSG", text "TOPIC", text "KICK", text "MODE"]

/-! ## Verbs -/

theorem verb_replyCmd {cmd : Bytes} {code : Nat} (known : replyCmd code c cmd ≠ []) :
    verb (replyCmd code c cmd) = codeText code := by
  obtain ⟨hcode, rest, heq, _⟩ := replyCmd_eq c cmd known
  rw [heq, verb_wireLine (by decide) (codeText_clean hcode).2]

theorem verb_kickNotice : verb (kickNotice c) = text "NOTICE" := by
  rw [kickNotice_eq, verb_wireLine (by decide) (by decide)]

theorem verb_modeNotice : verb (modeNotice c) = text "NOTICE" := by
  rw [modeNotice_eq, verb_wireLine (by decide) (by decide)]

theorem verb_namesReply (ch : Channel) (clients : List Client) :
    verb (namesReply c ch clients) = codeText 353 := by
  rw [namesReply_eq, verb_wireLine (by decide) (by decide)]

theorem verb_endOfNames (ch : Channel) : verb (endOfNames c ch) = codeText 366 := by
  rw [endOfNames_eq, verb_wireLine (by decide) (by decide)]

end Messages

/-! ## Announcements -/

theorem Message.Clean.of_append {message : Message} (clean : message.Clean) (k : Nat)
    {literal : Bytes} (h : LF ∉ literal) : LF ∉ literal ++ message.param k := by
  simp [h, clean.param k]

theorem ModeChange.clean {message : Message} {ch ch' : Channel} {change : Bytes}
    (changes : ModeChange message ch ch' change) (clean : message.Clean) : LF ∉ change := by
  cases changes with
  | inviteOnly => exact clean.param 1
  | changeTopic => exact clean.param 1
  | key => exact clean.of_append 2 (by decide)
  | noKey => decide
  | limit => exact clean.of_append 2 (by decide)
  | noLimit => decide

/-- An event line names its channel in the third word, and holds no line feed. -/
theorem Announces.shape {s : Server} {c : Client} {message : Message} {channels : List Channel}
    {a : Announcement} (announces : Announces s c message channels a) (clean : message.Clean)
    (hnick : LF ∉ c.nickname) :
    ∃ word ∈ eventWords, ∃ rest, a.line = wireLine c.nickname word rest ∧ LF ∉ rest ∧
      (rest = colon :: a.channel ∨ ∃ more, rest = a.channel ++ space :: more) := by
  have hcolon : LF ≠ colon := by decide
  have hspace : LF ≠ space := by decide
  have h₀ := clean.param 0
  have h₁ := clean.param 1
  cases announces with
  | create =>
      exact ⟨_, by decide, _, joinMessage_eq c _,
        List.not_mem_cons_of_ne_of_not_mem hcolon h₀, .inl rfl⟩
  | join k ch at_ =>
      have hname : LF ∉ (ch.joined c.fd).name := at_.name ▸ h₀
      exact ⟨_, by decide, _, joinMessage_eq c _,
        List.not_mem_cons_of_ne_of_not_mem hcolon hname, .inl rfl⟩
  | privmsg k ch at_ =>
      rw [← at_.name] at h₀
      exact ⟨_, by decide, _, privmsgMessage_eq c _ _, by simp [h₀, h₁, hcolon, hspace],
        .inr ⟨_, rfl⟩⟩
  | topic k ch at_ =>
      rw [← at_.name] at h₀
      exact ⟨_, by decide, _, topicMessage_eq c _ _, by simp [h₀, h₁, hcolon, hspace],
        .inr ⟨_, rfl⟩⟩
  | kick k ch at_ =>
      rw [← at_.name] at h₀
      refine ⟨_, by decide, _, kickMessage_eq c _ _ _, ?_, .inr ⟨_, rfl⟩⟩
      have hreason : LF ∉ if message.params.length > 2 then message.param 2 else c.nickname := by
        split
        · exact clean.param 2
        · exact hnick
      simp [h₀, h₁, hcolon, hspace, hreason]
  | mode k ch ch' change at_ operator changes =>
      rw [← at_.name] at h₀
      exact ⟨_, by decide, _, modeMessage_eq c _ _, by simp [h₀, hspace, changes.clean clean],
        .inr ⟨_, rfl⟩⟩
  | grant k ch at_ =>
      rw [← at_.name] at h₀
      exact ⟨_, by decide, _, modeMessage_eq c _ _,
        by simp [h₀, hspace, clean.param 2, show LF ∉ text "+o" from by decide,
          show LF ∉ text " " from by decide], .inr ⟨_, rfl⟩⟩
  | revoke k ch at_ =>
      rw [← at_.name] at h₀
      exact ⟨_, by decide, _, modeMessage_eq c _ _,
        by simp [h₀, hspace, clean.param 2, show LF ∉ text "-o" from by decide,
          show LF ∉ text " " from by decide], .inr ⟨_, rfl⟩⟩

/-- The further replies of an announcement are the two that end a JOIN. -/
theorem Announces.replies {s : Server} {c : Client} {message : Message} {channels : List Channel}
    {a : Announcement} (announces : Announces s c message channels a) :
    a.replies = [] ∨ ∃ ch, ch.name = a.channel ∧ ch.name = message.param 0 ∧
      a.replies = [namesReply c ch s.clients, endOfNames c ch] := by
  cases announces with
  | create => exact Or.inr ⟨_, rfl, rfl, rfl⟩
  | join k ch at_ => exact Or.inr ⟨_, rfl, at_.name, rfl⟩
  | _ => exact Or.inl rfl

end IrcServer
