import IrcServer.Proof.Outgoing

/-! # Verbs

The second word of a message tells the kinds of messages apart: a refusal has an
error code or is a notice, the completion of a registration has the code `001`, and
everything else a dispatched line queues has one of a few other verbs.
-/

namespace IrcServer

open Machine

def ErrorVerb (word : Bytes) : Prop :=
  word = text "NOTICE" ∨ ∃ code, (400 ≤ code ∧ code < 500) ∧ word = codeText code

/-- The verbs of what concerns no channel event. The echo of a NICK has a nickname behind a colon
in that place. -/
def ReplyVerb (word : Bytes) : Prop :=
  word = text "INVITE" ∨ word.head? = some colon ∨
    word ∈ [codeText 331, codeText 332, codeText 341]

def PlainVerb (word : Bytes) : Prop :=
  word ∈ eventWords ∨ word = codeText 353 ∨ word = codeText 366 ∨ ReplyVerb word

theorem ErrorVerb.head {word : Bytes} (h : ErrorVerb word) :
    word.head? = some 52 ∨ word.head? = some 78 := by
  rcases h with rfl | ⟨code, hcode, rfl⟩
  · exact Or.inr rfl
  · have hdigit : code / 100 = 4 := by omega
    exact Or.inl (by simp [codeText, hdigit])

theorem ErrorVerb.ne_of_not {word other : Bytes} (h : ErrorVerb word)
    (hother : other.head? ≠ some 52 ∧ other.head? ≠ some 78) : word ≠ other := by
  rintro rfl
  exact h.head.elim hother.1 hother.2

theorem PlainVerb.head {word : Bytes} (h : PlainVerb word) :
    word.head? ≠ some 52 ∧ word.head? ≠ some 78 ∧ word.head? ≠ some 48 := by
  have literal : ∀ word ∈ eventWords ++ [codeText 353, codeText 366, text "INVITE", codeText 331,
      codeText 332, codeText 341],
      word.head? ≠ some 52 ∧ word.head? ≠ some 78 ∧ word.head? ≠ some 48 := by decide
  rcases h with h | rfl | rfl | rfl | h | h
  · exact literal word (List.mem_append_left _ h)
  · exact literal _ (by decide)
  · exact literal _ (by decide)
  · exact literal _ (by decide)
  · rw [h]
    decide
  · refine literal word (List.mem_append_right _ ?_)
    simp only [List.mem_cons, List.not_mem_nil, or_false] at h ⊢
    tauto

theorem eventWords_head {word : Bytes} (h : word ∈ eventWords) :
    word.head? ≠ some colon ∧ word.head? ≠ some 51 ∧ word ≠ text "INVITE" := by
  revert word
  decide

theorem ReplyVerb.not_event {word : Bytes} (h : ReplyVerb word) : word ∉ eventWords := by
  intro hmem
  obtain ⟨hcolon, hdigit, hinvite⟩ := eventWords_head hmem
  rcases h with h | h | h
  · exact hinvite h
  · exact hcolon h
  · simp only [List.mem_cons, List.not_mem_nil, or_false] at h
    rcases h with rfl | rfl | rfl
    · exact hdigit rfl
    · exact hdigit rfl
    · exact hdigit rfl

theorem ErrorVerb.not_event {word : Bytes} (h : ErrorVerb word) : word ∉ eventWords := fun hmem =>
  h.head.elim (PlainVerb.head (.inl hmem)).1 (PlainVerb.head (.inl hmem)).2.1

theorem PlainVerb.ne_welcome {word : Bytes} (h : PlainVerb word) : word ≠ codeText 1 := by
  rintro rfl
  exact h.head.2.2 rfl

theorem PlainVerb.not_error {word : Bytes} (h : PlainVerb word) : ¬ ErrorVerb word :=
  fun herror => herror.ne_of_not ⟨h.head.1, h.head.2.1⟩ rfl

theorem errorVerb_replyCmd {c : Client} {code : Nat} {cmd : Bytes} (error : 400 ≤ code ∧ code < 500)
    (known : replyCmd code c cmd ≠ []) : ErrorVerb (verb (replyCmd code c cmd)) :=
  Or.inr ⟨code, error, verb_replyCmd c known⟩

theorem Refusal.errorVerb {c : Client} {m : Bytes} (refusal : Refusal c m) : ErrorVerb (verb m) := by
  cases refusal with
  | numeric code cmd error known clean => exact errorVerb_replyCmd error known
  | lastKick => exact Or.inl (verb_kickNotice c)
  | lastMode => exact Or.inl (verb_modeNotice c)

/-- The echo of a NICK has no verb: its second word is the nickname. -/
theorem verb_renameReply {nick : Bytes} (hspace : space ∉ nick) :
    verb (renameReply nick) = colon :: nick := by
  have hshape : renameReply nick = text "NICK" ++ space :: (colon :: nick) := rfl
  have hnick : space ∉ text "NICK" := by decide
  have hlast : space ∉ colon :: nick := List.not_mem_cons_of_ne_of_not_mem (by decide) hspace
  rw [verb, hshape, Framing.fields_segment hnick, Framing.fields_of_not_mem hlast]
  rfl

theorem Announces.verb_mem {s : Server} {c : Client} {message : Message} {channels : List Channel}
    {a : Announcement} (announces : Announces s c message channels a) (clean : message.Clean)
    (sound : c.Sound) : verb a.line ∈ eventWords ∧
      ∀ reply ∈ a.replies, verb reply = codeText 353 ∨
        verb reply = codeText 366 := by
  obtain ⟨hlf, hspace⟩ := sound.nickname_bytes
  constructor
  · obtain ⟨word, hword, rest, hline, _⟩ := announces.shape clean hlf
    have hwords : ∀ word ∈ eventWords, space ∉ word := by decide
    rwa [hline, verb_wireLine hspace (hwords word hword)]
  · intro reply hreply
    rcases announces.replies with hnone | ⟨ch, _, _, htwo⟩
    · rw [hnone] at hreply
      cases hreply
    · rw [htwo] at hreply
      simp only [List.mem_cons, List.not_mem_nil, or_false] at hreply
      rcases hreply with rfl | rfl
      · exact Or.inl (verb_namesReply c ch s.clients)
      · exact Or.inr (verb_endOfNames c ch)

theorem verb_topicReply (c : Client) (ch : Channel) :
    verb (topicReply c ch) = codeText 331 ∨ verb (topicReply c ch) = codeText 332 := by
  unfold topicReply
  split
  · exact Or.inl (verb_replyCmd c (by simp [replyCmd, crlf]))
  · refine Or.inr ?_
    have hshape : text ":ircserv 332 " ++ c.nickname ++ text " " ++ ch.name ++ text " :" ++
        ch.topic ++ crlf = wireLine (text "ircserv") (codeText 332)
          (c.nickname ++ text " " ++ ch.name ++ text " :" ++ ch.topic) := by
      simp [wireLine, show text ":ircserv 332 " =
        colon :: (text "ircserv" ++ space :: (codeText 332 ++ [space])) from rfl]
    rw [hshape, verb_wireLine (by decide) (by decide)]

theorem verb_welcome (c : Client) : verb (replyCmd 1 c []) = codeText 1 :=
  verb_replyCmd c (by simp [replyCmd, crlf])

inductive Dispatched.Kind (s : Server) (i : Nat) (c : Client) (message : Message) :
    Client → List Channel → List (Nat × Bytes) → Prop
  | refused (m : Bytes) (refusal : Refusal c m) : Kind s i c message c s.channels [(i, m)]
  | registers (c' : Client) (before : c.registered = false) (after : c'.registered = true)
      (m : Bytes) (welcome : verb m = codeText 1) : Kind s i c message c' s.channels [(i, m)]
  | replies (c' : Client) (channels : List Channel) (sends : List (Nat × Bytes))
      (same : c'.registered = c.registered)
      (verbs : ∀ call ∈ sends, ReplyVerb (verb call.2)) : Kind s i c message c' channels sends
  | whispers (target : Nat) (d : Client) (targets : Targets s (message.param 0) target d)
      (nick : (message.param 0).head? ≠ some hash) :
      Kind s i c message c s.channels
        [(target, privmsgMessage c (message.param 0) (message.param 1))]
  | announces (channels : List Channel) (a : Announcement)
      (announces : Announces s c message channels a) :
      Kind s i c message c channels (a.sends s.clients i)

section Line

variable {s : Server} {i : Nat} {c : Client} {message : Message} {c' : Client}
  {channels : List Channel} {sends : List (Nat × Bytes)}

theorem Dispatched.kind (effect : Dispatched s i c message c' channels sends) (sound : c.Sound) :
    Kind s i c message c' channels sends := by
  have one : ∀ {j : Nat} {m : Bytes}, ReplyVerb (verb m) →
      ∀ call ∈ [(j, m)], ReplyVerb (verb call.2) := by
    intro j m hm call hcall
    rw [List.mem_singleton.mp hcall]
    exact hm
  cases effect with
  | refused m refusal => exact .refused m refusal
  | silent => exact .replies _ _ _ rfl (by simp)
  | passed => exact .replies _ _ _ rfl (by simp)
  | answered k ch =>
      refine .replies _ _ _ rfl (one (.inr (.inr ?_)))
      rcases verb_topicReply c ch with h | h
      · rw [h]
        decide
      · rw [h]
        decide
  | nick command pass valid =>
      have hecho : ReplyVerb (verb (renameReply (message.param 0))) := by
        rw [verb_renameReply (checkNickValid_bytes valid).2.1]
        exact .inr (.inl rfl)
      cases hreg : c.registered with
      | true =>
          have hsends : nickReplies c (message.param 0) = [renameReply (message.param 0)] :=
            if_pos hreg
          rw [hsends]
          exact .replies _ _ _ (by simp [Client.renamed, hreg]) (one hecho)
      | false =>
          cases huser : c.userRecived with
          | true =>
              have hsends : nickReplies c (message.param 0) =
                  [replyCmd 1 (c.renamed (message.param 0)) []] := by
                simp [nickReplies, hreg, huser]
              rw [hsends]
              exact .registers _ hreg (by simp [Client.renamed, huser]) _ (verb_welcome _)
          | false =>
              have hsends : nickReplies c (message.param 0) = [] := by
                simp [nickReplies, hreg, huser]
              rw [hsends]
              exact .replies _ _ _ (by simp [Client.renamed, hreg, huser]) (by simp)
  | user command unregistered =>
      cases hnick : c.nicknameReceived with
      | true =>
          have hsends : userReplies c (message.param 0) =
              [replyCmd 1 (c.introduced (message.param 0)) []] := if_pos hnick
          rw [hsends]
          exact .registers _ unregistered hnick _ (verb_welcome _)
      | false =>
          have hsends : userReplies c (message.param 0) = [] := by simp [userReplies, hnick]
          rw [hsends]
          exact .replies _ _ _ (by simp [Client.introduced, hnick, unregistered]) (by simp)
  | whispered command registered two body nick target d targets => exact .whispers target d targets nick
  | invited command registered two k ch =>
      refine .replies _ _ _ rfl fun call hcall => ?_
      simp only [List.mem_cons, List.not_mem_nil, or_false] at hcall
      rcases hcall with rfl | rfl
      · rw [inviteMessage_eq, verb_wireLine sound.nickname_bytes.2 (by decide)]
        exact .inl rfl
      · rw [verb_replyCmd c (by simp [replyCmd, crlf])]
        exact .inr (.inr (by decide))
  | announced channels a announces => exact .announces channels a announces

/-- Every line is refused, or completes a registration, or queues messages with plain verbs. -/
theorem Dispatched.verbs (effect : Dispatched s i c message c' channels sends)
    (clean : message.Clean) (sound : c.Sound) :
    (∃ m, Refusal c m ∧ c' = c ∧ channels = s.channels ∧ sends = [(i, m)]) ∨
      (c.registered = false ∧ c'.registered = true ∧
        ∃ m, sends = [(i, m)] ∧ verb m = codeText 1) ∨
      (c'.registered = c.registered ∧ ∀ call ∈ sends, PlainVerb (verb call.2)) := by
  cases effect.kind sound with
  | refused m refusal => exact Or.inl ⟨m, refusal, rfl, rfl, rfl⟩
  | registers _ before after m welcome => exact Or.inr (Or.inl ⟨before, after, m, rfl, welcome⟩)
  | replies _ _ _ same verbs =>
      exact Or.inr (Or.inr ⟨same, fun call hcall => .inr (.inr (.inr (verbs call hcall)))⟩)
  | whispers =>
      refine Or.inr (Or.inr ⟨rfl, fun call hcall => .inl ?_⟩)
      rw [List.mem_singleton.mp hcall, privmsgMessage_eq,
        verb_wireLine sound.nickname_bytes.2 (by decide)]
      decide
  | announces _ a announces =>
      obtain ⟨hline, hreplies⟩ := announces.verb_mem clean sound
      refine Or.inr (Or.inr ⟨rfl, fun call hcall => ?_⟩)
      rcases List.mem_append.mp hcall with hcall | hcall
      · obtain ⟨j, _, rfl⟩ := List.mem_map.mp hcall
        exact .inl hline
      · obtain ⟨reply, hreply, rfl⟩ := List.mem_map.mp hcall
        exact .inr ((hreplies reply hreply).imp id .inl)

end Line

end IrcServer
