import IrcServer.Proof.Delivery

/-! # The list of a member

A member knows the others on a channel from the names reply to its JOIN and from the
JOIN and KICK lines that follow. What it makes of the lines is a fold over what is
queued to it.
-/

namespace IrcServer

open Search Framing

/-- The bytes that stand around a name: the colon, the sign of an operator, the line terminator. -/
def isMark (b : UInt8) : Bool := b == colon || b == 64 || b == CR || b == LF

def bareName (w : Bytes) : Bytes := w.filter fun b => !isMark b

def wordAt (k : Nat) (m : Bytes) : Bytes := (fields space m).getD k []

def sender (m : Bytes) : Bytes := bareName (wordAt 0 m)

/-- What a member that reads `m` makes of its list of the others on the channel `name`. -/
def observe (name : Bytes) (view : List Bytes) (m : Bytes) : List Bytes :=
  if verb m = codeText 353 then
    if wordAt 4 m = name then
      (((fields space m).drop 5).map bareName).filter fun n => decide (n ≠ [] ∧ n ≠ target m)
    else view
  else if verb m = text "QUIT" then view.filter fun n => decide (n ≠ sender m)
  else if isEventOf name m = false then view
  else if verb m = text "JOIN" then sender m :: view
  else if verb m = text "KICK" then view.filter fun n => decide (n ≠ wordAt 3 m)
  else view

def viewOf (name : Bytes) (messages : List Bytes) : List Bytes := messages.foldl (observe name) []

/-! ## Reading one line -/

theorem bareName_append (v w : Bytes) : bareName (v ++ w) = bareName v ++ bareName w :=
  List.filter_append v w

theorem bareName_nickname {nick : Bytes} (valid : checkNickValid nick = true) :
    bareName nick = nick := by
  have hall := checkNickValid_all valid
  refine List.filter_eq_self.mpr fun b hb => ?_
  have unmarked : ([colon, 64, CR, LF].all fun mark =>
      !(isAlnum mark || checkSpecailChar mark || mark == hyphen)) = true := rfl
  have hne : ∀ mark ∈ [colon, 64, CR, LF], b ≠ mark := by
    rintro mark hmark rfl
    have hunmarked := List.all_eq_true.mp unmarked b hmark
    rw [hall b hb] at hunmarked
    cases hunmarked
  simp [isMark, hne]

def noticed : List Bytes := [codeText 353, text "QUIT", text "JOIN", text "KICK"]

/-- What a member pays attention to is no refusal and has no colon in front. -/
theorem noticed_head {word : Bytes} (h : word ∈ noticed) :
    (word.head? ≠ some 52 ∧ word.head? ≠ some 78) ∧ word.head? ≠ some colon ∧
      word ≠ text "INVITE" ∧ word ∉ [codeText 331, codeText 332, codeText 341] := by
  revert word
  decide

theorem ReplyVerb.unnoticed {word : Bytes} (h : ReplyVerb word) : word ∉ noticed := by
  intro hmem
  obtain ⟨_, hcolon, hinvite, hcode⟩ := noticed_head hmem
  rcases h with h | h | h
  · exact hinvite h
  · exact hcolon h
  · exact hcode h

theorem viewOf_append (name : Bytes) (xs ys : List Bytes) :
    viewOf name (xs ++ ys) = ys.foldl (observe name) (viewOf name xs) :=
  List.foldl_append

section Lines

variable {name : Bytes} {view : List Bytes} {m : Bytes}

theorem observe_unnoticed (h : verb m ∉ noticed) : observe name view m = view := by
  simp only [noticed, List.mem_cons, List.not_mem_nil, or_false, not_or] at h
  obtain ⟨hnames, hquit, hjoin, hkick⟩ := h
  simp [observe, hnames, hquit, hjoin, hkick]

theorem foldl_unnoticed {messages : List Bytes} (h : ∀ m ∈ messages, verb m ∉ noticed) :
    messages.foldl (observe name) view = view := by
  induction messages generalizing view with
  | nil => rfl
  | cons m messages ih =>
      rw [List.foldl_cons, observe_unnoticed (h m List.mem_cons_self),
        ih fun m hm => h m (List.mem_cons_of_mem _ hm)]

theorem observe_elsewhere (hverb : verb m ∈ eventWords) (h : isEventOf name m = false) :
    observe name view m = view := by
  have hother : ∀ word ∈ eventWords, word ≠ codeText 353 ∧ word ≠ text "QUIT" := by decide
  obtain ⟨hnames, hquit⟩ := hother _ hverb
  rw [observe, if_neg hnames, if_neg hquit, if_pos h]

theorem observe_join {c : Client} (sound : c.Sound) (hne : c.nickname ≠ [])
    (h : isEventOf name (joinMessage c name) = true) :
    observe name view (joinMessage c name) = c.nickname :: view := by
  obtain ⟨_, hspace⟩ := sound.nickname_bytes
  have hverb : verb (joinMessage c name) = text "JOIN" := by
    rw [joinMessage_eq, verb_wireLine hspace (by decide)]
  have hsender : sender (joinMessage c name) = c.nickname := by
    rw [sender, wordAt, joinMessage_eq, fields_wireLine hspace (by decide)]
    exact (bareName_append [colon] c.nickname).trans (bareName_nickname (sound.valid hne))
  rw [observe, hverb, hsender, h]
  simp [show text "JOIN" ≠ codeText 353 from by decide,
    show text "JOIN" ≠ text "QUIT" from by decide]

theorem observe_kick {c : Client} (sound : c.Sound) {nick reason : Bytes} (hname : space ∉ name)
    (hnick : space ∉ nick) (h : isEventOf name (kickMessage c name nick reason) = true) :
    observe name view (kickMessage c name nick reason) =
      view.filter fun n => decide (n ≠ nick) := by
  obtain ⟨_, hspace⟩ := sound.nickname_bytes
  have hkick : space ∉ text "KICK" := by decide
  have hverb : verb (kickMessage c name nick reason) = text "KICK" := by
    rw [kickMessage_eq, verb_wireLine hspace hkick]
  have hrest : name ++ space :: (nick ++ space :: colon :: reason) ++ crlf =
      name ++ space :: (nick ++ space :: (colon :: reason ++ crlf)) := by simp
  have hword : wordAt 3 (kickMessage c name nick reason) = nick := by
    rw [wordAt, kickMessage_eq, fields_wireLine hspace hkick, hrest, fields_segment hname,
      fields_segment hnick]
    rfl
  rw [observe, hverb, hword, h]
  simp [show text "KICK" ≠ codeText 353 from by decide,
    show text "KICK" ≠ text "QUIT" from by decide, show text "KICK" ≠ text "JOIN" from by decide]

/-! ## The names reply -/

section Names

variable {ch : Channel} {clients : List Client}

def Channel.label (ch : Channel) (d : Client) : Bytes :=
  (if d.fd ∈ ch.operatorFds then text "@" else []) ++ d.nickname

/-- One round of the outer loop finds one client and appends its name. -/
theorem joinNames_round (distinct : (clients.map (·.fd)).Nodup) {d : Client} (hd : d ∈ clients)
    (names : Bytes) :
    clients.foldl (fun names c =>
      if c.fd = d.fd then
        (if names.isEmpty then names else names ++ text " ") ++
          (if ch.isOperator d.fd then text "@" else []) ++ c.nickname
      else names) names = joinPiece space names (ch.label d) := by
  have hfilter : clients.filter (fun c => decide (c.fd = d.fd)) = [d] := by
    have hnodup : clients.Nodup := .of_map _ distinct
    have hmem : d ∈ clients.filter (fun c => decide (c.fd = d.fd)) := List.mem_filter.mpr ⟨hd, by simp⟩
    refine (eq_singleton_iff (hnodup.filter _) hmem).mpr fun x hx => ?_
    obtain ⟨hx, hfd⟩ := List.mem_filter.mp hx
    exact List.inj_on_of_nodup_map distinct hx hd (of_decide_eq_true hfd)
  have hround : (clients.filter fun c => decide (c.fd = d.fd)).foldl (fun names c =>
      (if names.isEmpty then names else names ++ text " ") ++
        (if ch.isOperator d.fd then text "@" else []) ++ c.nickname) names =
      clients.foldl (fun names c =>
        if c.fd = d.fd then
          (if names.isEmpty then names else names ++ text " ") ++
            (if ch.isOperator d.fd then text "@" else []) ++ c.nickname
        else names) names := by
    rw [List.foldl_filter]
    simp only [decide_eq_true_eq]
  have hmark : (if ch.isOperator d.fd then text "@" else []) =
      if d.fd ∈ ch.operatorFds then text "@" else [] := by
    simp only [Channel.isOperator_iff]
  rw [← hround, hfilter, List.foldl_cons, List.foldl_nil, hmark, List.append_assoc]
  rfl

theorem joinNames_eq (distinct : (clients.map (·.fd)).Nodup) {members : List Client}
    (order : members.map (·.fd) = ch.memberFds) (connected : ∀ d ∈ members, d ∈ clients) :
    joinNames ch clients = (members.map ch.label).foldl (joinPiece space) [] := by
  rw [joinNames, ← order, List.foldl_map, List.foldl_map]
  exact List.foldl_ext _ _ _ fun names d hd => joinNames_round distinct (connected d hd) names

theorem label_clean {d : Client} (valid : checkNickValid d.nickname = true) :
    space ∉ ch.label d ∧ ch.label d ≠ [] := by
  have hspace := (checkNickValid_bytes valid).2.1
  have hne : d.nickname ≠ [] := by
    intro hnil
    rw [hnil] at valid
    cases valid
  refine ⟨?_, List.append_ne_nil_of_right_ne_nil _ hne⟩
  have hat : space ∉ text "@" := by decide
  rw [Channel.label, List.mem_append, not_or]
  refine ⟨?_, hspace⟩
  split
  · exact hat
  · exact List.not_mem_nil

theorem fields_joinNames (distinct : (clients.map (·.fd)).Nodup) {members : List Client}
    (order : members.map (·.fd) = ch.memberFds) (connected : ∀ d ∈ members, d ∈ clients)
    (valid : ∀ d ∈ members, checkNickValid d.nickname = true) (inhabited : ch.memberFds ≠ []) :
    fields space (joinNames ch clients) = members.map ch.label := by
  rw [joinNames_eq distinct order connected]
  cases members with
  | nil => exact absurd order.symm inhabited
  | cons d rest =>
      refine fields_joined (fun w hw => ?_) (label_clean (valid d List.mem_cons_self)).2
      have hw : w ∈ (d :: rest).map ch.label := hw
      obtain ⟨x, hx, rfl⟩ := List.mem_map.mp hw
      exact (label_clean (valid x hx)).1

theorem bareName_label {d : Client} (valid : checkNickValid d.nickname = true) :
    bareName (ch.label d) = d.nickname := by
  have hmark : bareName (if d.fd ∈ ch.operatorFds then text "@" else []) = [] := by
    split
    · decide
    · rfl
  rw [Channel.label, bareName_append, hmark, bareName_nickname valid, List.nil_append]

def Lists (names n : Bytes) : Prop := n ≠ [] ∧ n ∈ fields space (bareName names)

theorem lists_joinNames (distinct : (clients.map (·.fd)).Nodup)
    (present : ∀ fd ∈ ch.memberFds, ∃ z, z ∈ clients ∧ z.fd = fd)
    (valid : ∀ z ∈ clients, z.fd ∈ ch.memberFds → checkNickValid z.nickname = true)
    (inhabited : ch.memberFds ≠ []) (n : Bytes) :
    Lists (joinNames ch clients) n ↔ ∃ z ∈ clients, z.fd ∈ ch.memberFds ∧ z.nickname = n := by
  obtain ⟨members, order, connected⟩ := exists_map_eq present
  have member : ∀ z ∈ members, z.fd ∈ ch.memberFds := fun z hz => order ▸ List.mem_map_of_mem hz
  have named : ∀ z ∈ members, checkNickValid z.nickname = true := fun z hz =>
    valid z (connected z hz) (member z hz)
  have hnames : fields space (bareName (joinNames ch clients)) = members.map (·.nickname) := by
    rw [bareName, fields_filter (by decide),
      fields_joinNames distinct order connected named inhabited, List.map_map]
    exact List.map_congr_left fun z hz => bareName_label (named z hz)
  rw [Lists, hnames, List.mem_map]
  constructor
  · rintro ⟨_, z, hz, hnick⟩
    exact ⟨z, connected z hz, member z hz, hnick⟩
  · rintro ⟨z, hz, hfd, rfl⟩
    obtain ⟨x, hx, hxfd⟩ := List.mem_map.mp (order ▸ hfd)
    obtain rfl := List.inj_on_of_nodup_map distinct (connected x hx) hz hxfd
    refine ⟨fun hnil => ?_, x, hx, rfl⟩
    have hvalid := named x hx
    rw [hnil] at hvalid
    cases hvalid

end Names

theorem fields_namesReply {c : Client} (sound : c.Sound) {ch : Channel} (hname : space ∉ ch.name)
    (clients : List Client) :
    fields space (namesReply c ch clients) =
      [colon :: text "ircserv", codeText 353, c.nickname, text "=", ch.name] ++
        fields space (colon :: joinNames ch clients ++ crlf) := by
  obtain ⟨_, hspace⟩ := sound.nickname_bytes
  have hrest : c.nickname ++ text " = " ++ ch.name ++ text " :" ++ joinNames ch clients ++ crlf =
      c.nickname ++ space :: (text "=" ++ space :: (ch.name ++
        space :: (colon :: joinNames ch clients ++ crlf))) := by
    simp [show text " = " = space :: (text "=" ++ [space]) from rfl,
      show text " :" = [space, colon] from rfl]
  have hsign : space ∉ text "=" := by decide
  rw [namesReply_eq, fields_wireLine (by decide) (by decide), hrest, fields_segment hspace,
    fields_segment hsign, fields_segment hname]
  rfl

theorem observe_names {c : Client} (sound : c.Sound) {ch : Channel} (hname : space ∉ ch.name)
    (clients : List Client) (n : Bytes) :
    n ∈ observe ch.name view (namesReply c ch clients) ↔
      n ≠ c.nickname ∧ Lists (joinNames ch clients) n := by
  have hfields := fields_namesReply sound hname clients
  have hword : wordAt 4 (namesReply c ch clients) = ch.name := by rw [wordAt, hfields]; rfl
  have htarget : target (namesReply c ch clients) = c.nickname := by rw [target, hfields]; rfl
  have hrest : bareName (colon :: joinNames ch clients ++ crlf) = bareName (joinNames ch clients) := by
    rw [bareName_append, show bareName crlf = [] from by decide, List.append_nil]
    rfl
  have hnames : ((fields space (namesReply c ch clients)).drop 5).map bareName =
      fields space (bareName (joinNames ch clients)) := by
    rw [← hrest, hfields]
    exact (fields_filter (by decide) _).symm
  rw [observe, if_pos (verb_namesReply c ch clients), if_pos hword, hnames, htarget,
    List.mem_filter, Lists]
  simp only [decide_eq_true_eq]
  constructor
  · rintro ⟨hmem, hne, hother⟩
    exact ⟨hother, hne, hmem⟩
  · rintro ⟨hother, hne, hmem⟩
    exact ⟨hmem, hne, hother⟩

theorem observe_names_elsewhere {c : Client} (sound : c.Sound) {ch : Channel}
    (hname : space ∉ ch.name) (clients : List Client) (hne : ch.name ≠ name) :
    observe name view (namesReply c ch clients) = view := by
  have hword : wordAt 4 (namesReply c ch clients) = ch.name := by
    rw [wordAt, fields_namesReply sound hname clients]
    rfl
  rw [observe, if_pos (verb_namesReply c ch clients), hword, if_neg hne]

end Lines

end IrcServer
