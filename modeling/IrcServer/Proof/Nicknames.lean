import IrcServer.Proof.Delivery

/-! # Nicknames

A nickname is held at most once among the connected clients, so it does not matter
which match a search keeps. The exception is the empty nickname, which every client
has until its first NICK; no search for it finds a member of a channel.
-/

namespace IrcServer

open Search Machine Transition

def HeldByOther (s : Machine) (c : Client) (nick : Bytes) : Prop :=
  ∃ d ∈ s.clients, d.fd ≠ c.fd ∧ d.nickname = nick

instance (s : Machine) (c : Client) (nick : Bytes) : Decidable (HeldByOther s c nick) :=
  inferInstanceAs (Decidable (∃ d ∈ s.clients, d.fd ≠ c.fd ∧ d.nickname = nick))

structure Requests (c : Client) (message : Message) (nick : Bytes) : Prop where
  command : message.command = text "NICK"
  pass : c.passRecived = true
  names : message.params.head? = some nick
  valid : checkNickValid nick = true

structure NicknameAgreement (s : Machine) : Prop where
  unique : ∀ (i j : Nat) (c d : Client), s.clients[i]? = some c → s.clients[j]? = some d →
    c.nickname = d.nickname → c.nickname ≠ [] → i = j
  valid : ∀ c ∈ s.clients, c.nickname ≠ [] → checkNickValid c.nickname = true
  received : ∀ c ∈ s.clients, c.nickname ≠ [] ↔ c.nicknameReceived = true
  refused : ∀ i c line s' nick, s.clients[i]? = some c → Requests c (Parser.parse line) nick →
    step s (.command i line) = some s' →
      (replyCmd 433 c nick ∈ messagesTo c.fd (added s s') ↔ HeldByOther s c nick)
  accepted : ∀ i c line s' nick, s.clients[i]? = some c → Requests c (Parser.parse line) nick →
    step s (.command i line) = some s' → ¬ HeldByOther s c nick →
      (s'.clientAt i).fd = c.fd ∧ (s'.clientAt i).nickname = nick
  freed : ∀ i c s', s.clients[i]? = some c → c.nickname ≠ [] →
    step s (.disconnect i) = some s' → ∀ d ∈ s'.clients, d.nickname ≠ c.nickname
  clients : ∀ nick, nick ≠ [] →
    s.clients.findIdx? (nicknamed nick) = lastMatch (nicknamed nick) s.clients
  channels : ∀ name, s.channels.findIdx? (named name) = lastMatch (named name) s.channels
  anonymous : ∀ j d, s.clients.findIdx? (nicknamed []) = some j ∨
      lastMatch (nicknamed []) s.clients = some j →
    s.clients[j]? = some d → ∀ ch ∈ s.channels, d.fd ∉ ch.memberFds

/-! ## NICK -/

section Request

variable {s s' : Machine} {i : Nat} {c : Client} {line nick : Bytes}

theorem Requests.param (h : Requests c (Parser.parse line) nick) :
    (Parser.parse line).param 0 = nick := by
  rw [Message.param, List.getD_eq_getElem?_getD, ← List.head?_eq_getElem?, h.names]
  rfl

/-- The replies of an accepted NICK are the echo or the welcome. -/
theorem nickReplies_verb (valid : checkNickValid nick = true) {m : Bytes}
    (hm : m ∈ nickReplies c nick) : verb m ≠ codeText 433 := by
  unfold nickReplies at hm
  split at hm
  · rw [List.mem_singleton.mp hm, ← renameReply, verb_renameReply (checkNickValid_bytes valid).2.1]
    intro heq
    cases heq
  · split at hm
    · rw [List.mem_singleton.mp hm, verb_welcome]
      decide
    · cases hm

theorem Requests.refused (h : Requests c (Parser.parse line) nick) (hc : s.clients[i]? = some c)
    (hstep : step s (.command i line) = some s') (held : HeldByOther s c nick) :
    s' = (s.record (.line c.fd line)).sendingQueue i (replyCmd 433 c nick) := by
  obtain ⟨d, hd, hfd, hnick⟩ := held
  have hclient : (s.record (.line c.fd line)).clientAt i = c := Server.clientAt_of_getElem? hc
  have given : (Parser.parse line).params.isEmpty = false := by
    rw [List.isEmpty_eq_false_iff]
    intro hnil
    have hnames := h.names
    rw [hnil] at hnames
    cases hnames
  have hany : ((s.record (.line c.fd line)).clients.any fun d =>
      decide (d.nickname = nick) && decide (d.fd ≠ c.fd)) = true :=
    List.any_eq_true.mpr ⟨d, hd, by simp [hnick, hfd]⟩
  rw [(step_command hc hstep).2, dispatchCommand_nick h.command]
  unfold nickHundler
  simp only [hclient, h.pass, given, h.param, h.valid, hany, Bool.not_true, Bool.false_eq_true,
    if_false, if_true]

theorem Requests.accepted (h : Requests c (Parser.parse line) nick) (hc : s.clients[i]? = some c)
    (hstep : step s (.command i line) = some s') (free : ¬ HeldByOther s c nick) :
    Dispatched s.toServer i c (Parser.parse line) (c.renamed nick) s.channels
        ((nickReplies c nick).map (i, ·)) ∧
      s' = (s.record (.line c.fd line)).settle i (c.renamed nick) s.channels
        ((nickReplies c nick).map (i, ·)) := by
  have hparam := h.param
  have unused : ∀ d ∈ s.clients, d.nickname = (Parser.parse line).param 0 → d.fd = c.fd := by
    intro d hd hnick
    by_contra hfd
    exact free ⟨d, hd, hfd, hnick.trans hparam⟩
  have valid : checkNickValid ((Parser.parse line).param 0) = true := by
    rw [hparam]
    exact h.valid
  have effect := Dispatched.nick (i := i) h.command h.pass valid unused
  have hnick := nickHundler_accepts (s := s.record (.line c.fd line)) hc h.pass valid unused
  rw [hparam] at effect hnick
  refine ⟨effect, ?_⟩
  rw [(step_command hc hstep).2, dispatchCommand_nick h.command]
  exact hnick

theorem Requests.refused_iff (invariant : Invariant s) (h : Requests c (Parser.parse line) nick)
    (hc : s.clients[i]? = some c) (hstep : step s (.command i line) = some s') :
    replyCmd 433 c nick ∈ messagesTo c.fd (added s s') ↔ HeldByOther s c nick := by
  have hne : replyCmd 433 c nick ≠ [] := by simp [replyCmd, crlf]
  constructor
  · intro hm
    by_contra free
    obtain ⟨effect, rfl⟩ := h.accepted hc hstep free
    rw [dispatched_messagesTo invariant hc (step_command hc hstep).1 effect hc,
      messagesFor_replies, if_pos rfl] at hm
    exact nickReplies_verb h.valid hm (verb_replyCmd c hne)
  · intro held
    have hclient : (s.record (.line c.fd line)).clientAt i = c := Server.clientAt_of_getElem? hc
    have hhistory : s'.history =
        s.history ++ [.line c.fd line, .queued c.fd (replyCmd 433 c nick)] := by
      rw [h.refused hc hstep held, sendingQueue_history _ _ _ hne, hclient, record,
        List.append_assoc]
      rfl
    rw [added_eq hhistory]
    exact mem_messagesTo.mpr (by simp)

end Request

/-! ## Searches -/

/-- Nicknames are unique, and a search for a nickname or a channel has one possible result. -/
theorem nicknameAgreement_reachable {s : Machine} (h : Reachable s) : NicknameAgreement s := by
  have invariant := h.invariant
  have identities := invariant.identities
  constructor
  · intro i j c d hi hj hnick hne
    have hfd := identities.unique c (List.mem_of_getElem? hi) d (List.mem_of_getElem? hj) hnick hne
    exact invariant.table.fd_position hi hj hfd
  · exact fun c hc => (identities.sound c hc).valid
  · exact fun c hc => (identities.sound c hc).received.symm
  · exact fun i c line s' nick hc requests hstep => requests.refused_iff invariant hc hstep
  · intro i c line s' nick hc requests hstep free
    obtain ⟨effect, rfl⟩ := requests.accepted hc hstep free
    have hi : i < s.clients.length := (List.getElem?_eq_some_iff.mp hc).choose
    have hat : ((s.record (.line c.fd line)).clients.set i (c.renamed nick))[i]? =
        some (c.renamed nick) := List.getElem?_set_self hi
    rw [Server.clientAt_of_getElem? (by rw [settle_getElem?, hat]; rfl)]
    exact ⟨rfl, rfl⟩
  · intro i c s' hc hne hstep d hd hnick
    cases step_stepped invariant.table hstep with
    | disconnected _ x hx =>
        obtain rfl := Option.some.inj (hc.symm.trans hx)
        obtain ⟨j, hji, hj⟩ := List.mem_eraseIdx_iff_getElem?.mp hd
        have hfd := identities.unique c (List.mem_of_getElem? hc) d (List.mem_of_getElem? hj)
          hnick.symm hne
        exact hji (invariant.table.fd_position hj hc hfd.symm)
  · exact fun nick hne => (invariant.nickname_once hne).findIdx?_eq_lastMatch
  · intro name
    have hone : AtMostOne (named name) s.channels := atMostOne_of_nodup invariant.table.names name
    exact hone.findIdx?_eq_lastMatch
  · intro j d hfound hd ch hch member
    have hblank : d.nickname = [] := by
      rcases hfound with hfound | hfound
      · obtain ⟨x, hx, hnick⟩ := findIdx?_some hfound
        obtain rfl := Option.some.inj (hd.symm.trans hx)
        simpa [nicknamed] using hnick
      · obtain ⟨x, hx, hnick⟩ := lastMatch_some hfound
        obtain rfl := Option.some.inj (hd.symm.trans hx)
        simpa [nicknamed] using hnick
    exact invariant.member_nickname hch (List.mem_of_getElem? hd) member hblank

theorem nicknameAgreement_sample : NicknameAgreement (stateAfter sampleRun) :=
  nicknameAgreement_reachable (stateAfter_reachable sampleRun)

end IrcServer
