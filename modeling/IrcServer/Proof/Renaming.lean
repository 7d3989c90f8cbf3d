import IrcServer.Proof.Nicknames

/-! # Changes of nickname

Only the client that changes its nickname hears of it, and what it is sent names no
source and has no line end. Whoever shares a channel with it is told nothing.
-/

namespace IrcServer

open Search Machine Transition
open IrcServer.Parser

/-- `":<old> NICK :<new>"`, the line that is to tell of a new nickname. -/
def nickMessage (old new : Bytes) : Bytes := text ":" ++ old ++ text " NICK :" ++ new ++ crlf

def Sees (s : Machine) (d c : Client) : Prop :=
  d.fd = c.fd ∨ ∃ ch ∈ s.channels, c.fd ∈ ch.memberFds ∧ d.fd ∈ ch.memberFds

/-- Whoever can see `c` is told once of its new nickname, and nobody else is. -/
structure RenameTold (s s' : Machine) (c : Client) (nick : Bytes) : Prop where
  once : ∀ d ∈ s.clients, Sees s d c →
    (messagesTo d.fd (added s s')).count (nickMessage c.nickname nick) = 1
  others : ∀ d ∈ s.clients, ¬ Sees s d c →
    nickMessage c.nickname nick ∉ messagesTo d.fd (added s s')

section Rename

variable {s s' : Machine} {i : Nat} {c : Client} {line nick : Bytes}

theorem Client.Sound.pass_of_registered (sound : c.Sound) (registered : c.registered = true) :
    c.passRecived = true :=
  sound.nickPass (sound.registered.mp registered).1

theorem renameReply_ne_nickMessage (old new : Bytes) : renameReply new ≠ nickMessage old new := by
  intro heq
  have hhead := congrArg List.head? heq
  cases hhead

/-- What an accepted NICK of a registered client queues: its echo to the sender, and nothing to
anybody else. -/
theorem renamed_messagesTo (h : Reachable s) (hc : s.clients[i]? = some c)
    (registered : c.registered = true) (requests : Requests c (parse line) nick)
    (free : ¬ HeldByOther s c nick) (hstep : step s (.command i line) = some s') :
    Appends s s' ∧ ∀ d ∈ s.clients,
      messagesTo d.fd (added s s') = if d.fd = c.fd then [renameReply nick] else [] := by
  have invariant := h.invariant
  have clean := (step_command hc hstep).1
  obtain ⟨effect, rfl⟩ := requests.accepted hc hstep free
  refine ⟨dispatched_appends invariant hc clean effect, fun d hd => ?_⟩
  obtain ⟨j, hj⟩ := List.mem_iff_getElem?.mp hd
  have hreplies : nickReplies c nick = [renameReply nick] := if_pos registered
  rw [dispatched_messagesTo invariant hc clean effect hj, hreplies, messagesFor_replies]
  simp only [h.table.fd_eq_iff hj hc]

/-- No accepted NICK of a registered client is told to those who can see it. -/
theorem renamed_untold (h : Reachable s) (hc : s.clients[i]? = some c)
    (registered : c.registered = true) (command : (parse line).command = text "NICK")
    (names : (parse line).params.head? = some nick) (valid : checkNickValid nick = true)
    (free : ¬ HeldByOther s c nick) (hstep : step s (.command i line) = some s') :
    Appends s s' ∧
    (∀ d ∈ s.clients, messagesTo d.fd (added s s') =
      if d.fd = c.fd then [text "NICK :" ++ nick] else []) ∧
    ¬ RenameTold s s' c nick := by
  have hmem := List.mem_of_getElem? hc
  have pass := (h.invariant.identities.sound c hmem).pass_of_registered registered
  obtain ⟨appends, hqueued⟩ :=
    renamed_messagesTo h hc registered ⟨command, pass, names, valid⟩ free hstep
  refine ⟨appends, hqueued, fun told => ?_⟩
  have honce := told.once c hmem (.inl rfl)
  rw [hqueued c hmem, if_pos rfl, List.count_eq_zero.mpr] at honce
  · cases honce
  · exact fun hline => renameReply_ne_nickMessage _ _ (List.mem_singleton.mp hline).symm

end Rename

/-- A member of a channel with two members changes its nickname. -/
theorem renamed_untold_sample :
    ∃ s s' c, Reachable s ∧ s.clients[1]? = some c ∧ c.nickname = text "akira" ∧
      step s (.command 1 (text "NICK kaw2")) = some s' ∧ ¬ RenameTold s s' c (text "kaw2") := by
  have hc : (stateAfter sampleRun).clients[1]? = some ((stateAfter sampleRun).clientAt 1) :=
    clientAt_table (by decide)
  have hstep := step_stateAfter sampleRun (.command 1 (text "NICK kaw2")) (by decide)
  exact ⟨_, _, _, stateAfter_reachable sampleRun, hc, by decide, hstep,
    (renamed_untold (stateAfter_reachable sampleRun) hc (by decide) (by decide) (by decide)
      (by decide) (by decide) hstep).2.2⟩

/-- `NICK kaw2`: neither `akira` itself nor `kaw`, who is on its channel, is told. -/
theorem not_renameTold_reachable : ¬ ∀ (s s' : Machine) (i : Nat) (c : Client) (line nick : Bytes),
    Reachable s → s.clients[i]? = some c → c.registered = true →
    (parse line).command = text "NICK" → (parse line).params.head? = some nick →
    checkNickValid nick = true → ¬ HeldByOther s c nick →
    step s (.command i line) = some s' → RenameTold s s' c nick := by
  intro h
  have hc : (stateAfter sampleRun).clients[1]? = some ((stateAfter sampleRun).clientAt 1) :=
    clientAt_table (by decide)
  have hstep := step_stateAfter sampleRun (.command 1 (text "NICK kaw2")) (by decide)
  have told := h _ _ 1 _ _ (text "kaw2") (stateAfter_reachable sampleRun) hc (by decide) (by decide)
    (by decide) (by decide) (by decide) hstep
  have honce := told.once ((stateAfter sampleRun).clientAt 0)
    (List.mem_of_getElem? (clientAt_table (by decide)))
    (.inr ⟨(stateAfter sampleRun).channelAt 0, by decide, by decide, by decide⟩)
  have hnone : messagesTo ((stateAfter sampleRun).clientAt 0).fd
      (added (stateAfter sampleRun) (stateAfter (sampleRun ++ [.command 1 (text "NICK kaw2")]))) =
      [] := by decide
  rw [hnone] at honce
  cases honce

end IrcServer
