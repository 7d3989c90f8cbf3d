import IrcServer.Proof.Admission
import IrcServer.Proof.Settings

/-! # The history of a topic

The topic of a channel is the one that was accepted last since the channel was created.
A query answers with it and writes nothing, and a channel that is created again, after
its last member has left, starts bare.
-/

namespace IrcServer

open Search Machine Transition

inductive SetsTopic (name : Bytes) (s : Machine) : Event → Bytes → Prop
  | intro (i : Nat) (line : Bytes) (c : Client) (hc : s.clients[i]? = some c) (k : Nat)
      (ch : Channel) (at_ : Addresses s.toServer c (Parser.parse line) "TOPIC" k ch)
      (two : 2 ≤ (Parser.parse line).params.length) (member : c.fd ∈ ch.memberFds)
      (allowed : ch.changeTopic = true → c.fd ∈ ch.operatorFds) (named : ch.name = name) :
      SetsTopic name s (.command i line) ((Parser.parse line).param 1)

structure Channel.Bare (ch : Channel) : Prop where
  topic : ch.topic = []
  inviteOnly : ch.inviteOnly = false
  changeTopic : ch.changeTopic = false
  key : ch.key = []
  limit : ch.limit = 0
  invited : ch.invitedFds = []

def Machine.HasTopic (name : Bytes) (s : Machine) (topic : Bytes) : Prop :=
  ∀ ch ∈ s.channels, ch.name = name → ch.topic = topic

structure TopicHistory (start : Machine) (events : List Event) (s : Machine) (ch : Channel) :
    Prop where
  /-- The channel was created bare, has existed since, and has the topic that was set last. -/
  topic : ∃ before e during a b, events = before ++ e :: during ∧ run step start before = some a ∧
    ¬ Exists a ch.name ∧ step a e = some b ∧ run step b during = some s ∧
    (∀ u, Visits step b during u → Exists u ch.name) ∧
    (∀ x ∈ b.channels, x.name = ch.name → x.Bare) ∧
    LastWrite step (SetsTopic ch.name) b during [] ch.topic
  /-- A query of a registered client is answered with the topic, and changes nothing else. -/
  query : ∀ i c line s', s.clients[i]? = some c → c.registered = true →
    (Parser.parse line).command = text "TOPIC" → (Parser.parse line).params = [ch.name] →
    step s (.command i line) = some s' →
    s' = (s.record (.line c.fd line)).sendingQueue i
      (if ch.topic = [] then
        text ":ircserv 331 " ++ c.nickname ++ text " " ++ ch.name ++ text " :No topic is set" ++ crlf
      else
        text ":ircserv 332 " ++ c.nickname ++ text " " ++ ch.name ++ text " :" ++ ch.topic ++ crlf)

/-! ## One step -/

section Step

variable {s s' : Machine} {e : Event} {name topic : Bytes}

theorem SetsTopic.hasTopic (invariant : Invariant s) (hstep : step s e = some s')
    (sets : SetsTopic name s e topic) : s'.HasTopic name topic := by
  cases sets with
  | intro i line c hc k ch at_ two member allowed hname =>
      have hchannels := (Announces.topic k ch at_ two member allowed).channels_eq invariant hc hstep
      have table' := (invariant.step hstep).table
      intro x hx hxname
      rw [table'.stored at_.found hchannels hx (hxname.trans hname.symm)]

theorem Machine.HasTopic.kept (invariant : Invariant s) (existed : Exists s name)
    (hstep : step s e = some s') (keeps : ∀ topic, ¬ SetsTopic name s e topic)
    (h : s.HasTopic name topic) : s'.HasTopic name topic := by
  intro x hx hxname
  cases (step_stepped invariant.table hstep).settings_origin hx with
  | kept ch hch hname same =>
      rw [← h ch hch (hname.trans hxname)]
      exact congrArg Settings.topic same
  | founded i line event c hc fresh same =>
      obtain ⟨ch, hch, hname⟩ := existed
      exact absurd (hname.trans hxname.symm) (fresh ch hch)
  | titled i line event c hc k ch at_ two member allowed same =>
      subst event same
      exact absurd (.intro i line c hc k ch at_ two member allowed hxname) (keeps _)
  | moded i line event c hc k ch at_ operator change changes =>
      have hch := List.mem_of_getElem? at_.found
      cases changes <;> exact h ch hch hxname

/-- A channel that did not exist before the step has just been founded. -/
theorem bare_of_created (invariant : Invariant s) (absent : ¬ Exists s name)
    (hstep : step s e = some s') {x : Channel} (hx : x ∈ s'.channels) (hname : x.name = name) :
    x.Bare := by
  cases (step_stepped invariant.table hstep).settings_origin hx with
  | kept ch hch hsame same => exact absurd ⟨ch, hch, hsame.trans hname⟩ absent
  | founded i line event c hc fresh same =>
      rw [same]
      exact ⟨rfl, rfl, rfl, rfl, rfl, rfl⟩
  | titled i line event c hc k ch at_ two member allowed same =>
      subst same
      exact absurd ⟨ch, List.mem_of_getElem? at_.found, hname⟩ absent
  | moded i line event c hc k ch at_ operator change changes =>
      refine absurd ⟨ch, List.mem_of_getElem? at_.found, ?_⟩ absent
      cases changes <;> exact hname

end Step

/-! ## Queries -/

theorem topicHandler_answers {s : Machine} {i k : Nat} {c : Client} {message : Message}
    {ch : Channel} (invariant : Invariant s) (hc : s.clients[i]? = some c)
    (at_ : Addresses s.toServer c message "TOPIC" k ch) (one : message.params.length = 1) :
    topicHandler i message s = s.sendingQueue i (topicReply c ch) := by
  have hlookup := (invariant.table.channel_lookup at_.found at_.name).1
  have hgiven : message.params.isEmpty = false := by
    rw [List.isEmpty_eq_false_iff, ← List.length_pos_iff]
    omega
  unfold topicHandler topicReply
  simp only [Server.clientAt_of_getElem? hc, at_.registered, hgiven, one, hlookup,
    Server.channelAt_of_getElem? at_.found, Bool.not_true, Bool.false_eq_true, if_false, if_true,
    at_.name]
  split <;> rfl

theorem topicReply_eq (c : Client) (ch : Channel) :
    topicReply c ch =
      if ch.topic = [] then
        text ":ircserv 331 " ++ c.nickname ++ text " " ++ ch.name ++ text " :No topic is set" ++ crlf
      else
        text ":ircserv 332 " ++ c.nickname ++ text " " ++ ch.name ++ text " :" ++ ch.topic ++ crlf := by
  unfold topicReply
  by_cases h : ch.topic = []
  · rw [if_pos (List.isEmpty_iff.mpr h), if_pos h]
    rfl
  · rw [if_neg (by simpa using h), if_neg h]

/-! ## Every run -/

/-- The topic of an existing channel is the last one accepted since the channel was created. -/
theorem topic_last_accepted {fd : Int} {passwd : Bytes} {events : List Event} {s : Machine}
    (hrun : run step (Machine.start fd passwd) events = some s) {ch : Channel}
    (hch : ch ∈ s.channels) : TopicHistory (Machine.start fd passwd) events s ch := by
  have reachable : Reachable s := ⟨fd, passwd, events, hrun⟩
  constructor
  case topic =>
    rcases run_last_entry (A := fun u => Exists u ch.name) hrun ⟨ch, hch, rfl⟩ with
      hall | ⟨before, e, during, a, b, hevents, hbefore, absent, hstep, hduring, alive⟩
    · -- nobody has created a channel at the start
      obtain ⟨x, hx, _⟩ := hall _ (.start _ events)
      exact absurd hx List.not_mem_nil
    · have invariantA : Invariant a := (start_invariant fd passwd).run hbefore
      have invariantB : Invariant b := invariantA.step hstep
      have bare : ∀ x ∈ b.channels, x.name = ch.name → x.Bare := fun x hx hname =>
        bare_of_created invariantA absent hstep hx hname
      refine ⟨before, e, during, a, b, hevents, hbefore, absent, hstep, hduring, alive, bare, ?_⟩
      have hnone : b.HasTopic ch.name [] := fun x hx hname => (bare x hx hname).topic
      obtain ⟨topic, hlast, htopic⟩ := run_lastWrite
        (I := fun u => Invariant u ∧ Exists u ch.name) (V := Machine.HasTopic ch.name)
        (fun _ _ _ _ hu _ hstep sets => sets.hasTopic hu.1 hstep)
        (fun _ _ _ _ hu _ hstep keeps h => Machine.HasTopic.kept hu.1 hu.2 hstep keeps h)
        hnone hduring (fun u hu => ⟨invariantB.visits hu, alive u hu⟩)
      rwa [htopic ch hch rfl]
  case query =>
    intro i c line s' hc registered command params hstep
    obtain ⟨_, rfl⟩ := step_command hc hstep
    obtain ⟨k, found⟩ := List.mem_iff_getElem?.mp hch
    have hname : ch.name = (Parser.parse line).param 0 := by rw [Message.param, params]; rfl
    have logged : Invariant (s.record (.line c.fd line)) :=
      ⟨reachable.invariant.table, reachable.invariant.identities⟩
    have at_ : Addresses (s.record (.line c.fd line)).toServer c (Parser.parse line) "TOPIC" k ch :=
      ⟨command, registered, found, hname⟩
    rw [dispatchCommand_topic command,
      topicHandler_answers logged hc at_ (by rw [params, List.length_singleton]), topicReply_eq]

def retitledRun : List Event :=
  sampleRun ++ [.command 0 (text "TOPIC #42 :one"), .command 1 (text "TOPIC #42 :two words")]

theorem topic_last_accepted_retitled :
    ∃ s ch, run step (Machine.start 3 (text "pw")) retitledRun = some s ∧ ch ∈ s.channels ∧
      ch.topic = text "two words" ∧ TopicHistory (Machine.start 3 (text "pw")) retitledRun s ch := by
  have hrun : (run step (Machine.start 3 (text "pw")) retitledRun).any (fun s =>
      s.channels.any fun ch => decide (ch.topic = text "two words")) = true := by decide
  obtain ⟨s, hs, hany⟩ := (Option.any_eq_true _ _).mp hrun
  obtain ⟨ch, hch, htopic⟩ := List.any_eq_true.mp hany
  exact ⟨s, ch, hs, hch, of_decide_eq_true htopic, topic_last_accepted hs hch⟩

end IrcServer
