import IrcServer.Proof.Replay
import IrcServer.Spec.Locality

/-! # Channels are independent

What is said on one channel cannot be told from anything else that the server does: the
other channels, all accounts and all other messages are those of a server that has not
heard of it. Nor does it matter how the lines about different channels are interleaved.
-/

namespace IrcServer

open Machine

/-- What has been queued to a connection since it was accepted, each with the line that it
answers. -/
noncomputable def Machine.letters (s : Machine) (fd : Int) : List (Action Int × Notice) :=
  Network.letters fd (Purge.transcript Network.act (Network.start s.passwd) s.actions)

def letterText (letter : Action Int × Notice) : Bytes := letter.2.render

theorem queuedTo_letters {s : Machine} (h : Reachable s) {d : Client} (hd : d ∈ s.clients) :
    queuedTo d.fd s = (s.letters d.fd).map letterText := by
  have mail := h.replayed.mirrors.mail d hd
  rw [Network.replay_letters, List.map_map] at mail
  exact mail

theorem network_outcome {s : Machine} (h : Reachable s) :
    s.network h.table = Purge.outcome Network.act (Network.start s.passwd) s.actions := by
  rw [← h.replayed.mirrors.network, Network.replay_outcome]

/-- A server on which the lines about some channels have not been heard: all accounts and all other
channels are the same, and everybody has been told the same but for what answers those lines. -/
theorem unheard_invisible {s s' : Machine} (h : Reachable s) (h' : Reachable s')
    (passwd : s'.passwd = s.passwd) (seen : Bytes → Bool)
    (unheard : s'.actions = s.actions.filter (Action.visible seen)) :
    Network.Same seen (s.network h.table) (s'.network h'.table) ∧
      ∀ d ∈ s.clients, queuedTo d.fd s = (s.letters d.fd).map letterText ∧
        queuedTo d.fd s' =
          ((s.letters d.fd).filter fun letter => letter.1.visible seen).map letterText := by
  have start := (Network.same_equivalence seen).refl (Network.start s.passwd : Network Int)
  have network : Network.Same seen (s.network h.table) (s'.network h'.table) := by
    rw [network_outcome h, network_outcome h', passwd, unheard]
    exact (Network.act_blind seen).outcome start fun _ _ => trivial
  refine ⟨network, fun d hd => ⟨queuedTo_letters h hd, ?_⟩⟩
  have haccount : (s'.network h'.table).account d.fd = some d.account := by
    rw [← network.account, network_account h.table hd]
  obtain ⟨d', hd', hfd, _⟩ := network_account_some h'.table haccount
  rw [← hfd, queuedTo_letters h' hd', letters, passwd, unheard,
    ← (Network.act_blind seen).purge start fun _ _ => trivial, Network.letters_filter, hfd]
  rfl

def twoChannels (lines : List Event) : List Event :=
  [.connect 4 0, .connect 5 0] ++ registration 0 "kaw" ++ registration 1 "akira" ++ lines

def joinedRun : List Event :=
  twoChannels [.command 0 (text "JOIN #42"), .command 1 (text "JOIN #42"),
    .command 0 (text "JOIN #21"), .command 1 (text "JOIN #21"),
    .command 0 (text "TOPIC #42 :one"), .command 0 (text "TOPIC #21 :two")]

theorem unheard_invisible_sample :
    ∃ s s', ∃ h : Reachable s, ∃ h' : Reachable s',
      Network.Same (· != text "#21") (s.network h.table) (s'.network h'.table) ∧
        ∀ d ∈ s.clients, queuedTo d.fd s = (s.letters d.fd).map letterText ∧
          queuedTo d.fd s' = ((s.letters d.fd).filter fun letter =>
            letter.1.visible (· != text "#21")).map letterText := by
  have unheard : (stateAfter (twoChannels [.command 0 (text "JOIN #42"),
        .command 1 (text "JOIN #42"), .command 0 (text "TOPIC #42 :one")])).actions =
      (stateAfter joinedRun).actions.filter (Action.visible (· != text "#21")) := by
    decide +kernel
  exact ⟨_, _, stateAfter_reachable _, stateAfter_reachable _,
    unheard_invisible (stateAfter_reachable joinedRun) (stateAfter_reachable _) (by decide +kernel)
      _ unheard⟩

/-- Two servers with the same password on which everything that is about no channel, and the lines
about any one channel, happened in the same order: they have the same accounts and the same
channels, and have queued the same messages to everybody, about each channel in the same order. -/
theorem interleavings_agree {s s' : Machine} (h : Reachable s) (h' : Reachable s')
    (passwd : s'.passwd = s.passwd)
    (same : ∀ name, s.actions.filter (Action.visible (· == name)) =
      s'.actions.filter (Action.visible (· == name))) :
    s.network h.table = s'.network h'.table ∧ ∀ d ∈ s.clients,
      (queuedTo d.fd s).Perm (queuedTo d.fd s') ∧
        ∀ name, (s.letters d.fd).filter (fun letter => letter.1.visible (· == name)) =
          (s'.letters d.fd).filter fun letter => letter.1.visible (· == name) := by
  have agree := fun name => (Network.act_blind (· == name)).interleaved
    (s := (Network.start s.passwd : Network Int)) (Network.same_equivalence _)
    (fun _ _ => trivial) (fun _ _ => trivial) (same name)
  have network : s.network h.table = s'.network h'.table := by
    rw [network_outcome h, network_outcome h', passwd]
    exact Network.ext (agree []).1.password (agree []).1.account
      (funext fun name => (agree name).1.room name (beq_self_eq_true name))
  refine ⟨network, fun d hd => ?_⟩
  have letters : ∀ name, (s.letters d.fd).filter (fun letter => letter.1.visible (· == name)) =
      (s'.letters d.fd).filter fun letter => letter.1.visible (· == name) := fun name => by
    rw [Machine.letters, Machine.letters, passwd, ← Network.letters_filter,
      ← Network.letters_filter, (agree name).2]
  have haccount : (s'.network h'.table).account d.fd = some d.account := by
    rw [← network, network_account h.table hd]
  obtain ⟨d', hd', hfd, _⟩ := network_account_some h'.table haccount
  refine ⟨?_, letters⟩
  have hqueued : queuedTo d.fd s' = (s'.letters d.fd).map letterText := by
    rw [← hfd, queuedTo_letters h' hd']
  rw [queuedTo_letters h hd, hqueued]
  refine List.Perm.map _ (List.perm_iff_count.mpr fun letter => ?_)
  -- every letter is about one channel, or about none
  obtain ⟨name, visible⟩ : ∃ name, letter.1.visible (· == name) = true := by
    cases haction : letter.1 with
    | connect x => exact ⟨[], rfl⟩
    | close x => exact ⟨[], rfl⟩
    | line x message => exact ⟨message.channelName, by simp [Action.visible]⟩
  have kept : ∀ entries : List (Action Int × Notice),
      (entries.filter fun letter => letter.1.visible (· == name)).count letter =
        entries.count letter := fun _ => List.count_filter visible
  rw [← kept, letters name, kept]

def reorderedRun : List Event :=
  twoChannels [.command 0 (text "JOIN #42"), .command 1 (text "JOIN #42"),
    .command 0 (text "JOIN #21"), .command 1 (text "JOIN #21"),
    .command 0 (text "TOPIC #21 :two"), .command 0 (text "TOPIC #42 :one")]

theorem interleavings_agree_sample :
    ∃ s s', ∃ h : Reachable s, ∃ h' : Reachable s',
      s.network h.table = s'.network h'.table ∧ ∀ d ∈ s.clients,
        (queuedTo d.fd s).Perm (queuedTo d.fd s') ∧
          ∀ name, (s.letters d.fd).filter (fun letter => letter.1.visible (· == name)) =
            (s'.letters d.fd).filter fun letter => letter.1.visible (· == name) := by
  have first : (stateAfter joinedRun).actions = (stateAfter joinedRun).actions.take 12 ++
      [.line 4 (Parser.parse (text "TOPIC #42 :one")),
        .line 4 (Parser.parse (text "TOPIC #21 :two"))] := by decide +kernel
  have second : (stateAfter reorderedRun).actions = (stateAfter joinedRun).actions.take 12 ++
      [.line 4 (Parser.parse (text "TOPIC #21 :two")),
        .line 4 (Parser.parse (text "TOPIC #42 :one"))] := by decide +kernel
  refine ⟨_, _, stateAfter_reachable _, stateAfter_reachable _,
    interleavings_agree (stateAfter_reachable joinedRun) (stateAfter_reachable reorderedRun)
      (by decide +kernel) fun name => ?_⟩
  rw [first, second]
  exact visible_swap (by decide) (by decide) (by decide) _ [] name

end IrcServer
