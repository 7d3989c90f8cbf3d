import Mathlib.Logic.Equiv.Basic
import IrcServer.Proof.Replay
import IrcServer.Spec.Secrets

/-! # Nobody learns a secret

The password and the keys of the channels have no effect but through comparison with what
a client gives. Whoever is not on a channel can find out its key only by guessing.
-/

namespace IrcServer

open Machine

inductive Disguise.Shown (σ : Disguise) : Bytes → Bytes → Prop
  | same (message : Bytes) : σ.Shown message message
  | key (c : Client) (name key : Bytes) :
      σ.Shown (modeMessage c name (text "+k " ++ key))
        (modeMessage c name (text "+k " ++ σ.key name key))

theorem Notice.render_disguise (σ : Disguise) (notice : Notice) :
    σ.Shown notice.render (notice.disguise σ).render := by
  cases notice with
  | moded source name change =>
      by_cases keyed : change.take 3 = text "+k "
      · have hchange : change = text "+k " ++ change.drop 3 := by
          rw [← keyed, List.take_append_drop]
        rw [hchange, Notice.keyed_disguise]
        exact .key (addressee source) name _
      · rw [Notice.moded_disguise σ source name keyed]
        exact .same _
  | _ => exact .same _

/-- A server with another password and other keys, whose clients give the other secrets, has the
same accounts and channels but for the secrets, and has queued the same messages but for the
announcements of the keys: none of these to a client that has been on no channel with another key. -/
theorem secrets_compared {s s' : Machine} (h : Reachable s) (h' : Reachable s') (σ : Disguise)
    (passwd : s'.passwd = σ.password s.passwd)
    (given : s'.actions = s.actions.map (Action.disguise σ)) :
    s'.network h'.table = (s.network h.table).disguise σ ∧
      ∀ d ∈ s.clients,
        List.Forall₂ σ.Shown (queuedTo d.fd s) (queuedTo d.fd s') ∧
        ((∀ before after, s.actions = before ++ after → .connect d.fd ∉ after →
            ∀ name r, (Network.replay s.passwd before).1.room name = some r → d.fd ∈ r.members →
              ∀ key, σ.key name key = key) →
          queuedTo d.fd s' = queuedTo d.fd s) := by
  obtain ⟨network, mail⟩ := h.replayed.mirrors
  obtain ⟨network', mail'⟩ := h'.replayed.mirrors
  rw [passwd, given, Network.replay_disguise] at network' mail'
  have same : s'.network h'.table = (s.network h.table).disguise σ := by
    rw [← network', ← network]
  refine ⟨same, fun d hd => ?_⟩
  have haccount : (s'.network h'.table).account d.fd = some d.account := by
    rw [same]
    exact network_account h.table hd
  obtain ⟨d', hd', hfd, _⟩ := network_account_some h'.table haccount
  have hmail' := mail' d' hd'
  rw [hfd, List.map_map] at hmail'
  rw [mail d hd, hmail']
  constructor
  · rw [List.forall₂_map_left_iff, List.forall₂_map_right_iff]
    exact List.forall₂_same.mpr fun notice _ => notice.render_disguise σ
  · intro outside
    have told := Network.replay_confides σ s.passwd s.actions outside
    exact List.map_congr_left fun notice hnotice => congrArg Notice.render (told notice hnotice)

/-- An operator sets a key, a second client does not guess it, and a third one is told it. -/
def secretRun (password key : String) : List Event :=
  let registered (i : Nat) (nick : String) : List Event :=
    [.command i (text "PASS " ++ text password), .command i (text "NICK " ++ text nick),
      .command i (text "USER u 0 * :u")]
  [.connect 4 0, .connect 5 0, .connect 6 0] ++ registered 0 "kaw" ++ registered 1 "akira" ++
    registered 2 "momo" ++
    [.command 0 (text "JOIN #42"), .command 0 (text "MODE #42 +k " ++ text key),
      .command 1 (text "JOIN #42 guess"), .command 2 (text "JOIN #42 " ++ text key),
      .command 2 (text "PRIVMSG akira :no")]

def secretState (password key : String) : Machine :=
  (Transition.run step (Machine.start 3 (text password)) (secretRun password key)).getD
    (Machine.start 3 (text password))

theorem secretState_reachable (password key : String) : Reachable (secretState password key) := by
  unfold secretState
  cases h : Transition.run step (Machine.start 3 (text password)) (secretRun password key) with
  | none => exact ⟨3, text password, [], rfl⟩
  | some s => exact ⟨3, text password, _, h⟩

def exchange (password password' key key' : Bytes) (h : key ≠ []) (h' : key' ≠ []) : Disguise where
  password := (Equiv.swap password password').toEmbedding
  key _ := (Equiv.swap key key').toEmbedding
  key_nil _ := Equiv.swap_apply_of_ne_of_ne h.symm h'.symm

theorem secrets_compared_sample :
    ∃ s s', ∃ h : Reachable s, ∃ h' : Reachable s', ∃ σ : Disguise,
      σ.password (text "pw") = text "sesame" ∧ σ.key (text "#42") (text "open") = text "shut" ∧
      s'.network h'.table = (s.network h.table).disguise σ ∧
      ∀ d ∈ s.clients,
        List.Forall₂ σ.Shown (queuedTo d.fd s) (queuedTo d.fd s') ∧
        ((∀ before after, s.actions = before ++ after → .connect d.fd ∉ after →
            ∀ name r, (Network.replay s.passwd before).1.room name = some r → d.fd ∈ r.members →
              ∀ key, σ.key name key = key) →
          queuedTo d.fd s' = queuedTo d.fd s) := by
  have given : (secretState "sesame" "shut").actions = (secretState "pw" "open").actions.map
      (Action.disguise (exchange (text "pw") (text "sesame") (text "open") (text "shut")
        (by decide) (by decide))) := by decide +kernel
  have passwd : (secretState "sesame" "shut").passwd =
      Equiv.swap (text "pw") (text "sesame") (secretState "pw" "open").passwd := by decide +kernel
  exact ⟨_, _, secretState_reachable _ _, secretState_reachable _ _, _, Equiv.swap_apply_left _ _,
    Equiv.swap_apply_left _ _, secrets_compared (secretState_reachable _ _)
      (secretState_reachable _ _) _ passwd given⟩

/-- The client that does not guess the key is told the same. -/
example : queuedTo 5 (secretState "pw" "open") = queuedTo 5 (secretState "sesame" "shut") ∧
    queuedTo 4 (secretState "pw" "open") ≠ queuedTo 4 (secretState "sesame" "shut") := by
  decide +kernel

end IrcServer
