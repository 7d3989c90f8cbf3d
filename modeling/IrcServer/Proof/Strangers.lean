import Mathlib.Logic.Equiv.Nat
import IrcServer.Proof.Replay
import IrcServer.Spec.Rename
import IrcServer.Spec.Strangers

/-! # Strangers go unnoticed

A connection that has not given the password can do nothing that anybody else can tell
from its absence, whatever it sends, and whoever gets its descriptor afterwards. There is
one way to notice it: to ask for the client with the empty nickname.
-/

namespace IrcServer

open Machine

/-- A server to which the strangers have not connected: it has the same channels and the same
accounts of all others, up to the numbers of the descriptors, and has queued the same to them. -/
theorem strangers_unnoticed {s s' : Machine} (h : Reachable s) (h' : Reachable s')
    (passwd : s'.passwd = s.passwd) (strange : Nat → Bool)
    (discreet : ∀ action ∈ (numbered s.actions).2, action.Discreet s.passwd strange)
    (without : (numbered s'.actions).2 =
      (numbered ((numbered s.actions).2.filter fun action => !strange action.connection)).2) :
    ∃ e : Int ≃ Int,
      (∀ name, (s'.network h'.table).room name =
        ((s.network h.table).room name).map (Room.rename e)) ∧
      ∀ d ∈ s.clients, strange ((numbered s.actions).1.session d.fd) = false →
        ∃ d' ∈ s'.clients, d'.fd = e d.fd ∧ d'.account = d.account ∧
          queuedTo d'.fd s' = queuedTo d.fd s := by
  obtain ⟨network, mail⟩ := h.replayed.mirrors
  obtain ⟨network', mail'⟩ := h'.replayed.mirrors
  rw [passwd] at network' mail'
  have legal := Network.legal_without (h.legal.numbered Equiv.intEquivNat) discreet
  obtain ⟨unnoticed, others⟩ := Network.replay_unnoticed discreet
  obtain ⟨e, numbers⟩ := h.legal.renumbered Equiv.intEquivNat
  obtain ⟨f, again⟩ := legal.renumbered (Equiv.refl Nat)
  obtain ⟨e', numbers'⟩ := h'.legal.renumbered Equiv.intEquivNat
  rw [passwd, without] at numbers'
  -- the server without strangers, from the numbers of the connections in the first
  have hwithout : (Network.replay s.passwd ((numbered s.actions).2.filter
      fun action => !strange action.connection)).1.rename (f.trans e'.symm) =
        s'.network h'.table := by
    have hback : (s'.network h'.table).rename (e'.trans e'.symm) = s'.network h'.table :=
      Network.rename_eq_self (by simp) (by simp)
    rw [← Network.rename_trans, again.network, ← numbers'.network, network', Network.rename_trans,
      hback]
  have hwith : (Network.replay s.passwd (numbered s.actions).2).1.rename (f.trans e'.symm) =
      (s.network h.table).rename (e.trans (f.trans e'.symm)) := by
    rw [← numbers.network, Network.rename_trans, network]
  refine ⟨e.trans (f.trans e'.symm), fun name => ?_, fun d hd known => ?_⟩
  · rw [← hwithout]
    change (Network.room _ name).map _ = _
    rw [← unnoticed.room]
    exact congrArg (fun net => net.room name) hwith
  · have connected : (Network.replay s.passwd s.actions).1.account d.fd ≠ none := by
      rw [network]
      exact network_known h.table hd
    have hsession := numbers.session d.fd connected
    rw [← hsession] at known
    have haccount : (Network.replay s.passwd ((numbered s.actions).2.filter
        fun action => !strange action.connection)).1.account (e d.fd) = some d.account := by
      rw [← unnoticed.account _ known, ← numbers.network, Network.rename_account, network]
      exact network_account h.table hd
    have haccount' : (s'.network h'.table).account (e'.symm (f (e d.fd))) = some d.account := by
      rw [← hwithout]
      exact (Network.rename_account _ _ _).trans haccount
    obtain ⟨d', hd', hfd, same⟩ := network_account_some h'.table haccount'
    have connected' : (Network.replay s.passwd s'.actions).1.account d'.fd ≠ none := by
      rw [network']
      exact network_known h'.table hd'
    have hnumber : e' d'.fd = f (e d.fd) := by rw [hfd, e'.apply_symm_apply]
    refine ⟨d', hd', hfd, same, ?_⟩
    rw [mail' d' hd', mail d hd, ← numbers'.mail _ connected', hnumber,
      again.mail _ (by simp [haccount]), ← others _ known, numbers.mail _ connected]

/-- Somebody with the wrong password tries to join, and leaves its descriptor to a client that has
the right one. Another connection is still open. -/
def strangerRun : List Event :=
  [.connect 4 0, .connect 5 0] ++ registration 0 "kaw" ++
    [.command 1 (text "PASS wrong"), .command 1 (text "NICK akira"), .command 1 (text "JOIN #42"),
      .command 0 (text "JOIN #42"), .disconnect 1, .connect 5 0] ++ registration 1 "akira" ++
    [.command 1 (text "JOIN #42"), .connect 6 0, .command 2 (text "PRIVMSG #42 :hello")]

def friendsRun : List Event :=
  [.connect 4 0] ++ registration 0 "kaw" ++ [.command 0 (text "JOIN #42"), .connect 9 0] ++
    registration 1 "akira" ++ [.command 1 (text "JOIN #42")]

theorem strangers_unnoticed_sample :
    ∃ s s', ∃ h : Reachable s, ∃ h' : Reachable s', ∃ e : Int ≃ Int,
      (∀ name, (s'.network h'.table).room name =
        ((s.network h.table).room name).map (Room.rename e)) ∧
      ∀ d ∈ s.clients, [1, 3].contains ((numbered s.actions).1.session d.fd) = false →
        ∃ d' ∈ s'.clients, d'.fd = e d.fd ∧ d'.account = d.account ∧
          queuedTo d'.fd s' = queuedTo d.fd s := by
  have passwd : (stateAfter friendsRun).passwd = (stateAfter strangerRun).passwd := by decide
  have discreet : ∀ action ∈ (numbered (stateAfter strangerRun).actions).2,
      action.Discreet (stateAfter strangerRun).passwd fun n => [1, 3].contains n := by
    decide +kernel
  have without : (numbered (stateAfter friendsRun).actions).2 =
      (numbered ((numbered (stateAfter strangerRun).actions).2.filter
        fun action => !([1, 3].contains action.connection))).2 := by decide +kernel
  exact ⟨_, _, stateAfter_reachable _, stateAfter_reachable _,
    strangers_unnoticed (stateAfter_reachable _) (stateAfter_reachable _) passwd _ discreet without⟩

/-- The empty nickname is asked for: with a stranger it is not on the channel, without one it does
not exist. -/
example :
    queuedTo 4 (stateAfter (friendsRun.take 5 ++
      [.connect 5 0, .command 0 (text "KICK #42 :")])) ≠
    queuedTo 4 (stateAfter (friendsRun.take 5 ++ [.command 0 (text "KICK #42 :")])) := by
  decide +kernel

end IrcServer
