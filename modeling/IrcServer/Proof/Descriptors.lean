import Mathlib.Logic.Equiv.Nat
import IrcServer.Proof.Replay
import IrcServer.Spec.Rename

/-! # Descriptors are names

The kernel may give a connection any number that is free, and give it again after a
`close`. What the server does depends on nothing but the order in which it accepts,
reads and closes: neither on the numbers, nor on who had them before.
-/

namespace IrcServer

open Machine

/-- Two servers with the same password that accept, dispatch and close in the same order have the
same tables up to the numbers of the descriptors, and have queued the same to the connections
that they have accepted in the same place. -/
theorem descriptors_irrelevant {s s' : Machine} (h : Reachable s) (h' : Reachable s')
    (passwd : s'.passwd = s.passwd) (same : (numbered s'.actions).2 = (numbered s.actions).2) :
    ∃ e : Int ≃ Int, (s.network h.table).rename e = s'.network h'.table ∧
      ∀ d ∈ s.clients, ∃ d' ∈ s'.clients, d'.fd = e d.fd ∧ queuedTo d'.fd s' = queuedTo d.fd s ∧
        (numbered s'.actions).1.session d'.fd = (numbered s.actions).1.session d.fd := by
  obtain ⟨network, mail⟩ := h.replayed.mirrors
  obtain ⟨network', mail'⟩ := h'.replayed.mirrors
  obtain ⟨e, numbers⟩ := h.legal.renumbered Equiv.intEquivNat
  obtain ⟨e', numbers'⟩ := h'.legal.renumbered Equiv.intEquivNat
  rw [passwd, same] at numbers'
  rw [passwd] at network' mail'
  have hrename : (s.network h.table).rename (e.trans e'.symm) = s'.network h'.table := by
    have hback : (s'.network h'.table).rename (e'.trans e'.symm) = s'.network h'.table :=
      Network.rename_eq_self (by simp) (by simp)
    rw [← Network.rename_trans, ← network, numbers.network, ← numbers'.network, network',
      Network.rename_trans, hback]
  refine ⟨e.trans e'.symm, hrename, fun d hd => ?_⟩
  have haccount : (s'.network h'.table).account (e'.symm (e d.fd)) = some d.account := by
    rw [← hrename]
    exact (Network.rename_account _ _ _).trans (network_account h.table hd)
  obtain ⟨d', hd', hfd, _⟩ := network_account_some h'.table haccount
  have known : (Network.replay s.passwd s.actions).1.account d.fd ≠ none := by
    rw [network]
    exact network_known h.table hd
  have known' : (Network.replay s.passwd s'.actions).1.account d'.fd ≠ none := by
    rw [network']
    exact network_known h'.table hd'
  have hnumber : e' d'.fd = e d.fd := by rw [hfd, e'.apply_symm_apply]
  refine ⟨d', hd', hfd, ?_, ?_⟩
  · rw [mail' d' hd', mail d hd, ← numbers'.mail _ known', ← numbers.mail _ known, hnumber]
  · rw [← numbers'.session _ known', ← numbers.session _ known, hnumber]

/-- The first of two connections leaves, and a third comes and takes its place in the channel. -/
def successionRun (first second third : Int) : List Event :=
  [.connect first 0, .connect second 0] ++ registration 0 "kaw" ++ registration 1 "akira" ++
    [.command 0 (text "JOIN #42"), .command 1 (text "JOIN #42"), .disconnect 0,
      .connect third 0] ++ registration 1 "kaw" ++ [.command 1 (text "JOIN #42")]

/-- The third connection is given the number of the first, or not. -/
theorem descriptors_irrelevant_sample :
    ∃ s s', ∃ h : Reachable s, ∃ h' : Reachable s', ∃ e : Int ≃ Int,
      (s.network h.table).rename e = s'.network h'.table ∧
        ∀ d ∈ s.clients, ∃ d' ∈ s'.clients, d'.fd = e d.fd ∧ queuedTo d'.fd s' = queuedTo d.fd s ∧
          (numbered s'.actions).1.session d'.fd = (numbered s.actions).1.session d.fd := by
  have passwd : (stateAfter (successionRun 9 7 8)).passwd =
      (stateAfter (successionRun 4 5 4)).passwd := by decide
  have same : (numbered (stateAfter (successionRun 9 7 8)).actions).2 =
      (numbered (stateAfter (successionRun 4 5 4)).actions).2 := by decide +kernel
  exact ⟨_, _, stateAfter_reachable _, stateAfter_reachable _,
    descriptors_irrelevant (stateAfter_reachable _) (stateAfter_reachable _) passwd same⟩

end IrcServer
