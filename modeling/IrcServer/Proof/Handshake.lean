import IrcServer.Proof.Replay
import IrcServer.Spec.Handshake

/-! # Registration is earned

A connected client is registered exactly if it has given the password, and after it a
nickname that was valid and free and a user name, whatever else has happened.
-/

namespace IrcServer

variable {s : Machine} {d : Client}

theorem registered_has (h : Reachable s) (hd : d ∈ s.clients) :
    d.registered = true ↔
      Network.Has Account.Registered d.fd (Network.replay s.passwd s.actions) := by
  have table := h.replayed.invariant.table
  have connected : (Network.replay s.passwd s.actions).1.account d.fd = some d.account := by
    rw [h.replayed.mirrors.network, network_account table hd]
  rw [Network.has_iff connected]
  exact (h.invariant.identities.sound d hd).account_registered.symm

/-- A client is registered exactly if, since it was accepted, it has sent PASS with the password
and after it both a NICK that was valid and free and a USER with all its parameters. -/
theorem registered_iff_earned (h : Reachable s) (hd : d ∈ s.clients) :
    d.registered = true ↔ ∃ before during, s.actions = before ++ .connect d.fd :: during ∧
      (∀ action ∈ during, action.Keeps d.fd) ∧ Network.Earned s.passwd d.fd before during := by
  rw [registered_has h hd]
  constructor
  · intro has
    have ⟨a, connected, _⟩ := has
    obtain ⟨before, during, hactions, keeps⟩ := Network.connected_since connected
    rw [hactions] at has
    exact ⟨before, during, hactions, keeps, (Network.registered_since keeps).mp has⟩
  · rintro ⟨before, during, hactions, keeps, earned⟩
    rw [hactions]
    exact (Network.registered_since keeps).mpr earned

/-- NICK comes before the password, and is refused. -/
def hastyRun : List Event :=
  [.connect 4 0, .command 0 (text "NICK kaw"), .command 0 (text "PASS pw"),
    .command 0 (text "USER u 0 * :u")]

/-- Whoever waits for the password to be accepted has earned it, the hasty one has not. -/
theorem registered_iff_earned_sample :
    (∃ before during, (stateAfter sampleRun).actions = before ++ .connect 5 :: during ∧
      (∀ action ∈ during, action.Keeps 5) ∧ Network.Earned (text "pw") 5 before during) ∧
      ¬ ∃ before during, (stateAfter hastyRun).actions = before ++ .connect 4 :: during ∧
        (∀ action ∈ during, action.Keeps 4) ∧ Network.Earned (text "pw") 4 before during := by
  have hd : (stateAfter sampleRun).clientAt 1 ∈ (stateAfter sampleRun).clients :=
    List.mem_of_getElem? (clientAt_table (by decide))
  have hd' : (stateAfter hastyRun).clientAt 0 ∈ (stateAfter hastyRun).clients :=
    List.mem_of_getElem? (clientAt_table (by decide))
  have patient := registered_iff_earned (stateAfter_reachable sampleRun) hd
  have hasty := registered_iff_earned (stateAfter_reachable hastyRun) hd'
  have hfd : ((stateAfter sampleRun).clientAt 1).fd = 5 := by decide
  have hfd' : ((stateAfter hastyRun).clientAt 0).fd = 4 := by decide
  have hpasswd : (stateAfter sampleRun).passwd = text "pw" := by decide
  have hpasswd' : (stateAfter hastyRun).passwd = text "pw" := by decide
  rw [hfd, hpasswd] at patient
  rw [hfd', hpasswd'] at hasty
  refine ⟨patient.mp (by decide), fun earned => ?_⟩
  have registered := hasty.mpr earned
  exact absurd registered (by decide)

end IrcServer
