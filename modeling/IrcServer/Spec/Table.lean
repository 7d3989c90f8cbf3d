import IrcServer.Spec.Effect

/-! # The tables are well formed

What holds of the poll table, the client table and the channel table between two
events. The proof obligations about loops and searches are stated against it.
-/

namespace IrcServer

/-- A channel whose three descriptor lists are consistent among the connected clients. -/
structure Channel.Consistent (connected : List Int) (ch : Channel) : Prop where
  members_connected : ∀ fd ∈ ch.memberFds, fd ∈ connected
  invited_connected : ∀ fd ∈ ch.invitedFds, fd ∈ connected
  operators_members : ∀ fd ∈ ch.operatorFds, fd ∈ ch.memberFds
  members_nodup : ch.memberFds.Nodup
  operators_nodup : ch.operatorFds.Nodup
  invited_nodup : ch.invitedFds.Nodup
  inhabited : ch.memberFds ≠ []
  valid : validChannelName ch.name = true

structure Table (s : Server) : Prop where
  aligned : s.fds.map (·.fd) = s.fd :: s.clients.map (·.fd)
  distinct : (s.fds.map (·.fd)).Nodup
  consistent : ∀ ch ∈ s.channels, ch.Consistent (s.clients.map (·.fd))
  names : (s.channels.map (·.name)).Nodup

namespace Table

variable {s : Server}

theorem clients_nodup (h : Table s) : (s.clients.map (·.fd)).Nodup := by
  have hdistinct := h.distinct
  rw [h.aligned] at hdistinct
  exact hdistinct.of_cons

/-- The two descriptors of a position determine each other. -/
theorem fd_position (h : Table s) {i j : Nat} {c d : Client} (hi : s.clients[i]? = some c)
    (hj : s.clients[j]? = some d) (hfd : c.fd = d.fd) : i = j :=
  Search.atMostOne_of_nodup h.clients_nodup d.fd i j c d hi hj (by simpa using hfd) (by simp)

theorem fd_eq_iff (h : Table s) {i j : Nat} {c d : Client} (hi : s.clients[i]? = some c)
    (hj : s.clients[j]? = some d) : c.fd = d.fd ↔ i = j := by
  constructor
  · exact h.fd_position hi hj
  · rintro rfl
    rw [Option.some.inj (hi.symm.trans hj)]

end Table

end IrcServer
