import IrcServer.Proof.Table

/-! # Disconnection

The abstract departure deletes one descriptor everywhere: from the three lists of every
channel, from the poll table and from the client table, and the channels nobody is left
in go. `disconnect` does this with positions, in a loop that erases from the vector it
walks over.
-/

namespace IrcServer

open Search Machine

def Channel.purged (f : Int) (ch : Channel) : Channel :=
  { ch with
    memberFds := ch.memberFds.filter (· ≠ f)
    operatorFds := ch.operatorFds.filter (· ≠ f)
    invitedFds := ch.invitedFds.filter (· ≠ f) }

def Machine.departed (f : Int) (s : Machine) : Machine :=
  { s with
    channels := (s.channels.map (·.purged f)).filter fun ch => decide (ch.memberFds ≠ [])
    fds := s.fds.filter fun p => decide (p.fd ≠ f)
    clients := s.clients.filter fun d => decide (d.fd ≠ f)
    history := s.history ++ [.closed f] }

/-- `s'` is `s` without the client of poll entry `i`, which has the descriptor `f`. -/
structure Departure (s : Machine) (i : Nat) (f : Int) (s' : Machine) : Prop where
  /-- Nothing that mentions `f` is left, and nothing else is touched. -/
  departed : s' = s.departed f
  /-- One entry of each table goes, the others stay in order. -/
  fds : s'.fds = s.fds.eraseIdx i
  clients : s'.clients = s.clients.eraseIdx (i - 1)
  /-- The entry that goes is the one of the client that goes. -/
  leaver : (s.clients.map (·.fd))[i - 1]? = some f
  listener : s'.fds[0]? = s.fds[0]?
  /-- Every other client is as it was, next to its own poll entry as that was. -/
  others : ∀ j d p, j + 1 ≠ i → s.clients[j]? = some d → s.fds[j + 1]? = some p →
    p.fd = d.fd ∧ ∃ k, s'.clients[k]? = some d ∧ s'.fds[k + 1]? = some p

theorem Table.paired {s : Machine} (table : Table s.toServer) {j : Nat} {d : Client} {p : PollFd}
    (hd : s.clients[j]? = some d) (hp : s.fds[j + 1]? = some p) : p.fd = d.fd := by
  have h := pollEntry_fd table hd
  simpa [hp] using h

theorem Table.without_channels {s : Machine} (table : Table s.toServer) (f : Int) :
    ((s.channels.map (·.leave f)).filter fun ch => !ch.isEmpty) =
      (s.channels.map (·.purged f)).filter fun ch => decide (ch.memberFds ≠ []) := by
  have hmap : s.channels.map (·.leave f) = s.channels.map (·.purged f) :=
    List.map_congr_left fun ch hch => (table.consistent ch hch).leave_eq f
  rw [hmap]
  apply List.filter_congr
  intro ch _
  cases hmembers : ch.memberFds <;> simp [Channel.isEmpty, hmembers]

theorem eraseIdx_paired {α β : Type*} {xs : List α} {ys : List β} {i j : Nat} {x : α} {y : β}
    (hne : j ≠ i) (hx : xs[j]? = some x) (hy : ys[j + 1]? = some y) :
    ∃ k, (xs.eraseIdx i)[k]? = some x ∧ (ys.eraseIdx (i + 1))[k + 1]? = some y := by
  by_cases hlt : j < i
  · exact ⟨j, by rw [List.getElem?_eraseIdx_of_lt hlt, hx],
      by rw [List.getElem?_eraseIdx_of_lt (by omega), hy]⟩
  · obtain ⟨k, rfl⟩ := Nat.exists_eq_add_of_lt (by omega : i < j)
    refine ⟨i + k, ?_, ?_⟩
    · rw [List.getElem?_eraseIdx_of_ge (by omega), hx]
    · rw [List.getElem?_eraseIdx_of_ge (by omega), hy]

/-- The abstract departure is what `without` does with positions. -/
theorem Table.without_eq {s : Machine} (table : Table s.toServer) {i : Nat} {c : Client}
    (hc : s.clients[i]? = some c) : s.without i c = s.departed c.fd := by
  have hpoll : (s.fds.map (·.fd))[i + 1]? = some c.fd := by
    rw [table.aligned, List.getElem?_cons_succ, List.getElem?_map, hc, Option.map_some]
  rw [List.getElem?_map] at hpoll
  obtain ⟨p, hp, hpfd⟩ := Option.map_eq_some_iff.mp hpoll
  have hfds : s.fds.eraseIdx (i + 1) = s.fds.filter fun p => decide (p.fd ≠ c.fd) := by
    rw [eraseIdx_eq_filter_key (f := (·.fd)) table.distinct hp, hpfd]
  have hclients : s.clients.eraseIdx i = s.clients.filter fun d => decide (d.fd ≠ c.fd) :=
    eraseIdx_eq_filter_key (f := (·.fd)) table.clients_nodup hc
  rw [Machine.without, table.without_channels, hfds, hclients, Machine.departed]

/-- `disconnect` removes one client and nothing else. -/
theorem disconnect_departs {s : Machine} (h : Reachable s) {i : Nat} {f : Int} (hi : 1 ≤ i)
    (hf : (s.fds.map (·.fd))[i]? = some f) : Departure s i f (disconnect i s) := by
  obtain ⟨i, rfl⟩ := Nat.exists_eq_add_of_le' hi
  rw [h.table.aligned, List.getElem?_cons_succ, List.getElem?_map] at hf
  obtain ⟨c, hc, rfl⟩ := Option.map_eq_some_iff.mp hf
  rw [disconnect_eq h.table hc]
  constructor
  case departed => exact h.table.without_eq hc
  case fds => rfl
  case clients => rfl
  case leaver => rw [Nat.add_sub_cancel, List.getElem?_map, hc, Option.map_some]
  case listener => exact List.getElem?_eraseIdx_of_lt (Nat.succ_pos i)
  case others =>
    intro j d p hne hd hp
    exact ⟨h.table.paired hd hp, eraseIdx_paired (by omega) hd hp⟩

/-- The founder of two channels and of a third with a guest leaves. -/
def crowdedRun : List Event :=
  sampleRun ++ [.command 0 (text "JOIN #a"), .command 0 (text "JOIN #b")]

theorem disconnect_departs_crowded :
    Departure (stateAfter crowdedRun) 1 4 (disconnect 1 (stateAfter crowdedRun)) ∧
      (disconnect 1 (stateAfter crowdedRun)).channels.map (·.name) = [text "#42"] :=
  ⟨disconnect_departs (stateAfter_reachable crowdedRun) (by decide) (by decide), by decide⟩

end IrcServer
