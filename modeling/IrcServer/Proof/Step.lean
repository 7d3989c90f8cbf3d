import IrcServer.Proof.Dispatch
import IrcServer.Spec.Step

/-! # Every event has one of the listed effects -/

namespace IrcServer

open Search Machine

/-! ## The loop of `leave_chanels` -/

/-- The loop at index `done.length` has dealt with `done`; it maps the channels of `rest` and drops
those nobody is left in. -/
theorem leaveLoop_eq (fd : Int) (fuel : Nat) (done rest : List Channel) (h : rest.length ≤ fuel) :
    leaveLoop fd fuel done.length (done ++ rest) =
      done ++ (rest.map (·.leave fd)).filter fun ch => !ch.isEmpty := by
  induction fuel generalizing done rest with
  | zero =>
      obtain rfl := List.length_eq_zero_iff.mp (Nat.le_zero.mp h)
      simp [leaveLoop]
  | succ fuel ih =>
      cases rest with
      | nil => simp [leaveLoop]
      | cons ch rest =>
          have hlen : rest.length ≤ fuel := Nat.le_of_succ_le_succ h
          have hi : done.length < (done ++ ch :: rest).length := by simp
          have hleave : ((ch.removeMember fd).removeInvite fd).removeOperator fd = ch.leave fd := rfl
          have hset : (done ++ ch :: rest).set done.length (ch.leave fd) =
              done ++ ch.leave fd :: rest := by simp
          have herase : (done ++ ch.leave fd :: rest).eraseIdx done.length = done ++ rest := by
            simp [List.eraseIdx_append_of_length_le]
          rw [leaveLoop, dif_pos hi]
          simp only [List.getElem_append_right (Nat.le_refl done.length), Nat.sub_self,
            List.getElem_cons_zero, hleave, hset, herase]
          split
          · next hempty => simp [ih done rest hlen, hempty]
          · next hempty =>
              have hnext := ih (done ++ [ch.leave fd]) rest hlen
              rw [List.length_append, List.length_singleton, List.append_assoc,
                List.singleton_append] at hnext
              simp [hnext, hempty]

theorem leaveChanels_eq (fd : Int) (channels : List Channel) :
    leaveChanels fd channels =
      (channels.map (·.leave fd)).filter fun ch => !ch.isEmpty :=
  leaveLoop_eq fd channels.length [] channels (Nat.le_refl _)

/-! ## Events -/

theorem clientAt_table {s : Machine} {i : Nat} (hi : i < s.clients.length) :
    s.clients[i]? = some (s.clientAt i) := by
  simp [Server.clientAt, hi]

/-- Entry `i + 1` of the poll table belongs to the client at position `i`. -/
theorem pollEntry_fd {s : Machine} (table : Table s.toServer) {i : Nat} {c : Client}
    (hc : s.clients[i]? = some c) : (s.fds.getD (i + 1) ⟨-1, 0, 0⟩).fd = c.fd := by
  have halign := congrArg (·[i + 1]?) table.aligned
  simp only [List.getElem?_map, List.getElem?_cons_succ, hc, Option.map_some] at halign
  obtain ⟨p, hp, hpfd⟩ := Option.map_eq_some_iff.mp halign
  simpa [hp] using hpfd

theorem disconnect_eq {s : Machine} (table : Table s.toServer) {i : Nat} {c : Client}
    (hc : s.clients[i]? = some c) : disconnect (i + 1) s = s.without i c := by
  simp only [disconnect, pollEntry_fd table hc, leaveChanels_eq, without, Nat.add_sub_cancel]

theorem handleSend_flushed {s : Machine} (table : Table s.toServer) {i : Nat} {c : Client}
    (hc : s.clients[i]? = some c) {send : Except Errno Nat}
    (stays : (handleSend (i + 1) send s).1 = false) :
    Flushed s i c (handleSend (i + 1) send s).2 := by
  unfold handleSend at stays ⊢
  simp only [Nat.add_sub_cancel, Server.clientAt_of_getElem? hc] at stays ⊢
  split
  · next hdata => exact .idle (by simpa [Client.sendData] using hdata)
  · next hdata =>
      rw [if_neg hdata] at stays
      split
      · simp at stays
      · next bytes _ =>
          dsimp only
          rw [pollEntry_fd table hc]
          split
          · next hdone => exact .entirely bytes (by simpa [Client.sendData] using hdone)
          · next hleft => exact .partly bytes (by simpa [Client.sendData] using hleft)
      · exact .blocked
      · simp at stays

theorem step_flushed {s s' : Machine} (table : Table s.toServer) {i : Nat} {c : Client}
    (hc : s.clients[i]? = some c) {send : Except Errno Nat}
    (h : step s (.flush i send) = some s') : Flushed s i c s' := by
  simp only [step] at h
  split at h
  · next hi =>
      cases h
      exact handleSend_flushed table hc hi.2.2
  · cases h

theorem Flushed.stepped {s t : Machine} {i : Nat} {c : Client} (h : Flushed s i c t)
    (hc : s.clients[i]? = some c) (send : Except Errno Nat) : Stepped s (.flush i send) t := by
  have hset : s.clients.set i c = s.clients := set_of_getElem? hc
  have clear : ∀ p : PollFd, ({ p with events := p.events &&& ~~~POLLOUT } : PollFd).fd = p.fd :=
    fun _ => rfl
  have sent : ∀ bytes, ∀ entry ∈ [Entry.sent c.fd (c.sendBuffer.take bytes)],
      ∃ taken, entry = .sent c.fd taken := fun bytes entry h =>
    ⟨_, List.mem_singleton.mp h⟩
  cases h with
  | idle =>
      have h := Stepped.flushed i c hc send c.sendBuffer _ clear [] (by simp)
      simpa [hset, clearPollout] using h
  | blocked =>
      have h := Stepped.flushed i c hc send c.sendBuffer id (fun _ => rfl) [] (by simp)
      simpa [hset, List.modify_id] using h
  | partly bytes =>
      have h := Stepped.flushed i c hc send (c.sendBuffer.drop bytes) id (fun _ => rfl) _ (sent bytes)
      simpa [setClient, record, List.modify_id] using h
  | entirely bytes =>
      exact Stepped.flushed i c hc send (c.sendBuffer.drop bytes) _ clear _ (sent bytes)

theorem step_command {s s' : Machine} {i : Nat} {c : Client} {line : Bytes}
    (hc : s.clients[i]? = some c) (h : step s (.command i line) = some s') :
    LF ∉ line ∧ s' = dispatchCommand i line (s.record (.line c.fd line)) := by
  simp only [step, Server.clientAt_of_getElem? hc, dispatchLine] at h
  split at h
  · next hi =>
      cases h
      exact ⟨hi.2, rfl⟩
  · cases h

theorem step_stepped {s s' : Machine} (table : Table s.toServer) {e : Event}
    (h : step s e = some s') : Stepped s e s' := by
  cases e with
  | connect accepted fcntl =>
      simp only [step] at h
      split at h
      · next haccept =>
          cases h
          unfold connect
          split
          · next hfail => exact .unconnected accepted fcntl hfail
          · next hok =>
              have hopen : (0 ≤ accepted ∧ accepted < 2 ^ 31) ∧
                  accepted ∉ s.fds.map (·.fd) := by
                simpa [acceptable, hok] using haccept
              split
              · simpa [record] using Stepped.dropped accepted fcntl hopen.2
              · exact .connected accepted fcntl hopen.2 hopen.1
      · cases h
  | buffer i contents =>
      simp only [step] at h
      split at h
      · next hi =>
          cases h
          exact .buffered i _ (clientAt_table hi) contents
      · cases h
  | command i line =>
      simp only [step] at h
      split at h
      · next hi =>
          cases h
          have hc := clientAt_table hi.1
          obtain ⟨c', channels, sends, effect, heq⟩ :=
            dispatchCommand_settles (s := s.record (.line (s.clientAt i).fd line)) hc table hi.2
          rw [dispatchLine, heq]
          exact .dispatched i _ hc line hi.2 c' channels sends effect
      · cases h
  | flush i send =>
      have hi : i < s.clients.length := by
        simp only [step, Option.ite_none_right_eq_some] at h
        exact h.1.1
      exact (step_flushed table (clientAt_table hi) h).stepped (clientAt_table hi) send
  | disconnect i =>
      simp only [step] at h
      split at h
      · next hi =>
          cases h
          rw [disconnect_eq table (clientAt_table hi)]
          exact .disconnected i _ (clientAt_table hi)
      · cases h

end IrcServer
