import IrcServer.Proof.Launch

/-! # The poll table

The poll table and the client table are written in different functions and by shifted
indices. They stay aligned, and output waits in a send buffer exactly while the poll
entry of the client asks for `POLLOUT`.
-/

namespace IrcServer

open Search Machine Transition

structure PollTable (s : Machine) : Prop where
  size : s.fds.length = s.clients.length + 1
  listening : ∃ p, s.fds[0]? = some p ∧ p.fd = s.fd
  distinct : (s.fds.map (·.fd)).Nodup
  entry : ∀ i p, s.fds[i + 1]? = some p → ∃ c, s.clients[i]? = some c ∧ p.fd = c.fd ∧
    (p.events &&& POLLOUT ≠ 0 ↔ c.sendBuffer ≠ [])

/-! ## One entry -/

/-- The entry asks for `POLLOUT` exactly when there is output. -/
def PollFd.Tracks (p : PollFd) (c : Client) : Prop :=
  p.events &&& POLLOUT ≠ 0 ↔ c.sendBuffer ≠ []

theorem pollout_set (events : BitVec 16) : (events ||| POLLOUT) &&& POLLOUT ≠ 0 := by
  intro h
  have hbit := congrArg (·.getLsbD 2) h
  simp [POLLOUT] at hbit

theorem pollout_clear (events : BitVec 16) : (events &&& ~~~POLLOUT) &&& POLLOUT = 0 := by
  rw [BitVec.and_assoc]
  simp [POLLOUT]

def Flagged (s : Machine) : Prop :=
  ∀ i c p, s.clients[i]? = some c → s.fds[i + 1]? = some p → p.Tracks c

section Flagged

variable {s : Machine}

theorem start_flagged (fd : Int) (passwd : Bytes) : Flagged (Machine.start fd passwd) := by
  intro i c p hc
  simp [Machine.start] at hc

theorem setRevents_flagged (revents : List (BitVec 16)) (h : Flagged s) :
    Flagged (setRevents revents s) := by
  intro i c p hc hp
  rw [setRevents, List.getElem?_mapIdx] at hp
  obtain ⟨q, hq, rfl⟩ := Option.map_eq_some_iff.mp hp
  exact h i c q hc hq

theorem update_flagged {t : Machine} {i : Nat} {f : PollFd → PollFd} {g : Client → Client}
    (hclients : ∀ j, t.clients[j]? = s.clients[j]?.map fun c => if i = j then g c else c)
    (hfds : t.fds = s.fds.modify (i + 1) f)
    (kept : ∀ c p, s.clients[i]? = some c → PollFd.Tracks p c → (f p).Tracks (g c))
    (h : Flagged s) : Flagged t := by
  intro j d p hd hp
  rw [hclients] at hd
  rw [hfds, List.getElem?_modify] at hp
  obtain ⟨c, hc, rfl⟩ := Option.map_eq_some_iff.mp hd
  obtain ⟨q, hq, rfl⟩ := Option.map_eq_some_iff.mp hp
  have hold := h j c q hc hq
  by_cases hij : i = j
  · subst hij
    simp only [if_true]
    exact kept c q hc hold
  · have hij' : ¬ i + 1 = j + 1 := fun heq => hij (Nat.succ.inj heq)
    rw [if_neg hij, if_neg hij']
    exact hold

theorem set_getElem? {i : Nat} {c : Client} (hc : s.clients[i]? = some c) (c' : Client) (j : Nat) :
    (s.clients.set i c')[j]? = s.clients[j]?.map fun d => if i = j then c' else d := by
  rw [List.getElem?_set]
  by_cases hij : i = j
  · subst hij
    have hi : i < s.clients.length := (List.getElem?_eq_some_iff.mp hc).choose
    simp [hi]
  · simp [hij]

theorem set_flagged {t : Machine} {i : Nat} {c : Client} (hc : s.clients[i]? = some c) (c' : Client)
    (same : c'.sendBuffer = c.sendBuffer) (hclients : t.clients = s.clients.set i c')
    (hfds : t.fds = s.fds) (h : Flagged s) : Flagged t := by
  refine update_flagged (i := i) (f := id) (g := fun _ => c')
    (fun j => by rw [hclients, set_getElem? hc]) (by rw [hfds, List.modify_id]) ?_ h
  intro d p hd hp
  obtain rfl := Option.some.inj (hc.symm.trans hd)
  rw [PollFd.Tracks, same]
  exact hp

/-- `sending_queue` writes the buffer and the bit of the same client. -/
theorem sendingQueue_flagged (k : Nat) (m : Bytes) (h : Flagged s) :
    Flagged (s.sendingQueue k m) := by
  by_cases hm : m = []
  · rw [sendingQueue, if_pos (by simp [hm])]
    exact h
  · refine update_flagged (f := fun p => { p with events := p.events ||| POLLOUT })
      (g := (·.appendSendBuff m)) (sendingQueue_getElem? s k m)
      (by rw [sendingQueue, if_neg (by simpa using hm)]) (fun c p _ _ => ?_) h
    have hne : c.sendBuffer ++ m ≠ [] := List.append_ne_nil_of_right_ne_nil _ hm
    exact ⟨fun _ => hne, fun _ => pollout_set p.events⟩

theorem sendEach_flagged (sends : List (Nat × Bytes)) (h : Flagged s) :
    Flagged (sendEach sends s) := by
  induction sends generalizing s with
  | nil => exact h
  | cons call sends ih =>
      rw [sendEach_cons]
      exact ih (sendingQueue_flagged call.1 call.2 h)

theorem Flushed.flagged {t : Machine} {i : Nat} {c : Client} (flushed : Flushed s i c t)
    (hc : s.clients[i]? = some c) (h : Flagged s) : Flagged t := by
  have cleared : ∀ (p : PollFd) (c' : Client), c'.sendBuffer = [] →
      ({ p with events := p.events &&& ~~~POLLOUT } : PollFd).Tracks c' := fun p c' hempty =>
    ⟨fun hbit => absurd (pollout_clear p.events) hbit, fun hne => absurd hempty hne⟩
  have cut : ∀ rest : Bytes, ∀ j, (s.clients.set i { c with sendBuffer := rest })[j]? =
      s.clients[j]?.map fun d => if i = j then { c with sendBuffer := rest } else d := fun rest j =>
    set_getElem? hc _ j
  cases flushed with
  | idle empty =>
      refine update_flagged (g := fun _ => c) (fun j => ?_) rfl (fun d p _ _ => cleared p c empty) h
      rw [clearPollout, ← set_getElem? hc, set_of_getElem? hc]
  | blocked => exact h
  | partly bytes left =>
      refine update_flagged (i := i) (f := id) (g := fun _ => _) (cut _) (List.modify_id _ _).symm
        (fun d p hd hp => ?_) h
      obtain rfl := Option.some.inj (hc.symm.trans hd)
      have hne : c.sendBuffer ≠ [] := fun hnil => left (by rw [hnil, List.drop_nil])
      exact ⟨fun _ => left, fun _ => hp.mpr hne⟩
  | entirely bytes done =>
      exact update_flagged (g := fun _ => _) (cut _) rfl (fun d p _ _ => cleared p _ done) h

theorem including_flagged (table : Table s.toServer) (fd : Int) (h : Flagged s) :
    Flagged (s.including fd) := by
  intro i c p hc hp
  have hsize := table.size
  simp only [including, List.getElem?_append] at hc hp
  by_cases hi : i < s.clients.length
  · rw [if_pos hi] at hc
    rw [if_pos (by omega)] at hp
    exact h i c p hc hp
  · rw [if_neg hi] at hc
    rw [if_neg (by omega)] at hp
    obtain rfl := List.mem_singleton.mp (List.mem_of_getElem? hc)
    obtain rfl := List.mem_singleton.mp (List.mem_of_getElem? hp)
    have hidle : POLLIN &&& POLLOUT = 0 := by decide
    exact ⟨fun hbit => absurd hidle hbit, fun hne => absurd rfl hne⟩

theorem without_flagged (i : Nat) (c : Client) (h : Flagged s) : Flagged (s.without i c) := by
  intro j d p hd hp
  simp only [without, List.getElem?_eraseIdx] at hd hp
  by_cases hj : j < i
  · rw [if_pos hj] at hd
    rw [if_pos (Nat.succ_lt_succ hj)] at hp
    exact h j d p hd hp
  · rw [if_neg hj] at hd
    rw [if_neg (fun hlt => hj (Nat.lt_of_succ_lt_succ hlt))] at hp
    exact h (j + 1) d p hd hp

theorem step_flagged {s' : Machine} {e : Event} (invariant : Invariant s) (h : Flagged s)
    (hstep : step s e = some s') : Flagged s' := by
  cases step_stepped invariant.table hstep with
  | unconnected => exact h
  | dropped => exact h
  | connected accepted => exact including_flagged invariant.table accepted h
  | buffered i c hc contents => exact set_flagged hc { c with buffer := contents } rfl rfl rfl h
  | dispatched i c hc line clean c' channels sends effect =>
      exact sendEach_flagged sends (set_flagged hc c' effect.sendBuffer_eq rfl rfl h)
  | flushed i c hc => exact (step_flushed invariant.table hc hstep).flagged hc h
  | disconnected i c => exact without_flagged i c h

end Flagged

/-! ## Reachable states -/

theorem pollTable_of_flagged {s : Machine} (invariant : Invariant s) (h : Flagged s) :
    PollTable s where
  size := invariant.table.size
  listening := by
    have hhead := congrArg (·[0]?) invariant.table.aligned
    simpa using hhead
  distinct := invariant.table.distinct
  entry := by
    intro i p hp
    have hentry := congrArg (·[i + 1]?) invariant.table.aligned
    simp only [List.getElem?_map, hp, List.getElem?_cons_succ, Option.map_some] at hentry
    obtain ⟨c, hc, hfd⟩ := Option.map_eq_some_iff.mp hentry.symm
    exact ⟨c, hc, hfd.symm, h i c p hc hp⟩

/-- The tables are aligned in every state of `launch`. -/
theorem pollTable_launched {s : Machine} (h : Launched s) : PollTable s := by
  obtain ⟨invariant, hflagged⟩ := h.induct start_flagged
    (fun _ _ _ invariant hflagged hstep => step_flagged invariant hflagged hstep)
    (fun _ revents _ hflagged => setRevents_flagged revents hflagged)
  exact pollTable_of_flagged invariant hflagged

def refusedOperations : List Operation :=
  [.poll [POLLIN], .call (.connect 4 0), .poll [0, POLLIN],
    .call (.handleUser 0 (.ok (text "JOIN #42" ++ crlf))), .poll [0, POLLOUT],
    .call (.handleSend 0 (.ok 5))]

theorem pollTable_sample :
    ∃ s, run operate (Machine.start 3 (text "pw")) refusedOperations = some s ∧ PollTable s := by
  have hrun : (run operate (Machine.start 3 (text "pw")) refusedOperations).isSome = true := by decide
  obtain ⟨s, hs⟩ := Option.isSome_iff_exists.mp hrun
  exact ⟨s, hs, pollTable_launched ⟨3, text "pw", refusedOperations, hs⟩⟩

end IrcServer
