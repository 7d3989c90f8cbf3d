import IrcServer.Model.Launch
import IrcServer.Proof.Chunks

/-! # The event loop is made of calls

A turn of the inner loop is at most two of the calls that `serve` makes, on the client the
poll entry belongs to. So a running program is in a state that `poll` and the calls lead
to, and what every event preserves, and `poll` too, holds while `launch` runs.
-/

namespace IrcServer

open Machine Transition

/-! ## The operations -/

section Operations

variable {s t : Machine}

theorem setRevents_fds_fd (revents : List (BitVec 16)) (s : Machine) :
    (setRevents revents s).fds.map (·.fd) = s.fds.map (·.fd) := by
  apply List.ext_getElem?
  intro i
  simp only [setRevents, List.getElem?_map, List.getElem?_mapIdx, Option.map_map]
  rfl

theorem setRevents_invariant (revents : List (BitVec 16)) (h : Invariant s) :
    Invariant (setRevents revents s) := by
  obtain ⟨⟨aligned, distinct, consistent, names⟩, ⟨sound, unique, members, topics⟩⟩ := h
  have hfds := setRevents_fds_fd revents s
  exact ⟨⟨hfds.trans aligned, hfds ▸ distinct, consistent, names⟩, ⟨sound, unique, members, topics⟩⟩

/-- What the events and `poll` preserve, the operations preserve. -/
theorem operate_preserves {P : Machine → Prop}
    (stepped : ∀ s e s', Invariant s → P s → step s e = some s' → P s')
    (polled : ∀ s revents, Invariant s → P s → P (setRevents revents s))
    {operation : Operation} (h : Invariant s ∧ P s) (hoperate : operate s operation = some t) :
    Invariant t ∧ P t := by
  obtain ⟨invariant, hP⟩ := h
  cases operation with
  | poll revents =>
      cases hoperate
      exact ⟨setRevents_invariant revents invariant, polled s revents invariant hP⟩
  | call call =>
      obtain ⟨events, hrun⟩ := serve_refines invariant hoperate
      have preserved : ∀ a e b, Invariant a ∧ P a → step a e = some b → Invariant b ∧ P b :=
        fun a e b ha hstep => ⟨ha.1.step hstep, stepped a e b ha.1 ha.2 hstep⟩
      exact run_invariant preserved ⟨invariant, hP⟩ hrun

/-- The induction over everything `launch` does. -/
theorem Launched.induct {P : Machine → Prop} (start : ∀ fd passwd, P (Machine.start fd passwd))
    (stepped : ∀ s e s', Invariant s → P s → step s e = some s' → P s')
    (polled : ∀ s revents, Invariant s → P s → P (setRevents revents s)) (h : Launched s) :
    Invariant s ∧ P s := by
  obtain ⟨fd, passwd, operations, hrun⟩ := h
  exact run_invariant (fun _ _ _ hs hoperate => operate_preserves stepped polled hs hoperate)
    ⟨start_invariant fd passwd, start fd passwd⟩ hrun

theorem Launched.invariant (h : Launched s) : Invariant s :=
  (h.induct (P := fun _ => True) (fun _ _ => trivial) (fun _ _ _ _ _ _ => trivial)
    fun _ _ _ _ => trivial).1

end Operations

/-! ## One turn -/

section Turn

variable {s : Machine} {i : Nat} {results : Results}

def Calls (s t : Machine) : Prop := ∃ calls, run serve s calls = some t

theorem Calls.none (s : Machine) : Calls s s := ⟨[], rfl⟩

theorem Calls.one {t : Machine} (call : Call) (h : serve s call = some t) : Calls s t :=
  ⟨[call], run_cons_some.mpr ⟨t, h, rfl⟩⟩

theorem Calls.trans {t u : Machine} (h : Calls s t) (h' : Calls t u) : Calls s u := by
  obtain ⟨calls, hrun⟩ := h
  obtain ⟨calls', hrun'⟩ := h'
  exact ⟨calls ++ calls', run_append_some.mpr ⟨t, hrun, hrun'⟩⟩

theorem Table.size {s : Server} (table : Table s) : s.fds.length = s.clients.length + 1 := by
  have hlength := congrArg List.length table.aligned
  simpa using hlength

theorem Table.listening {s : Server} (table : Table s) : (s.fds.getD 0 ⟨-1, 0, 0⟩).fd = s.fd := by
  have hhead := congrArg (·[0]?) table.aligned
  simp only [List.getElem?_map, List.getElem?_cons_zero] at hhead
  obtain ⟨p, hp, hfd⟩ := Option.map_eq_some_iff.mp hhead
  simpa [hp] using hfd

theorem receive_calls (results : Results) (invariant : Invariant s) (hi : i < s.clients.length) :
    Calls s (receive results (i + 1) s).2 ∧ ((receive results (i + 1) s).1 = false →
      i < (receive results (i + 1) s).2.clients.length) := by
  unfold receive
  split
  · refine ⟨.one (.handleUser i results.recv) (if_pos hi), fun stays => ?_⟩
    cases hrecv : results.recv with
    | error errno =>
        rw [hrecv] at stays
        cases errno with
        | wouldBlock => exact hi
        | other => cases stays
    | ok data =>
        rw [hrecv] at stays
        have hne : data ≠ [] := by
          rintro rfl
          cases stays
        rw [(handleUser_received invariant hi hne).2.length]
        exact hi
  · exact ⟨.none s, fun _ => hi⟩

theorem answer_calls (hi : i < s.clients.length)
    (hsend : sendable (s.clientAt i) results.send = true) :
    Calls s (answer results (i + 1) s).2 := by
  unfold answer
  split
  · exact .one (.disconnect i) (if_pos hi)
  · split
    · exact .one (.handleSend i results.send) (if_pos ⟨hi, hsend⟩)
    · exact .none s

theorem turn_calls (invariant : Invariant s) (hi : i < s.fds.length)
    (hresults : admissible results i s = true) : Calls s (turn results i s).2 := by
  obtain ⟨haccept, hsend⟩ := Bool.and_eq_true_iff.mp hresults
  unfold turn
  split
  · exact .none s
  · split
    · dsimp only
      split
      · exact .one (.connect results.accepted results.fcntl) (if_pos haccept)
      · exact .none s
    · next hother =>
        -- the entry is not the first one, so it belongs to a client
        obtain ⟨k, rfl⟩ : ∃ k, i = k + 1 := by
          cases i with
          | zero => exact absurd invariant.table.listening hother
          | succ k => exact ⟨k, rfl⟩
        have hk : k < s.clients.length := by
          rw [invariant.table.size] at hi
          exact Nat.lt_of_succ_lt_succ hi
        obtain ⟨hreceive, hstays⟩ := receive_calls results invariant hk
        dsimp only
        split
        · exact hreceive
        · next hgone =>
            exact hreceive.trans
              (answer_calls (hstays (by simpa using hgone)) (by simpa using hsend))

end Turn

/-! ## The program -/

section Program

variable {p q : Process} {tick : Tick}

theorem Calls.operations {s t : Machine} (h : Calls s t) :
    ∃ operations, run operate s operations = some t := by
  obtain ⟨calls, hrun⟩ := h
  exact run_refines (I := fun _ => True) (fun _ _ _ _ _ => trivial)
    (fun s call s' _ hserve => ⟨[.call call], run_cons_some.mpr ⟨s', hserve, rfl⟩⟩) trivial hrun

theorem Launched.run {s t : Machine} {operations : List Operation} (h : Launched s)
    (hrun : Transition.run operate s operations = some t) : Launched t := by
  obtain ⟨fd, passwd, before, hbefore⟩ := h
  exact ⟨fd, passwd, before ++ operations, run_append_some.mpr ⟨s, hbefore, hrun⟩⟩

inductive Advanced (p : Process) : Tick → Process → Prop
  | polled (revents : List (BitVec 16)) (at_ : p.phase = .polling) :
      Advanced p (.poll revents) ⟨setRevents revents p.server, .scanning 0⟩
  | interrupted (at_ : p.phase = .polling) : Advanced p .interrupted p
  | failed (at_ : p.phase = .polling) : Advanced p .failed ⟨p.server, .left⟩
  | turned (results : Results) (i : Nat) (at_ : p.phase = .scanning i)
      (inside : i < p.server.fds.length) (assumed : admissible results i p.server = true) :
      Advanced p (.turn results)
        ⟨(turn results i p.server).2, .scanning (turn results i p.server).1⟩
  | scanned (results : Results) (i : Nat) (at_ : p.phase = .scanning i) :
      Advanced p (.turn results) ⟨p.server, .polling⟩
  | shutdown (taken : Int → Nat) (at_ : p.phase = .polling) :
      Advanced p (.shutdown taken) ⟨shutdown taken p.server, .left⟩
  | destructor (at_ : p.phase = .left) : Advanced p .destructor ⟨destroy p.server, .destroyed⟩

theorem advance_advanced (h : advance p tick = some q) : Advanced p tick q := by
  cases tick with
  | turn results =>
      simp only [advance] at h
      split at h
      · next i hphase =>
          split at h
          · next hi =>
              split at h
              · next hresults =>
                  cases h
                  exact .turned results i hphase hi hresults
              · cases h
          · cases h
            exact .scanned results i hphase
      · cases h
  | poll revents =>
      simp only [advance, Option.ite_none_right_eq_some, Option.some.injEq] at h
      obtain ⟨hphase, rfl⟩ := h
      exact .polled revents hphase
  | interrupted =>
      simp only [advance, Option.ite_none_right_eq_some, Option.some.injEq] at h
      obtain ⟨hphase, rfl⟩ := h
      exact .interrupted hphase
  | failed =>
      simp only [advance, Option.ite_none_right_eq_some, Option.some.injEq] at h
      obtain ⟨hphase, rfl⟩ := h
      exact .failed hphase
  | shutdown taken =>
      simp only [advance, Option.ite_none_right_eq_some, Option.some.injEq] at h
      obtain ⟨hphase, rfl⟩ := h
      exact .shutdown taken hphase
  | destructor =>
      simp only [advance, Option.ite_none_right_eq_some, Option.some.injEq] at h
      obtain ⟨hphase, rfl⟩ := h
      exact .destructor hphase

theorem not_running {s : Machine} {phase : Phase} (h : phase = .left ∨ phase = .destroyed) :
    ¬ (⟨s, phase⟩ : Process).Running := by
  rintro (hpolling | ⟨i, hscanning⟩)
  · rcases h with rfl | rfl <;> cases hpolling
  · rcases h with rfl | rfl <;> cases hscanning

/-- A program that is still running after a step was running before it, and the step is made of
operations. -/
theorem Advanced.operations (h : Advanced p tick q) (running : q.Running) :
    p.Running ∧
      (Invariant p.server → ∃ operations, run operate p.server operations = some q.server) := by
  cases h with
  | polled revents at_ => exact ⟨.inl at_, fun _ => ⟨[.poll revents], rfl⟩⟩
  | interrupted at_ => exact ⟨.inl at_, fun _ => ⟨[], rfl⟩⟩
  | turned results i at_ inside assumed =>
      exact ⟨.inr ⟨i, at_⟩, fun invariant => (turn_calls invariant inside assumed).operations⟩
  | scanned results i at_ => exact ⟨.inr ⟨i, at_⟩, fun _ => ⟨[], rfl⟩⟩
  | failed => exact absurd running (not_running (.inl rfl))
  | shutdown => exact absurd running (not_running (.inl rfl))
  | destructor => exact absurd running (not_running (.inr rfl))

theorem running_launched {fd : Int} {passwd : Bytes} {ticks : List Tick}
    (hrun : run advance (Process.start fd passwd) ticks = some p) (running : p.Running) :
    Launched p.server := by
  have preserved : ∀ a tick b, (a.Running → Launched a.server) → advance a tick = some b →
      (b.Running → Launched b.server) := by
    intro a tick b ha hadvance hb
    obtain ⟨hrunning, hoperations⟩ := (advance_advanced hadvance).operations hb
    obtain ⟨operations, hrun⟩ := hoperations (ha hrunning).invariant
    exact (ha hrunning).run hrun
  exact run_invariant preserved (fun _ => ⟨fd, passwd, [], rfl⟩) hrun running

end Program

end IrcServer
