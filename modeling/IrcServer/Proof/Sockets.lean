import IrcServer.Library.Ownership
import IrcServer.Proof.Polling
import IrcServer.Proof.Stream

/-! # Closing sockets

While `launch` runs, the sockets in the poll table are the open ones, and the destructor
closes them. `shutdown` closes the socket of every client in its first loop, and again in
the `disconnect` calls that follow: a run closes every socket exactly once if and only if
nobody is connected when `shutdown` is called.
-/

namespace IrcServer

open Search Machine Transition Ownership

/-- What the history says about sockets: `accept` opens, `close` closes. -/
def socketUses (entries : List Entry) : List (Use Int) :=
  entries.filterMap fun
    | .accepted fd => some (.acquire fd)
    | .closed fd => some (.release fd)
    | _ => none

def Process.sockets (fd : Int) (p : Process) : List (Use Int) :=
  .acquire fd :: socketUses p.server.history

def ClosesTwice (p : Process) (tick : Tick) : Prop :=
  (∃ taken, tick = .shutdown taken) ∧ p.server.clients ≠ []

/-! ## What is open -/

def Opens (fd : Int) (history : List Entry) (sockets : List Int) : Prop :=
  ∃ held, run use [] (.acquire fd :: socketUses history) = some held ∧ held.Perm sockets

theorem socketUses_append (xs ys : List Entry) :
    socketUses (xs ++ ys) = socketUses xs ++ socketUses ys :=
  List.filterMap_append

theorem socketUses_queued (f : Nat × Bytes → Int) (g : Nat × Bytes → Bytes)
    (sends : List (Nat × Bytes)) :
    socketUses (sends.map fun call => .queued (f call) (g call)) = [] := by
  induction sends with
  | nil => rfl
  | cons call sends ih => exact ih

section Opens

variable {fd : Int} {history entries : List Entry} {before after : List Int}

theorem Opens.extend (h : Opens fd history before)
    (hrun : ∀ held : List Int, held.Perm before →
      ∃ held', run use held (socketUses entries) = some held' ∧ held'.Perm after) :
    Opens fd (history ++ entries) after := by
  obtain ⟨held, hheld, hperm⟩ := h
  obtain ⟨held', hheld', hperm'⟩ := hrun held hperm
  refine ⟨held', ?_, hperm'⟩
  rw [socketUses_append, ← List.cons_append]
  exact run_append_some.mpr ⟨held, hheld, hheld'⟩

theorem Opens.quiet (h : Opens fd history before) (hquiet : socketUses entries = []) :
    Opens fd (history ++ entries) before :=
  h.extend fun held hperm => ⟨held, by rw [hquiet]; rfl, hperm⟩

theorem Opens.close (h : Opens fd history before) (closed : List Int)
    (hclosed : socketUses entries = closed.map .release) (hperm : before.Perm (closed ++ after)) :
    Opens fd (history ++ entries) after :=
  h.extend fun held hheld => by
    rw [hclosed]
    exact replay_releases (hheld.trans hperm)

theorem Opens.accept (h : Opens fd history before) {accepted : Int} (fresh : accepted ∉ before) :
    Opens fd (history ++ [.accepted accepted]) (accepted :: before) := by
  refine h.extend fun held hperm => ⟨accepted :: held, ?_, hperm.cons accepted⟩
  have hfresh : accepted ∉ held := fun hmem => fresh (hperm.subset hmem)
  exact run_cons_some.mpr ⟨_, use_acquire.mpr ⟨hfresh, rfl⟩, rfl⟩

/-- A socket is closed that is not open, and the replay is refused. -/
theorem Opens.refused (h : Opens fd history before) {closed : Int} (hclosed : closed ∉ before)
    (entries : List Entry) :
    run use [] (.acquire fd :: socketUses (history ++ .closed closed :: entries)) = none := by
  obtain ⟨held, hheld, hperm⟩ := h
  have hnot : closed ∉ held := fun hmem => hclosed (hperm.subset hmem)
  rw [socketUses_append, ← List.cons_append, run_append, hheld, Option.bind_some]
  change run use held (.release closed :: socketUses entries) = none
  rw [run_cons, use, if_neg hnot, Option.bind_none]

end Opens

/-! ## While `launch` runs -/

/-- The sockets in the poll table are the open ones, the listening one among them. -/
structure Serving (fd : Int) (s : Machine) : Prop where
  listening : s.fd = fd
  opens : Opens fd s.history (s.fds.map (·.fd))

section Serving

variable {fd : Int} {s s' : Machine}

theorem start_serving (fd : Int) (passwd : Bytes) : Serving fd (Machine.start fd passwd) :=
  ⟨rfl, [fd], rfl, List.Perm.refl _⟩

theorem setRevents_serving (revents : List (BitVec 16)) (h : Serving fd s) :
    Serving fd (setRevents revents s) :=
  ⟨h.listening, by rw [setRevents_fds_fd]; exact h.opens⟩

theorem step_serving (invariant : Invariant s) (h : Serving fd s) {e : Event}
    (hstep : step s e = some s') : Serving fd s' := by
  obtain ⟨listening, opens⟩ := h
  cases step_stepped invariant.table hstep with
  | unconnected => exact ⟨listening, opens⟩
  | dropped accepted fcntl fresh =>
      refine ⟨listening, ?_⟩
      have hopened := opens.accept fresh
      have hclosed : Opens fd (s.history ++ [.accepted accepted] ++ [.closed accepted]) _ :=
        hopened.close [accepted] rfl (List.Perm.refl _)
      rwa [List.append_assoc] at hclosed
  | connected accepted fcntl fresh =>
      refine ⟨listening, ?_⟩
      obtain ⟨held, hheld, hperm⟩ := opens.accept fresh
      refine ⟨held, hheld, hperm.trans ?_⟩
      rw [including, List.map_append]
      exact (List.perm_append_singleton accepted _).symm
  | buffered => exact ⟨listening, opens⟩
  | dispatched i c hc line clean c' channels sends effect =>
      refine ⟨by rw [settle_fd]; exact listening, ?_⟩
      rw [dispatched_history invariant hc clean effect, settle_fds_fd]
      refine opens.quiet ?_
      exact socketUses_queued (fun call => (s.clientAt call.1).fd) (·.2) sends
  | flushed i c hc send rest poll kept entries sent =>
      refine ⟨listening, ?_⟩
      rw [map_modify_same kept]
      refine opens.quiet (List.filterMap_eq_nil_iff.mpr fun entry hentry => ?_)
      obtain ⟨bytes, rfl⟩ := sent entry hentry
      rfl
  | disconnected i c hc =>
      refine ⟨listening, opens.close [c.fd] rfl ?_⟩
      obtain ⟨hlt, hget⟩ := List.getElem?_eq_some_iff.mp hc
      have hi : i + 1 < (s.fds.map (·.fd)).length := by
        rw [List.length_map, invariant.table.size]
        exact Nat.succ_lt_succ hlt
      have hfd : (s.fds.map (·.fd))[i + 1] = c.fd := by simp [invariant.table.aligned, hget]
      have hperm := List.getElem_cons_eraseIdx_perm hi
      rw [hfd] at hperm
      rw [without, map_eraseIdx]
      exact hperm.symm

/-- The operations of a step keep the sockets of the poll table open, and no others. -/
theorem operations_serving {operations : List Operation} (h : Invariant s ∧ Serving fd s)
    (hrun : run operate s operations = some s') : Invariant s' ∧ Serving fd s' :=
  run_invariant (fun _ _ _ hs hoperate =>
    operate_preserves (fun _ _ _ invariant hserving hstep => step_serving invariant hserving hstep)
      (fun _ revents _ hserving => setRevents_serving revents hserving) hs hoperate) h hrun

end Serving

/-! ## The ways out -/

def owned (s : Machine) : List Int :=
  (s.fds.drop 1).map (·.fd) ++ if s.fd = -1 then [] else [s.fd]

section Exit

variable {fd : Int} {s : Machine}

/-- The first loop of `shutdown` only adds to the history. -/
theorem farewell_eq (taken : Int → Nat) (s : Machine) :
    farewell taken s = { s with
      history := s.history ++ (s.fds.drop 1).flatMap fun p =>
        [.sent p.fd (shutdownMessage.take (taken p.fd)), .closed p.fd] } := by
  unfold farewell
  generalize s.fds.drop 1 = entries
  induction entries generalizing s with
  | nil => simp
  | cons p entries ih =>
      rw [List.foldl_cons, ih]
      simp [record, List.append_assoc]

theorem destroy_eq (s : Machine) :
    (destroy s).history = s.history ++ (owned s).map .closed := by
  have hloop : ∀ (entries : List PollFd) (s : Machine),
      entries.foldl (fun s p => s.record (.closed p.fd)) s =
        { s with history := s.history ++ (entries.map (·.fd)).map .closed } := by
    intro entries
    induction entries with
    | nil => simp
    | cons p entries ih =>
        intro s
        rw [List.foldl_cons, ih]
        simp [record, List.append_assoc]
  rw [destroy, hloop, owned]
  dsimp only
  split
  · simp [*]
  · simp [*, record]

theorem socketUses_closed (fds : List Int) :
    socketUses (fds.map .closed) = fds.map .release := by
  induction fds with
  | nil => rfl
  | cons fd fds ih => exact congrArg (List.cons _) ih

theorem destroy_sockets (h : Opens fd s.history (owned s)) :
    run use [] (.acquire fd :: socketUses (destroy s).history) = some [] := by
  have hperm : (owned s).Perm (owned s ++ []) := by rw [List.append_nil]
  rw [destroy_eq]
  obtain ⟨held, hheld, hnil⟩ := h.close _ (socketUses_closed (owned s)) hperm
  rw [hheld, hnil.eq_nil]

theorem clientEntries_fd (table : Table s.toServer) :
    (s.fds.drop 1).map (·.fd) = s.clients.map (·.fd) := by
  rw [List.map_drop, table.aligned]
  rfl

/-- A failure of `poll` leaves everything to the destructor. -/
theorem Serving.owned (h : Serving fd s) (table : Table s.toServer) (listens : 0 ≤ fd) :
    Opens fd s.history (owned s) := by
  obtain ⟨listening, held, hheld, hperm⟩ := h
  have hopen : s.fd ≠ -1 := by omega
  refine ⟨held, hheld, hperm.trans ?_⟩
  rw [IrcServer.owned, clientEntries_fd table, if_neg hopen, table.aligned]
  exact (List.perm_append_singleton s.fd _).symm

theorem owned_shutdown (taken : Int → Nat) (s : Machine) : owned (shutdown taken s) = [] := by
  unfold shutdown owned
  dsimp only
  split
  · simp
  · simp [record]

theorem disconnectAll_grows (fuel : Nat) (s : Machine) :
    ∃ entries, (disconnectAll fuel s).history = s.history ++ entries := by
  induction fuel generalizing s with
  | zero => exact ⟨[], (List.append_nil _).symm⟩
  | succ fuel ih =>
      rw [disconnectAll]
      split
      · obtain ⟨entries, hentries⟩ := ih (disconnect 1 s)
        exact ⟨_ :: entries, by rw [hentries, disconnect, List.append_assoc]; rfl⟩
      · exact ⟨[], (List.append_nil _).symm⟩

theorem shutdown_unattended (serving : Serving fd s) (table : Table s.toServer) (listens : 0 ≤ fd)
    (unattended : s.clients = []) (taken : Int → Nat) :
    Opens fd (shutdown taken s).history (owned (shutdown taken s)) := by
  have hsize : s.fds.length = 1 := by rw [table.size, unattended]; rfl
  have hopen : s.fd ≠ -1 := by
    rw [serving.listening]
    omega
  have hfarewell : farewell taken s = s := by
    rw [farewell, List.drop_eq_nil_of_le (by omega)]
    rfl
  have hnobody : disconnectAll s.fds.length s = s := by
    rw [hsize, disconnectAll, if_neg (by omega)]
  have hhistory : (shutdown taken s).history = s.history ++ [.closed s.fd] := by
    simp only [shutdown, hfarewell, hnobody, if_neg hopen, record]
  have hperm : (s.fds.map (·.fd)).Perm ([s.fd] ++ []) := by
    rw [table.aligned, unattended]
    exact List.Perm.refl _
  rw [owned_shutdown, hhistory]
  exact serving.opens.close _ rfl hperm

theorem socketUses_farewell (f : PollFd → Bytes) (entries : List PollFd) :
    socketUses (entries.flatMap fun p => [.sent p.fd (f p), .closed p.fd]) =
      (entries.map (·.fd)).map .release := by
  induction entries with
  | nil => rfl
  | cons p entries ih => exact congrArg (List.cons _) ih

theorem farewell_opens (serving : Serving fd s) (table : Table s.toServer) (taken : Int → Nat) :
    Opens fd (farewell taken s).history [s.fd] := by
  rw [farewell_eq]
  refine serving.opens.close _ (socketUses_farewell _ _) ?_
  rw [clientEntries_fd table, table.aligned]
  exact (List.perm_append_singleton s.fd _).symm

/-- The `disconnect` that follows the first loop closes the socket of the first client again. -/
theorem shutdown_attended (serving : Serving fd s) (table : Table s.toServer)
    (attended : s.clients ≠ []) (taken : Int → Nat) :
    run use [] (.acquire fd :: socketUses (shutdown taken s).history) = none := by
  obtain ⟨c, rest, hclients⟩ := List.exists_cons_of_ne_nil attended
  have hc : s.clients[0]? = some c := by rw [hclients]; rfl
  have hentry : ((farewell taken s).fds.getD 1 ⟨-1, 0, 0⟩).fd = c.fd := by
    rw [farewell_eq]
    exact pollEntry_fd table hc
  have hsize : (farewell taken s).fds.length = rest.length + 2 := by
    rw [farewell_eq]
    change s.fds.length = rest.length + 2
    rw [table.size, hclients, List.length_cons]
  have hnot : c.fd ∉ [s.fd] := by
    have hdistinct := table.distinct
    rw [table.aligned] at hdistinct
    intro hmem
    rw [← List.mem_singleton.mp hmem] at hdistinct
    exact hdistinct.notMem (List.mem_map_of_mem (List.mem_of_getElem? hc))
  -- the first round of the second loop, and whatever comes after it
  obtain ⟨entries, hrounds⟩ := disconnectAll_grows (rest.length + 1) (disconnect 1 (farewell taken s))
  have hloop : (disconnectAll (farewell taken s).fds.length (farewell taken s)).history =
      (farewell taken s).history ++ .closed c.fd :: entries := by
    rw [hsize, disconnectAll, if_pos (by omega), hrounds, disconnect, hentry, List.append_assoc]
    rfl
  have hend : ∃ final, (shutdown taken s).history =
      (farewell taken s).history ++ .closed c.fd :: (entries ++ final) := by
    unfold shutdown
    dsimp only
    split
    · exact ⟨[], by rw [hloop, List.append_nil]⟩
    · refine ⟨[.closed (disconnectAll (farewell taken s).fds.length (farewell taken s)).fd], ?_⟩
      simp only [record, hloop, List.append_assoc, List.cons_append]
  obtain ⟨final, hfinal⟩ := hend
  rw [hfinal]
  exact (farewell_opens serving table taken).refused hnot _

end Exit

/-! ## Runs -/

structure Ledger (fd : Int) (p : Process) : Prop where
  running : p.Running → Invariant p.server ∧ Serving fd p.server
  left : p.phase = .left → Opens fd p.server.history (owned p.server)
  destroyed : p.phase = .destroyed → run use [] (p.sockets fd) = some []

structure Misclosed (fd : Int) (p : Process) : Prop where
  finished : ¬ p.Running
  refused : run use [] (p.sockets fd) = none

section Program

variable {fd : Int} {p q : Process} {tick : Tick}

theorem start_ledger (fd : Int) (passwd : Bytes) : Ledger fd (Process.start fd passwd) where
  running := fun _ => ⟨start_invariant fd passwd, start_serving fd passwd⟩
  left := fun h => by cases h
  destroyed := fun h => by cases h

theorem Advanced.ledger (advanced : Advanced p tick q) (listens : 0 ≤ fd) (h : Ledger fd p)
    (hgood : ¬ ClosesTwice p tick) : Ledger fd q := by
  constructor
  · intro running
    obtain ⟨hrunning, hoperations⟩ := advanced.operations running
    obtain ⟨operations, hrun⟩ := hoperations (h.running hrunning).1
    exact operations_serving (h.running hrunning) hrun
  · intro hleft
    cases advanced with
    | failed at_ =>
        obtain ⟨invariant, serving⟩ := h.running (.inl at_)
        exact serving.owned invariant.table listens
    | shutdown taken at_ =>
        obtain ⟨invariant, serving⟩ := h.running (.inl at_)
        have hnobody : p.server.clients = [] := by
          by_contra hne
          exact hgood ⟨⟨taken, rfl⟩, hne⟩
        exact shutdown_unattended serving invariant.table listens hnobody taken
    | interrupted at_ => rw [at_] at hleft; cases hleft
    | _ => cases hleft
  · intro hdestroyed
    cases advanced with
    | destructor at_ => exact destroy_sockets (h.left at_)
    | interrupted at_ => rw [at_] at hdestroyed; cases hdestroyed
    | _ => cases hdestroyed

theorem Advanced.misclosed (advanced : Advanced p tick q) (h : Ledger fd p)
    (hbad : ClosesTwice p tick) : Misclosed fd q := by
  obtain ⟨⟨taken, rfl⟩, hattended⟩ := hbad
  cases advanced with
  | shutdown _ at_ =>
      obtain ⟨invariant, serving⟩ := h.running (.inl at_)
      exact ⟨not_running (.inl rfl), shutdown_attended serving invariant.table hattended taken⟩

theorem Misclosed.advanced (h : Misclosed fd p) (advanced : Advanced p tick q) :
    Misclosed fd q := by
  cases advanced with
  | destructor at_ =>
      refine ⟨not_running (.inr rfl), ?_⟩
      have hrefused := h.refused
      rw [Process.sockets] at hrefused ⊢
      rw [destroy_eq, socketUses_append, ← List.cons_append, run_append, hrefused, Option.bind_none]
  | polled _ at_ => exact absurd (.inl at_) h.finished
  | interrupted at_ => exact h
  | failed at_ => exact absurd (.inl at_) h.finished
  | turned _ i at_ => exact absurd (.inr ⟨i, at_⟩) h.finished
  | scanned _ i at_ => exact absurd (.inr ⟨i, at_⟩) h.finished
  | shutdown _ at_ => exact absurd (.inl at_) h.finished

/-- Every socket is closed once, and never while it is not open, exactly if nobody is connected
when `shutdown` is called. -/
theorem closedOnce_iff_unattended {passwd : Bytes} {ticks : List Tick} (listens : 0 ≤ fd)
    (hrun : run advance (Process.start fd passwd) ticks = some p) (ended : p.phase = .destroyed) :
    ReleasedOnce (p.sockets fd) ↔
      ∀ a tick b, Takes advance (Process.start fd passwd) ticks a tick b → ¬ ClosesTwice a tick := by
  rw [releasedOnce_iff]
  rcases run_exact (P := Ledger fd) (Q := Misclosed fd)
      (fun a tick b h hadvance hgood => (advance_advanced hadvance).ledger listens h hgood)
      (fun a tick b h hadvance hbad => (advance_advanced hadvance).misclosed h hbad)
      (fun a tick b h hadvance => h.advanced (advance_advanced hadvance))
      (start_ledger fd passwd) hrun with ⟨ledger, hnone⟩ | ⟨misclosed, a, tick, b, taken, hbad⟩
  · exact ⟨fun _ => hnone, fun _ => ledger.destroyed ended⟩
  · refine ⟨fun hclosed => ?_, fun hnone => absurd hbad (hnone a tick b taken)⟩
    rw [misclosed.refused] at hclosed
    cases hclosed

def acceptedThen (ticks : List Tick) : List Tick :=
  [.poll [POLLIN], .turn ⟨4, 0, .error .wouldBlock, .error .wouldBlock⟩, idleTurn, idleTurn] ++ ticks

theorem run_acceptedThen (fd : Int) (ticks : List Tick)
    (h : (run advance (Process.start fd (text "pw")) (acceptedThen ticks)).any
      (fun p => decide (p.phase = .destroyed)) = true) :
    ∃ p, run advance (Process.start fd (text "pw")) (acceptedThen ticks) = some p ∧
      p.phase = .destroyed := by
  obtain ⟨p, hp, hphase⟩ := (Option.any_eq_true _ _).mp h
  exact ⟨p, hp, of_decide_eq_true hphase⟩

theorem closedOnce_iff_unattended_sample :
    ∃ p, run advance (Process.start 3 (text "pw")) (acceptedThen [.failed, .destructor]) = some p ∧
      p.phase = .destroyed ∧ (ReleasedOnce (p.sockets 3) ↔
        ∀ a tick b, Takes advance (Process.start 3 (text "pw"))
          (acceptedThen [.failed, .destructor]) a tick b → ¬ ClosesTwice a tick) := by
  obtain ⟨p, hp, hphase⟩ := run_acceptedThen 3 [.failed, .destructor] (by decide)
  exact ⟨p, hp, hphase, closedOnce_iff_unattended (by decide) hp hphase⟩

/-- The client that is connected at the end is disconnected by `shutdown` after its socket has
been closed. -/
theorem not_closedOnce_run :
    ¬ ∀ fd passwd ticks p, 0 ≤ fd → run advance (Process.start fd passwd) ticks = some p →
      p.phase = .destroyed → ReleasedOnce (p.sockets fd) := by
  intro h
  have hrefused : (run advance (Process.start 3 (text "pw"))
      (acceptedThen [.shutdown fun _ => 0, .destructor])).any
      (fun p => decide (p.phase = .destroyed ∧ run use [] (p.sockets 3) ≠ some [])) = true := by
    decide
  obtain ⟨p, hp, hbad⟩ := (Option.any_eq_true _ _).mp hrefused
  obtain ⟨hphase, hsockets⟩ := of_decide_eq_true hbad
  exact hsockets (releasedOnce_iff.mp (h 3 (text "pw") _ p (by decide) hp hphase))

end Program

end IrcServer
