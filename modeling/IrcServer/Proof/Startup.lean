import IrcServer.Model.Startup
import IrcServer.Proof.Sockets

/-! # How the program ends

Whatever the system calls return and however `launch` ends, nothing that `socket` or
`accept` has opened is open at the end of `main`. That `shutdown` closes sockets twice
does no harm there: nothing is opened in between.
-/

namespace IrcServer

open Search Machine Transition Ownership

structure Starts (calls : Syscalls) (port : Int) : Prop where
  range : 1 ≤ port ∧ port ≤ 65535
  socket : calls.socket ≠ -1
  setsockopt : calls.setsockopt ≠ -1
  fcntl : calls.fcntl ≠ -1
  bind : calls.bind ≠ -1
  listen : calls.listen ≠ -1

def Exit.uses (exit : Exit) : List (Use Int) := exit.startup ++ socketUses exit.history

/-! ## The constructor -/

section Constructor

variable {calls : Syscalls} {port : Int} {passwd : Bytes}

theorem htons_read (range : 1 ≤ port ∧ port ≤ 65535) :
    ∃ high low, htons port = [high, low] ∧ (256 * high.toNat + low.toNat : Int) = port := by
  refine ⟨_, _, rfl, ?_⟩
  have hhigh : (UInt8.ofNat (port.toNat / 256)).toNat = port.toNat / 256 := by
    rw [UInt8.toNat_ofNat']
    omega
  rw [hhigh, UInt8.toNat_ofNat']
  omega

/-- The listening socket is the only one that is open, and the only one that is polled. It is bound
to the port given. -/
theorem construct_ok (starts : Starts calls port) :
    ∃ high low, (256 * high.toNat + low.toNat : Int) = port ∧
      construct calls port passwd = .ok
        { fd := calls.socket
          port := port
          passwd := passwd
          fds := [⟨calls.socket, POLLIN, 0⟩]
          sinPort := some [high, low]
          uses := [.acquire calls.socket] } := by
  obtain ⟨range, socket, setsockopt, fcntl, bind, listen⟩ := starts
  obtain ⟨high, low, hport, hread⟩ := htons_read range
  refine ⟨high, low, hread, ?_⟩
  rw [← hport]
  have inside : ¬ (port < 1 ∨ port > 65535) := by omega
  simp only [construct, if_neg inside, openSocket, if_neg socket, if_neg setsockopt, if_neg fcntl,
    Bind.bind, Except.bind, binding, if_neg bind, listening, if_neg listen, pollSetup, List.nil_append]
  rfl

/-- What the constructor has opened when it throws, it has closed. -/
theorem construct_error (fails : ¬ Starts calls port) :
    ∃ what uses, construct calls port passwd = .error (what, uses) ∧
      (uses = [] ∨ uses = [.acquire calls.socket, .release calls.socket]) := by
  by_cases range : port < 1 ∨ port > 65535
  · exact ⟨_, _, if_pos range, .inl rfl⟩
  have inside : 1 ≤ port ∧ port ≤ 65535 := by omega
  rw [construct, if_neg range]
  by_cases socket : calls.socket = -1
  · refine ⟨text "failed to open socket!", [], ?_, .inl rfl⟩
    simp only [openSocket, if_pos socket]
    rfl
  by_cases setsockopt : calls.setsockopt = -1
  · refine ⟨text "socket option failed!", _, ?_, .inr rfl⟩
    simp only [openSocket, if_neg socket, if_pos setsockopt]
    rfl
  by_cases fcntl : calls.fcntl = -1
  · refine ⟨text "fcntl failed!", _, ?_, .inr rfl⟩
    simp only [openSocket, if_neg socket, if_neg setsockopt, if_pos fcntl]
    rfl
  -- the socket is open from here on
  simp only [openSocket, if_neg socket, if_neg setsockopt, if_neg fcntl, Bind.bind, Except.bind]
  by_cases bind : calls.bind = -1
  · refine ⟨text "binding failed!", _, ?_, .inr rfl⟩
    simp only [binding, if_pos bind]
    rfl
  by_cases listen : calls.listen = -1
  · refine ⟨text "listening failed!", _, ?_, .inr rfl⟩
    simp only [binding, if_neg bind, listening, if_pos listen]
    rfl
  · exact absurd ⟨inside, socket, setsockopt, fcntl, bind, listen⟩ fails

end Constructor

/-! ## The ways out -/

section Leaving

variable {fd : Int} {s : Machine}

theorem disconnectAll_closes (fuel : Nat) (s : Machine) :
    (disconnectAll fuel s).fd = s.fd ∧
      ∃ closed : List Int, (disconnectAll fuel s).history = s.history ++ closed.map .closed := by
  induction fuel generalizing s with
  | zero => exact ⟨rfl, [], (List.append_nil _).symm⟩
  | succ fuel ih =>
      rw [disconnectAll]
      split
      · obtain ⟨hfd, closed, hclosed⟩ := ih (disconnect 1 s)
        refine ⟨hfd, (s.fds.getD 1 ⟨-1, 0, 0⟩).fd :: closed, ?_⟩
        rw [hclosed, disconnect, List.append_assoc]
        rfl
      · exact ⟨rfl, [], (List.append_nil _).symm⟩

/-- `shutdown` closes everything in the poll table, some of it twice. -/
theorem shutdown_closes (taken : Int → Nat) (listens : s.fd ≠ -1) :
    ∃ again, socketUses (shutdown taken s).history = socketUses s.history ++
      ((s.fds.drop 1).map (·.fd) ++ again ++ [s.fd]).map .release := by
  obtain ⟨hsame, again, hagain⟩ := disconnectAll_closes (farewell taken s).fds.length (farewell taken s)
  have hfd : (disconnectAll (farewell taken s).fds.length (farewell taken s)).fd = s.fd := by
    rw [hsame, farewell_eq]
  have hhistory : (shutdown taken s).history =
      (farewell taken s).history ++ again.map .closed ++ [.closed s.fd] := by
    unfold shutdown
    dsimp only
    rw [if_neg (hfd ▸ listens)]
    simp only [record, hagain, hfd]
  refine ⟨again, ?_⟩
  rw [hhistory, farewell_eq]
  simp only [socketUses_append, socketUses_farewell, socketUses_closed, List.map_append,
    List.append_assoc]
  rfl

theorem Serving.mem_of_holds (h : Serving fd s) (table : Table s.toServer) {r : Int}
    (hr : Holds (.acquire fd :: socketUses s.history) r) :
    r ∈ (s.fds.drop 1).map (·.fd) ∨ r = s.fd := by
  obtain ⟨_, held, hheld, hperm⟩ := h
  have hmem := hperm.subset ((mem_replay hheld r).mpr hr)
  rw [table.aligned] at hmem
  rw [clientEntries_fd table]
  exact (List.mem_cons.mp hmem).symm

end Leaving

/-- What is open is in the poll table while `launch` runs; after it, only the destructor closes. -/
structure Unleaked (fd : Int) (p : Process) : Prop where
  running : p.Running → Invariant p.server ∧ Serving fd p.server
  left : p.phase = .left → ∀ r, Holds (p.sockets fd) r → r ∈ owned p.server
  destroyed : p.phase = .destroyed → ∀ r, ¬ Holds (p.sockets fd) r

section Program

variable {fd : Int} {p q : Process} {tick : Tick}

theorem Advanced.unleaked (advanced : Advanced p tick q) (listens : 0 ≤ fd) (h : Unleaked fd p) :
    Unleaked fd q := by
  constructor
  · intro running
    obtain ⟨hrunning, hoperations⟩ := advanced.operations running
    obtain ⟨operations, hrun⟩ := hoperations (h.running hrunning).1
    exact operations_serving (h.running hrunning) hrun
  · intro hleft r hr
    cases advanced with
    | failed at_ =>
        obtain ⟨invariant, serving⟩ := h.running (.inl at_)
        have hopen : p.server.fd ≠ -1 := by
          rw [serving.listening]
          omega
        rw [owned, if_neg hopen, List.mem_append, List.mem_singleton]
        exact serving.mem_of_holds invariant.table hr
    | shutdown taken at_ =>
        obtain ⟨invariant, serving⟩ := h.running (.inl at_)
        have hopen : p.server.fd ≠ -1 := by
          rw [serving.listening]
          omega
        obtain ⟨again, hagain⟩ := shutdown_closes taken hopen
        rw [Process.sockets, hagain, ← List.cons_append, holds_append_release] at hr
        obtain ⟨hbefore, hrest⟩ := hr
        have hmem := serving.mem_of_holds invariant.table hbefore
        simp only [List.mem_append, List.mem_singleton, not_or] at hrest
        exact absurd hmem (not_or.mpr ⟨hrest.1.1, hrest.2⟩)
    | interrupted at_ => rw [at_] at hleft; cases hleft
    | _ => cases hleft
  · intro hdestroyed r hr
    cases advanced with
    | destructor at_ =>
        rw [Process.sockets, destroy_eq, socketUses_append, socketUses_closed, ← List.cons_append,
          holds_append_release] at hr
        exact hr.2 (h.left at_ r hr.1)
    | interrupted at_ => rw [at_] at hdestroyed; cases hdestroyed
    | _ => cases hdestroyed

theorem start_unleaked (fd : Int) (passwd : Bytes) : Unleaked fd (Process.start fd passwd) where
  running := fun _ => ⟨start_invariant fd passwd, start_serving fd passwd⟩
  left := fun h => by cases h
  destroyed := fun h => by cases h

theorem run_unleaked {passwd : Bytes} {ticks : List Tick} (listens : 0 ≤ fd)
    (hrun : run advance (Process.start fd passwd) ticks = some p) : Unleaked fd p :=
  run_invariant (fun _ _ _ h hstep => (advance_advanced hstep).unleaked listens h)
    (start_unleaked fd passwd) hrun

theorem left_ticks {ticks : List Tick} (at_ : p.phase = .left) (hrun : run advance p ticks = some q)
    (ended : q.phase = .destroyed) : ticks = [.destructor] := by
  cases ticks with
  | nil =>
      obtain rfl := Option.some.inj hrun
      cases at_.symm.trans ended
  | cons tick ticks =>
      obtain ⟨m, hstep, hrest⟩ := run_cons_some.mp hrun
      cases advance_advanced hstep with
      | destructor =>
          cases ticks with
          | nil => rfl
          | cons tick ticks =>
              obtain ⟨n, hnext, _⟩ := run_cons_some.mp hrest
              cases advance_advanced hnext with
              | interrupted h => cases h
              | polled _ h => cases h
              | failed h => cases h
              | turned _ _ h => cases h
              | scanned _ _ h => cases h
              | shutdown _ h => cases h
              | destructor h => cases h
      | interrupted h => cases at_.symm.trans h
      | polled _ h => cases at_.symm.trans h
      | failed h => cases at_.symm.trans h
      | turned _ _ h => cases at_.symm.trans h
      | scanned _ _ h => cases at_.symm.trans h
      | shutdown _ h => cases at_.symm.trans h

/-- `launch` ends with an exception or with `shutdown`, and not with both. -/
theorem throws_iff {ticks : List Tick} (running : p.Running) (hrun : run advance p ticks = some q)
    (ended : q.phase = .destroyed) :
    ticks.any Tick.throws = true ↔ ¬ ∃ taken, .shutdown taken ∈ ticks := by
  induction ticks generalizing p with
  | nil =>
      obtain rfl := Option.some.inj hrun
      exact absurd running (not_running (.inr ended))
  | cons tick ticks ih =>
      obtain ⟨m, hstep, hrest⟩ := run_cons_some.mp hrun
      have goes : m.Running → tick.throws = false → (∀ taken, tick ≠ .shutdown taken) →
          ((tick :: ticks).any Tick.throws = true ↔
            ¬ ∃ taken, .shutdown taken ∈ tick :: ticks) := by
        intro hm hthrows hshutdown
        simp only [List.any_cons, hthrows, Bool.false_or, List.mem_cons, ih hm hrest,
          fun taken => Ne.symm (hshutdown taken), false_or]
      cases advance_advanced hstep with
      | interrupted => exact goes running rfl (by simp)
      | polled => exact goes (.inr ⟨0, rfl⟩) rfl (by simp)
      | turned => exact goes (.inr ⟨_, rfl⟩) rfl (by simp)
      | scanned => exact goes (.inl rfl) rfl (by simp)
      | failed =>
          rw [left_ticks rfl hrest ended]
          simp [Tick.throws]
      | shutdown taken =>
          rw [left_ticks rfl hrest ended]
          simp [Tick.throws]
      | destructor h => exact absurd running (not_running (.inl h))

end Program

/-! ## `main` -/

/-- The program is given a port and a password, its server is constructed, and a signal ends
`launch`. -/
def Succeeds (av : List Bytes) (calls : Syscalls) (ticks : List Tick) : Prop :=
  ∃ name port passwd, av = [name, port, passwd] ∧ Starts calls (atoi port) ∧
    ∃ taken, .shutdown taken ∈ ticks

/-- The listening socket has been given the port of the command line, in the byte order of the
network. -/
def Bound (av : List Bytes) (calls : Syscalls) : Prop :=
  ∃ name port passwd server high low, av = [name, port, passwd] ∧
    construct calls (atoi port) passwd = .ok server ∧ server.sinPort = some [high, low] ∧
    (256 * high.toNat + low.toNat : Int) = atoi port

structure Ended (av : List Bytes) (calls : Syscalls) (ticks : List Tick) (exit : Exit) : Prop where
  /-- Nothing that has been opened is open. -/
  closed : ∀ fd, ¬ Holds exit.uses fd
  status : exit.status = 0 ↔ Succeeds av calls ticks
  message : exit.status = 0 ∧ exit.message = [] ∨ exit.status = 1 ∧ exit.message ≠ []
  bound : exit.status = 0 → Bound av calls

section Main

variable {av : List Bytes} {calls : Syscalls} {ticks : List Tick} {exit : Exit}

theorem not_holds_nil (fd : Int) : ¬ Holds ([] : List (Use Int)) fd := by
  rintro ⟨before, after, h, _⟩
  simp at h

theorem ended_early {message : Bytes} {startup : List (Use Int)} (hmessage : message ≠ [])
    (closed : ∀ fd, ¬ Holds startup fd) (fails : ¬ Succeeds av calls ticks) :
    Ended av calls ticks ⟨1, message, startup, []⟩ where
  closed := by simpa [Exit.uses, socketUses] using closed
  status := iff_of_false Nat.one_ne_zero fails
  message := .inr ⟨rfl, hmessage⟩
  bound hstatus := absurd hstatus Nat.one_ne_zero

/-- However `main` ends, it says what has gone wrong, and leaves no descriptor open. -/
theorem main_exits (socket : calls.socket = -1 ∨ 0 ≤ calls.socket)
    (h : main av calls ticks = some exit) : Ended av calls ticks exit := by
  unfold main at h
  split at h
  · next name port passwd =>
      have unique : ∀ {port' : Bytes}, (∃ name' passwd', [name, port, passwd] =
          [name', port', passwd']) → port' = port := by
        rintro port' ⟨name', passwd', heq⟩
        simp only [List.cons.injEq] at heq
        exact heq.2.1.symm
      by_cases starts : Starts calls (atoi port)
      · obtain ⟨high, low, hport, hok⟩ := @construct_ok _ _ passwd starts
        have bound : Bound [name, port, passwd] calls :=
          ⟨name, port, passwd, _, high, low, rfl, hok, rfl, hport⟩
        rw [hok] at h
        obtain ⟨p, hrun, hexit⟩ := Option.bind_eq_some_iff.mp h
        obtain ⟨hended, hexit⟩ := Option.ite_none_right_eq_some.mp hexit
        have listens : 0 ≤ calls.socket := socket.resolve_left starts.socket
        have closed := (@run_unleaked calls.socket p passwd ticks listens hrun).destroyed hended
        have leaves := throws_iff (.inl rfl) hrun hended
        have succeeds : Succeeds [name, port, passwd] calls ticks ↔
            ∃ taken, .shutdown taken ∈ ticks := by
          constructor
          · rintro ⟨_, _, _, _, _, hshutdown⟩
            exact hshutdown
          · exact fun hshutdown => ⟨name, port, passwd, rfl, starts, hshutdown⟩
        split at hexit
        · next hthrows =>
            obtain rfl := Option.some.inj hexit
            refine ⟨closed, iff_of_false Nat.one_ne_zero ?_, .inr ⟨rfl, by simp⟩, fun _ => bound⟩
            exact fun h => leaves.mp hthrows (succeeds.mp h)
        · next hthrows =>
            obtain rfl := Option.some.inj hexit
            refine ⟨closed, iff_of_true rfl (succeeds.mpr ?_), .inl ⟨rfl, rfl⟩, fun _ => bound⟩
            exact not_not.mp fun hnot => hthrows (leaves.mpr hnot)
      · obtain ⟨what, uses, herror, huses⟩ := @construct_error _ _ passwd starts
        rw [herror] at h
        obtain rfl := Option.some.inj h
        refine ended_early (by simp) (fun fd hfd => ?_) ?_
        · rcases huses with rfl | rfl
          · exact not_holds_nil fd hfd
          · have hlog : [Use.acquire calls.socket, Use.release calls.socket] =
                [Use.acquire calls.socket] ++ [calls.socket].map .release := rfl
            rw [hlog, holds_append_release, ← List.nil_append [Use.acquire _], holds_snoc] at hfd
            obtain ⟨hacquired | hbefore, hnot⟩ := hfd
            · exact hnot (List.mem_singleton.mpr (Use.acquire.inj hacquired).symm)
            · exact not_holds_nil fd hbefore.2
        · rintro ⟨name', port', passwd', heq, hstarts, _⟩
          exact starts (unique ⟨name', passwd', heq⟩ ▸ hstarts)
  · next hargs =>
      obtain rfl := Option.some.inj h
      refine ended_early (by simp) not_holds_nil ?_
      rintro ⟨name, port, passwd, rfl, _⟩
      exact hargs name port passwd rfl

end Main

/-- A client is connected when the signal comes. -/
theorem main_exits_sample :
    ∃ exit, main [text "ircserv", text "6667", text "pw"] ⟨3, 0, 0, 0, 0⟩
        (acceptedThen [.interrupted, .shutdown fun _ => 7, .destructor]) = some exit ∧
      Ended [text "ircserv", text "6667", text "pw"] ⟨3, 0, 0, 0, 0⟩
        (acceptedThen [.interrupted, .shutdown fun _ => 7, .destructor]) exit := by
  have hmain : (main [text "ircserv", text "6667", text "pw"] ⟨3, 0, 0, 0, 0⟩
      (acceptedThen [.interrupted, .shutdown fun _ => 7, .destructor])).isSome = true := by
    decide +kernel
  obtain ⟨exit, h⟩ := Option.isSome_iff_exists.mp hmain
  exact ⟨exit, h, main_exits (.inr (by decide)) h⟩

end IrcServer
