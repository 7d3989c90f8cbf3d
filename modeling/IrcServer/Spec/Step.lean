import IrcServer.Library.Transition
import IrcServer.Spec.Table

/-! # What one event can do

The effect of every event of the server on the machine. The runs of the server are
the runs of `step` from `Machine.start`, and everything proved about runs goes
through `Stepped`.
-/

namespace IrcServer

/-- A state of some run of a server that starts with nobody connected. -/
def Reachable (s : Machine) : Prop :=
  ∃ fd passwd events, Transition.run step (Machine.start fd passwd) events = some s

theorem Reachable.run {s t : Machine} (h : Reachable s) {events : List Event}
    (hrun : Transition.run step s events = some t) : Reachable t := by
  obtain ⟨fd, passwd, before, hbefore⟩ := h
  exact ⟨fd, passwd, before ++ events, Transition.run_append_some.mpr ⟨s, hbefore, hrun⟩⟩

theorem Reachable.step {s t : Machine} (h : Reachable s) {e : Event}
    (hstep : IrcServer.step s e = some t) : Reachable t := by
  obtain ⟨fd, passwd, before, hbefore⟩ := h
  exact ⟨fd, passwd, before ++ [e], Transition.run_snoc hbefore hstep⟩

def registration (i : Nat) (nick : String) : List Event :=
  [.command i (text "PASS pw"), .command i (text "NICK " ++ text nick),
    .command i (text "USER u 0 * :u")]

/-- Two clients register, the first founds a channel and invites the second, who joins. -/
def sampleRun : List Event :=
  [.connect 4 0, .connect 5 0] ++ registration 0 "kaw" ++ registration 1 "akira" ++
    [.command 0 (text "JOIN #42"), .command 0 (text "INVITE akira #42"),
      .command 1 (text "JOIN #42")]

/-- The state a run from the start reaches; the start itself when the run is refused. -/
def stateAfter (events : List Event) : Machine :=
  (Transition.run step (Machine.start 3 (text "pw")) events).getD (Machine.start 3 (text "pw"))

theorem stateAfter_reachable (events : List Event) : Reachable (stateAfter events) := by
  unfold stateAfter
  cases h : Transition.run step (Machine.start 3 (text "pw")) events with
  | none => exact ⟨3, text "pw", [], rfl⟩
  | some s => exact ⟨3, text "pw", events, h⟩

theorem step_stateAfter (events : List Event) (e : Event)
    (h : (Transition.run step (Machine.start 3 (text "pw")) (events ++ [e])).isSome = true) :
    step (stateAfter events) e = some (stateAfter (events ++ [e])) := by
  obtain ⟨s', hrun⟩ := Option.isSome_iff_exists.mp h
  obtain ⟨s, hs, hlast⟩ := Transition.run_append_some.mp hrun
  obtain ⟨t, hstep, hend⟩ := Transition.run_cons_some.mp hlast
  obtain rfl := Option.some.inj hend
  rw [stateAfter, stateAfter, hs, hrun]
  exact hstep

/-- What `leave_chanels` does to one channel, before it looks whether anybody is left. -/
def Channel.leave (ch : Channel) (fd : Int) : Channel :=
  ((ch.removeMember fd).removeInvite fd).removeOperator fd

def Machine.without (i : Nat) (c : Client) (s : Machine) : Machine :=
  { s with
    channels := (s.channels.map (·.leave c.fd)).filter fun ch => !ch.isEmpty
    fds := s.fds.eraseIdx (i + 1)
    clients := s.clients.eraseIdx i
    history := s.history ++ [.closed c.fd] }

def Machine.including (fd : Int) (s : Machine) : Machine :=
  { s with
    fds := s.fds ++ [⟨fd, POLLIN, 0⟩]
    clients := s.clients ++ [{ fd := fd }]
    history := s.history ++ [.accepted fd] }

inductive Flushed (s : Machine) (i : Nat) (c : Client) : Machine → Prop
  | idle (empty : c.sendBuffer = []) : Flushed s i c (clearPollout (i + 1) s)
  | blocked : Flushed s i c s
  | partly (bytes : Nat) (left : c.sendBuffer.drop bytes ≠ []) :
      Flushed s i c
        ((s.record (.sent c.fd (c.sendBuffer.take bytes))).setClient i
          { c with sendBuffer := c.sendBuffer.drop bytes })
  | entirely (bytes : Nat) (done : c.sendBuffer.drop bytes = []) :
      Flushed s i c
        (clearPollout (i + 1) ((s.record (.sent c.fd (c.sendBuffer.take bytes))).setClient i
          { c with sendBuffer := c.sendBuffer.drop bytes }))

/-- The state after an event, by what happened. -/
inductive Stepped (s : Machine) : Event → Machine → Prop
  | unconnected (accepted fcntl : Int) (h : accepted = -1) : Stepped s (.connect accepted fcntl) s
  | dropped (accepted fcntl : Int) (fresh : accepted ∉ s.fds.map (·.fd)) :
      Stepped s (.connect accepted fcntl)
        { s with history := s.history ++ [.accepted accepted, .closed accepted] }
  | connected (accepted fcntl : Int) (fresh : accepted ∉ s.fds.map (·.fd))
      (range : 0 ≤ accepted ∧ accepted < 2 ^ 31) :
      Stepped s (.connect accepted fcntl) (s.including accepted)
  | buffered (i : Nat) (c : Client) (hc : s.clients[i]? = some c) (contents : Bytes) :
      Stepped s (.buffer i contents) (s.setClient i { c with buffer := contents })
  | dispatched (i : Nat) (c : Client) (hc : s.clients[i]? = some c) (line : Bytes)
      (clean : LF ∉ line) (c' : Client) (channels : List Channel) (sends : List (Nat × Bytes))
      (effect : Dispatched s.toServer i c (Parser.parse line) c' channels sends) :
      Stepped s (.command i line)
        ((s.record (.line c.fd line)).settle i c' channels sends)
  | flushed (i : Nat) (c : Client) (hc : s.clients[i]? = some c) (send : Except Errno Nat)
      (rest : Bytes) (poll : PollFd → PollFd) (kept : ∀ p, (poll p).fd = p.fd)
      (entries : List Entry) (sent : ∀ entry ∈ entries, ∃ bytes, entry = .sent c.fd bytes) :
      Stepped s (.flush i send)
        { s with
          clients := s.clients.set i { c with sendBuffer := rest }
          fds := s.fds.modify (i + 1) poll
          history := s.history ++ entries }
  | disconnected (i : Nat) (c : Client) (hc : s.clients[i]? = some c) :
      Stepped s (.disconnect i) (s.without i c)

theorem Stepped.command_cases {s s' : Machine} {e : Event} (h : Stepped s e s') :
    (∀ i line, e ≠ .command i line) ∨
      ∃ i c line c' channels sends, e = .command i line ∧ s.clients[i]? = some c ∧ LF ∉ line ∧
        Dispatched s.toServer i c (Parser.parse line) c' channels sends ∧
        s' = (s.record (.line c.fd line)).settle i c' channels sends := by
  cases h with
  | dispatched i c hc line clean c' channels sends effect =>
      exact Or.inr ⟨i, c, line, c', channels, sends, rfl, hc, clean, effect, rfl⟩
  | _ => exact Or.inl (by simp)

namespace Machine

variable (i : Nat) (c : Client) (channels : List Channel) (sends : List (Nat × Bytes)) (s : Machine)

@[simp] theorem settle_channels : (s.settle i c channels sends).channels = channels := by
  simp [settle]

@[simp] theorem settle_passwd : (s.settle i c channels sends).passwd = s.passwd := by
  simp [settle]

@[simp] theorem settle_fd : (s.settle i c channels sends).fd = s.fd := by
  simp [settle]

@[simp] theorem settle_fds_fd :
    (s.settle i c channels sends).fds.map (·.fd) = s.fds.map (·.fd) := by
  simp [settle]

theorem settle_map {β : Type} (f : Client → β) (hf : ∀ c d, f (c.appendSendBuff d) = f c) :
    (s.settle i c channels sends).clients.map f = (s.clients.map f).set i (f c) := by
  rw [settle, sendEach_map f hf, List.map_set]

theorem settle_getElem? (j : Nat) :
    (s.settle i c channels sends).clients[j]? =
      (s.clients.set i c)[j]?.map (·.appendSendBuff (messagesFor j sends).flatten) := by
  rw [settle, sendEach_getElem?]

theorem settle_other {j : Nat} (hji : j ≠ i) {d : Client} (hd : s.clients[j]? = some d) :
    (s.settle i c channels sends).clients[j]? =
      some (d.appendSendBuff (messagesFor j sends).flatten) := by
  rw [settle_getElem?, List.getElem?_set_ne (Ne.symm hji), hd, Option.map_some]

theorem settle_history {i : Nat} {c c' : Client} {s : Machine} (hc : s.clients[i]? = some c)
    (hfd : c'.fd = c.fd) (channels : List Channel) {sends : List (Nat × Bytes)}
    (h : ∀ call ∈ sends, call.2 ≠ []) :
    (s.settle i c' channels sends).history =
      s.history ++ sends.map fun call => .queued (s.clientAt call.1).fd call.2 := by
  have hclient : ∀ j, ((s.clients.set i c').getD j { fd := -1 }).fd =
      (s.clients.getD j { fd := -1 }).fd := by
    intro j
    rw [List.getD_eq_getElem?_getD, List.getD_eq_getElem?_getD, List.getElem?_set]
    split
    · next hij =>
        subst hij
        rw [if_pos (List.getElem?_eq_some_iff.mp hc).choose, hc]
        exact hfd
    · rfl
  rw [settle, sendEach_history h]
  simp only [Server.clientAt, hclient]

end Machine

theorem Dispatched.fd_eq {s : Server} {i : Nat} {c : Client} {message : Message} {c' : Client}
    {channels : List Channel} {sends : List (Nat × Bytes)}
    (h : Dispatched s i c message c' channels sends) : c'.fd = c.fd := by
  cases h <;> rfl

/-- No line writes its own send buffer but through `sending_queue`. -/
theorem Dispatched.sendBuffer_eq {s : Server} {i : Nat} {c : Client} {message : Message}
    {c' : Client} {channels : List Channel} {sends : List (Nat × Bytes)}
    (h : Dispatched s i c message c' channels sends) : c'.sendBuffer = c.sendBuffer := by
  cases h <;> rfl

theorem map_set_same {β : Type} {clients : List Client} {i : Nat} {c d : Client} {f : Client → β}
    (hc : clients[i]? = some c) (h : f d = f c) : (clients.map f).set i (f d) = clients.map f := by
  rw [h]
  exact Search.set_of_getElem? (by rw [List.getElem?_map, hc, Option.map_some])

end IrcServer
