import IrcServer.Proof.Launch

/-! # The output stream

What `send` has taken for a connection, followed by what waits in its send buffer, is
what has been queued for it, in order. `handle_send` moves bytes from the one to the
other, and only a dispatched line adds any.
-/

namespace IrcServer

open Search Machine Transition

/-- The bytes that `send` took for `fd`, in order. -/
def sentTo (fd : Int) (entries : List Entry) : List Bytes :=
  entries.filterMap fun
    | .sent fd' bytes => if fd' = fd then some bytes else none
    | _ => none

/-- Every open connection has been sent, or still holds, what was queued for it. -/
def Lossless (s : Machine) : Prop :=
  ∀ c ∈ s.clients, (sentTo c.fd (sinceAccepted c.fd s.history)).flatten ++ c.sendBuffer =
    (queuedTo c.fd s).flatten

/-! ## What an event adds -/

@[simp] theorem sentTo_append (fd : Int) (xs ys : List Entry) :
    sentTo fd (xs ++ ys) = sentTo fd xs ++ sentTo fd ys :=
  List.filterMap_append

theorem sentTo_queued (fd : Int) (f : Nat × Bytes → Int) (g : Nat × Bytes → Bytes)
    (sends : List (Nat × Bytes)) :
    sentTo fd (sends.map fun call => .queued (f call) (g call)) = [] := by
  induction sends with
  | nil => rfl
  | cons call sends ih => exact ih

section Event

variable {s s' : Machine} {e : Event} {x y : Client}

/-- A connection goes on as long as the event adds to what was taken and to what waits what it
adds to what was queued. -/
theorem Stepped.lossless_of (invariant : Invariant s) (stepped : Stepped s e s') (h : Lossless s)
    (hy : y ∈ s.clients) (hfd : x.fd = y.fd) {entries : List Entry}
    (hhistory : s'.history = s.history ++ entries)
    (grown : (sentTo y.fd entries).flatten ++ x.sendBuffer =
      y.sendBuffer ++ (messagesTo y.fd entries).flatten) :
    (sentTo x.fd (sinceAccepted x.fd s'.history)).flatten ++ x.sendBuffer =
      (queuedTo x.fd s').flatten := by
  rw [hfd, stepped.sinceAccepted_eq invariant hy, stepped.queuedTo_eq invariant hy,
    added_eq hhistory, sentTo_append, List.flatten_append, List.flatten_append, List.append_assoc,
    grown, ← h y hy, List.append_assoc]

/-- `handle_send` moves bytes from the front of the buffer to the stream. -/
theorem flushed_lossless (invariant : Invariant s) {i : Nat} {c : Client}
    (hc : s.clients[i]? = some c) (flushed : Flushed s i c s') (h : Lossless s) : Lossless s' := by
  have stepped := flushed.stepped hc (.error .wouldBlock)
  have moved : ∀ bytes, s'.clients = s.clients.set i { c with sendBuffer := c.sendBuffer.drop bytes } →
      s'.history = s.history ++ [.sent c.fd (c.sendBuffer.take bytes)] → Lossless s' := by
    intro bytes hclients hhistory x hx
    rw [hclients] at hx
    obtain ⟨j, hj⟩ := List.mem_iff_getElem?.mp hx
    rw [List.getElem?_set] at hj
    split at hj
    · next hij =>
        subst hij
        split at hj
        · obtain rfl := Option.some.inj hj
          refine stepped.lossless_of invariant h (List.mem_of_getElem? hc) rfl hhistory ?_
          simp [sentTo, messagesTo]
        · cases hj
    · next hij =>
        have hne : c.fd ≠ x.fd := fun heq => hij (invariant.table.fd_position hc hj heq)
        refine stepped.lossless_of invariant h (List.mem_of_getElem? hj) rfl hhistory ?_
        simp [sentTo, messagesTo, hne]
  cases flushed with
  | idle => exact h
  | blocked => exact h
  | partly bytes => exact moved bytes rfl rfl
  | entirely bytes => exact moved bytes rfl rfl

theorem step_lossless (invariant : Invariant s) (h : Lossless s) (hstep : step s e = some s') :
    Lossless s' := by
  have stepped := step_stepped invariant.table hstep
  have kept : ∀ {x y : Client} {entries : List Entry}, y ∈ s.clients → x.fd = y.fd →
      x.sendBuffer = y.sendBuffer → s'.history = s.history ++ entries →
      sentTo y.fd entries = [] → messagesTo y.fd entries = [] →
      (sentTo x.fd (sinceAccepted x.fd s'.history)).flatten ++ x.sendBuffer =
        (queuedTo x.fd s').flatten := by
    intro x y entries hy hfd hbuffer hhistory hsent hqueued
    refine stepped.lossless_of invariant h hy hfd hhistory ?_
    rw [hsent, hqueued, hbuffer, List.flatten_nil, List.append_nil, List.nil_append]
  cases step_stepped invariant.table hstep with
  | unconnected => exact h
  | dropped accepted =>
      intro x hx
      exact kept hx rfl rfl rfl rfl rfl
  | connected accepted =>
      intro x hx
      rcases List.mem_append.mp hx with hx | hx
      · exact kept hx rfl rfl rfl rfl rfl
      · obtain rfl := List.mem_singleton.mp hx
        rw [queuedTo, including, sinceAccepted_accepted]
        rfl
  | buffered i c hc contents =>
      intro x hx
      rcases List.mem_or_eq_of_mem_set hx with hx | rfl
      · exact kept hx rfl rfl (List.append_nil _).symm rfl rfl
      · exact kept (List.mem_of_getElem? hc) rfl rfl (List.append_nil _).symm rfl rfl
  | dispatched i c hc line clean c' channels sends effect =>
      intro x hx
      obtain ⟨j, hj⟩ := List.mem_iff_getElem?.mp hx
      rw [settle_getElem?] at hj
      obtain ⟨d, hd, rfl⟩ := Option.map_eq_some_iff.mp hj
      have hhistory := dispatched_history invariant hc clean effect
      -- the record before the calls of `sending_queue`
      obtain ⟨y, hy, hfd, hbuffer⟩ : ∃ y, s.clients[j]? = some y ∧ d.fd = y.fd ∧
          d.sendBuffer = y.sendBuffer := by
        rw [List.getElem?_set] at hd
        split at hd
        · next hij =>
            subst hij
            split at hd
            · obtain rfl := Option.some.inj hd
              exact ⟨c, hc, effect.fd_eq, effect.sendBuffer_eq⟩
            · cases hd
        · exact ⟨d, hd, rfl, rfl⟩
      refine stepped.lossless_of invariant h (List.mem_of_getElem? hy) hfd hhistory ?_
      have hmessages := effect.messagesTo_eq invariant.table hc hy
      have hsent := sentTo_queued y.fd (fun call => (s.clientAt call.1).fd) (·.2) sends
      rw [messagesTo] at hmessages
      rw [sentTo] at hsent
      rw [sentTo, messagesTo, List.filterMap_cons, List.filterMap_cons, hmessages, hsent]
      simp [Client.appendSendBuff, hbuffer]
  | flushed i c hc send => exact flushed_lossless invariant hc (step_flushed invariant.table hc hstep) h
  | disconnected i c hc =>
      intro x hx
      exact kept (List.mem_of_mem_eraseIdx hx) rfl rfl rfl rfl rfl

end Event

/-! ## Runs -/

/-- No byte of the output is lost, repeated, reordered or sent to somebody else. -/
theorem lossless_running {fd : Int} {passwd : Bytes} {ticks : List Tick} {p : Process}
    (hrun : run advance (Process.start fd passwd) ticks = some p) (running : p.Running) :
    Lossless p.server := by
  have empty : ∀ fd passwd, Lossless (Machine.start fd passwd) := fun _ _ c hc =>
    absurd hc List.not_mem_nil
  exact ((running_launched hrun running).induct empty
    (fun _ _ _ invariant h hstep => step_lossless invariant h hstep) (fun _ _ _ h => h)).2

def idleTurn : Tick := .turn ⟨-1, 0, .error .wouldBlock, .error .wouldBlock⟩

/-- A client connects and is refused a command, and `send` takes seven bytes of the reply. -/
def refusedTicks : List Tick :=
  [.poll [POLLIN], .turn ⟨4, 0, .error .wouldBlock, .error .wouldBlock⟩, idleTurn, idleTurn,
    .poll [0, POLLIN], idleTurn,
    .turn ⟨-1, 0, .ok (text "JOIN #42" ++ crlf), .error .wouldBlock⟩, idleTurn,
    .poll [0, POLLOUT], idleTurn, .turn ⟨-1, 0, .error .wouldBlock, .ok 7⟩]

theorem lossless_sample :
    ∃ p, run advance (Process.start 3 (text "pw")) refusedTicks = some p ∧
      Lossless p.server := by
  have hrun : (run advance (Process.start 3 (text "pw")) refusedTicks).any
      (fun p => decide (p.phase = .scanning 2)) = true := by decide
  obtain ⟨p, hp, hphase⟩ := (Option.any_eq_true _ _).mp hrun
  exact ⟨p, hp, lossless_running hp (.inr ⟨2, of_decide_eq_true hphase⟩)⟩

end IrcServer
