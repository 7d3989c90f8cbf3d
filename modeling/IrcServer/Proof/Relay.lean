import IrcServer.Proof.Pass
import IrcServer.Proof.Replay
import IrcServer.Proof.Stream
import IrcServer.Spec.Relay

/-! # The program is a relay

Every call of the event loop is what the relay makes of the inputs that the call lets
in. So a running program has the tables of the network behind it, holds of every
connection the line that it has begun, and has sent, or still holds, exactly the
rendering of what the connection has been told.
-/

namespace IrcServer

open Framing Search Machine Transition

/-- The connections, each with the line that it has begun. -/
def Machine.waiting (s : Machine) : List (Int × Bytes) := s.clients.map fun d => (d.fd, d.buffer)

structure Shadows (s : Machine) (relay : Relay Int) : Prop where
  state : relay.state = Network.replay s.passwd s.actions
  pending : ∀ entry ∈ s.waiting, relay.pending entry.1 = entry.2

section Shadows

variable {s t : Machine} {relay : Relay Int}

theorem Shadows.same (h : Shadows s relay) (passwd : t.passwd = s.passwd)
    (actions : t.actions = s.actions) (waiting : t.waiting = s.waiting) : Shadows t relay where
  state := by rw [h.state, passwd, actions]
  pending := by rw [waiting]; exact h.pending

theorem Shadows.taken (h : Shadows s relay) {input : Input Int} (passwd : t.passwd = s.passwd)
    (actions : t.actions = s.actions ++ relay.actions input)
    (begun : ∀ entry ∈ t.waiting, relay.begun input entry.1 = entry.2) :
    Shadows t (relay.take input) where
  state := by rw [passwd, actions, Network.replay_append, ← h.state]; rfl
  pending := begun

theorem Shadows.closed (h : Shadows s relay) (table : Table s.toServer) {i : Nat} {c : Client}
    (hc : s.clients[i]? = some c) : Shadows (disconnect (i + 1) s) (relay.take (.close c.fd)) := by
  rw [disconnect_eq table hc]
  refine h.taken (t := s.without i c) rfl ?_ ?_
  · simp [actions, without, Relay.actions, Entry.action]
  · intro entry hentry
    rw [waiting, without, map_eraseIdx] at hentry
    exact h.pending entry (List.mem_of_mem_eraseIdx hentry)

theorem Shadows.connected (h : Shadows s relay) (table : Table s.toServer) {accepted fcntl : Int}
    (assumed : acceptable s accepted = true) :
    Shadows (connect accepted fcntl s)
      ((Call.inputs s (.connect accepted fcntl)).foldl Relay.take relay) := by
  simp only [Call.inputs, connect]
  split
  · exact h
  · next hne =>
      have fresh : accepted ∉ s.fds.map (·.fd) := by
        simp only [acceptable, hne, decide_false, Bool.false_or, Bool.and_eq_true,
          Bool.not_eq_true', List.contains_eq_mem, decide_eq_false_iff_not] at assumed
        exact assumed.2
      have other : ∀ entry ∈ s.waiting, entry.1 ≠ accepted := by
        intro entry hentry hfd
        obtain ⟨d, hd, rfl⟩ := List.mem_map.mp hentry
        refine fresh ?_
        rw [table.aligned]
        exact List.mem_cons_of_mem _ (List.mem_map.mpr ⟨d, hd, hfd⟩)
      have before : ∀ entry ∈ s.waiting,
          relay.begun (.connect accepted) entry.1 = entry.2 := fun entry hentry => by
        rw [Relay.begun, Function.update_of_ne (other entry hentry), h.pending entry hentry]
      split
      · refine Shadows.taken (s := s.record (.accepted accepted))
          (h.taken rfl (by simp [actions, record, Relay.actions, Entry.action]) before) rfl ?_ before
        simp [actions, record, Relay.actions, Entry.action]
      · refine h.taken rfl (by simp [actions, Relay.actions, Entry.action]) fun entry hentry => ?_
        rw [waiting, List.map_append, List.mem_append] at hentry
        rcases hentry with hentry | hentry
        · exact before entry hentry
        · obtain rfl := List.mem_singleton.mp hentry
          simp only [Relay.begun, Function.update_self]

end Shadows

/-! ## Input -/

section Received

variable {s t : Machine} {i : Nat} {relay : Relay Int}

theorem foldl_dispatchSegment_unbuffered (i : Nat) (s : Machine) (segments : List Bytes) :
    (segments.foldl (dispatchSegment i) s).unbuffered =
      segments.foldl (dispatchSegment i) s.unbuffered :=
  (List.foldl_hom Machine.unbuffered fun s segment =>
    (dispatchLine_unbuffered s i (dropCR segment)).symm).symm

theorem dispatchSegment_actions (invariant : Invariant s) {c : Client}
    (hc : s.clients[i]? = some c) {segment : Bytes} (clean : LF ∉ segment) :
    (dispatchSegment i s segment).actions =
      s.actions ++ [.line c.fd (Parser.parse (dropCR segment))] := by
  have hclean := dropCR_clean clean
  obtain ⟨c', channels, sends, effect, heq⟩ := dispatchCommand_settles
    (s := s.record (.line c.fd (dropCR segment))) hc invariant.table hclean
  rw [dispatchSegment, dispatchLine, Server.clientAt_of_getElem? hc, heq]
  exact dispatched_actions invariant hc hclean effect

theorem segments_actions {segments : List Bytes} (clean : ∀ segment ∈ segments, LF ∉ segment)
    (invariant : Invariant s) {c : Client} (hc : s.clients[i]? = some c) :
    (segments.foldl (dispatchSegment i) s).actions =
      s.actions ++ segments.map fun line => .line c.fd (Parser.parse (dropCR line)) := by
  induction segments generalizing s c with
  | nil => exact (List.append_nil _).symm
  | cons segment segments ih =>
      have hsegment : LF ∉ segment := clean segment List.mem_cons_self
      have hi : i < s.clients.length := (List.getElem?_eq_some_iff.mp hc).choose
      have hstep : step s (.command i (dropCR segment)) = some (dispatchSegment i s segment) :=
        if_pos ⟨hi, dropCR_clean hsegment⟩
      have hfds := congrArg (·[i]?) (dispatchLine_keeps i s (dropCR segment)).clients
      simp only [List.getElem?_map, hc, Option.map_some] at hfds
      obtain ⟨d, hd, hfd⟩ := Option.map_eq_some_iff.mp hfds
      have hrest := ih (fun segment h => clean segment (List.mem_cons_of_mem _ h))
        (invariant.step hstep) hd
      rw [List.foldl_cons, hrest, dispatchSegment_actions invariant hc hsegment, hfd,
        List.append_assoc, List.map_cons, List.singleton_append]

theorem Shadows.received (h : Shadows s relay) (invariant : Invariant s) {c : Client}
    (hc : s.clients[i]? = some c) {data : Bytes} (received : Received s i data t)
    (passwd : t.passwd = s.passwd) (fds : t.clients.map (·.fd) = s.clients.map (·.fd)) :
    Shadows t (relay.take (.bytes c.fd data)) := by
  have hclient : s.clientAt i = c := Server.clientAt_of_getElem? hc
  have hpending : relay.pending c.fd = c.buffer :=
    h.pending _ (List.mem_map_of_mem (List.mem_of_getElem? hc))
  apply h.taken passwd
  · have hview : t.unbuffered =
        (split LF (c.buffer ++ data)).1.foldl (dispatchSegment i) s.unbuffered := by
      have hview := congrArg Prod.snd received.view
      simpa only [Machine.view, feed, hclient] using hview
    have clean : ∀ segment ∈ (split LF (c.buffer ++ data)).1, LF ∉ segment := fun _ hsegment =>
      split_segment_not_mem hsegment
    have hactions := segments_actions clean invariant hc
    calc t.actions = t.unbuffered.actions := rfl
      _ = ((split LF (c.buffer ++ data)).1.foldl (dispatchSegment i) s).actions := by
        rw [hview, ← foldl_dispatchSegment_unbuffered]
        rfl
      _ = s.actions ++ relay.actions (.bytes c.fd data) := by
        rw [hactions, Relay.actions, hpending]
  · intro entry hentry
    obtain ⟨d, hd, rfl⟩ := List.mem_map.mp hentry
    obtain ⟨j, hj⟩ := List.mem_iff_getElem?.mp hd
    obtain ⟨x, hx, hfd⟩ : ∃ x, s.clients[j]? = some x ∧ x.fd = d.fd := by
      have hat := congrArg (·[j]?) fds
      simp only [List.getElem?_map, hj, Option.map_some] at hat
      exact Option.map_eq_some_iff.mp hat.symm
    have hbuffer := congrArg (·[j]?) received.buffers
    simp only [Machine.buffers, List.getElem?_map, hj, Option.map_some, List.getElem?_set,
      hx, List.length_map] at hbuffer
    rw [Relay.begun, hpending]
    by_cases hij : i = j
    · subst hij
      obtain rfl := Option.some.inj (hc.symm.trans hx)
      have hi : i < s.clients.length := (List.getElem?_eq_some_iff.mp hc).choose
      simp only [if_true, hi, Option.some.injEq] at hbuffer
      rw [← hfd, Function.update_self, hbuffer, received.buffer, hclient]
    · simp only [if_neg hij, Option.some.injEq] at hbuffer
      have hne : d.fd ≠ c.fd := fun heq =>
        hij (invariant.table.fd_position hc hx (heq.symm.trans hfd.symm))
      have hbefore := h.pending _ (List.mem_map_of_mem (List.mem_of_getElem? hx))
      rw [Function.update_of_ne hne, ← hfd, hbuffer, hbefore]

end Received

/-! ## Output -/

theorem Flushed.quiet {s t : Machine} {i : Nat} {c : Client} (hc : s.clients[i]? = some c)
    (h : Flushed s i c t) :
    t.passwd = s.passwd ∧ t.actions = s.actions ∧ t.waiting = s.waiting := by
  have taken : ∀ bytes, ((s.record (.sent c.fd (c.sendBuffer.take bytes))).setClient i
      { c with sendBuffer := c.sendBuffer.drop bytes }).actions = s.actions := fun bytes => by
    simp [actions, record, setClient, Entry.action]
  have kept : ∀ bytes, ((s.record (.sent c.fd (c.sendBuffer.take bytes))).setClient i
      { c with sendBuffer := c.sendBuffer.drop bytes }).waiting = s.waiting := fun bytes => by
    rw [waiting, setClient, List.map_set]
    exact map_set_same (f := fun d => (d.fd, d.buffer)) hc rfl
  cases h with
  | idle => exact ⟨rfl, rfl, rfl⟩
  | blocked => exact ⟨rfl, rfl, rfl⟩
  | partly bytes => exact ⟨rfl, taken bytes, kept bytes⟩
  | entirely bytes => exact ⟨rfl, taken bytes, kept bytes⟩

/-! ## The calls -/

section Calls

variable {s t : Machine} {relay : Relay Int}

theorem serve_passwd (invariant : Invariant s) {call : Call} (hserve : serve s call = some t) :
    t.passwd = s.passwd := by
  obtain ⟨events, hrun⟩ := serve_refines invariant hserve
  have preserved : ∀ a e b, Invariant a ∧ a.passwd = s.passwd → step a e = some b →
      Invariant b ∧ b.passwd = s.passwd := fun a e b ha hstep =>
    ⟨ha.1.step hstep, ((step_stepped ha.1.table hstep).passwd).trans ha.2⟩
  exact (run_invariant preserved ⟨invariant, rfl⟩ hrun).2

/-- The relay takes what the call lets in. -/
theorem Shadows.served (invariant : Invariant s) (h : Shadows s relay) {call : Call}
    (hserve : serve s call = some t) : Shadows t ((call.inputs s).foldl Relay.take relay) := by
  have table := invariant.table
  have hpasswd := serve_passwd invariant hserve
  cases call with
  | connect accepted fcntl =>
      simp only [serve, Option.ite_none_right_eq_some, Option.some.injEq] at hserve
      obtain ⟨assumed, rfl⟩ := hserve
      exact h.connected table assumed
  | disconnect i =>
      simp only [serve, Option.ite_none_right_eq_some, Option.some.injEq] at hserve
      obtain ⟨hi, rfl⟩ := hserve
      exact h.closed table (clientAt_table hi)
  | handleUser i recv =>
      simp only [serve, Option.ite_none_right_eq_some, Option.some.injEq] at hserve
      obtain ⟨hi, rfl⟩ := hserve
      have hc := clientAt_table hi
      cases recv with
      | error errno =>
          cases errno with
          | wouldBlock => exact h
          | other => exact h.closed table hc
      | ok data =>
          cases data with
          | nil => exact h.closed table hc
          | cons b data =>
              have received := (handleUser_received invariant hi (List.cons_ne_nil b data)).2
              exact h.received invariant hc received hpasswd
                (received_keeps (i + 1) s (b :: data) _).clients
  | handleSend i send =>
      simp only [serve, Option.ite_none_right_eq_some, Option.some.injEq] at hserve
      obtain ⟨⟨hi, _⟩, rfl⟩ := hserve
      have hc := clientAt_table hi
      cases hgone : (handleSend (i + 1) send s).1 with
      | true =>
          rw [handleSend_gone hgone]
          simp only [Call.inputs, hgone, if_true]
          exact h.closed table hc
      | false =>
          obtain ⟨passwd, actions, waiting⟩ := (handleSend_flushed table hc hgone).quiet hc
          simp only [Call.inputs, hgone, Bool.false_eq_true, if_false]
          exact h.same passwd actions waiting

end Calls

/-! ## The program -/

section Program

variable {s : Machine} {i : Nat} {results : Results} {p q : Process} {tick : Tick}

theorem turn_serves (invariant : Invariant s) (hi : i < s.fds.length)
    (hresults : admissible results i s = true) :
    run serve s (turnCalls results i s) = some (turn results i s).2 := by
  obtain ⟨haccept, hsend⟩ := Bool.and_eq_true_iff.mp hresults
  unfold turn turnCalls
  split
  · rfl
  · split
    · split
      · exact run_cons_some.mpr ⟨_, if_pos haccept, rfl⟩
      · rfl
    · next hother =>
        obtain ⟨k, rfl⟩ : ∃ k, i = k + 1 := by
          cases i with
          | zero => exact absurd invariant.table.listening hother
          | succ k => exact ⟨k, rfl⟩
        have hk : k < s.clients.length := by
          rw [invariant.table.size] at hi
          exact Nat.lt_of_succ_lt_succ hi
        have hstays := (receive_calls results invariant hk).2
        have hreceive : run serve s
            (if hasAny (revents (k + 1) s) POLLIN then [.handleUser k results.recv] else []) =
              some (receive results (k + 1) s).2 := by
          unfold receive
          split
          · exact run_cons_some.mpr ⟨_, if_pos hk, rfl⟩
          · rfl
        simp only [Nat.add_sub_cancel] at hsend ⊢
        rw [run_append, hreceive, Option.bind_some]
        cases hgone : (receive results (k + 1) s).1 with
        | true => simp
        | false =>
            have hlt := hstays hgone
            simp only [Bool.false_eq_true, if_false, answer]
            split
            · exact run_cons_some.mpr ⟨_, if_pos hlt, rfl⟩
            · split
              · exact run_cons_some.mpr ⟨_, if_pos ⟨hlt, hsend⟩, rfl⟩
              · rfl

theorem Shadows.calls {relay : Relay Int} {t : Machine} (h : Invariant s ∧ Shadows s relay)
    {calls : List Call} (hrun : run serve s calls = some t) :
    Invariant t ∧ Shadows t ((trace serve Call.inputs s calls).foldl Relay.take relay) := by
  refine run_simulates (R := fun s relay => Invariant s ∧ Shadows s relay) ?_ h hrun
  rintro a call b relay ⟨invariant, shadows⟩ hserve
  obtain ⟨events, hevents⟩ := serve_refines invariant hserve
  exact ⟨invariant.run hevents, shadows.served invariant hserve⟩

/-- As long as `launch` runs, the relay takes what a step lets in. -/
theorem Shadows.advanced {relay : Relay Int}
    (h : p.Running → Invariant p.server ∧ Shadows p.server relay) (hstep : advance p tick = some q)
    (running : q.Running) :
    Invariant q.server ∧ Shadows q.server ((tick.inputs p).foldl Relay.take relay) := by
  have before := h (((advance_advanced hstep).operations running).1)
  cases tick with
  | poll revents =>
      simp only [advance, Option.ite_none_right_eq_some, Option.some.injEq] at hstep
      obtain ⟨_, rfl⟩ := hstep
      exact ⟨setRevents_invariant revents before.1, before.2.same rfl rfl rfl⟩
  | interrupted =>
      simp only [advance, Option.ite_none_right_eq_some, Option.some.injEq] at hstep
      obtain ⟨_, rfl⟩ := hstep
      exact before
  | turn results =>
      simp only [advance] at hstep
      split at hstep
      · next i hphase =>
          split at hstep
          · next hi =>
              split at hstep
              · next hresults =>
                  obtain rfl := Option.some.inj hstep
                  simp only [Tick.inputs, Tick.calls, hphase, if_pos hi]
                  exact Shadows.calls before (turn_serves before.1 hi hresults)
              · cases hstep
          · next hend =>
              obtain rfl := Option.some.inj hstep
              simp only [Tick.inputs, Tick.calls, hphase, if_neg hend]
              exact before
      · cases hstep
  | failed | shutdown | destructor =>
      simp only [advance, Option.ite_none_right_eq_some, Option.some.injEq] at hstep
      obtain ⟨_, rfl⟩ := hstep
      exact absurd running (not_running (by simp))

theorem Launched.replayed (h : Launched s) : Replayed s := by
  have hall := h.induct (P := fun s => Numbered s ∧ ∀ invariant : Invariant s,
      Mirrors s invariant.table (Network.replay s.passwd s.actions)) ?_ ?_ ?_
  · exact ⟨hall.1, hall.2.1, hall.2.2 hall.1⟩
  · exact fun fd passwd => ⟨(start_replayed fd passwd).numbered,
      fun _ => (start_replayed fd passwd).mirrors⟩
  · intro s e s' invariant hs hstep
    have after := Replayed.step ⟨invariant, hs.1, hs.2 invariant⟩ hstep
    exact ⟨after.numbered, fun _ => after.mirrors⟩
  · intro s revents invariant hs
    exact ⟨hs.1, fun invariant' =>
      (hs.2 invariant).same invariant'.table rfl rfl rfl fun _ _ => rfl⟩

theorem Launched.lossless (h : Launched s) : Lossless s :=
  (h.induct (fun _ _ _ hc => absurd hc List.not_mem_nil)
    (fun _ _ _ invariant hs hstep => step_lossless invariant hs hstep) fun _ _ _ hs => hs).2

end Program

/-- The server as seen from its sockets: its tables are those of the relay's network, it holds what
the relay has pending, and it has sent, or still holds, what the relay has spoken. -/
structure Carries (s : Machine) (table : Table s.toServer) (relay : Relay Int) : Prop where
  network : relay.state.1 = s.network table
  pending : ∀ d ∈ s.clients, relay.pending d.fd = d.buffer
  spoken : ∀ d ∈ s.clients,
    relay.spoken d.fd = (sentTo d.fd (sinceAccepted d.fd s.history)).flatten ++ d.sendBuffer

/-- A running program is the relay of what its system calls have let in. -/
theorem running_carries {fd : Int} {passwd : Bytes} {ticks : List Tick} {p : Process}
    (hrun : run advance (Process.start fd passwd) ticks = some p) (running : p.Running) :
    ∃ table : Table p.server.toServer, Carries p.server table
      (((Process.start fd passwd).inputs ticks).foldl Relay.take (Relay.start passwd)) := by
  have start : Invariant (Machine.start fd passwd) ∧
      Shadows (Machine.start fd passwd) (Relay.start passwd) :=
    ⟨start_invariant fd passwd, rfl, fun _ h => absurd h List.not_mem_nil⟩
  have hshadows := run_simulates
    (R := fun (p : Process) relay => p.Running → Invariant p.server ∧ Shadows p.server relay)
    (fun _ _ _ _ h hstep running => Shadows.advanced h hstep running) (fun _ => start) hrun running
  have launched := running_launched hrun running
  have replayed := launched.replayed
  refine ⟨replayed.invariant.table, ?_, ?_, ?_⟩
  · rw [Process.inputs, hshadows.2.state, replayed.mirrors.network]
  · exact fun d hd => hshadows.2.pending _ (List.mem_map_of_mem hd)
  · intro d hd
    rw [launched.lossless d hd, replayed.mirrors.mail d hd, Relay.spoken, Process.inputs,
      hshadows.2.state]

/-- A line arrives in two pieces, and `send` takes seven bytes of the reply to it. -/
def pieceTicks : List Tick :=
  [.poll [POLLIN], .turn ⟨4, 0, .error .wouldBlock, .error .wouldBlock⟩, idleTurn, idleTurn,
    .poll [0, POLLIN], idleTurn,
    .turn ⟨-1, 0, .ok (text "JOIN #"), .error .wouldBlock⟩, idleTurn,
    .poll [0, POLLIN], idleTurn,
    .turn ⟨-1, 0, .ok (text "42" ++ crlf ++ text "NI"), .error .wouldBlock⟩, idleTurn,
    .poll [0, POLLOUT], idleTurn, .turn ⟨-1, 0, .error .wouldBlock, .ok 7⟩]

theorem running_carries_sample :
    ∃ p, run advance (Process.start 3 (text "pw")) pieceTicks = some p ∧
      ∃ table : Table p.server.toServer, Carries p.server table
        (((Process.start 3 (text "pw")).inputs pieceTicks).foldl Relay.take
          (Relay.start (text "pw"))) := by
  have hrun : (run advance (Process.start 3 (text "pw")) pieceTicks).any
      (fun p => decide (p.phase = .scanning 2)) = true := by decide
  obtain ⟨p, hp, hphase⟩ := (Option.any_eq_true _ _).mp hrun
  exact ⟨p, hp, running_carries hp (.inr ⟨2, of_decide_eq_true hphase⟩)⟩

end IrcServer
