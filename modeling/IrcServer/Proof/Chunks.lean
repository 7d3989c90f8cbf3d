import IrcServer.Library.Framing
import IrcServer.Model.Service
import IrcServer.Proof.Buffers
import IrcServer.Proof.History

/-! # Chunks of input

What a client sends is a stream, and how `recv` cuts it does not matter: the machine
after some bytes is the one that has been fed the terminated segments of the stream
and holds what stands after the last line feed.
-/

namespace IrcServer

open Framing Machine Transition

def dispatchedLines (entries : List Entry) : List (Int × Bytes) :=
  entries.filterMap fun
    | .line fd contents => some (fd, contents)
    | _ => none

/-- The machine as the reader of client `i` sees it: the receive buffer, and the rest. -/
def Machine.view (i : Nat) (s : Machine) : Bytes × Machine := ((s.clientAt i).buffer, s.unbuffered)

def dispatchSegment (i : Nat) (s : Machine) (segment : Bytes) : Machine :=
  dispatchLine i (dropCR segment) s

/-- From `s`, the client at position `i` has sent `data`, and `t` is the state now. -/
structure Received (s : Machine) (i : Nat) (data : Bytes) (t : Machine) : Prop where
  steps : ∃ events, run step s events = some t
  view : t.view i = feed LF (dispatchSegment i) (s.view i) data
  buffers : t.buffers = s.buffers.set i (t.clientAt i).buffer
  fd : (t.clientAt i).fd = (s.clientAt i).fd
  lines : ∃ entries, t.history = s.history ++ entries ∧
    dispatchedLines entries =
      (split LF ((s.clientAt i).buffer ++ data)).1.map fun segment =>
        ((s.clientAt i).fd, dropCR segment)

theorem dispatchedLines_append (xs ys : List Entry) :
    dispatchedLines (xs ++ ys) = dispatchedLines xs ++ dispatchedLines ys :=
  List.filterMap_append

theorem dispatchedLines_queued (f : Nat × Bytes → Int) (g : Nat × Bytes → Bytes)
    (sends : List (Nat × Bytes)) :
    dispatchedLines (sends.map fun call => .queued (f call) (g call)) = [] := by
  induction sends with
  | nil => rfl
  | cons call sends ih => exact ih

theorem buffers_getElem? {s : Machine} {i : Nat} (hi : i < s.clients.length) :
    s.buffers[i]? = some (s.clientAt i).buffer := by
  rw [Machine.buffers, List.getElem?_map, clientAt_table hi, Option.map_some]

section Received

variable {s t u : Machine} {i : Nat} {xs ys : Bytes}

theorem Received.length (h : Received s i xs t) : t.clients.length = s.clients.length := by
  have hlength := congrArg List.length h.buffers
  simpa [Machine.buffers] using hlength

theorem Received.buffer (h : Received s i xs t) :
    (t.clientAt i).buffer = (split LF ((s.clientAt i).buffer ++ xs)).2 :=
  congrArg Prod.fst h.view

theorem Received.unique (ht : Received s i xs t) (hu : Received s i xs u) : t = u := by
  have hview : t.view i = u.view i := ht.view.trans hu.view.symm
  have hbuffer : (t.clientAt i).buffer = (u.clientAt i).buffer := congrArg Prod.fst hview
  have hrest : t.unbuffered = u.unbuffered := congrArg Prod.snd hview
  exact ext_buffers hrest (by rw [ht.buffers, hu.buffers, hbuffer])

theorem Received.trans (ht : Received s i xs t) (hu : Received t i ys u) :
    Received s i (xs ++ ys) u where
  steps := by
    obtain ⟨events, hrun⟩ := ht.steps
    obtain ⟨events', hrun'⟩ := hu.steps
    exact ⟨events ++ events', run_append_some.mpr ⟨t, hrun, hrun'⟩⟩
  view := by rw [hu.view, ht.view, feed_append]
  buffers := by rw [hu.buffers, ht.buffers, List.set_set]
  fd := hu.fd.trans ht.fd
  lines := by
    obtain ⟨entries, hhistory, hlines⟩ := ht.lines
    obtain ⟨entries', hhistory', hlines'⟩ := hu.lines
    refine ⟨entries ++ entries', ?_, ?_⟩
    · rw [hhistory', hhistory, List.append_assoc]
    · rw [dispatchedLines_append, hlines, hlines', ht.fd, ht.buffer, ← List.append_assoc,
        split_append LF ((s.clientAt i).buffer ++ xs) ys, List.map_append]

theorem Received.nothing (hi : i < s.clients.length) (h : LF ∉ (s.clientAt i).buffer) :
    Received s i [] s where
  steps := ⟨[], rfl⟩
  view := (feed_nil (dispatchSegment i) h).symm
  buffers := (Search.set_of_getElem? (buffers_getElem? hi)).symm
  fd := rfl
  lines := ⟨[], (List.append_nil _).symm, by rw [List.append_nil, split_of_not_mem h]; rfl⟩

end Received

/-! ## The receive buffer -/

def Machine.holding (i : Nat) (contents : Bytes) (s : Machine) : Machine :=
  s.setClient i { s.clientAt i with buffer := contents }

section Buffer

variable {s : Machine} {i : Nat}

theorem step_buffer (hi : i < s.clients.length) (contents : Bytes) :
    step s (.buffer i contents) = some (s.holding i contents) :=
  if_pos hi

theorem clientAt_holding (hi : i < s.clients.length) (contents : Bytes) :
    (s.holding i contents).clientAt i = { s.clientAt i with buffer := contents } := by
  simp [holding, Server.clientAt, setClient, hi]

theorem holding_length (contents : Bytes) :
    (s.holding i contents).clients.length = s.clients.length := by
  simp [holding, setClient]

theorem holding_unbuffered (hi : i < s.clients.length) (contents : Bytes) :
    (s.holding i contents).unbuffered = s.unbuffered := by
  have hc : s.unbuffered.clients[i]? = some (s.clientAt i).unbuffered := by
    rw [unbuffered, List.getElem?_map, clientAt_table hi, Option.map_some]
  rw [holding, setClient_unbuffered, setClient]
  change { s.unbuffered with clients := s.unbuffered.clients.set i (s.clientAt i).unbuffered } = _
  rw [Search.set_of_getElem? hc]

theorem holding_buffers (contents : Bytes) :
    (s.holding i contents).buffers = s.buffers.set i contents := by
  rw [Machine.buffers, holding, setClient, List.map_set]
  rfl

theorem dropCR_clean {segment : Bytes} (clean : LF ∉ segment) : LF ∉ dropCR segment := by
  unfold dropCR
  split
  · exact fun hmem => clean (List.dropLast_subset segment hmem)
  · exact clean

/-- Bytes that only wait in the buffer count as sent. -/
theorem Received.held (hi : i < s.clients.length) {data : Bytes} {t : Machine}
    (h : Received (s.holding i ((s.clientAt i).buffer ++ data)) i [] t) : Received s i data t where
  steps := by
    obtain ⟨events, hrun⟩ := h.steps
    exact ⟨_, run_cons_some.mpr ⟨_, step_buffer hi _, hrun⟩⟩
  view := by
    rw [h.view, Machine.view, clientAt_holding hi, holding_unbuffered hi]
    simp only [feed, List.append_nil, Machine.view]
  buffers := by rw [h.buffers, holding_buffers, List.set_set]
  fd := by rw [h.fd, clientAt_holding hi]
  lines := by
    obtain ⟨entries, hhistory, hlines⟩ := h.lines
    rw [clientAt_holding hi, List.append_nil] at hlines
    exact ⟨entries, hhistory, hlines⟩

end Buffer

/-! ## The extraction loop -/

section Extraction

variable {s : Machine} {i : Nat}

structure Round (s : Machine) (i : Nat) (segment rest : Bytes) (t : Machine) : Prop where
  steps : run step s [.buffer i rest, .command i (dropCR segment)] = some t
  unbuffered : t.unbuffered = dispatchSegment i s.unbuffered segment
  buffers : t.buffers = s.buffers.set i rest
  fd : (t.clientAt i).fd = (s.clientAt i).fd
  lines : ∃ entries, t.history = s.history ++ entries ∧
    dispatchedLines entries = [((s.clientAt i).fd, dropCR segment)]

theorem round (h : Invariant s) (hi : i < s.clients.length) {segment : Bytes} (rest : Bytes)
    (clean : LF ∉ segment) :
    Round s i segment rest (dispatchSegment i (s.holding i rest) segment) := by
  have hbuffer := step_buffer hi rest
  have invariant : Invariant (s.holding i rest) := h.step hbuffer
  have hlt : i < (s.holding i rest).clients.length := by rwa [holding_length]
  have hclean := dropCR_clean clean
  have hclient := clientAt_holding hi rest
  have hstep : step (s.holding i rest) (.command i (dropCR segment)) =
      some (dispatchSegment i (s.holding i rest) segment) := if_pos ⟨hlt, hclean⟩
  have hc := clientAt_table hlt
  obtain ⟨c', channels, sends, effect, heq⟩ := dispatchCommand_settles
    (s := (s.holding i rest).record (.line ((s.holding i rest).clientAt i).fd (dropCR segment)))
    hc invariant.table hclean
  have hdispatch : dispatchSegment i (s.holding i rest) segment =
      ((s.holding i rest).record
        (.line ((s.holding i rest).clientAt i).fd (dropCR segment))).settle i c' channels sends :=
    heq
  refine ⟨?_, ?_, ?_, ?_, ?_⟩
  · exact run_cons_some.mpr ⟨_, hbuffer, run_cons_some.mpr ⟨_, hstep, rfl⟩⟩
  · rw [dispatchSegment, dispatchLine_unbuffered, holding_unbuffered hi]
    rfl
  · rw [dispatchSegment, dispatchLine_buffers invariant.table hlt hclean, holding_buffers]
  · have hfds : (dispatchSegment i (s.holding i rest) segment).clients.map (·.fd) =
        (s.holding i rest).clients.map (·.fd) := by
      rw [hdispatch, settle_map _ _ _ _ _ (·.fd) fun _ _ => rfl]
      exact map_set_same hc effect.fd_eq
    have hat := congrArg (·[i]?) hfds
    have hlen : i < (dispatchSegment i (s.holding i rest) segment).clients.length := by
      have hlength := congrArg List.length hfds
      rw [List.length_map, List.length_map] at hlength
      rwa [hlength]
    simp only [List.getElem?_map, clientAt_table hlen, hc, hclient, Option.map_some] at hat
    exact Option.some.inj hat
  · have hhistory := dispatched_history invariant hc hclean effect
    rw [← hdispatch, hclient] at hhistory
    exact ⟨_, hhistory, congrArg (List.cons _) (dispatchedLines_queued _ _ sends)⟩

theorem Round.received {segment rest : Bytes} {t u : Machine} (round : Round s i segment rest t)
    (clean : LF ∉ segment) (hbuffer : (s.clientAt i).buffer = segment ++ LF :: rest)
    (hrest : (t.clientAt i).buffer = rest) (h : Received t i [] u) : Received s i [] u where
  steps := by
    obtain ⟨events, hrun⟩ := h.steps
    exact ⟨_, run_append_some.mpr ⟨t, round.steps, hrun⟩⟩
  view := by
    rw [h.view, Machine.view, hrest, round.unbuffered, Machine.view, hbuffer, feed_segment _ clean]
  buffers := by rw [h.buffers, round.buffers, List.set_set]
  fd := h.fd.trans round.fd
  lines := by
    obtain ⟨entries, hhistory, hlines⟩ := round.lines
    obtain ⟨entries', hhistory', hlines'⟩ := h.lines
    refine ⟨entries ++ entries', ?_, ?_⟩
    · rw [hhistory', hhistory, List.append_assoc]
    · rw [dispatchedLines_append, hlines, hlines', hbuffer, hrest, round.fd, List.append_nil,
        List.append_nil, split_segment clean]
      rfl

theorem extractLoop_received (h : Invariant s) (hi : i < s.clients.length) {fuel : Nat}
    (hfuel : (s.clientAt i).buffer.length ≤ fuel) :
    Received s i [] (extractLoop (i + 1) fuel s) := by
  induction fuel generalizing s with
  | zero =>
      have hnil : (s.clientAt i).buffer = [] := List.length_eq_zero_iff.mp (Nat.le_zero.mp hfuel)
      exact Received.nothing hi (hnil ▸ List.not_mem_nil)
  | succ fuel ih =>
      rw [extractLoop, Nat.add_sub_cancel]
      dsimp only
      split
      · next hnone =>
          refine Received.nothing hi fun hmem => ?_
          simpa using List.findIdx?_eq_none_iff.mp hnone LF hmem
      · next pos hpos =>
          obtain ⟨clean, hcut⟩ := cut_of_findIdx? hpos
          have round := round h hi ((s.clientAt i).buffer.drop (pos + 1)) clean
          have hlength : (dispatchSegment i (s.holding i ((s.clientAt i).buffer.drop (pos + 1)))
              ((s.clientAt i).buffer.take pos)).clients.length = s.clients.length := by
            simpa [Machine.buffers] using congrArg List.length round.buffers
          have hlt := hlength.symm ▸ hi
          have hrest := congrArg (·[i]?) round.buffers
          have hsize : i < s.buffers.length := by simpa [Machine.buffers] using hi
          rw [buffers_getElem? hlt, List.getElem?_set_self hsize] at hrest
          have hshort := congrArg List.length hcut
          refine round.received clean hcut (Option.some.inj hrest) (ih (h.run round.steps) hlt ?_)
          rw [Option.some.inj hrest, List.length_drop]
          omega

theorem handleUser_received (h : Invariant s) (hi : i < s.clients.length) {data : Bytes}
    (hne : data ≠ []) :
    (handleUser (i + 1) (.ok data) s).1 = false ∧
      Received s i data (handleUser (i + 1) (.ok data) s).2 := by
  have invariant : Invariant (s.holding i ((s.clientAt i).buffer ++ data)) :=
    h.step (step_buffer hi _)
  have hlt : i < (s.holding i ((s.clientAt i).buffer ++ data)).clients.length := by
    rwa [holding_length]
  have hextract := extractLoop_received invariant hlt (Nat.le_refl _)
  cases data with
  | nil => exact absurd rfl hne
  | cons x data => exact ⟨rfl, hextract.held hi⟩

end Extraction

/-! ## The calls of the loop -/

section Calls

variable {s t : Machine} {i : Nat}

theorem handleSend_gone {send : Except Errno Nat} (gone : (handleSend (i + 1) send s).1 = true) :
    (handleSend (i + 1) send s).2 = disconnect (i + 1) s := by
  unfold handleSend at gone ⊢
  dsimp only at gone ⊢
  split
  · next hdata =>
      rw [if_pos hdata] at gone
      cases gone
  · next hdata =>
      rw [if_neg hdata] at gone
      split
      · rfl
      · simp at gone
      · simp at gone
      · rfl

/-- Every call is a run of the events. -/
theorem serve_refines (h : Invariant s) {call : Call} (hserve : serve s call = some t) :
    ∃ events, run step s events = some t := by
  have single : ∀ {e : Event}, step s e = some t → ∃ events, run step s events = some t :=
    fun {e} he => ⟨[e], run_cons_some.mpr ⟨t, he, rfl⟩⟩
  cases call with
  | connect accepted fcntl => exact single (e := .connect accepted fcntl) hserve
  | disconnect client => exact single (e := .disconnect client) hserve
  | handleUser client recv =>
      simp only [serve] at hserve
      split at hserve
      · next hi =>
          cases hserve
          cases recv with
          | error errno =>
              cases errno with
              | wouldBlock => exact ⟨[], rfl⟩
              | other => exact single (e := .disconnect client) (if_pos hi)
          | ok data =>
              by_cases hne : data = []
              · subst hne
                exact single (e := .disconnect client) (if_pos hi)
              · exact (handleUser_received h hi hne).2.steps
      · cases hserve
  | handleSend client send =>
      simp only [serve] at hserve
      split at hserve
      · next hi =>
          cases hserve
          cases hgone : (handleSend (client + 1) send s).1 with
          | false => exact single (e := .flush client send) (if_pos ⟨hi.1, hi.2, hgone⟩)
          | true =>
              have hgoes : step s (.disconnect client) = some (disconnect (client + 1) s) :=
                if_pos hi.1
              exact single (hgoes.trans (congrArg some (handleSend_gone hgone).symm))
      · cases hserve

theorem Served.reachable (h : Served s) : Reachable s := by
  obtain ⟨fd, passwd, calls, hrun⟩ := h
  obtain ⟨events, hevents⟩ := run_refines (fun s e s' (hs : Invariant s) hstep => hs.step hstep)
    (fun s call s' hs hserve => serve_refines hs hserve) (start_invariant fd passwd) hrun
  exact ⟨fd, passwd, events, hevents⟩

/-- Between two calls no receive buffer holds a complete line. -/
def Drained (s : Machine) : Prop := ∀ buffer ∈ s.buffers, LF ∉ buffer

theorem disconnect_buffers (i : Nat) (s : Machine) :
    (disconnect (i + 1) s).buffers = s.buffers.eraseIdx i :=
  Search.map_eraseIdx _ _ _

theorem handleSend_buffers (table : Table s.toServer) {send : Except Errno Nat}
    (hi : i < s.clients.length) (stays : (handleSend (i + 1) send s).1 = false) :
    (handleSend (i + 1) send s).2.buffers = s.buffers := by
  have hc := clientAt_table hi
  have stepped := (handleSend_flushed table hc stays).stepped hc send
  generalize (handleSend (i + 1) send s).2 = t at stepped
  cases stepped with
  | flushed _ c hc =>
      have hbuffers : (s.clients.map (·.buffer)).set i c.buffer = s.clients.map (·.buffer) :=
        map_set_same (f := (·.buffer)) hc rfl
      rw [Machine.buffers, List.map_set]
      exact hbuffers

theorem serve_drained (h : Reachable s) (drained : Drained s) {call : Call}
    (hserve : serve s call = some t) : Drained t := by
  have leaves : ∀ j, Drained (disconnect (j + 1) s) := by
    intro j buffer hbuffer
    rw [disconnect_buffers] at hbuffer
    exact drained buffer (List.mem_of_mem_eraseIdx hbuffer)
  cases call with
  | connect accepted fcntl =>
      simp only [serve] at hserve
      split at hserve
      · cases hserve
        unfold connect
        split
        · exact drained
        · split
          · exact drained
          · intro buffer hbuffer
            simp only [Machine.buffers, List.map_append, List.map_cons, List.map_nil] at hbuffer
            rcases List.mem_append.mp hbuffer with hbuffer | hbuffer
            · exact drained buffer hbuffer
            · rw [List.mem_singleton.mp hbuffer]
              exact List.not_mem_nil
      · cases hserve
  | disconnect client =>
      simp only [serve] at hserve
      split at hserve
      · cases hserve
        exact leaves client
      · cases hserve
  | handleUser client recv =>
      simp only [serve] at hserve
      split at hserve
      · next hi =>
          cases hserve
          cases recv with
          | error errno =>
              cases errno with
              | wouldBlock => exact drained
              | other => exact leaves client
          | ok data =>
              by_cases hne : data = []
              · subst hne
                exact leaves client
              · have received := (handleUser_received h.invariant hi hne).2
                intro buffer hbuffer
                rw [received.buffers, received.buffer] at hbuffer
                rcases List.mem_or_eq_of_mem_set hbuffer with hbuffer | rfl
                · exact drained buffer hbuffer
                · exact split_remainder_not_mem LF _
      · cases hserve
  | handleSend client send =>
      simp only [serve] at hserve
      split at hserve
      · next hi =>
          cases hserve
          cases hgone : (handleSend (client + 1) send s).1 with
          | false =>
              rw [Drained, handleSend_buffers h.invariant.table hi.1 hgone]
              exact drained
          | true =>
              rw [handleSend_gone hgone]
              exact leaves client
      · cases hserve

theorem Served.drained (h : Served s) : Drained s := by
  have preserved : ∀ a call b, Served a ∧ Drained a → serve a call = some b →
      Served b ∧ Drained b := by
    rintro a call b ⟨served, drained⟩ hserve
    have kept := serve_drained served.reachable drained hserve
    obtain ⟨fd, passwd, calls, hrun⟩ := served
    exact ⟨⟨fd, passwd, _, run_snoc hrun hserve⟩, kept⟩
  obtain ⟨fd, passwd, calls, hrun⟩ := h
  have empty : Drained (Machine.start fd passwd) := fun _ hbuffer =>
    absurd hbuffer List.not_mem_nil
  exact (run_invariant preserved ⟨⟨fd, passwd, [], rfl⟩, empty⟩ hrun).2

/-! ## Any cut -/

def receives (i : Nat) (chunks : List Bytes) : List Call :=
  chunks.map fun chunk => .handleUser i (.ok chunk)

theorem receives_received {chunks : List Bytes} (h : Reachable s) (hi : i < s.clients.length)
    (drained : LF ∉ (s.clientAt i).buffer) (nonempty : ∀ chunk ∈ chunks, chunk ≠ []) :
    ∃ t, run serve s (receives i chunks) = some t ∧ Received s i chunks.flatten t := by
  induction chunks generalizing s with
  | nil => exact ⟨s, rfl, Received.nothing hi drained⟩
  | cons chunk chunks ih =>
      obtain ⟨hfirst, hrest⟩ := List.forall_mem_cons.mp nonempty
      have received := (handleUser_received h.invariant hi hfirst).2
      have hreach : Reachable (handleUser (i + 1) (.ok chunk) s).2 := by
        obtain ⟨events, hrun⟩ := received.steps
        exact h.run hrun
      have hdrained : LF ∉ ((handleUser (i + 1) (.ok chunk) s).2.clientAt i).buffer := by
        rw [received.buffer]
        exact split_remainder_not_mem LF _
      obtain ⟨t, hrun, hreceived⟩ := ih hreach (received.length.symm ▸ hi) hdrained hrest
      exact ⟨t, run_cons_some.mpr ⟨_, if_pos hi, hrun⟩, received.trans hreceived⟩

/-- `t` is the state after the client `c` at position `i` has sent `data`, however it is cut, and
`segments` and `rest` are the lines of what it has sent and what stands after them. -/
structure ReadAs (s : Machine) (i : Nat) (c : Client) (data : Bytes) (t : Machine)
    (segments : List Bytes) (rest : Bytes) : Prop where
  any_cut : ∀ chunks : List Bytes, (∀ chunk ∈ chunks, chunk ≠ []) → chunks.flatten = data →
    run serve s (receives i chunks) = some t
  stream : c.buffer ++ data = segments.flatMap (· ++ [LF]) ++ rest
  segments_clean : ∀ segment ∈ segments, LF ∉ segment
  rest_clean : LF ∉ rest
  lines : dispatchedLines (added s t) = segments.map fun segment => (c.fd, dropCR segment)
  buffers : t.buffers = s.buffers.set i rest
  fd : (t.clientAt i).fd = c.fd

/-- How the input is cut into chunks does not matter. -/
theorem chunks_irrelevant (h : Served s) {c : Client} (hc : s.clients[i]? = some c) (data : Bytes) :
    ∃ t segments rest, ReadAs s i c data t segments rest := by
  have hi : i < s.clients.length := (List.getElem?_eq_some_iff.mp hc).choose
  obtain rfl : s.clientAt i = c := Server.clientAt_of_getElem? hc
  have hdrained : LF ∉ (s.clientAt i).buffer :=
    h.drained _ (List.mem_of_getElem? (buffers_getElem? hi))
  have cut : ∀ chunks : List Bytes, (∀ chunk ∈ chunks, chunk ≠ []) → chunks.flatten = data →
      ∃ t, run serve s (receives i chunks) = some t ∧ Received s i data t := by
    rintro chunks nonempty rfl
    exact receives_received h.reachable hi hdrained nonempty
  have whole : ∃ chunks : List Bytes, (∀ chunk ∈ chunks, chunk ≠ []) ∧ chunks.flatten = data := by
    by_cases hne : data = []
    · exact ⟨[], by simp, hne.symm⟩
    · exact ⟨[data], by simpa using hne, by simp⟩
  obtain ⟨chunks, nonempty, hflatten⟩ := whole
  obtain ⟨t, _, received⟩ := cut chunks nonempty hflatten
  obtain ⟨entries, hhistory, hlines⟩ := received.lines
  refine ⟨t, (split LF ((s.clientAt i).buffer ++ data)).1,
    (split LF ((s.clientAt i).buffer ++ data)).2, ?_, ?_, ?_, ?_, ?_, ?_, ?_⟩
  · intro chunks' nonempty' hflatten'
    obtain ⟨t', hrun', received'⟩ := cut chunks' nonempty' hflatten'
    rw [hrun', received.unique received']
  · exact (split_join LF _).symm
  · exact fun segment hsegment => split_segment_not_mem hsegment
  · exact split_remainder_not_mem LF _
  · rw [added_eq hhistory, hlines]
  · rw [received.buffers, received.buffer]
  · exact received.fd

/-- A client that has just connected sends a line and the beginning of another. -/
theorem chunks_irrelevant_sample :
    ∃ t segments rest, ReadAs ((Machine.start 3 (text "pw")).including 4) 0 { fd := 4 }
      (text "NICK ann" ++ crlf ++ text "JO") t segments rest :=
  chunks_irrelevant ⟨3, text "pw", [.connect 4 0], rfl⟩ rfl _

end Calls

end IrcServer
