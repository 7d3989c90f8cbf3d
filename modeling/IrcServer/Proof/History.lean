import IrcServer.Proof.Outgoing

/-! # What one event adds to the history

The history only grows. A dispatched line adds itself and the messages it queues,
and no other event queues anything. So what has been queued to a connection, and
what it has sent, is followed step by step.
-/

namespace IrcServer

open Search Machine Transition

theorem added_eq {s s' : Machine} {entries : List Entry} (h : s'.history = s.history ++ entries) :
    added s s' = entries := by
  rw [added, h, List.drop_left]

section Event

variable {s s' : Machine} {e : Event}

theorem dispatched_history (invariant : Invariant s) {i : Nat} {c : Client}
    (hc : s.clients[i]? = some c) {line : Bytes} (clean : LF ∉ line) {c' : Client}
    {channels : List Channel} {sends : List (Nat × Bytes)}
    (effect : Dispatched s.toServer i c (Parser.parse line) c' channels sends) :
    ((s.record (.line c.fd line)).settle i c' channels sends).history =
      s.history ++ .line c.fd line ::
        sends.map fun call => .queued (s.clientAt call.1).fd call.2 := by
  have hnonempty := effect.nonempty (parse_clean clean) invariant.identities
    (List.mem_of_getElem? hc)
  have hhistory := settle_history (s := s.record (.line c.fd line)) hc effect.fd_eq channels
    hnonempty
  rw [hhistory, record, List.append_assoc]
  rfl

theorem Stepped.grows (invariant : Invariant s) (h : Stepped s e s') :
    s'.history = s.history ++ added s s' ∧
      ∀ fd ∈ s.clients.map (·.fd), .accepted fd ∉ added s s' := by
  have grown : ∀ entries, s'.history = s.history ++ entries →
      (∀ fd ∈ s.clients.map (·.fd), .accepted fd ∉ entries) →
      s'.history = s.history ++ added s s' ∧
        ∀ fd ∈ s.clients.map (·.fd), .accepted fd ∉ added s s' := by
    intro entries heq hentries
    rw [added_eq heq]
    exact ⟨heq, hentries⟩
  have unopened : ∀ {fd accepted : Int}, fd ∈ s.clients.map (·.fd) →
      accepted ∉ s.fds.map (·.fd) → fd ≠ accepted := by
    rintro fd accepted hfd hfresh rfl
    rw [invariant.table.aligned] at hfresh
    exact hfresh (List.mem_cons_of_mem _ hfd)
  cases h with
  | unconnected => exact grown [] (by simp) (by simp)
  | dropped accepted fcntl fresh =>
      exact grown _ rfl fun fd hfd => by simpa using unopened hfd fresh
  | connected accepted fcntl fresh =>
      exact grown _ rfl fun fd hfd => by simpa using unopened hfd fresh
  | buffered => exact grown [] (by simp [setClient]) (by simp)
  | dispatched i c hc line clean c' channels sends effect =>
      exact grown _ (dispatched_history invariant hc clean effect) (by simp)
  | flushed i c hc send rest poll kept entries sent =>
      refine grown entries rfl fun fd _ hmem => ?_
      obtain ⟨bytes, hbytes⟩ := sent _ hmem
      cases hbytes
  | disconnected => exact grown _ rfl (by simp)

/-- Only a dispatched line queues messages, and only it counts as a line. -/
theorem Stepped.quiet (h : Stepped s e s') (hne : ∀ i line, e ≠ .command i line) (fd : Int) :
    messagesTo fd (added s s') = [] := by
  have quiet : ∀ entries, s'.history = s.history ++ entries → (∀ m, .queued fd m ∉ entries) →
      messagesTo fd (added s s') = [] := by
    intro entries heq hentries
    rw [added_eq heq, List.eq_nil_iff_forall_not_mem]
    exact fun m hm => hentries m (mem_messagesTo.mp hm)
  cases h with
  | unconnected => exact quiet [] (by simp) (by simp)
  | dropped => exact quiet _ rfl (by simp)
  | connected => exact quiet _ rfl (by simp)
  | buffered => exact quiet [] (by simp [setClient]) (by simp)
  | dispatched i c hc line => exact absurd rfl (hne i line)
  | flushed i c hc send rest poll kept entries sent =>
      refine quiet entries rfl fun m hmem => ?_
      obtain ⟨bytes, hbytes⟩ := sent _ hmem
      cases hbytes
  | disconnected => exact quiet _ rfl (by simp)

theorem Stepped.sinceAccepted_eq (invariant : Invariant s) (h : Stepped s e s') {y : Client}
    (hy : y ∈ s.clients) :
    sinceAccepted y.fd s'.history = sinceAccepted y.fd s.history ++ added s s' := by
  obtain ⟨hgrows, haccepted⟩ := h.grows invariant
  rw [hgrows, sinceAccepted_append (haccepted y.fd (List.mem_map_of_mem hy))]

theorem Stepped.queuedTo_eq (invariant : Invariant s) (h : Stepped s e s') {y : Client}
    (hy : y ∈ s.clients) :
    queuedTo y.fd s' = queuedTo y.fd s ++ messagesTo y.fd (added s s') := by
  rw [queuedTo, h.sinceAccepted_eq invariant hy, messagesTo_append]
  rfl

end Event

/-! ## The messages of one line -/

section Line

variable {s : Server} {i : Nat} {c : Client} {message : Message} {c' : Client}
  {channels : List Channel} {sends : List (Nat × Bytes)}

theorem mem_positions {clients : List Client} {members : List Int} {j : Nat} :
    j ∈ positions clients members ↔
      ∃ fd ∈ members, (clients.findIdx? fun c => decide (c.fd = fd)) = some j := by
  rw [positions, List.mem_filterMap]

theorem Dispatched.recipients (effect : Dispatched s i c message c' channels sends)
    (hc : s.clients[i]? = some c) : ∀ call ∈ sends, ∃ d, s.clients[call.1]? = some d := by
  intro call hcall
  cases effect with
  | silent => cases hcall
  | passed => cases hcall
  | refused => exact ⟨c, by rw [List.mem_singleton.mp hcall]; exact hc⟩
  | answered => exact ⟨c, by rw [List.mem_singleton.mp hcall]; exact hc⟩
  | nick =>
      obtain ⟨m, _, rfl⟩ := List.mem_map.mp hcall
      exact ⟨c, hc⟩
  | user =>
      obtain ⟨m, _, rfl⟩ := List.mem_map.mp hcall
      exact ⟨c, hc⟩
  | whispered _ _ _ _ _ target d targets =>
      exact ⟨d, by rw [List.mem_singleton.mp hcall]; exact targets.found⟩
  | invited _ _ _ _ _ _ _ _ target d targets =>
      simp only [List.mem_cons, List.not_mem_nil, or_false] at hcall
      rcases hcall with rfl | rfl
      · exact ⟨d, targets.found⟩
      · exact ⟨c, hc⟩
  | announced channels a announces =>
      rcases List.mem_append.mp hcall with hcall | hcall
      · obtain ⟨j, hj, rfl⟩ := List.mem_map.mp hcall
        obtain ⟨fd, _, hidx⟩ := mem_positions.mp hj
        obtain ⟨d, hd, _⟩ := findIdx?_some hidx
        exact ⟨d, hd⟩
      · obtain ⟨reply, _, rfl⟩ := List.mem_map.mp hcall
        exact ⟨c, hc⟩

/-- What the history shows for a connection is what the calls give to its position. -/
theorem Dispatched.messagesTo_eq (effect : Dispatched s i c message c' channels sends) (table : Table s)
    (hc : s.clients[i]? = some c) {j : Nat} {y : Client} (hy : s.clients[j]? = some y) :
    messagesTo y.fd (sends.map fun call => .queued (s.clientAt call.1).fd call.2) =
      messagesFor j sends := by
  have hcalls := effect.recipients hc
  clear effect
  induction sends with
  | nil => rfl
  | cons call sends ih =>
      obtain ⟨d, hd⟩ := hcalls call List.mem_cons_self
      have hrest := ih fun x hx => hcalls x (List.mem_cons_of_mem _ hx)
      have hsame := table.fd_eq_iff hd hy
      rw [messagesTo] at hrest ⊢
      rw [List.map_cons, List.filterMap_cons, Server.clientAt_of_getElem? hd]
      by_cases hj : call.1 = j
      · simp only [if_pos (hsame.mpr hj), hrest]
        simp [messagesFor, hj]
      · simp only [if_neg (fun h => hj (hsame.mp h)), hrest]
        simp [messagesFor, hj]

theorem messagesFor_append (j : Nat) (xs ys : List (Nat × Bytes)) :
    messagesFor j (xs ++ ys) = messagesFor j xs ++ messagesFor j ys := by
  simp [messagesFor]

end Line

theorem dispatched_messagesTo {s : Machine} (invariant : Invariant s) {i : Nat} {c : Client}
    (hc : s.clients[i]? = some c) {line : Bytes} (clean : LF ∉ line) {c' : Client}
    {channels : List Channel} {sends : List (Nat × Bytes)}
    (effect : Dispatched s.toServer i c (Parser.parse line) c' channels sends)
    {j : Nat} {y : Client} (hy : s.clients[j]? = some y) :
    messagesTo y.fd (added s ((s.record (.line c.fd line)).settle i c' channels sends)) =
      messagesFor j sends := by
  rw [added_eq (dispatched_history invariant hc clean effect),
    ← effect.messagesTo_eq invariant.table hc hy]
  rfl

theorem replied_messagesTo {s : Machine} {i : Nat} {c : Client} (hc : s.clients[i]? = some c)
    (line : Bytes) {m : Bytes} (hm : m ≠ []) :
    messagesTo c.fd (added s ((s.record (.line c.fd line)).sendingQueue i m)) = [m] := by
  have hclient : (s.record (.line c.fd line)).clientAt i = c := Server.clientAt_of_getElem? hc
  have hadded : added s ((s.record (.line c.fd line)).sendingQueue i m) =
      [.line c.fd line, .queued c.fd m] := by
    apply added_eq
    rw [sendingQueue_history _ _ _ hm, hclient, record, List.append_assoc]
    rfl
  rw [hadded]
  simp [messagesTo]

end IrcServer
