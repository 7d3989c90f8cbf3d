import IrcServer.Proof.Polling
import IrcServer.Proof.Relay

/-! # Output is delivered

While nobody sends anything, a pass over the poll table asks `send` for every connection
that output waits for, and for no other. If `send` takes at least a byte each time, the
output is gone after as many passes as the longest send buffer has bytes, and `poll` has
nothing to report any more.
-/

namespace IrcServer

open Search Machine Scan Transition

/-- What `poll` reports when every socket can be written to, and there is nothing to read. -/
def writable (s : Machine) : List (BitVec 16) :=
  s.fds.mapIdx fun i p => if i = 0 then 0 else p.events &&& POLLOUT

def Results.taken (results : Results) : Nat :=
  match results.send with
  | .ok bytes => bytes
  | .error _ => 0

def Client.dropSent (c : Client) (bytes : Nat) : Client :=
  { c with sendBuffer := c.sendBuffer.drop bytes }

/-- `send` takes something of everybody for whom output waits. Turn `j + 1` is for the client at
position `j`. -/
def Accepting (s : Machine) (results : Nat → Results) : Prop :=
  ∀ j c, s.clients[j]? = some c → c.sendBuffer ≠ [] →
    ∃ bytes, (results (j + 1)).send = .ok bytes ∧ 0 < bytes ∧ bytes ≤ c.sendBuffer.length

/-- What has happened is that `send` was asked once for each of these clients that output waits for,
in order, and took some of it. -/
def Asked (clients : List Client) (before after : List Entry) : Prop :=
  ∃ sent : List (Int × Bytes), after = before ++ sent.map (fun p => Entry.sent p.1 p.2) ∧
    List.Forall₂ (fun p c => p.1 = c.fd ∧ p.2 ≠ [] ∧ p.2 <+: c.sendBuffer) sent
      (clients.filter Client.sendData)

/-- The state in a pass that begins in `s`, before the turn at position `k`. -/
structure Swept (s : Machine) (results : Nat → Results) (k : Nat) (t : Machine) : Prop where
  launched : Launched t
  looks : t.looks = (setRevents (writable s) s).looks
  clients : ∀ j, t.clients[j]? =
    s.clients[j]?.map fun c => if j + 1 < k then c.dropSent (results (j + 1)).taken else c
  channels : t.channels = s.channels
  quiet : ∀ d ∈ t.clients, queuedTo d.fd t = queuedTo d.fd s
  asked : Asked (s.clients.take (k - 1)) s.history t.history

section Asked

variable {clients : List Client} {before after : List Entry} {c : Client}

theorem Asked.nobody (history : List Entry) : Asked [] history history :=
  ⟨[], (List.append_nil history).symm, .nil⟩

theorem Asked.idle (h : Asked clients before after) (empty : c.sendBuffer = []) :
    Asked (clients ++ [c]) before after := by
  obtain ⟨sent, hafter, hsent⟩ := h
  have hdata : c.sendData = false := by simpa [Client.sendData] using empty
  refine ⟨sent, hafter, ?_⟩
  simpa [List.filter_append, hdata] using hsent

theorem Asked.sends (h : Asked clients before after) (waits : c.sendBuffer ≠ []) {bytes : Nat}
    (positive : 0 < bytes) : Asked (clients ++ [c]) before
      (after ++ [.sent c.fd (c.sendBuffer.take bytes)]) := by
  obtain ⟨sent, rfl, hsent⟩ := h
  have hdata : c.sendData = true := by simpa [Client.sendData] using waits
  have some_taken : c.sendBuffer.take bytes ≠ [] := by
    rw [ne_eq, List.take_eq_nil_iff, not_or]
    exact ⟨Nat.pos_iff_ne_zero.mp positive, waits⟩
  refine ⟨sent ++ [(c.fd, c.sendBuffer.take bytes)], by simp, ?_⟩
  rw [List.filter_append, List.filter_cons_of_pos hdata, List.filter_nil]
  exact List.rel_append hsent (.cons ⟨rfl, some_taken, List.take_prefix _ _⟩ .nil)

end Asked

/-! ## One turn -/

section Turn

variable {s t : Machine} {results : Nat → Results} {k : Nat}

theorem Launched.flagged (h : Launched s) : Flagged s :=
  (h.induct start_flagged
    (fun _ _ _ invariant hs hstep => step_flagged invariant hs hstep)
    fun _ revents _ hs => setRevents_flagged revents hs).2

theorem writable_head {p : PollFd} (hp : s.fds[0]? = some p) :
    (setRevents (writable s) s).looks[0]? = some (p.fd, 0) := by
  simp [Machine.looks, setRevents, writable, hp]

theorem writable_looks {j : Nat} {p : PollFd} (hp : s.fds[j + 1]? = some p) :
    (setRevents (writable s) s).looks[j + 1]? = some (p.fd, p.events &&& POLLOUT) := by
  simp [Machine.looks, setRevents, writable, hp]

theorem writable_bits (events : BitVec 16) :
    hasAny (events &&& POLLOUT) POLLIN = false ∧
      hasAny (events &&& POLLOUT) (POLLERR ||| POLLHUP ||| POLLNVAL) = false ∧
      hasAny (events &&& POLLOUT) POLLOUT = (events &&& POLLOUT != 0) := by
  simp only [hasAny, BitVec.and_assoc]
  exact ⟨by simp [POLLOUT, POLLIN], by simp [POLLOUT, POLLERR, POLLHUP, POLLNVAL],
    by simp [POLLOUT]⟩

theorem handleSend_takes {j bytes : Nat} {c : Client} (hc : t.clients[j]? = some c)
    (waits : c.sendBuffer ≠ []) (positive : 0 < bytes) :
    (handleSend (j + 1) (.ok bytes) t).1 = false ∧
      (handleSend (j + 1) (.ok bytes) t).2.clients =
        t.clients.set j (c.dropSent bytes) ∧
      (handleSend (j + 1) (.ok bytes) t).2.channels = t.channels ∧
      (handleSend (j + 1) (.ok bytes) t).2.history = t.history ++
        [.sent (t.fds.getD (j + 1) ⟨-1, 0, 0⟩).fd (c.sendBuffer.take bytes)] := by
  obtain ⟨b, rfl⟩ : ∃ b, bytes = b + 1 := ⟨bytes - 1, by omega⟩
  have hdata : c.sendData = true := by simpa [Client.sendData] using waits
  unfold handleSend
  simp only [Nat.add_sub_cancel, Server.clientAt_of_getElem? hc, hdata, Bool.not_true,
    Bool.false_eq_true, if_false]
  refine ⟨trivial, ?_, ?_, ?_⟩
  · split <;> rfl
  · split <;> rfl
  · split <;> rfl

/-- The turn has done for the client at position `j` what it was for. -/
theorem Swept.next {j : Nat} {c : Client} (h : Swept s results (j + 1) t)
    (hc : s.clients[j]? = some c) {u : Machine} (launched : Launched u) (looks : u.looks = t.looks)
    (clients : u.clients = t.clients.set j (c.dropSent (results (j + 1)).taken))
    (channels : u.channels = t.channels)
    (quiet : ∀ d ∈ t.clients, queuedTo d.fd u = queuedTo d.fd t)
    (asked : Asked (s.clients.take j ++ [c]) s.history u.history) : Swept s results (j + 2) u where
  asked := by
    rw [Nat.add_sub_cancel (m := 1) (n := j + 1), List.take_add_one, hc]
    exact asked
  quiet := by
    have hj : t.clients[j]? = some c := by rw [h.clients, hc]; simp
    intro d hd
    rw [clients] at hd
    obtain ⟨x, hx, hfd⟩ : ∃ x ∈ t.clients, x.fd = d.fd := by
      rcases List.mem_or_eq_of_mem_set hd with hd | rfl
      · exact ⟨d, hd, rfl⟩
      · exact ⟨c, List.mem_of_getElem? hj, rfl⟩
    rw [← hfd, quiet x hx, h.quiet x hx]
  launched := launched
  looks := looks.trans h.looks
  channels := channels.trans h.channels
  clients := by
    intro i
    have hj : t.clients[j]? = some c := by rw [h.clients, hc]; simp
    rw [clients, set_getElem? hj, h.clients, Option.map_map]
    by_cases hij : j = i
    · subst hij
      rw [hc]
      simp
    · have hlt : i + 1 < j + 1 ↔ i + 1 < j + 2 := by omega
      simp only [Function.comp_def, if_neg hij, hlt]

theorem Swept.turn {p : PollFd} {c : Client} {j : Nat} (launched : Launched s)
    (takes : Accepting s results) (h : Swept s results (j + 1) t) (hc : s.clients[j]? = some c)
    (hp : s.fds[j + 1]? = some p) :
    (turn (results (j + 1)) (j + 1) t).1 = j + 2 ∧
      Swept s results (j + 2) (turn (results (j + 1)) (j + 1) t).2 := by
  have hcj : t.clients[j]? = some c := by rw [h.clients, hc]; simp
  obtain ⟨hfd, hbits⟩ := getD_look (h.looks ▸ writable_looks hp)
  have tracks : p.Tracks c := launched.flagged j c p hc hp
  by_cases hempty : c.sendBuffer = []
  · have hidle : revents (j + 1) t = 0 := by
      rw [hbits]
      exact not_not.mp fun hbit => tracks.mp hbit hempty
    have hsame : c.dropSent (results (j + 1)).taken = c := by
      rw [Client.dropSent, hempty, List.drop_nil, ← hempty]
    rw [turn_idle hidle]
    exact ⟨rfl, h.next hc h.launched rfl (by rw [hsame, set_of_getElem? hcj]) rfl
      (fun _ _ => rfl) (h.asked.idle hempty)⟩
  · obtain ⟨bytes, hsend, positive, within⟩ := takes j c hc hempty
    have ready : p.events &&& POLLOUT ≠ 0 := tracks.mpr hempty
    have table := h.launched.invariant.table
    have client : (t.fds.getD (j + 1) ⟨-1, 0, 0⟩).fd ≠ t.fd := by
      rw [pollEntry_fd table hcj]
      have distinct := table.distinct
      rw [table.aligned] at distinct
      exact fun heq => (List.nodup_cons.mp distinct).1
        (heq ▸ List.mem_map_of_mem (List.mem_of_getElem? hcj))
    obtain ⟨noInput, noError, output⟩ := writable_bits p.events
    have hout : hasAny (p.events &&& POLLOUT) POLLOUT = true := by
      rw [output]
      exact bne_iff_ne.mpr ready
    obtain ⟨stays, clients, channels, history⟩ := handleSend_takes hcj hempty positive
    rw [pollEntry_fd table hcj] at history
    have hturn : IrcServer.turn (results (j + 1)) (j + 1) t =
        (j + 2, (handleSend (j + 1) (.ok bytes) t).2) := by
      rw [IrcServer.turn, if_neg (hbits ▸ ready), if_neg client]
      simp only [receive, hbits, noInput, answer, noError, hout, hsend, stays, if_true,
        Bool.false_eq_true, if_false]
    have htaken : (results (j + 1)).taken = bytes := by rw [Results.taken, hsend]
    have hlt : j < t.clients.length := (List.getElem?_eq_some_iff.mp hcj).choose
    have hsendable : sendable (t.clientAt j) (.ok bytes) = true := by
      rw [Server.clientAt_of_getElem? hcj]
      exact decide_eq_true within
    have hrun : run operate t [.call (.handleSend j (.ok bytes))] =
        some (handleSend (j + 1) (.ok bytes) t).2 :=
      run_cons_some.mpr ⟨_, if_pos ⟨hlt, hsendable⟩, rfl⟩
    have called := handleSend_called (j + 1) t (.ok bytes)
    have looks : (handleSend (j + 1) (.ok bytes) t).2.looks = t.looks := by
      generalize hresult : handleSend (j + 1) (.ok bytes) t = result at called stays
      cases called with
      | kept u kept => exact kept.looks
      | gone => cases stays
    have hstep : step t (.flush j (.ok bytes)) = some (handleSend (j + 1) (.ok bytes) t).2 :=
      if_pos ⟨hlt, hsendable, stays⟩
    have quiet := (step_stepped table hstep).queuedTo_same h.launched.invariant (by simp)
    rw [hturn]
    exact ⟨rfl, h.next hc (h.launched.run hrun) looks (htaken ▸ clients) channels quiet
      (history ▸ h.asked.sends hempty positive)⟩

end Turn

/-! ## One pass -/

section Pass

variable {s t : Machine} {results : Nat → Results}

theorem pass_sweeps (launched : Launched s) (takes : Accepting s results) :
    ∃ turns t, scan results s.fds.length (setRevents (writable s) s) = some (turns, t) ∧
      Swept s results s.fds.length t := by
  have table := launched.invariant.table
  have start : Swept s results 0 (setRevents (writable s) s) := by
    have hrun : run operate s [.poll (writable s)] = some (setRevents (writable s) s) := rfl
    refine ⟨launched.run hrun, rfl, fun j => ?_, rfl, fun _ _ => rfl, .nobody _⟩
    simp [setRevents]
  have sized : ∀ k t, Swept s results k t → t.fds.length = s.fds.length := by
    intro k t h
    have hlength := congrArg List.length h.looks
    simpa [Machine.looks, setRevents] using hlength
  have sweeps : ∀ k t, k < s.fds.length → Swept s results k t →
      (turn (results k) k t).1 = k + 1 ∧ Swept s results (k + 1) (turn (results k) k t).2 := by
    intro k t hk h
    cases k with
    | zero =>
        have hidle : revents 0 t = 0 :=
          (getD_look (h.looks ▸ writable_head (List.getElem?_eq_getElem hk))).2
        rw [turn_idle hidle]
        refine ⟨rfl, h.launched, h.looks, fun j => ?_, h.channels, h.quiet, h.asked⟩
        simpa using h.clients j
    | succ j =>
        have hj : j < s.clients.length := by
          rw [table.size] at hk
          omega
        exact Swept.turn launched takes h (List.getElem?_eq_getElem hj) (List.getElem?_eq_getElem hk)
  obtain ⟨turns, t, hloop, ht⟩ := loop_sweep sized sweeps (Nat.zero_le _) start
  simp only [Nat.sub_zero, Nat.zero_add] at hloop
  exact ⟨turns, t, hloop, ht⟩

/-- A pass in which everybody can be written to, `send` takes something each time, and nothing is
read. -/
def Sweep (s t : Machine) : Prop :=
  ∃ results turns, Accepting s results ∧
    scan results s.fds.length (setRevents (writable s) s) = some (turns, t)

theorem Sweep.swept (launched : Launched s) (h : Sweep s t) :
    ∃ results, Accepting s results ∧ Swept s results s.fds.length t := by
  obtain ⟨results, turns, takes, hscan⟩ := h
  obtain ⟨turns', t', hscan', swept⟩ := pass_sweeps launched takes
  obtain ⟨-, rfl⟩ := Prod.mk.inj (Option.some.inj (hscan.symm.trans hscan'))
  exact ⟨results, takes, swept⟩

theorem Sweep.asked (launched : Launched s) (h : Sweep s t) :
    Asked s.clients s.history t.history := by
  obtain ⟨results, _, swept⟩ := h.swept launched
  have hsize := launched.invariant.table.size
  have hall : s.clients.take (s.fds.length - 1) = s.clients := by
    rw [hsize, Nat.add_sub_cancel, List.take_length]
  exact hall ▸ swept.asked

def writeAll (s : Machine) : Machine :=
  let results := fun k => ⟨-1, 0, .error .wouldBlock, .ok (s.clientAt (k - 1)).sendBuffer.length⟩
  ((scan results s.fds.length (setRevents (writable s) s)).getD ([], s)).2

theorem writeAll_sweep (launched : Launched s) : Sweep s (writeAll s) := by
  have takes : Accepting s fun k =>
      ⟨-1, 0, .error .wouldBlock, .ok (s.clientAt (k - 1)).sendBuffer.length⟩ := by
    intro j c hc waits
    have hlength : (s.clientAt j).sendBuffer.length = c.sendBuffer.length := by
      rw [Server.clientAt_of_getElem? hc]
    exact ⟨_, congrArg _ hlength, List.length_pos_iff.mpr waits, le_refl _⟩
  obtain ⟨turns, t, hscan, _⟩ := pass_sweeps launched takes
  have hwrite : writeAll s = t := by
    rw [writeAll, hscan, Option.getD_some]
  exact ⟨_, turns, takes, hwrite ▸ hscan⟩

/-- So output can always be delivered. -/
theorem writeAll_launched (launched : Launched s) (n : Nat) : Launched (writeAll^[n] s) := by
  induction n with
  | zero => exact launched
  | succ n ih =>
      obtain ⟨_, _, swept⟩ := (writeAll_sweep ih).swept ih
      rw [Function.iterate_succ_apply']
      exact swept.launched

end Pass

/-! ## Passes -/

/-- What `n` passes have taken from the send buffers: a byte in each, or all there was. -/
structure Lowered (s : Machine) (n : Nat) (t : Machine) : Prop where
  launched : Launched t
  clients : ∃ gone : Nat → Nat,
    (∀ j, t.clients[j]? = s.clients[j]?.map fun (c : Client) => c.dropSent (gone j)) ∧
      ∀ j c, s.clients[j]? = some c → n ≤ gone j ∨ c.sendBuffer.length ≤ gone j
  channels : t.channels = s.channels
  quiet : ∀ d ∈ t.clients, queuedTo d.fd t = queuedTo d.fd s

theorem Lowered.sweep {s t u : Machine} {n : Nat} (h : Lowered s n t) (sweep : Sweep t u) :
    Lowered s (n + 1) u := by
  obtain ⟨results, takes, swept⟩ := sweep.swept h.launched
  obtain ⟨gone, clients, enough⟩ := h.clients
  have lowered : ∀ j, u.clients[j]? =
      t.clients[j]?.map fun (c : Client) => c.dropSent (results (j + 1)).taken := by
    intro j
    rw [swept.clients]
    cases hc : t.clients[j]? with
    | none => rfl
    | some c =>
        have hj : j < t.clients.length := (List.getElem?_eq_some_iff.mp hc).choose
        have hlt : j + 1 < t.fds.length := by
          rw [h.launched.invariant.table.size]
          omega
        simp only [Option.map_some, if_pos hlt]
  constructor
  · exact swept.launched
  · refine ⟨fun j => gone j + (results (j + 1)).taken, fun j => ?_, fun j c hc => ?_⟩
    · rw [lowered, clients, Option.map_map]
      cases s.clients[j]? with
      | none => rfl
      | some c => simp only [Option.map_some, Function.comp_apply, Client.dropSent, List.drop_drop]
    · have hcj : t.clients[j]? = some (c.dropSent (gone j)) := by
        rw [clients, hc, Option.map_some]
      by_cases hempty : c.sendBuffer.drop (gone j) = []
      · have hgone := List.drop_eq_nil_iff.mp hempty
        exact .inr (Nat.le_add_right_of_le hgone)
      · obtain ⟨bytes, hsend, positive, _⟩ := takes j _ hcj hempty
        have htaken : (results (j + 1)).taken = bytes := by rw [Results.taken, hsend]
        rcases enough j c hc with hn | hlength
        · exact .inl (Nat.add_le_add hn (htaken ▸ positive))
        · exact absurd (List.drop_eq_nil_iff.mpr hlength) hempty
  · exact swept.channels.trans h.channels
  · intro d hd
    obtain ⟨j, hj⟩ := List.mem_iff_getElem?.mp hd
    rw [lowered] at hj
    obtain ⟨x, hx, rfl⟩ := Option.map_eq_some_iff.mp hj
    rw [swept.quiet _ hd]
    exact h.quiet x (List.mem_of_getElem? hx)

theorem sweeps_lower {states : Nat → Machine} {n : Nat} (launched : Launched (states 0))
    (sweeps : ∀ k < n, Sweep (states k) (states (k + 1))) : Lowered (states 0) n (states n) := by
  induction n with
  | zero =>
      refine ⟨launched, ⟨fun _ => 0, fun j => ?_, fun j c hc => .inl (le_refl _)⟩, rfl,
        fun _ _ => rfl⟩
      cases (states 0).clients[j]? <;> rfl
  | succ n ih =>
      have before := ih fun k hk => sweeps k (Nat.lt_succ_of_lt hk)
      exact before.sweep (sweeps n (Nat.lt_succ_self n))

/-- A pass asks `send` for those whom output waits for, and does nothing else. After as many passes
as the longest send buffer has bytes, all that had been queued has been sent, nobody else has been
touched, and `poll` has nothing to report. -/
theorem output_delivered {states : Nat → Machine} {n : Nat} (launched : Launched (states 0))
    (sweeps : ∀ k < n, Sweep (states k) (states (k + 1)))
    (long : ∀ c ∈ (states 0).clients, c.sendBuffer.length ≤ n) :
    (∀ k < n, Asked (states k).clients (states k).history (states (k + 1)).history) ∧
      (states n).clients = (states 0).clients.map (fun c => { c with sendBuffer := [] }) ∧
      (states n).channels = (states 0).channels ∧
      (∀ d ∈ (states n).clients, (sentTo d.fd (sinceAccepted d.fd (states n).history)).flatten =
        (queuedTo d.fd (states 0)).flatten) ∧
      writable (states n) = List.replicate (states n).fds.length 0 := by
  have lowered := sweeps_lower launched sweeps
  obtain ⟨gone, clients, enough⟩ := lowered.clients
  have drained : (states n).clients =
      (states 0).clients.map fun c => { c with sendBuffer := [] } := by
    apply List.ext_getElem?
    intro j
    rw [clients, List.getElem?_map]
    cases hc : (states 0).clients[j]? with
    | none => rfl
    | some c =>
        have hlong := long c (List.mem_of_getElem? hc)
        have hempty : c.sendBuffer.drop (gone j) = [] := by
          apply List.drop_eq_nil_iff.mpr
          rcases enough j c hc with hn | hlength <;> omega
        simp only [Option.map_some, Client.dropSent, hempty]
  have empty : ∀ d ∈ (states n).clients, d.sendBuffer = [] := by
    intro d hd
    rw [drained] at hd
    obtain ⟨c, _, rfl⟩ := List.mem_map.mp hd
    rfl
  refine ⟨fun k hk => ?_, drained, lowered.channels, fun d hd => ?_, ?_⟩
  · have before := sweeps_lower launched fun j hj => sweeps j (hj.trans hk)
    exact (sweeps k hk).asked before.launched
  · have lossless := lowered.launched.lossless d hd
    rwa [empty d hd, List.append_nil, lowered.quiet d hd] at lossless
  · apply List.ext_getElem?
    intro i
    rw [writable, List.getElem?_mapIdx, List.getElem?_replicate]
    cases hp : (states n).fds[i]? with
    | none => rw [Option.map_none, if_neg (Nat.not_lt.mpr (List.getElem?_eq_none_iff.mp hp))]
    | some p =>
        have hi : i < (states n).fds.length := (List.getElem?_eq_some_iff.mp hp).choose
        rw [Option.map_some, if_pos hi]
        cases i with
        | zero => rfl
        | succ j =>
            have hj : j < (states n).clients.length := by
              rw [lowered.launched.invariant.table.size] at hi
              omega
            have hc := List.getElem?_eq_getElem hj
            have tracks := lowered.launched.flagged j _ p hc hp
            have hbit : p.events &&& POLLOUT = 0 :=
              not_not.mp fun hbit => tracks.mp hbit (empty _ (List.getElem_mem hj))
            rw [if_neg (Nat.succ_ne_zero j), hbit]

theorem output_delivered_sample :
    ∃ s, run operate (Machine.start 3 (text "pw")) refusedOperations = some s ∧
      s.clients ≠ [] ∧ (∀ c ∈ s.clients, c.sendBuffer ≠ []) ∧
      (∀ k < 64, Asked (writeAll^[k] s).clients (writeAll^[k] s).history
        (writeAll^[k + 1] s).history) ∧
      (writeAll^[64] s).clients = s.clients.map (fun c => { c with sendBuffer := [] }) ∧
      (writeAll^[64] s).channels = s.channels ∧
      (∀ d ∈ (writeAll^[64] s).clients,
        (sentTo d.fd (sinceAccepted d.fd (writeAll^[64] s).history)).flatten =
          (queuedTo d.fd s).flatten) ∧
      writable (writeAll^[64] s) = List.replicate (writeAll^[64] s).fds.length 0 := by
  have hrun : (run operate (Machine.start 3 (text "pw")) refusedOperations).any
      (fun s => decide (s.clients ≠ [] ∧ (∀ c ∈ s.clients, c.sendBuffer ≠ []) ∧
        ∀ c ∈ s.clients, c.sendBuffer.length ≤ 64)) = true := by decide
  obtain ⟨s, hs, hdecide⟩ := (Option.any_eq_true _ _).mp hrun
  obtain ⟨connected, waits, long⟩ := of_decide_eq_true hdecide
  have launched : Launched s := ⟨3, text "pw", refusedOperations, hs⟩
  have sweeps : ∀ k < 64, Sweep (writeAll^[k] s) (writeAll^[k + 1] s) := fun k _ =>
    Function.iterate_succ_apply' writeAll k s ▸ writeAll_sweep (writeAll_launched launched k)
  exact ⟨s, hs, connected, waits,
    @output_delivered (fun k => writeAll^[k] s) 64 launched sweeps long⟩

end IrcServer
