import IrcServer.Proof.Launch

/-! # One pass over the poll table

Whatever the calls of a turn do, they write no descriptor and no `revents` of the poll
table, except that `disconnect` erases the entry of the turn and `connect` appends one
that is not ready. So the pass of `launch` over any aligned tables is a loop of the kind
the library describes. Nothing is assumed of the channels, the clients or the results of
the calls.
-/

namespace IrcServer

open Search Machine Scan

/-- The tables belong together: the listening socket, then the clients in order. -/
def Aligned (s : Server) : Prop := s.fds.map (·.fd) = s.fd :: s.clients.map (·.fd)

/-- What `launch` looks at: the descriptors with their `revents`. -/
def Machine.looks (s : Machine) : List (Int × BitVec 16) := s.fds.map fun p => (p.fd, p.revents)

def closes (entries : List Entry) : List Int :=
  entries.filterMap fun
    | .closed fd => some fd
    | _ => none

/-! ## Calls that leave the entries in place -/

/-- The poll entries and the clients of `t` are those of `s`, up to buffers, records and events. -/
structure Keeps (s t : Machine) : Prop where
  listening : t.fd = s.fd
  looks : t.looks = s.looks
  clients : t.clients.map (·.fd) = s.clients.map (·.fd)
  closes : closes t.history = closes s.history

section Keeps

variable {s t u : Machine}

theorem Keeps.refl (s : Machine) : Keeps s s := ⟨rfl, rfl, rfl, rfl⟩

theorem Keeps.trans (h : Keeps s t) (h' : Keeps t u) : Keeps s u :=
  ⟨h'.listening.trans h.listening, h'.looks.trans h.looks, h'.clients.trans h.clients,
    h'.closes.trans h.closes⟩

theorem Keeps.aligned (h : Keeps s t) (aligned : Aligned s.toServer) : Aligned t.toServer := by
  have hfds : t.fds.map (·.fd) = s.fds.map (·.fd) := by
    have hlooks := congrArg (List.map Prod.fst) h.looks
    rw [Machine.looks, Machine.looks, List.map_map, List.map_map] at hlooks
    exact hlooks
  unfold Aligned
  rw [hfds, h.listening, h.clients]
  exact aligned

theorem Keeps.fds_length (h : Keeps s t) : t.fds.length = s.fds.length := by
  have hlength := congrArg List.length h.looks
  simpa [Machine.looks] using hlength

theorem Keeps.clients_length (h : Keeps s t) : t.clients.length = s.clients.length := by
  have hlength := congrArg List.length h.clients
  simpa using hlength

theorem closes_append (xs ys : List Entry) : closes (xs ++ ys) = closes xs ++ closes ys :=
  List.filterMap_append

theorem foldl_keeps {β : Type} {f : Machine → β → Machine} (h : ∀ s x, Keeps s (f s x))
    (xs : List β) (s : Machine) : Keeps s (xs.foldl f s) := by
  induction xs generalizing s with
  | nil => exact .refl s
  | cons x xs ih => exact (h s x).trans (ih (f s x))

theorem Keeps.sent (h : Keeps s t) {k : Nat} {m : Bytes} : Keeps s (t.sendingQueue k m) := by
  have hclients := sendingQueue_map t k m (·.fd) (fun _ _ => rfl)
  refine h.trans ?_
  unfold sendingQueue at hclients ⊢
  split
  · exact .refl t
  · next hm =>
      rw [if_neg hm] at hclients
      refine ⟨rfl, ?_, hclients, ?_⟩
      · exact map_modify_same (f := fun p : PollFd => (p.fd, p.revents))
          (g := fun p => { p with events := p.events ||| POLLOUT }) (fun _ => rfl) t.fds (k + 1)
      · simp [IrcServer.closes]

theorem Keeps.rechanneled (h : Keeps s t) {channels : List Channel} :
    Keeps s { t with channels := channels } :=
  h.trans ⟨rfl, rfl, rfl, rfl⟩

theorem Keeps.setChannel (h : Keeps s t) {k : Nat} {ch : Channel} : Keeps s (t.setChannel k ch) :=
  h.rechanneled

theorem Keeps.stored (h : Keeps s t) {i : Nat} {c : Client} (hfd : c.fd = (t.clientAt i).fd) :
    Keeps s (t.setClient i c) := by
  refine h.trans ⟨rfl, rfl, ?_, rfl⟩
  simp only [setClient, List.map_set]
  by_cases hi : i < t.clients.length
  · exact map_set_same (f := (·.fd)) (clientAt_table hi) hfd
  · rw [List.set_eq_of_length_le (by simpa using hi)]

theorem Keeps.recorded (h : Keeps s t) {entry : Entry} (hentry : ∀ fd, entry ≠ .closed fd) :
    Keeps s (t.record entry) := by
  refine h.trans ⟨rfl, rfl, rfl, ?_⟩
  have hnone : IrcServer.closes [entry] = [] := by
    cases entry with
    | closed fd => exact absurd rfl (hentry fd)
    | _ => rfl
  rw [record, closes_append, hnone, List.append_nil]

theorem Keeps.told (h : Keeps s t) {chosen : Int → Bool} {members : List Int} {m : Bytes} :
    Keeps s (t.sendMembers chosen members m) := by
  refine h.trans (foldl_keeps (fun u member => foldl_keeps (fun v j => ?_) _ u) members t)
  split
  · exact .sent (.refl v)
  · exact .refl v

theorem Keeps.notified (h : Keeps s t) {members : List Int} {m : Bytes} :
    Keeps s (t.notification members m) := by
  refine h.trans (foldl_keeps (fun u member => ?_) members t)
  split
  · exact .sent (.refl u)
  · exact .refl u

theorem Keeps.ite {p : Prop} [Decidable p] (h : Keeps s t) (h' : Keeps s u) :
    Keeps s (if p then t else u) := by
  split
  · exact h
  · exact h'

theorem clientAt_setClient_fd {i : Nat} {c : Client} (h : c.fd = (s.clientAt i).fd) :
    ((s.setClient i c).clientAt i).fd = (s.clientAt i).fd := by
  by_cases hi : i < s.clients.length
  · rw [clientAt_setClient hi, h]
  · simp [setClient, Server.clientAt, hi]

def KeepsIfSome (s : Machine) (result : Option Machine) : Prop := ∀ t, result = some t → Keeps s t

theorem KeepsIfSome.refuses : KeepsIfSome s none := by
  intro t h
  cases h

theorem KeepsIfSome.takes (h : Keeps s t) : KeepsIfSome s (some t) := by
  intro u hu
  cases hu
  exact h

theorem KeepsIfSome.ite {p : Prop} [Decidable p] {x y : Option Machine} (h : KeepsIfSome s x)
    (h' : KeepsIfSome s y) : KeepsIfSome s (if p then x else y) := by
  split
  · exact h
  · exact h'

theorem KeepsIfSome.orElse {x y : Option Machine} (h : KeepsIfSome s x) (h' : KeepsIfSome s y) :
    KeepsIfSome s (x <|> y) := by
  cases x with
  | none => exact h'
  | some t => exact h

end Keeps

/-! ## The handlers -/

section Handlers

variable (i : Nat) (message : Message) (s : Machine)

theorem reply_keeps {s : Machine} {k : Nat} {m : Bytes} : Keeps s (s.sendingQueue k m) :=
  .sent (.refl s)

theorem passHundler_keeps : Keeps s (passHundler i message s) := by
  unfold passHundler
  exact .ite reply_keeps (.ite reply_keeps (.ite (.stored (.refl s) rfl) reply_keeps))

theorem nickHundler_keeps : Keeps s (nickHundler i message s) := by
  unfold nickHundler
  refine .ite reply_keeps (.ite reply_keeps (.ite reply_keeps (.ite reply_keeps ?_)))
  -- the record is written two or three times, with a message between
  have named : Keeps s (s.setClient i ((s.clientAt i).setNickname (message.param 0))) :=
    .stored (.refl s) rfl
  refine .ite (.sent (.stored (.stored (.ite named.sent named) ?_) ?_)) ?_
  · rfl
  · rfl
  · exact .stored (.ite named.sent named) rfl

theorem userHandler_keeps : Keeps s (userHandler i message s) := by
  unfold userHandler
  refine .ite reply_keeps (.ite reply_keeps (.ite reply_keeps ?_))
  let c := ((s.clientAt i).setUsername (message.param 0)).setUserIsRecived true
  have hfd : c.fd = (s.clientAt i).fd := rfl
  have stored : Keeps s (s.setClient i c) := .stored (.refl s) hfd
  refine .ite (.sent (stored.stored ?_)) stored
  exact (clientAt_setClient_fd hfd).symm

theorem joinChannel_keeps (k : Nat) : Keeps s (joinChannel i message k s) := by
  unfold joinChannel
  refine .ite reply_keeps (.ite reply_keeps (.ite reply_keeps (.ite reply_keeps ?_)))
  exact .sent (.sent (.told (.setChannel (.refl s))))

theorem joinHandler_keeps : Keeps s (joinHandler i message s) := by
  unfold joinHandler
  refine .ite reply_keeps (.ite reply_keeps (.ite reply_keeps ?_))
  split
  · next k _ => exact joinChannel_keeps i message s k
  · exact .trans (.rechanneled (.refl s)) (joinChannel_keeps i message _ _)

theorem privmsgHandler_keeps : Keeps s (privmsgHandler i message s) := by
  unfold privmsgHandler
  refine .ite reply_keeps (.ite reply_keeps (.ite reply_keeps (.ite ?_ ?_)))
  · split
    · exact reply_keeps
    · exact .ite reply_keeps (.told (.refl s))
  · split
    · exact reply_keeps
    · exact reply_keeps

theorem topicHandler_keeps : Keeps s (topicHandler i message s) := by
  unfold topicHandler
  refine .ite reply_keeps (.ite reply_keeps ?_)
  dsimp only
  split
  · exact reply_keeps
  · refine .ite (.ite reply_keeps reply_keeps) (.ite reply_keeps (.ite reply_keeps ?_))
    exact .sent (.told (.setChannel (.refl s)))

theorem kickHandler_keeps : Keeps s (kickHandler i message s) := by
  unfold kickHandler
  refine .ite reply_keeps (.ite reply_keeps ?_)
  dsimp only
  split
  · exact reply_keeps
  · refine .ite reply_keeps ?_
    split
    · exact reply_keeps
    · refine .ite reply_keeps (.ite reply_keeps (.ite ?_ ?_))
      · exact .rechanneled (.setChannel (.told (.refl s)))
      · exact .setChannel (.told (.refl s))

theorem inviteHandler_keeps : Keeps s (inviteHandler i message s) := by
  unfold inviteHandler
  refine .ite reply_keeps (.ite reply_keeps ?_)
  dsimp only
  split
  · exact reply_keeps
  · split
    · exact reply_keeps
    · refine .ite reply_keeps (.ite reply_keeps ?_)
      exact .sent (.sent (.setChannel (.refl s)))

theorem announce_keeps {s : Machine} {c : Client} {k : Nat} {ch : Channel} {change : Bytes} :
    Keeps s (announce c k ch change s) :=
  .notified (.setChannel (.refl s))

theorem inviteOnly_keeps (k : Nat) : KeepsIfSome s (inviteOnly i message k s) := by
  unfold inviteOnly
  exact .ite .refuses (.takes announce_keeps)

theorem letSChangeTheTopic_keeps (k : Nat) : KeepsIfSome s (letSChangeTheTopic i message k s) := by
  unfold letSChangeTheTopic
  exact .ite .refuses (.takes announce_keeps)

theorem secretKey_keeps (k : Nat) : KeepsIfSome s (secretKey i message k s) := by
  unfold secretKey
  refine .ite .refuses (.ite (.takes reply_keeps) (.ite ?_ ?_))
  · exact .takes announce_keeps
  · exact .takes announce_keeps

theorem limitedUsage_keeps (k : Nat) : KeepsIfSome s (limitedUsage i message k s) := by
  unfold limitedUsage
  refine .ite .refuses (.ite (.takes announce_keeps) (.ite (.takes reply_keeps) ?_))
  exact .ite (.takes reply_keeps) (.ite (.takes reply_keeps) (.takes announce_keeps))

theorem operators_keeps (k : Nat) : KeepsIfSome s (operators i message k s) := by
  unfold operators
  refine .ite .refuses (.ite (.takes reply_keeps) ?_)
  dsimp only
  split
  · exact .takes reply_keeps
  · refine .ite (.takes reply_keeps) (.ite (.ite ?_ ?_) (.ite ?_ (.ite ?_ ?_)))
    · exact .takes (.refl s)
    · exact .takes announce_keeps
    · exact .takes (.refl s)
    · exact .takes reply_keeps
    · exact .takes announce_keeps

theorem modes_keeps : Keeps s (modes i message s) := by
  unfold modes
  refine .ite reply_keeps (.ite reply_keeps ?_)
  dsimp only
  split
  · exact reply_keeps
  · next k _ =>
      refine .ite reply_keeps ?_
      have chain := (inviteOnly_keeps i message s k).orElse
        ((letSChangeTheTopic_keeps i message s k).orElse
          ((secretKey_keeps i message s k).orElse
            ((limitedUsage_keeps i message s k).orElse (operators_keeps i message s k))))
      split
      · next t heq => exact chain t heq
      · exact reply_keeps

theorem dispatchCommand_keeps (line : Bytes) : Keeps s (dispatchCommand i line s) := by
  unfold dispatchCommand
  refine .ite (passHundler_keeps i _ s) (.ite (nickHundler_keeps i _ s) ?_)
  refine .ite (userHandler_keeps i _ s) (.ite (joinHandler_keeps i _ s) ?_)
  refine .ite (privmsgHandler_keeps i _ s) (.ite (topicHandler_keeps i _ s) ?_)
  refine .ite (kickHandler_keeps i _ s) (.ite (inviteHandler_keeps i _ s) ?_)
  exact .ite (modes_keeps i _ s) (.ite reply_keeps (.refl s))

theorem dispatchLine_keeps (line : Bytes) : Keeps s (dispatchLine i line s) := by
  have noted : Keeps s (s.record (.line (s.clientAt i).fd line)) := .recorded (.refl s) (by simp)
  exact noted.trans (dispatchCommand_keeps i _ line)

theorem extractLoop_keeps (rounds : Nat) : Keeps s (extractLoop i rounds s) := by
  induction rounds generalizing s with
  | zero => exact .refl s
  | succ rounds ih =>
      rw [extractLoop]
      dsimp only
      split
      · exact .refl s
      · next pos _ =>
          have cut : Keeps s (s.setClient (i - 1)
              { s.clientAt (i - 1) with buffer := (s.clientAt (i - 1)).buffer.drop (pos + 1) }) :=
            .stored (.refl s) rfl
          exact (cut.trans (dispatchLine_keeps (i - 1) _ _)).trans (ih _)

end Handlers

/-! ## The calls of a turn -/

/-- A call for entry `i` returns `true` after `disconnect(i)`, and otherwise keeps the entries. -/
inductive Called (i : Nat) (s : Machine) : Bool × Machine → Prop
  | kept (t : Machine) (h : Keeps s t) : Called i s (false, t)
  | gone : Called i s (true, disconnect i s)

inductive Made (i : Nat) (s : Machine) : Nat × Machine → Prop
  | idle (h : revents i s = 0) : Made i s (i + 1, s)
  | listened (ready : revents i s ≠ 0) (listener : (s.fds.getD i ⟨-1, 0, 0⟩).fd = s.fd)
      (t : Machine) (h : t = s ∨ ∃ accepted fcntl, t = connect accepted fcntl s) :
      Made i s (i + 1, t)
  | kept (ready : revents i s ≠ 0) (client : (s.fds.getD i ⟨-1, 0, 0⟩).fd ≠ s.fd) (t : Machine)
      (h : Keeps s t) : Made i s (i + 1, t)
  | gone (ready : revents i s ≠ 0) (client : (s.fds.getD i ⟨-1, 0, 0⟩).fd ≠ s.fd) (t : Machine)
      (h : Keeps s t) : Made i s (i, disconnect i t)

section Calls

variable (i : Nat) (s : Machine)

theorem received_keeps (data : Bytes) (rounds : Nat) :
    Keeps s (extractLoop i rounds
      (s.setClient (i - 1) ((s.clientAt (i - 1)).appendBuff data))) := by
  have appended : Keeps s (s.setClient (i - 1) ((s.clientAt (i - 1)).appendBuff data)) :=
    .stored (.refl s) rfl
  exact appended.trans (extractLoop_keeps i _ rounds)

theorem handleUser_called (recv : Except Errno Bytes) : Called i s (handleUser i recv s) := by
  unfold handleUser
  split
  · exact .gone
  · exact .kept _ (received_keeps i s _ _)
  · exact .kept s (.refl s)
  · exact .gone

theorem clearPollout_keeps : Keeps s (clearPollout i s) :=
  ⟨rfl, map_modify_same (f := fun p : PollFd => (p.fd, p.revents))
    (g := fun p => { p with events := p.events &&& ~~~POLLOUT }) (fun _ => rfl) s.fds i, rfl, rfl⟩

theorem handleSend_called (send : Except Errno Nat) : Called i s (handleSend i send s) := by
  unfold handleSend
  dsimp only
  split
  · exact .kept _ (clearPollout_keeps i s)
  · split
    · exact .gone
    · next bytes _ =>
        refine .kept _ ?_
        have sent : Keeps s ((s.record (.sent (s.fds.getD i ⟨-1, 0, 0⟩).fd
            ((s.clientAt (i - 1)).sendBuffer.take bytes))).setClient (i - 1)
              { s.clientAt (i - 1) with sendBuffer := (s.clientAt (i - 1)).sendBuffer.drop bytes }) :=
          .stored (.recorded (.refl s) (by simp)) rfl
        exact .ite (sent.trans (clearPollout_keeps i _)) sent
    · exact .kept s (.refl s)
    · exact .gone

theorem receive_called (results : Results) : Called i s (receive results i s) := by
  unfold receive
  split
  · exact handleUser_called i s results.recv
  · exact .kept s (.refl s)

theorem turn_made (results : Results) : Made i s (turn results i s) := by
  unfold turn
  split
  · next hidle => exact .idle hidle
  · next hready =>
      split
      · next hlistener =>
          refine .listened hready hlistener _ ?_
          split
          · exact .inr ⟨results.accepted, results.fcntl, rfl⟩
          · exact .inl rfl
      · next hclient =>
          cases hreceive : receive results i s with
          | mk gone t =>
              have called := receive_called i s results
              rw [hreceive] at called
              cases called with
              | gone => exact .gone hready hclient s (.refl s)
              | kept t hkept =>
                  change Made i s (answer results i t)
                  unfold answer
                  split
                  · exact .gone hready hclient t hkept
                  · split
                    · cases hsend : handleSend i results.send t with
                      | mk gone u =>
                          have called := handleSend_called i t results.send
                          rw [hsend] at called
                          cases called with
                          | gone => exact .gone hready hclient t hkept
                          | kept u hsent => exact .kept hready hclient u (hkept.trans hsent)
                    · exact .kept hready hclient t hkept

end Calls

/-! ## The tables under a turn -/

section Turned

variable {s t : Machine} {i : Nat}

theorem Aligned.position (aligned : Aligned s.toServer)
    (client : (s.fds.getD i ⟨-1, 0, 0⟩).fd ≠ s.fd) : 1 ≤ i := by
  cases i with
  | zero =>
      refine absurd ?_ client
      have hhead := congrArg (·[0]?) aligned
      simp only [List.getElem?_map, List.getElem?_cons_zero] at hhead
      obtain ⟨p, hp, hfd⟩ := Option.map_eq_some_iff.mp hhead
      simpa [hp] using hfd
  | succ i => omega

theorem Aligned.size (aligned : Aligned s.toServer) : s.fds.length = s.clients.length + 1 := by
  have hlength := congrArg List.length aligned
  simpa using hlength

theorem Aligned.looks_head (aligned : Aligned s.toServer) :
    ∃ bits, s.looks = (s.fd, bits) :: s.looks.drop 1 := by
  unfold Aligned at aligned
  unfold Machine.looks
  cases hfds : s.fds with
  | nil =>
      rw [hfds] at aligned
      cases aligned
  | cons p fds =>
      rw [hfds, List.map_cons] at aligned
      rw [List.map_cons, (List.cons.inj aligned).1]
      exact ⟨p.revents, rfl⟩

theorem looks_length (s : Machine) : s.looks.length = s.fds.length := by simp [Machine.looks]

theorem looks_getElem? (s : Machine) {p : PollFd} (hp : s.fds[i]? = some p) :
    s.looks[i]? = some (p.fd, p.revents) := by
  simp [Machine.looks, hp]

theorem disconnect_looks (i : Nat) (s : Machine) : (disconnect i s).looks = s.looks.eraseIdx i :=
  map_eraseIdx _ s.fds i

theorem disconnect_aligned (aligned : Aligned s.toServer) (hi : 1 ≤ i) :
    Aligned (disconnect i s).toServer := by
  obtain ⟨i, rfl⟩ := Nat.exists_eq_add_of_le' hi
  unfold Aligned at aligned ⊢
  simp only [disconnect, map_eraseIdx, aligned, Nat.add_sub_cancel, List.eraseIdx_cons_succ]

theorem connect_looks (accepted fcntl : Int) (s : Machine) :
    ∃ fresh, (connect accepted fcntl s).looks = s.looks ++ fresh ∧ fresh.length ≤ 1 ∧
      ∀ x ∈ fresh, x.2 = 0 := by
  unfold connect
  split
  · exact ⟨[], by simp⟩
  · split
    · exact ⟨[], by simp [Machine.looks, record]⟩
    · exact ⟨[(accepted, 0)], by simp [Machine.looks]⟩

theorem connect_aligned (accepted fcntl : Int) (aligned : Aligned s.toServer) :
    Aligned (connect accepted fcntl s).toServer ∧ (connect accepted fcntl s).fd = s.fd := by
  unfold connect
  split
  · exact ⟨aligned, rfl⟩
  · split
    · exact ⟨aligned, rfl⟩
    · refine ⟨?_, rfl⟩
      unfold Aligned at aligned ⊢
      simp [aligned]

structure Passing (fd : Int) (s : Machine) : Prop where
  aligned : Aligned s.toServer
  listening : s.fd = fd

theorem Made.passing {fd : Int} {next : Nat × Machine} (h : Made i s next) (passing : Passing fd s) :
    Passing fd next.2 := by
  obtain ⟨aligned, rfl⟩ := passing
  cases h with
  | idle => exact ⟨aligned, rfl⟩
  | listened ready listener t h =>
      rcases h with rfl | ⟨accepted, fcntl, rfl⟩
      · exact ⟨aligned, rfl⟩
      · exact ⟨(connect_aligned accepted fcntl aligned).1, (connect_aligned accepted fcntl aligned).2⟩
  | kept ready client t h => exact ⟨h.aligned aligned, h.listening⟩
  | gone ready client t h =>
      exact ⟨disconnect_aligned (h.aligned aligned) (aligned.position client), h.listening⟩

def looksWeight (fd : Int) (look : Int × BitVec 16) : Nat :=
  if look.1 = fd ∧ look.2 ≠ 0 then 2 else 1

theorem looksWeight_pos (fd : Int) (look : Int × BitVec 16) : 0 < looksWeight fd look := by
  unfold looksWeight
  split <;> omega

theorem looksWeight_idle {fd : Int} {look : Int × BitVec 16} (h : look.2 = 0) :
    looksWeight fd look = 1 := by
  rw [looksWeight, if_neg (fun hready => hready.2 h)]

theorem looksWeight_sum_idle {fd : Int} {looks : List (Int × BitVec 16)} (h : ∀ x ∈ looks, x.2 = 0) :
    (looks.map (looksWeight fd)).sum = looks.length := by
  induction looks with
  | nil => rfl
  | cons x looks ih =>
      rw [List.map_cons, List.sum_cons, looksWeight_idle (h x List.mem_cons_self),
        ih fun y hy => h y (List.mem_cons_of_mem x hy), List.length_cons, Nat.add_comm]

/-- A turn is one of those of the library: it erases its entry, or goes on, with at most one
entry more, which is not ready. -/
theorem Made.turned {fd : Int} {next : Nat × Machine} (h : Made i s next) (passing : Passing fd s)
    (hi : i < s.fds.length) : Turned Machine.looks (looksWeight fd) (·.2 = 0) i s next := by
  obtain ⟨aligned, rfl⟩ := passing
  have hp : s.fds[i]? = some s.fds[i] := List.getElem?_eq_getElem hi
  have hlook := looks_getElem? s hp
  have unchanged : ∀ t : Machine, t.looks = s.looks →
      Turned Machine.looks (looksWeight s.fd) (·.2 = 0) i s (i + 1, t) := by
    intro t ht
    refine .passed t _ [] hlook (by rw [ht, List.append_nil]) (by simp) ?_
    rw [List.map_nil, List.sum_nil]
    exact looksWeight_pos s.fd _
  cases h with
  | idle => exact unchanged s rfl
  | listened ready listener t h =>
      rcases h with rfl | ⟨accepted, fcntl, rfl⟩
      · exact unchanged t rfl
      · obtain ⟨fresh, hgrown, hlength, hidle⟩ := connect_looks accepted fcntl s
        refine .passed _ _ fresh hlook hgrown hidle ?_
        have hweight : looksWeight s.fd (s.fds[i].fd, s.fds[i].revents) = 2 := by
          rw [looksWeight, if_pos]
          simpa [revents, hi] using And.intro listener ready
        rw [looksWeight_sum_idle hidle, hweight]
        omega
  | kept ready client t h => exact unchanged t h.looks
  | gone ready client t h =>
      exact .erased _ (by rw [disconnect_looks, h.looks])

end Turned

/-! ## The pass -/

/-- The entries of the listening socket; there is one where the descriptors are distinct. -/
def Machine.listeners (s : Machine) : Nat := s.looks.countP fun look => decide (look.1 = s.fd)

def Inside (i : Nat) (s : Machine) : Prop :=
  1 ≤ i ∧ i < s.fds.length ∧ i - 1 < s.clients.length

/-- The index is inside both tables at every use of it in a turn for a client: at the start, in
every round of `extract_msg`, and after `handle_user`, where the `revents` are still the same. -/
structure Guarded (i : Nat) (results : Results) (s : Machine) : Prop where
  start : Inside i s
  rounds : ∀ data rounds, Inside i (extractLoop i rounds
    (s.setClient (i - 1) ((s.clientAt (i - 1)).appendBuff data)))
  rest : (receive results i s).1 = false →
    Inside i (receive results i s).2 ∧ revents i (receive results i s).2 = revents i s

/-- Input is read first, when `poll` has reported it; the result says whether the client is gone. -/
def Results.read (results : Results) (bits : BitVec 16) (i : Nat) (s : Machine) : Bool × Machine :=
  if hasAny bits POLLIN then handleUser i results.recv s else (false, s)

/-- What a turn at position `i` does for the descriptor `fd`, given what `poll` has reported for it:
the calls made, and the index to go on with. -/
structure Handled (fd : Int) (bits : BitVec 16) (results : Results) (i : Nat) (s : Machine)
    (next : Nat × Machine) : Prop where
  idle : bits = 0 → next = (i + 1, s)
  listener : bits ≠ 0 → fd = s.fd → next = (i + 1,
    if hasAny bits POLLIN then connect results.accepted results.fcntl s else s)
  gone : bits ≠ 0 → fd ≠ s.fd → (results.read bits i s).1 = true →
    next = (i, (results.read bits i s).2)
  broken : bits ≠ 0 → fd ≠ s.fd → (results.read bits i s).1 = false →
    hasAny bits (POLLERR ||| POLLHUP ||| POLLNVAL) = true →
    next = (i, disconnect i (results.read bits i s).2)
  written : bits ≠ 0 → fd ≠ s.fd → (results.read bits i s).1 = false →
    hasAny bits (POLLERR ||| POLLHUP ||| POLLNVAL) = false → hasAny bits POLLOUT = true →
    next = (if (handleSend i results.send (results.read bits i s).2).1 then i else i + 1,
      (handleSend i results.send (results.read bits i s).2).2)
  served : bits ≠ 0 → fd ≠ s.fd → (results.read bits i s).1 = false →
    hasAny bits (POLLERR ||| POLLHUP ||| POLLNVAL) = false → hasAny bits POLLOUT = false →
    next = (i + 1, (results.read bits i s).2)

structure OnePass (outcomes : Nat → Results) (s : Machine)
    (turns : List (Scan.Turn Machine Results)) (t : Machine) : Prop where
  /-- The turns look at the entries of the start, each once, in order and with its `revents`; then
  at those accepted since, which are not ready. -/
  examined : ∃ accepted : List Int, accepted.length ≤ s.listeners ∧
    turns.map (Turn.look looks) = (s.looks ++ accepted.map (·, 0)).map some
  /-- Turn `k` makes its own calls, and begins where the turns in front of it have led. -/
  threaded : ∀ k made, turns[k]? = some made → made.input = outcomes k ∧
    (made.position, made.state) = Scan.before turn outcomes 0 s k
  last : t = (Scan.before turn outcomes 0 s turns.length).2
  handled : ∀ made ∈ turns, ∀ fd bits, made.look looks = some (fd, bits) →
    Handled fd bits made.input made.position made.state
      (turn made.input made.position made.state)
  inside : ∀ made ∈ turns, made.position < made.state.fds.length
  guarded : ∀ made ∈ turns, ∀ fd bits, made.look looks = some (fd, bits) → fd ≠ s.fd →
    Guarded made.position made.input made.state
  /-- The clients whose turn does not go on are disconnected in it, and no others. -/
  closed : ∀ made ∈ turns, ∀ fd bits, made.look looks = some (fd, bits) → fd ≠ s.fd →
    closes (turn made.input made.position made.state).2.history =
      closes made.state.history ++ if made.passes turn then [] else [fd]
  /-- They are among the clients of the start, each at most once. -/
  dismissed : ((turns.filter fun made => !made.passes turn).filterMap (Turn.look looks)).Sublist
    (s.looks.drop 1)
  remaining : t.looks = (turns.filter (Turn.passes turn)).filterMap (Turn.look looks)
  /-- Nothing is done for the clients accepted since the start. -/
  unserved : ∀ made ∈ turns.drop s.fds.length,
    turn made.input made.position made.state = (made.position + 1, made.state)
  aligned : Aligned t.toServer

section Pass

variable {s t : Machine} {i : Nat} {results : Results}

theorem Keeps.inside (h : Keeps s t) (inside : Inside i s) : Inside i t := by
  unfold Inside
  rw [h.fds_length, h.clients_length]
  exact inside

theorem getD_look {fd : Int} {bits : BitVec 16} (h : s.looks[i]? = some (fd, bits)) :
    (s.fds.getD i ⟨-1, 0, 0⟩).fd = fd ∧ revents i s = bits := by
  rw [Machine.looks, List.getElem?_map] at h
  obtain ⟨p, hp, heq⟩ := Option.map_eq_some_iff.mp h
  cases heq
  simp [revents, hp]

theorem guarded_of_client (aligned : Aligned s.toServer) (hi : i < s.fds.length)
    (client : (s.fds.getD i ⟨-1, 0, 0⟩).fd ≠ s.fd) : Guarded i results s := by
  have hpos := aligned.position client
  have hsize := aligned.size
  have start : Inside i s := ⟨hpos, hi, by omega⟩
  refine ⟨start, fun data rounds => (received_keeps i s data rounds).inside start, fun hstays => ?_⟩
  have called := receive_called i s results
  cases hreceive : receive results i s with
  | mk gone t =>
      rw [hreceive] at called hstays
      cases called with
      | kept t hkept =>
          have hlook := looks_getElem? s (List.getElem?_eq_getElem hi)
          have hsame := hkept.looks ▸ hlook
          exact ⟨hkept.inside start, (getD_look hsame).2.trans (getD_look hlook).2.symm⟩
      | gone => cases hstays

theorem turn_idle (h : revents i s = 0) : turn results i s = (i + 1, s) := by
  rw [turn, if_pos h]

/-- The calls of a turn, for the `revents` that the entry has at its start: they are still the same
when the input has been read. -/
theorem turn_handled {fd : Int} {bits : BitVec 16} (aligned : Aligned s.toServer)
    (hlook : s.looks[i]? = some (fd, bits)) : Handled fd bits results i s (turn results i s) := by
  obtain ⟨hfd, hbits⟩ := getD_look hlook
  have hread : receive results i s = results.read bits i s := by
    rw [receive, Results.read, hbits]
  have listens : bits ≠ 0 → fd = s.fd → turn results i s = (i + 1,
      if hasAny bits POLLIN then connect results.accepted results.fcntl s else s) := by
    intro ready listener
    rw [turn, hbits, if_neg ready, hfd, if_pos listener]
  have serves : bits ≠ 0 → fd ≠ s.fd → turn results i s =
      if (results.read bits i s).1 then (i, (results.read bits i s).2)
      else answer results i (results.read bits i s).2 := by
    intro ready client
    rw [turn, hbits, if_neg ready, hfd, if_neg client, hread]
  have answers : fd ≠ s.fd → (results.read bits i s).1 = false →
      revents i (results.read bits i s).2 = bits := by
    intro client stays
    have hi : i < s.fds.length := by
      rw [← looks_length]
      exact (List.getElem?_eq_some_iff.mp hlook).choose
    have guarded : Guarded i results s := guarded_of_client aligned hi (hfd ▸ client)
    rw [← hread, (guarded.rest (hread ▸ stays)).2, hbits]
  constructor
  case idle =>
    intro hidle
    exact turn_idle (hbits.trans hidle)
  case listener => exact listens
  case gone =>
    intro ready client gone
    rw [serves ready client, if_pos gone]
  case broken =>
    intro ready client stays error
    rw [serves ready client, stays, if_neg Bool.false_ne_true, answer, answers client stays,
      if_pos error]
  case written =>
    intro ready client stays noError output
    rw [serves ready client, stays, if_neg Bool.false_ne_true, answer, answers client stays,
      noError, if_neg Bool.false_ne_true, if_pos output]
  case served =>
    intro ready client stays noError noOutput
    rw [serves ready client, stays, if_neg Bool.false_ne_true, answer, answers client stays,
      noError, if_neg Bool.false_ne_true, noOutput, if_neg Bool.false_ne_true]

theorem Made.closes {fd : Int} {bits : BitVec 16} {next : Nat × Machine} (h : Made i s next)
    (hlook : s.looks[i]? = some (fd, bits)) (client : fd ≠ s.fd) :
    closes next.2.history = closes s.history ++ if next.1 = i + 1 then [] else [fd] := by
  cases h with
  | idle => simp
  | listened ready listener => exact absurd ((getD_look hlook).1.symm.trans listener) client
  | kept ready other t h => simp [h.closes]
  | gone ready other t h =>
      rw [← h.looks] at hlook
      rw [if_neg (by omega), disconnect, closes_append, h.closes, (getD_look hlook).1]
      rfl

theorem Made.ready_of_not_passes {next : Nat × Machine} (h : Made i s next) (hnext : next.1 ≠ i + 1) :
    revents i s ≠ 0 ∧ (s.fds.getD i ⟨-1, 0, 0⟩).fd ≠ s.fd := by
  cases h with
  | idle => exact absurd rfl hnext
  | listened => exact absurd rfl hnext
  | kept => exact absurd rfl hnext
  | gone ready client => exact ⟨ready, client⟩

theorem looksWeight_sum_le (fd : Int) (looks : List (Int × BitVec 16)) :
    (looks.map (looksWeight fd)).sum ≤
      looks.length + looks.countP fun look => decide (look.1 = fd) := by
  induction looks with
  | nil => simp
  | cons x looks ih =>
      rw [List.map_cons, List.sum_cons, List.length_cons, List.countP_cons]
      have hx : looksWeight fd x ≤ 1 + if decide (x.1 = fd) = true then 1 else 0 := by
        unfold looksWeight
        by_cases hfd : x.1 = fd
        · simp only [hfd, true_and, decide_true, if_true]
          split <;> omega
        · simp [hfd]
      omega

/-- The turns that look at these elements, and at others later, begin with those. -/
theorem look_split {turns : List (Scan.Turn Machine Results)} {xs ys : List (Int × BitVec 16)}
    (h : turns.map (Turn.look looks) = (xs ++ ys).map some) :
    (turns.take xs.length).map (Turn.look looks) = xs.map some ∧
      (turns.drop xs.length).map (Turn.look looks) = ys.map some := by
  rw [List.map_take, List.map_drop, h, List.map_append]
  exact ⟨List.take_left' (by simp), List.drop_left' (by simp)⟩

section Loop

variable {fd : Int} {outcomes : Nat → Results} {fuel : Nat} {turns : List (Scan.Turn Machine Results)}

theorem turn_preserved (fd : Int) (results : Results) (i : Nat) (s : Machine)
    (_ : i < s.fds.length) (passing : Passing fd s) : Passing fd (turn results i s).2 :=
  (turn_made i s results).passing passing

theorem turn_turned (fd : Int) (results : Results) (i : Nat) (s : Machine) (hi : i < s.fds.length)
    (passing : Passing fd s) :
    Turned Machine.looks (looksWeight fd) (·.2 = 0) i s (turn results i s) :=
  (turn_made i s results).turned passing hi

/-- What is known of every turn of a pass. -/
theorem scan_passing (aligned : Aligned s.toServer) (h : scan outcomes fuel s = some (turns, t)) :
    Passing s.fd t ∧
      ∀ made ∈ turns, made.position < made.state.fds.length ∧ Passing s.fd made.state :=
  loop_invariant (turn_preserved s.fd) ⟨aligned, rfl⟩ h

theorem scan_examined (aligned : Aligned s.toServer) (h : scan outcomes fuel s = some (turns, t)) :
    ∃ accepted : List Int,
      turns.map (Turn.look looks) = (s.looks ++ accepted.map (·, 0)).map some := by
  obtain ⟨fresh, hlooks, hidle⟩ := loop_looks (fun s => (looks_length s).symm) (turn_preserved s.fd)
    (turn_turned s.fd) (looksWeight_pos s.fd) ⟨aligned, rfl⟩ h
  refine ⟨fresh.map Prod.fst, ?_⟩
  have hfresh : (fresh.map Prod.fst).map (fun fd => (fd, (0 : BitVec 16))) = fresh := by
    rw [List.map_map]
    conv_rhs => rw [← List.map_id fresh]
    exact List.map_congr_left fun x hx => Prod.ext rfl (hidle x hx).symm
  rw [hlooks, hfresh, List.drop_zero]

theorem look_of_not_passes {made : Scan.Turn Machine Results} (hpasses : made.passes turn = false)
    {fd : Int} {bits : BitVec 16} (hlook : made.look looks = some (fd, bits)) :
    bits ≠ 0 ∧ fd ≠ made.state.fd := by
  have hready := (turn_made made.position made.state made.input).ready_of_not_passes
    (of_decide_eq_false hpasses)
  obtain ⟨hfd, hbits⟩ := getD_look hlook
  rwa [hfd, hbits] at hready

theorem scan_dismissed (aligned : Aligned s.toServer) (h : scan outcomes fuel s = some (turns, t)) :
    ((turns.filter fun made => !made.passes turn).filterMap (Turn.look looks)).Sublist
      (s.looks.drop 1) := by
  obtain ⟨accepted, hlooks⟩ := scan_examined aligned h
  have passing := (scan_passing aligned h).2
  obtain ⟨hold, hnew⟩ := look_split hlooks
  have hdecompose := (List.take_append_drop s.looks.length turns).symm
  -- the turns for the clients accepted in the pass go on
  have hlate : (turns.drop s.looks.length).filter (fun made => !made.passes turn) = [] := by
    apply List.filter_eq_nil_iff.mpr
    intro made hmade hnot
    have hlook := List.mem_map_of_mem (f := Turn.look looks) hmade
    rw [hnew] at hlook
    obtain ⟨look, hmem, hlook⟩ := List.mem_map.mp hlook
    obtain ⟨fd, _, rfl⟩ := List.mem_map.mp hmem
    exact (look_of_not_passes (by simpa using hnot) hlook.symm).1 rfl
  -- so does the first turn, which is the one for the listening socket
  cases hearly : turns.take s.looks.length with
  | nil =>
      rw [hdecompose, hearly, List.nil_append, hlate]
      exact List.nil_sublist _
  | cons first rest =>
      rw [hearly, List.map_cons] at hold
      obtain ⟨bits, hhead⟩ := aligned.looks_head
      rw [hhead, List.map_cons] at hold
      obtain ⟨hlook, htail⟩ := List.cons.inj hold
      have hmem : first ∈ turns := List.mem_of_mem_take (hearly ▸ List.mem_cons_self)
      have hfirst : first.passes turn = true := by
        cases hpasses : first.passes turn with
        | true => rfl
        | false =>
            exact absurd (passing first hmem).2.listening.symm (look_of_not_passes hpasses hlook).2
      have hrest : rest.filterMap (Turn.look looks) = s.looks.drop 1 := by
        have hid : rest.filterMap (Turn.look looks) = (rest.map (Turn.look looks)).filterMap id := by
          rw [List.filterMap_map]
          rfl
        rw [hid, htail, List.filterMap_map]
        exact List.filterMap_some
      rw [hdecompose, hearly, List.filter_append, hlate, List.append_nil,
        List.filter_cons_of_neg (by simp [hfirst]), ← hrest]
      exact List.Sublist.filterMap _ List.filter_sublist

theorem scan_terminates (aligned : Aligned s.toServer) (outcomes : Nat → Results) :
    ∃ turns t, scan outcomes (s.fds.length + s.listeners) s = some (turns, t) := by
  refine loop_terminates (fun s => (looks_length s).symm) (turn_preserved s.fd) (turn_turned s.fd)
    (looksWeight_pos s.fd) ⟨aligned, rfl⟩ ?_
  rw [List.drop_zero, ← looks_length]
  exact looksWeight_sum_le s.fd s.looks

theorem onePass_of_scan (aligned : Aligned s.toServer)
    (h : scan outcomes (s.fds.length + s.listeners) s = some (turns, t)) :
    OnePass outcomes s turns t := by
  obtain ⟨accepted, hlooks⟩ := scan_examined aligned h
  obtain ⟨hend, passing⟩ := scan_passing aligned h
  constructor
  case examined =>
    refine ⟨accepted, ?_, hlooks⟩
    have hmost : turns.length ≤ s.fds.length + s.listeners := loop_length_le h
    have hlength := congrArg List.length hlooks
    simp only [List.length_map, List.length_append, looks_length] at hlength
    omega
  case threaded => exact (loop_threaded h).1
  case last => exact (loop_threaded h).2
  case handled =>
    intro made hmade fd bits hlook
    exact turn_handled (passing made hmade).2.aligned hlook
  case inside => exact fun made hmade => (passing made hmade).1
  case guarded =>
    intro made hmade fd bits hlook client
    obtain ⟨hi, hpassing⟩ := passing made hmade
    rw [← hpassing.listening, ← (getD_look hlook).1] at client
    exact guarded_of_client hpassing.aligned hi client
  case closed =>
    intro made hmade fd bits hlook client
    rw [← (passing made hmade).2.listening] at client
    have hmade := turn_made made.position made.state made.input
    simpa [Turn.passes] using hmade.closes hlook client
  case dismissed => exact scan_dismissed aligned h
  case remaining =>
    exact loop_remains (fun s => (looks_length s).symm) (turn_preserved s.fd) (turn_turned s.fd)
      ⟨aligned, rfl⟩ h
  case unserved =>
    intro made hmade
    have hlook := List.mem_map_of_mem (f := Turn.look looks) hmade
    rw [← looks_length, (look_split hlooks).2] at hlook
    obtain ⟨look, hmem, hlook⟩ := List.mem_map.mp hlook
    obtain ⟨fd, _, rfl⟩ := List.mem_map.mp hmem
    exact turn_idle (getD_look hlook.symm).2
  case aligned => exact hend.aligned

/-- The pass over aligned tables ends, and examines every entry once, whatever `poll` reports and
the other calls return. -/
theorem scan_onePass {s : Machine} (aligned : Aligned s.toServer) (revents : List (BitVec 16))
    (outcomes : Nat → Results) :
    ∃ turns t, scan outcomes (s.fds.length + s.listeners) (setRevents revents s) = some (turns, t) ∧
      OnePass outcomes (setRevents revents s) turns t := by
  have hfds := setRevents_fds_fd revents s
  have hlength : (setRevents revents s).fds.length = s.fds.length := by
    have hlengths := congrArg List.length hfds
    simpa using hlengths
  have hlisteners : (setRevents revents s).listeners = s.listeners := by
    have hcount := congrArg (List.countP fun fd => decide (fd = s.fd)) hfds
    rw [List.countP_map, List.countP_map] at hcount
    rw [listeners, listeners, Machine.looks, Machine.looks, List.countP_map, List.countP_map]
    exact hcount
  have haligned : Aligned (setRevents revents s).toServer := hfds.trans aligned
  obtain ⟨turns, t, h⟩ := scan_terminates haligned outcomes
  have honePass := onePass_of_scan haligned h
  rw [hlength, hlisteners] at h
  exact ⟨turns, t, h, honePass⟩

/-- The listening socket and both clients are ready; one hangs up after a last command. -/
theorem scan_onePass_sample :
    ∃ turns t, scan (fun _ => ⟨6, 0, .ok (text "PRIVMSG #42 :bye" ++ crlf), .ok 7⟩)
        ((stateAfter sampleRun).fds.length + (stateAfter sampleRun).listeners)
        (setRevents [POLLIN, POLLIN ||| POLLHUP, POLLIN ||| POLLOUT] (stateAfter sampleRun)) =
          some (turns, t) ∧
      OnePass (fun _ => ⟨6, 0, .ok (text "PRIVMSG #42 :bye" ++ crlf), .ok 7⟩)
        (setRevents [POLLIN, POLLIN ||| POLLHUP, POLLIN ||| POLLOUT] (stateAfter sampleRun)) turns t :=
  scan_onePass (stateAfter_reachable sampleRun).table.aligned _ _

end Loop

end Pass

end IrcServer
