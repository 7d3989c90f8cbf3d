import IrcServer.Spec.History

/-! # What queuing output does

`sending_queue` changes two things: the send buffer of one client and the poll bit
next to it. A sequence of calls is `sendEach`; the delivery loops are such sequences,
and their recipients are the positions of the members in the client table.
-/

namespace IrcServer

open Search

namespace Machine

/-! ## One call -/

section Frame

variable (s : Machine) (k : Nat) (m : Bytes)

@[simp] theorem sendingQueue_channels : (s.sendingQueue k m).channels = s.channels := by
  unfold sendingQueue
  split <;> rfl

@[simp] theorem sendingQueue_passwd : (s.sendingQueue k m).passwd = s.passwd := by
  unfold sendingQueue
  split <;> rfl

@[simp] theorem sendingQueue_fd : (s.sendingQueue k m).fd = s.fd := by
  unfold sendingQueue
  split <;> rfl

@[simp] theorem sendingQueue_fds_fd :
    (s.sendingQueue k m).fds.map (·.fd) = s.fds.map (·.fd) := by
  unfold sendingQueue
  split
  · rfl
  · exact map_modify_same (f := (·.fd)) (by simp) s.fds (k + 1)

theorem sendingQueue_getElem? (j : Nat) :
    (s.sendingQueue k m).clients[j]? =
      s.clients[j]?.map fun c => if k = j then c.appendSendBuff m else c := by
  unfold sendingQueue
  split
  · next h =>
      have hm : m = [] := by simpa using h
      cases s.clients[j]? with
      | none => rfl
      | some c => by_cases hk : k = j <;> simp [hk, hm, Client.appendSendBuff]
  · simp only [List.getElem?_modify]
    cases s.clients[j]? with
    | none => rfl
    | some c => by_cases hk : k = j <;> simp [hk]

@[simp] theorem sendingQueue_length : (s.sendingQueue k m).clients.length = s.clients.length := by
  unfold sendingQueue
  split
  · rfl
  · simp

theorem sendingQueue_history (h : m ≠ []) :
    (s.sendingQueue k m).history = s.history ++ [.queued (s.clientAt k).fd m] := by
  rw [sendingQueue, if_neg (by simpa using h)]

theorem sendingQueue_map {β : Type} (f : Client → β) (hf : ∀ c d, f (c.appendSendBuff d) = f c) :
    (s.sendingQueue k m).clients.map f = s.clients.map f := by
  apply List.ext_getElem?
  intro j
  rw [List.getElem?_map, List.getElem?_map, sendingQueue_getElem?]
  cases s.clients[j]? with
  | none => rfl
  | some c => by_cases h : k = j <;> simp [h, hf]

theorem clientAt_sendingQueue {β : Type} (f : Client → β)
    (hf : ∀ c d, f (c.appendSendBuff d) = f c) (j : Nat) :
    f ((s.sendingQueue k m).clientAt j) = f (s.clientAt j) := by
  unfold Server.clientAt
  rw [List.getD_eq_getElem?_getD, List.getD_eq_getElem?_getD, sendingQueue_getElem?]
  cases s.clients[j]? with
  | none => rfl
  | some c => by_cases h : k = j <;> simp [h, hf]

end Frame

/-! ## A sequence of calls -/

def sendEach (sends : List (Nat × Bytes)) (s : Machine) : Machine :=
  sends.foldl (fun s call => s.sendingQueue call.1 call.2) s

def messagesFor (j : Nat) (sends : List (Nat × Bytes)) : List Bytes :=
  (sends.filter fun call => decide (call.1 = j)).map (·.2)

@[simp] theorem sendEach_nil (s : Machine) : sendEach [] s = s := rfl

theorem sendEach_cons (call : Nat × Bytes) (sends : List (Nat × Bytes)) (s : Machine) :
    sendEach (call :: sends) s = sendEach sends (s.sendingQueue call.1 call.2) := rfl

theorem sendEach_append (xs ys : List (Nat × Bytes)) (s : Machine) :
    sendEach (xs ++ ys) s = sendEach ys (sendEach xs s) :=
  List.foldl_append

@[simp] theorem sendEach_channels (sends : List (Nat × Bytes)) (s : Machine) :
    (sendEach sends s).channels = s.channels := by
  induction sends generalizing s with
  | nil => rfl
  | cons call sends ih => rw [sendEach_cons, ih, sendingQueue_channels]

@[simp] theorem sendEach_passwd (sends : List (Nat × Bytes)) (s : Machine) :
    (sendEach sends s).passwd = s.passwd := by
  induction sends generalizing s with
  | nil => rfl
  | cons call sends ih => rw [sendEach_cons, ih, sendingQueue_passwd]

@[simp] theorem sendEach_fd (sends : List (Nat × Bytes)) (s : Machine) :
    (sendEach sends s).fd = s.fd := by
  induction sends generalizing s with
  | nil => rfl
  | cons call sends ih => rw [sendEach_cons, ih, sendingQueue_fd]

@[simp] theorem sendEach_fds_fd (sends : List (Nat × Bytes)) (s : Machine) :
    (sendEach sends s).fds.map (·.fd) = s.fds.map (·.fd) := by
  induction sends generalizing s with
  | nil => rfl
  | cons call sends ih => rw [sendEach_cons, ih, sendingQueue_fds_fd]

theorem sendEach_channels_commute (sends : List (Nat × Bytes)) (s : Machine)
    (channels : List Channel) :
    { sendEach sends s with channels := channels } =
      sendEach sends { s with channels := channels } := by
  induction sends generalizing s with
  | nil => rfl
  | cons call sends ih =>
      have hcall : { s.sendingQueue call.1 call.2 with channels := channels } =
          sendingQueue { s with channels := channels } call.1 call.2 := by
        unfold sendingQueue
        split <;> rfl
      rw [sendEach_cons, sendEach_cons, ih, hcall]

theorem sendEach_map {β : Type} (f : Client → β) (hf : ∀ c d, f (c.appendSendBuff d) = f c)
    (sends : List (Nat × Bytes)) (s : Machine) :
    (sendEach sends s).clients.map f = s.clients.map f := by
  induction sends generalizing s with
  | nil => rfl
  | cons call sends ih => rw [sendEach_cons, ih, sendingQueue_map _ _ _ f hf]

@[simp] theorem sendEach_length (sends : List (Nat × Bytes)) (s : Machine) :
    (sendEach sends s).clients.length = s.clients.length := by
  induction sends generalizing s with
  | nil => rfl
  | cons call sends ih => rw [sendEach_cons, ih, sendingQueue_length]

/-- Every send buffer grows by the messages for its client, in the order of the calls. -/
theorem sendEach_getElem? (sends : List (Nat × Bytes)) (s : Machine) (j : Nat) :
    (sendEach sends s).clients[j]? =
      s.clients[j]?.map (·.appendSendBuff (messagesFor j sends).flatten) := by
  induction sends generalizing s with
  | nil =>
      rw [sendEach_nil]
      cases s.clients[j]? <;> simp [messagesFor, Client.appendSendBuff]
  | cons call sends ih =>
      rw [sendEach_cons, ih, sendingQueue_getElem?]
      cases s.clients[j]? with
      | none => rfl
      | some c =>
          by_cases h : call.1 = j <;>
            simp [messagesFor, h, Client.appendSendBuff, List.append_assoc]

theorem sendEach_history {sends : List (Nat × Bytes)} (h : ∀ call ∈ sends, call.2 ≠ [])
    (s : Machine) :
    (sendEach sends s).history =
      s.history ++ sends.map fun call => .queued (s.clientAt call.1).fd call.2 := by
  induction sends generalizing s with
  | nil => simp
  | cons call sends ih =>
      have hcall : call.2 ≠ [] := h call List.mem_cons_self
      have hfd : ∀ j, ((s.sendingQueue call.1 call.2).clientAt j).fd = (s.clientAt j).fd := fun j =>
        clientAt_sendingQueue s call.1 call.2 (·.fd) (fun _ _ => rfl) j
      rw [sendEach_cons, ih (fun c hc => h c (List.mem_cons_of_mem call hc)),
        sendingQueue_history _ _ _ hcall]
      simp [hfd]

/-! ## The delivery loops -/

def positions (clients : List Client) (members : List Int) : List Nat :=
  members.filterMap fun member => clients.findIdx? fun c => decide (c.fd = member)

theorem findIdx?_fd_sendingQueue (s : Machine) (k : Nat) (m : Bytes) (member : Int) :
    ((s.sendingQueue k m).clients.findIdx? fun c => decide (c.fd = member)) =
      s.clients.findIdx? fun c => decide (c.fd = member) := by
  have hmap := sendingQueue_map s k m (·.fd) (fun _ _ => rfl)
  have h := congrArg (List.findIdx? fun fd => decide (fd = member)) hmap
  simpa only [List.findIdx?_map, Function.comp_def] using h

theorem positions_sendingQueue (s : Machine) (k : Nat) (m : Bytes) (members : List Int) :
    positions (s.sendingQueue k m).clients members = positions s.clients members := by
  unfold positions
  simp only [findIdx?_fd_sendingQueue]

theorem notification_eq (members : List Int) (m : Bytes) (s : Machine) :
    s.notification members m = sendEach ((positions s.clients members).map (·, m)) s := by
  unfold notification
  induction members generalizing s with
  | nil => rfl
  | cons member members ih =>
      rw [List.foldl_cons]
      cases h : s.clients.findIdx? fun c => decide (c.fd = member) with
      | none => simp [ih, positions, h]
      | some j =>
          simp only [ih, positions_sendingQueue]
          simp [positions, h, sendEach_cons]

/-- The inner loop calls `sending_queue` at every position that matches. -/
theorem sendMembers_inner (chosen : Int → Bool) (member : Int) (m : Bytes) (js : List Nat)
    (s : Machine) :
    js.foldl (fun s j =>
      if (s.clientAt j).fd = member ∧ chosen (s.clientAt j).fd then s.sendingQueue j m else s) s =
      sendEach ((js.filter fun j =>
        decide ((s.clientAt j).fd = member) && chosen member).map (·, m)) s := by
  induction js generalizing s with
  | nil => rfl
  | cons j js ih =>
      have hfd : ∀ k, ((s.sendingQueue j m).clientAt k).fd = (s.clientAt k).fd := fun k =>
        clientAt_sendingQueue s j m (·.fd) (fun _ _ => rfl) k
      rw [List.foldl_cons]
      by_cases hj : (s.clientAt j).fd = member
      · by_cases hc : chosen member = true
        · simp [hj, hc, ih, hfd, sendEach_cons]
        · simp [hj, hc, ih]
      · simp [hj, ih]

/-- With distinct descriptors the matching positions are the one `findIdx?` returns, if any. -/
theorem filter_range_fd (s : Machine) (distinct : (s.clients.map (·.fd)).Nodup) (member : Int) :
    ((List.range s.clients.length).filter fun j => decide ((s.clientAt j).fd = member)) =
      (s.clients.findIdx? fun c => decide (c.fd = member)).toList := by
  have hone := atMostOne_of_nodup distinct member
  cases h : s.clients.findIdx? fun c => decide (c.fd = member) with
  | none =>
      have hnone := List.findIdx?_eq_none_iff.mp h
      rw [Option.toList_none, List.filter_eq_nil_iff]
      intro j hj
      have hlt : j < s.clients.length := List.mem_range.mp hj
      rw [Server.clientAt_of_getElem? (List.getElem?_eq_getElem hlt),
        hnone _ (List.getElem_mem hlt)]
      exact Bool.false_ne_true
  | some k =>
      obtain ⟨c, hk, hc⟩ := findIdx?_some h
      have hperm : ((List.range s.clients.length).filter fun j =>
          decide ((s.clientAt j).fd = member)).Perm [k] := by
        rw [List.perm_ext_iff_of_nodup (List.nodup_range.filter _) (List.nodup_singleton k)]
        intro j
        rw [List.mem_filter, List.mem_range, List.mem_singleton]
        constructor
        · rintro ⟨hlt, hfd⟩
          have hj := List.getElem?_eq_getElem hlt
          rw [Server.clientAt_of_getElem? hj] at hfd
          exact hone j k _ c hj hk hfd hc
        · rintro rfl
          exact ⟨(List.getElem?_eq_some_iff.mp hk).choose, by
            rw [Server.clientAt_of_getElem? hk]; exact hc⟩
      rw [Option.toList_some]
      exact List.perm_singleton.mp hperm

theorem sendMembers_eq (chosen : Int → Bool) (members : List Int) (m : Bytes) (s : Machine)
    (distinct : (s.clients.map (·.fd)).Nodup) :
    s.sendMembers chosen members m =
      sendEach ((positions s.clients (members.filter chosen)).map (·, m)) s := by
  unfold sendMembers
  induction members generalizing s with
  | nil => rfl
  | cons member members ih =>
      have hpos : ∀ sends : List (Nat × Bytes), ∀ fds : List Int,
          positions (sendEach sends s).clients fds = positions s.clients fds := by
        intro sends fds
        have hmap := sendEach_map (·.fd) (fun _ _ => rfl) sends s
        have h := fun fd => congrArg (List.findIdx? fun x => decide (x = fd)) hmap
        simp only [List.findIdx?_map, Function.comp_def] at h
        simp only [positions, h]
      rw [List.foldl_cons, sendMembers_inner]
      by_cases hc : chosen member = true
      · have hfilter := filter_range_fd s distinct member
        simp only [hc, Bool.and_true, hfilter]
        rw [ih _ (by rw [sendEach_map (·.fd) (fun _ _ => rfl)]; exact distinct), hpos,
          ← sendEach_append, ← List.map_append]
        congr 2
        rw [List.filter_cons_of_pos hc]
        cases h : s.clients.findIdx? fun c => decide (c.fd = member) <;> simp [positions, h]
      · rw [List.filter_cons_of_neg hc]
        simp only [hc, Bool.and_false, List.filter_false, List.map_nil, sendEach_nil]
        exact ih s distinct

end Machine

end IrcServer
