import IrcServer.Proof.Step

/-! # No command looks at a receive buffer

Erasing all receive buffers commutes with every function a dispatched line runs, and
a dispatched line leaves all receive buffers as they are. So the loop that cuts lines
out of a buffer may be read as two separate things: the buffer, and the rest of the
machine.
-/

namespace IrcServer

open Search Machine

def Client.unbuffered (c : Client) : Client := { c with buffer := [] }

def Machine.unbuffered (s : Machine) : Machine :=
  { s with clients := s.clients.map (·.unbuffered) }

def Machine.buffers (s : Machine) : List Bytes := s.clients.map (·.buffer)

theorem Machine.ext_buffers {s t : Machine} (same : s.unbuffered = t.unbuffered)
    (buffers : s.buffers = t.buffers) : s = t := by
  have hclients : s.clients = t.clients := by
    apply List.ext_getElem?
    intro j
    have hc := congrArg (fun u : Machine => u.clients[j]?) same
    have hb := congrArg (·[j]?) buffers
    simp only [unbuffered, Machine.buffers, List.getElem?_map] at hc hb
    cases hs : s.clients[j]? with
    | none =>
        cases ht : t.clients[j]? with
        | none => rfl
        | some d => simp [hs, ht] at hc
    | some c =>
        cases ht : t.clients[j]? with
        | none => simp [hs, ht] at hc
        | some d =>
            rw [hs, ht] at hc hb
            have hrest := Option.some.inj hc
            have hbuffer : c.buffer = d.buffer := Option.some.inj hb
            cases c
            cases d
            simp_all [Client.unbuffered]
  obtain ⟨⟨fd, passwd, fds, clients, channels⟩, history⟩ := s
  obtain ⟨⟨fd', passwd', fds', clients', channels'⟩, history'⟩ := t
  simp only [unbuffered, Machine.mk.injEq, Server.mk.injEq] at same hclients ⊢
  obtain ⟨⟨hfd, hpasswd, hfds, _, hchannels⟩, hhistory⟩ := same
  exact ⟨⟨hfd, hpasswd, hfds, hclients, hchannels⟩, hhistory⟩

/-! ## Reading -/

section Reading

variable (s : Machine) (c : Client)

@[simp] theorem unbuffered_fd : c.unbuffered.fd = c.fd := rfl
@[simp] theorem unbuffered_nickname : c.unbuffered.nickname = c.nickname := rfl
@[simp] theorem unbuffered_registered : c.unbuffered.registered = c.registered := rfl

@[simp] theorem unbuffered_channels : s.unbuffered.channels = s.channels := rfl
@[simp] theorem unbuffered_passwd : s.unbuffered.passwd = s.passwd := rfl
@[simp] theorem channelAt_unbuffered (k : Nat) :
    s.unbuffered.channelAt k = s.channelAt k := rfl

@[simp] theorem clientAt_unbuffered (i : Nat) :
    s.unbuffered.clientAt i = (s.clientAt i).unbuffered := by
  simp only [Server.clientAt, unbuffered, List.getD_eq_getElem?_getD, List.getElem?_map]
  cases s.clients[i]? <;> rfl

@[simp] theorem replyCmd_unbuffered (code : Nat) (cmd : Bytes) :
    replyCmd code c.unbuffered cmd = replyCmd code c cmd := rfl

@[simp] theorem joinMessage_unbuffered (name : Bytes) :
    joinMessage c.unbuffered name = joinMessage c name := rfl

@[simp] theorem lastMatch_nicknamed_unbuffered (nick : Bytes) :
    lastMatch (nicknamed nick) s.unbuffered.clients = lastMatch (nicknamed nick) s.clients :=
  lastMatch_map (nicknamed nick) Client.unbuffered s.clients

@[simp] theorem findIdx?_nicknamed_unbuffered (nick : Bytes) :
    s.unbuffered.clients.findIdx? (nicknamed nick) = s.clients.findIdx? (nicknamed nick) :=
  List.findIdx?_map

@[simp] theorem joinNames_unbuffered (ch : Channel) :
    joinNames ch s.unbuffered.clients = joinNames ch s.clients :=
  joinNames_congr (by simp [unbuffered])

end Reading

/-! ## Writing -/

section Writing

variable (s : Machine)

@[simp] theorem setClient_unbuffered (i : Nat) (c : Client) :
    (s.setClient i c).unbuffered = s.unbuffered.setClient i c.unbuffered := by
  simp [setClient, unbuffered]

@[simp] theorem setChannel_unbuffered (k : Nat) (ch : Channel) :
    (s.setChannel k ch).unbuffered = s.unbuffered.setChannel k ch := rfl

@[simp] theorem record_unbuffered (entry : Entry) :
    (s.record entry).unbuffered = s.unbuffered.record entry := rfl

@[simp] theorem sendingQueue_unbuffered (k : Nat) (m : Bytes) :
    (s.sendingQueue k m).unbuffered = s.unbuffered.sendingQueue k m := by
  have hclients : (s.clients.modify k (·.appendSendBuff m)).map (·.unbuffered) =
      (s.clients.map (·.unbuffered)).modify k (·.appendSendBuff m) := by
    apply List.ext_getElem?
    intro j
    simp only [List.getElem?_map, List.getElem?_modify]
    cases s.clients[j]? with
    | none => rfl
    | some c => by_cases h : k = j <;> simp [h, Client.unbuffered, Client.appendSendBuff]
  unfold sendingQueue
  split
  · rfl
  · rw [clientAt_unbuffered]
    simp only [unbuffered, hclients]
    rfl

@[simp] theorem sendMembers_unbuffered (chosen : Int → Bool) (members : List Int) (m : Bytes) :
    (s.sendMembers chosen members m).unbuffered = s.unbuffered.sendMembers chosen members m := by
  have hinner : ∀ (member : Int) (js : List Nat) (s : Machine),
      (js.foldl (fun s j => if (s.clientAt j).fd = member ∧ chosen (s.clientAt j).fd then
        s.sendingQueue j m else s) s).unbuffered =
      js.foldl (fun s j => if (s.clientAt j).fd = member ∧ chosen (s.clientAt j).fd then
        s.sendingQueue j m else s) s.unbuffered := by
    intro member js
    induction js with
    | nil => exact fun _ => rfl
    | cons j js ih =>
        intro s
        rw [List.foldl_cons, List.foldl_cons, ih, apply_ite unbuffered, sendingQueue_unbuffered,
          clientAt_unbuffered]
        rfl
  unfold sendMembers
  induction members generalizing s with
  | nil => rfl
  | cons member members ih =>
      have hlength : s.unbuffered.clients.length = s.clients.length := by simp [unbuffered]
      rw [List.foldl_cons, List.foldl_cons, ih, hinner, hlength]

@[simp] theorem notification_unbuffered (members : List Int) (m : Bytes) :
    (s.notification members m).unbuffered = s.unbuffered.notification members m := by
  unfold notification
  induction members generalizing s with
  | nil => rfl
  | cons member members ih =>
      have hfind : (s.unbuffered.clients.findIdx? fun c => decide (c.fd = member)) =
          s.clients.findIdx? fun c => decide (c.fd = member) := List.findIdx?_map
      rw [List.foldl_cons, List.foldl_cons, ih, hfind]
      cases s.clients.findIdx? fun c => decide (c.fd = member) with
      | none => rfl
      | some j => simp only [sendingQueue_unbuffered]

@[simp] theorem announce_unbuffered (c : Client) (k : Nat) (ch : Channel) (change : Bytes) :
    (announce c k ch change s).unbuffered = announce c.unbuffered k ch change s.unbuffered := by
  unfold announce
  rw [notification_unbuffered, setChannel_unbuffered]
  rfl

end Writing

/-! ## The handlers -/

section Handlers

variable (s : Machine) (i : Nat) (message : Message)

theorem passHundler_unbuffered :
    (passHundler i message s).unbuffered = passHundler i message s.unbuffered := by
  simp only [passHundler, apply_ite unbuffered, clientAt_unbuffered, sendingQueue_unbuffered,
    setClient_unbuffered, replyCmd_unbuffered, unbuffered_registered, unbuffered_passwd]
  rfl

theorem userHandler_unbuffered :
    (userHandler i message s).unbuffered = userHandler i message s.unbuffered := by
  simp only [userHandler, apply_ite unbuffered, clientAt_unbuffered, sendingQueue_unbuffered,
    setClient_unbuffered, replyCmd_unbuffered]
  rfl

theorem joinChannel_unbuffered (k : Nat) :
    (joinChannel i message k s).unbuffered = joinChannel i message k s.unbuffered := by
  simp only [joinChannel, apply_ite unbuffered, clientAt_unbuffered, sendingQueue_unbuffered,
    sendMembers_unbuffered, setChannel_unbuffered, replyCmd_unbuffered, channelAt_unbuffered,
    unbuffered_fd, unbuffered_nickname, joinMessage_unbuffered]
  -- The names reply is built from the clients after the announcement.
  simp only [← setChannel_unbuffered, ← sendMembers_unbuffered, joinNames_unbuffered]
  rfl

theorem joinHandler_unbuffered :
    (joinHandler i message s).unbuffered = joinHandler i message s.unbuffered := by
  simp only [joinHandler, apply_ite unbuffered, clientAt_unbuffered, sendingQueue_unbuffered,
    replyCmd_unbuffered, unbuffered_channels]
  cases lastMatch (named (message.param 0)) s.channels with
  | none =>
      simp only [joinChannel_unbuffered]
      rfl
  | some k =>
      simp only [joinChannel_unbuffered]
      rfl

theorem privmsgHandler_unbuffered :
    (privmsgHandler i message s).unbuffered = privmsgHandler i message s.unbuffered := by
  simp only [privmsgHandler, apply_ite unbuffered, clientAt_unbuffered, sendingQueue_unbuffered,
    replyCmd_unbuffered, unbuffered_channels, lastMatch_nicknamed_unbuffered]
  cases lastMatch (named (message.param 0)) s.channels with
  | none =>
      cases lastMatch (nicknamed (message.param 0)) s.clients with
      | none =>
          simp only [sendingQueue_unbuffered]
          rfl
      | some recipient =>
          simp only [sendingQueue_unbuffered]
          rfl
  | some k =>
      simp only [apply_ite unbuffered, sendMembers_unbuffered, sendingQueue_unbuffered]
      cases lastMatch (nicknamed (message.param 0)) s.clients with
      | none =>
          simp only [sendingQueue_unbuffered]
          rfl
      | some recipient =>
          simp only [sendingQueue_unbuffered]
          rfl

theorem topicHandler_unbuffered :
    (topicHandler i message s).unbuffered = topicHandler i message s.unbuffered := by
  simp only [topicHandler, apply_ite unbuffered, clientAt_unbuffered, sendingQueue_unbuffered,
    replyCmd_unbuffered, unbuffered_channels]
  cases lastMatch (named (message.param 0)) s.channels with
  | none =>
      simp only [sendingQueue_unbuffered]
      rfl
  | some k =>
      simp only [apply_ite unbuffered, sendMembers_unbuffered, sendingQueue_unbuffered,
        setChannel_unbuffered]
      rfl

theorem kickHandler_unbuffered :
    (kickHandler i message s).unbuffered = kickHandler i message s.unbuffered := by
  simp only [kickHandler, apply_ite unbuffered, clientAt_unbuffered, sendingQueue_unbuffered,
    replyCmd_unbuffered, unbuffered_channels, lastMatch_nicknamed_unbuffered]
  cases lastMatch (named (message.param 0)) s.channels with
  | none =>
      simp only [sendingQueue_unbuffered]
      rfl
  | some k =>
      cases lastMatch (nicknamed (message.param 1)) s.clients with
      | none =>
          simp only [apply_ite unbuffered, sendingQueue_unbuffered]
          rfl
      | some target =>
          simp only [apply_ite unbuffered, sendingQueue_unbuffered]
          simp only [← sendMembers_unbuffered]
          rfl

theorem inviteHandler_unbuffered :
    (inviteHandler i message s).unbuffered = inviteHandler i message s.unbuffered := by
  simp only [inviteHandler, apply_ite unbuffered, clientAt_unbuffered, sendingQueue_unbuffered,
    replyCmd_unbuffered, unbuffered_channels, lastMatch_nicknamed_unbuffered]
  cases lastMatch (nicknamed (message.param 0)) s.clients with
  | none =>
      simp only [sendingQueue_unbuffered]
      rfl
  | some target =>
      cases lastMatch (named (message.param 1)) s.channels with
      | none =>
          simp only [sendingQueue_unbuffered]
          rfl
      | some k =>
          simp only [apply_ite unbuffered, sendingQueue_unbuffered, setChannel_unbuffered]
          rfl

theorem nickHundler_unbuffered :
    (nickHundler i message s).unbuffered = nickHundler i message s.unbuffered := by
  have renames : (if (s.clientAt i).registered = true then
        (s.setClient i ((s.clientAt i).setNickname (message.param 0))).sendingQueue i
          (text "NICK :" ++ message.param 0)
      else s.setClient i ((s.clientAt i).setNickname (message.param 0))).unbuffered =
      if (s.unbuffered.clientAt i).registered = true then
        (s.unbuffered.setClient i ((s.unbuffered.clientAt i).setNickname
          (message.param 0))).sendingQueue i (text "NICK :" ++ message.param 0)
      else s.unbuffered.setClient i ((s.unbuffered.clientAt i).setNickname (message.param 0)) := by
    simp only [apply_ite unbuffered, sendingQueue_unbuffered, setClient_unbuffered,
      clientAt_unbuffered]
    rfl
  have receives : ∀ t : Machine,
      (t.setClient i ((t.clientAt i).setNicknameIsReceived true)).unbuffered =
        t.unbuffered.setClient i ((t.unbuffered.clientAt i).setNicknameIsReceived true) := by
    intro t
    rw [setClient_unbuffered, clientAt_unbuffered]
    rfl
  have completes : ∀ t : Machine,
      (if ((t.clientAt i).userRecived && !(t.clientAt i).registered) = true then
        (t.setClient i ((t.clientAt i).setRegistered true)).sendingQueue i
          (replyCmd 1 ((t.clientAt i).setRegistered true) [])
      else t).unbuffered =
      if ((t.unbuffered.clientAt i).userRecived && !(t.unbuffered.clientAt i).registered) = true then
        (t.unbuffered.setClient i ((t.unbuffered.clientAt i).setRegistered true)).sendingQueue i
          (replyCmd 1 ((t.unbuffered.clientAt i).setRegistered true) [])
      else t.unbuffered := by
    intro t
    simp only [apply_ite unbuffered, sendingQueue_unbuffered, setClient_unbuffered,
      clientAt_unbuffered]
    rfl
  have others : (s.unbuffered.clients.any fun d =>
        decide (d.nickname = message.param 0) && decide (d.fd ≠ (s.clientAt i).fd)) =
      s.clients.any fun d =>
        decide (d.nickname = message.param 0) && decide (d.fd ≠ (s.clientAt i).fd) :=
    List.any_map
  unfold nickHundler
  dsimp only
  rw [apply_ite unbuffered, apply_ite unbuffered, apply_ite unbuffered, apply_ite unbuffered,
    completes, receives, renames]
  simp only [clientAt_unbuffered, sendingQueue_unbuffered, replyCmd_unbuffered, unbuffered_fd, others]
  rfl

/-! ## MODE -/

theorem inviteOnly_unbuffered (k : Nat) :
    (inviteOnly i message k s).map unbuffered = inviteOnly i message k s.unbuffered := by
  simp only [inviteOnly, apply_ite (Option.map unbuffered), Option.map_some, Option.map_none,
    announce_unbuffered, clientAt_unbuffered, channelAt_unbuffered]

theorem letSChangeTheTopic_unbuffered (k : Nat) :
    (letSChangeTheTopic i message k s).map unbuffered =
      letSChangeTheTopic i message k s.unbuffered := by
  simp only [letSChangeTheTopic, apply_ite (Option.map unbuffered), Option.map_some,
    Option.map_none, announce_unbuffered, clientAt_unbuffered, channelAt_unbuffered]

theorem secretKey_unbuffered (k : Nat) :
    (secretKey i message k s).map unbuffered = secretKey i message k s.unbuffered := by
  simp only [secretKey, apply_ite (Option.map unbuffered), Option.map_some, Option.map_none,
    announce_unbuffered, clientAt_unbuffered, channelAt_unbuffered, sendingQueue_unbuffered,
    replyCmd_unbuffered]

theorem limitedUsage_unbuffered (k : Nat) :
    (limitedUsage i message k s).map unbuffered = limitedUsage i message k s.unbuffered := by
  simp only [limitedUsage, apply_ite (Option.map unbuffered), Option.map_some, Option.map_none,
    announce_unbuffered, clientAt_unbuffered, channelAt_unbuffered, sendingQueue_unbuffered,
    replyCmd_unbuffered]

theorem operators_unbuffered (k : Nat) :
    (operators i message k s).map unbuffered = operators i message k s.unbuffered := by
  simp only [operators, apply_ite (Option.map unbuffered), Option.map_some, Option.map_none,
    clientAt_unbuffered, channelAt_unbuffered, sendingQueue_unbuffered, replyCmd_unbuffered,
    findIdx?_nicknamed_unbuffered]
  cases s.clients.findIdx? (nicknamed (message.param 2)) with
  | none =>
      simp only [Option.map_some, sendingQueue_unbuffered]
  | some target =>
      simp only [apply_ite (Option.map unbuffered), Option.map_some, sendingQueue_unbuffered,
        announce_unbuffered]
      rfl

theorem modes_unbuffered : (modes i message s).unbuffered = modes i message s.unbuffered := by
  simp only [modes, apply_ite unbuffered, clientAt_unbuffered, sendingQueue_unbuffered,
    replyCmd_unbuffered, unbuffered_channels]
  cases s.channels.findIdx? (named (message.param 0)) with
  | none =>
      simp only [sendingQueue_unbuffered]
      rfl
  | some k =>
      have answers : (inviteOnly i message k s <|> letSChangeTheTopic i message k s
            <|> secretKey i message k s <|> limitedUsage i message k s
            <|> operators i message k s).map unbuffered =
          (inviteOnly i message k s.unbuffered <|> letSChangeTheTopic i message k s.unbuffered
            <|> secretKey i message k s.unbuffered <|> limitedUsage i message k s.unbuffered
            <|> operators i message k s.unbuffered) := by
        rw [← inviteOnly_unbuffered, ← letSChangeTheTopic_unbuffered, ← secretKey_unbuffered,
          ← limitedUsage_unbuffered, ← operators_unbuffered]
        cases inviteOnly i message k s <;> cases letSChangeTheTopic i message k s <;>
          cases secretKey i message k s <;> cases limitedUsage i message k s <;> rfl
      simp only [apply_ite unbuffered, sendingQueue_unbuffered, ← answers]
      cases (inviteOnly i message k s <|> letSChangeTheTopic i message k s
        <|> secretKey i message k s <|> limitedUsage i message k s
        <|> operators i message k s) with
      | none =>
          simp only [Option.map_none, sendingQueue_unbuffered]
          rfl
      | some t =>
          simp only [Option.map_some]
          rfl

end Handlers

/-! ## Dispatching a line -/

section Dispatch

variable (s : Machine) (i : Nat) (line : Bytes)

theorem dispatchCommand_unbuffered :
    (dispatchCommand i line s).unbuffered = dispatchCommand i line s.unbuffered := by
  simp only [dispatchCommand, apply_ite unbuffered, passHundler_unbuffered,
    nickHundler_unbuffered, userHandler_unbuffered, joinHandler_unbuffered,
    privmsgHandler_unbuffered, topicHandler_unbuffered, kickHandler_unbuffered,
    inviteHandler_unbuffered, modes_unbuffered, sendingQueue_unbuffered, clientAt_unbuffered,
    replyCmd_unbuffered]

theorem dispatchLine_unbuffered :
    (dispatchLine i line s).unbuffered = dispatchLine i line s.unbuffered := by
  rw [dispatchLine, dispatchCommand_unbuffered, record_unbuffered, dispatchLine,
    clientAt_unbuffered]
  rfl

end Dispatch

theorem dispatchLine_buffers {s : Machine} (table : Table s.toServer) {i : Nat}
    (hi : i < s.clients.length) {line : Bytes} (clean : LF ∉ line) :
    (dispatchLine i line s).buffers = s.buffers := by
  have hc := clientAt_table hi
  obtain ⟨c', channels, sends, effect, heq⟩ :=
    dispatchCommand_settles (s := s.record (.line (s.clientAt i).fd line)) hc table clean
  have hsame : c'.buffer = (s.clientAt i).buffer := by cases effect <;> rfl
  rw [dispatchLine, heq, Machine.buffers, settle_map _ _ _ _ _ (·.buffer) fun _ _ => rfl]
  exact map_set_same hc hsame

end IrcServer
