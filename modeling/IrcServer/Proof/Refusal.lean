import IrcServer.Proof.History
import IrcServer.Proof.Verbs

/-! # Refused commands

No line both changes something and queues an error to its sender: the message in the
send buffer tells that nothing else happened.
-/

namespace IrcServer

open Search Machine

/-- An error numeric of `replyCmd`, or one of the two notices about the last operator. -/
def IsRefusal (m : Bytes) : Prop :=
  (∃ d code cmd, (400 ≤ code ∧ code < 500) ∧ m = replyCmd code d cmd ∧ m ≠ []) ∨
    ∃ d, m = kickNotice d ∨ m = modeNotice d

theorem IsRefusal.errorVerb {m : Bytes} (h : IsRefusal m) : ErrorVerb (verb m) := by
  rcases h with ⟨d, code, cmd, error, rfl, known⟩ | ⟨d, rfl | rfl⟩
  · exact errorVerb_replyCmd error known
  · exact Or.inl (verb_kickNotice d)
  · exact Or.inl (verb_modeNotice d)

theorem IsRefusal.ne_nil {m : Bytes} (h : IsRefusal m) : m ≠ [] := by
  rcases h with ⟨d, code, cmd, _, _, known⟩ | ⟨d, rfl | rfl⟩
  · exact known
  · rw [kickNotice_eq]
    exact wireLine_ne_nil
  · rw [modeNotice_eq]
    exact wireLine_ne_nil

theorem isRefusal_461 (c : Client) (cmd : Bytes) : IsRefusal (replyCmd 461 c cmd) :=
  Or.inl ⟨c, 461, cmd, by decide, rfl, List.append_ne_nil_of_right_ne_nil _ (List.cons_ne_nil _ _)⟩

theorem Announces.not_refusal {s : Server} {c : Client} {message : Message}
    {channels : List Channel} {a : Announcement} (announces : Announces s c message channels a)
    (clean : message.Clean) (sound : c.Sound) : ¬ IsRefusal a.line := fun refusal =>
  refusal.errorVerb.not_event (announces.verb_mem clean sound).1

/-- An effect that queues an error is a refusal. -/
theorem Dispatched.refused_of_error {s : Server} {i : Nat} {c : Client} {message : Message}
    {c' : Client} {channels : List Channel} {sends : List (Nat × Bytes)}
    (effect : Dispatched s i c message c' channels sends) (clean : message.Clean) (sound : c.Sound)
    {m : Bytes} (error : ErrorVerb (verb m)) (hm : m ∈ messagesFor i sends) :
    c' = c ∧ channels = s.channels ∧ sends = [(i, m)] := by
  obtain ⟨call, hcall, rfl⟩ := List.mem_map.mp hm
  obtain ⟨hmem, hi⟩ := List.mem_filter.mp hcall
  rcases effect.verbs clean sound with
    ⟨m, _, rfl, rfl, rfl⟩ | ⟨_, _, m, rfl, hwelcome⟩ | ⟨_, hplain⟩
  · obtain rfl := List.mem_singleton.mp hmem
    exact ⟨rfl, rfl, rfl⟩
  · rw [List.mem_singleton.mp hmem] at error
    have hhead : (codeText 1).head? ≠ some 52 ∧ (codeText 1).head? ≠ some 78 := by decide
    exact absurd hwelcome (error.ne_of_not hhead)
  · exact absurd error (hplain call hmem).not_error

/-- A line that queues an error to its sender leaves everything else as it was: the send buffer of
the sender grows by that one message and its `POLLOUT` bit is set. -/
theorem refused_unchanged {s s' : Machine} (h : Reachable s) {i : Nat} {c : Client}
    (hc : s.clients[i]? = some c) {line : Bytes} (hstep : step s (.command i line) = some s')
    {m : Bytes} (refusal : IsRefusal m) (hm : m ∈ messagesTo c.fd (added s s')) :
    s' =
      { s with
        clients := s.clients.set i (c.appendSendBuff m)
        fds := s.fds.modify (i + 1) fun p => { p with events := p.events ||| POLLOUT }
        history := s.history ++ [.line c.fd line, .queued c.fd m] } := by
  have invariant := h.invariant
  have sound := invariant.identities.sound c (List.mem_of_getElem? hc)
  cases step_stepped invariant.table hstep with
  | dispatched _ d hd _ clean c' channels sends effect =>
      obtain rfl := Option.some.inj (hc.symm.trans hd)
      rw [dispatched_messagesTo invariant hc clean effect hc] at hm
      obtain ⟨rfl, rfl, rfl⟩ :=
        effect.refused_of_error (parse_clean clean) sound refusal.errorVerb hm
      have hsender : (s.record (.line c'.fd line)).clientAt i = c' := Server.clientAt_of_getElem? hc
      have hmodify := modify_of_getElem? hc (·.appendSendBuff m)
      have heq : (s.record (.line c'.fd line)).settle i c' s.channels [(i, m)] =
          (s.record (.line c'.fd line)).sendingQueue i m :=
        settle_same (s := s.record (.line c'.fd line)) hc s.channels [(i, m)]
      rw [heq, sendingQueue, if_neg (by simpa using refusal.ne_nil), hsender]
      simp only [record, hmodify, List.append_assoc, List.singleton_append]

/-- The second client of the sample joins a second time and is told `443`. -/
theorem refused_unchanged_sample :
    ∃ m, stateAfter (sampleRun ++ [.command 1 (text "JOIN #42")]) =
      { stateAfter sampleRun with
        clients := (stateAfter sampleRun).clients.set 1
          (((stateAfter sampleRun).clientAt 1).appendSendBuff m)
        fds := (stateAfter sampleRun).fds.modify 2 fun p =>
          { p with events := p.events ||| POLLOUT }
        history := (stateAfter sampleRun).history ++
          [.line ((stateAfter sampleRun).clientAt 1).fd (text "JOIN #42"),
            .queued ((stateAfter sampleRun).clientAt 1).fd m] } := by
  have hc : (stateAfter sampleRun).clients[1]? = some ((stateAfter sampleRun).clientAt 1) :=
    clientAt_table (by decide)
  have hstep := step_stateAfter sampleRun (.command 1 (text "JOIN #42")) (by decide)
  have refusal : IsRefusal (replyCmd 443 { fd := 5, nickname := text "akira" } (text "#42")) :=
    Or.inl ⟨_, 443, _, by decide, rfl, by decide⟩
  have hqueued : replyCmd 443 { fd := 5, nickname := text "akira" } (text "#42") ∈
      messagesTo ((stateAfter sampleRun).clientAt 1).fd
        (added (stateAfter sampleRun) (stateAfter (sampleRun ++ [.command 1 (text "JOIN #42")]))) := by
    decide
  exact ⟨_, refused_unchanged (stateAfter_reachable sampleRun) hc hstep refusal hqueued⟩

end IrcServer
