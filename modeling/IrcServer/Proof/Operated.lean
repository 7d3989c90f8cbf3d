import IrcServer.Proof.Table

/-! # Channels without operator

KICK and MODE -o refuse to take the last operator from a channel that keeps other
members. A disconnection asks nobody. It is the only way to lose the last operator,
so the runs in which every channel stays operated are those without such a
disconnection.
-/

namespace IrcServer

open Search Machine Transition

def Operated (s : Machine) : Prop :=
  ∀ ch ∈ s.channels, ∃ fd ∈ ch.memberFds, fd ∈ ch.operatorFds

instance : DecidablePred Operated := fun s =>
  inferInstanceAs (Decidable (∀ ch ∈ s.channels, ∃ fd ∈ ch.memberFds, fd ∈ ch.operatorFds))

def Abandons (s : Machine) (e : Event) : Prop :=
  ∃ i c, e = .disconnect i ∧ s.clients[i]? = some c ∧
    ∃ ch ∈ s.channels, ch.operatorFds = [c.fd] ∧ ∃ fd ∈ ch.memberFds, fd ≠ c.fd

theorem Table.operated_iff {s : Machine} (table : Table s.toServer) :
    Operated s ↔ ∀ ch ∈ s.channels, ch.operatorFds ≠ [] := by
  constructor
  · intro h ch hch hnil
    obtain ⟨fd, _, hfd⟩ := h ch hch
    rw [hnil] at hfd
    exact List.not_mem_nil hfd
  · intro h ch hch
    obtain ⟨fd, hfd⟩ := List.exists_mem_of_ne_nil _ (h ch hch)
    exact ⟨fd, (table.consistent ch hch).operators_members fd hfd, hfd⟩

/-- The guards of KICK and MODE -o are sufficient: no line takes the last operator. -/
theorem Channel.Change.keeps_operator {s : Server} {c : Client} {message : Message}
    {ch ch' : Channel} (change : Channel.Change s c message ch ch') (h : ch.operatorFds ≠ []) :
    ch'.operatorFds ≠ [] := by
  cases change with
  | joined => exact h
  | titled => exact h
  | kicked command operator target d targets member keeps left =>
      intro hnil
      rcases List.erase_eq_nil_iff.mp hnil with hnone | hlast
      · exact h hnone
      · have hone : ¬ 1 < ch.memberFds.length := fun hlt =>
          keeps ⟨by simp [hlast], by simp [hlast], hlt⟩
        have hpos := List.length_pos_of_mem member
        obtain ⟨fd, hmembers⟩ := List.length_eq_one_iff.mp (show ch.memberFds.length = 1 by omega)
        have hfd : d.fd = fd := by simpa [hmembers] using member
        exact left (by simp [Channel.removeMember, hmembers, hfd])
  | moded command operator ch' change changes =>
      cases changes <;> exact h
  | granted => exact List.append_ne_nil_of_right_ne_nil _ (List.cons_ne_nil _ _)
  | revoked command operator target d targets special several =>
      intro hnil
      rcases List.erase_eq_nil_iff.mp hnil with hnone | hlast
      · exact h hnone
      · exact several (by simp [hlast])
  | invited => simpa using h

theorem TableChange.keeps_operators {s : Server} {c : Client} {message : Message}
    {channels : List Channel} (change : TableChange s c message channels)
    (h : ∀ ch ∈ s.channels, ch.operatorFds ≠ []) : ∀ ch ∈ channels, ch.operatorFds ≠ [] := by
  intro x hx
  cases change with
  | same => exact h x hx
  | created =>
      rcases List.mem_append.mp hx with hx | hx
      · exact h x hx
      · rw [List.mem_singleton.mp hx]
        exact List.cons_ne_nil _ _
  | changed registered k ch ch' found name change =>
      rcases List.mem_or_eq_of_mem_set hx with hx | rfl
      · exact h x hx
      · exact change.keeps_operator (h ch (List.mem_of_getElem? found))
  | destroyed => exact h x (List.mem_of_mem_eraseIdx hx)

/-- A departure leaves the remaining channels operated exactly if it abandons none. -/
theorem Table.operated_without {s : Machine} (table : Table s.toServer)
    (h : ∀ ch ∈ s.channels, ch.operatorFds ≠ []) {i : Nat} {c : Client}
    (hc : s.clients[i]? = some c) :
    (∀ ch ∈ (s.without i c).channels, ch.operatorFds ≠ []) ↔ ¬ Abandons s (.disconnect i) := by
  constructor
  · rintro hleft ⟨j, d, hj, hd, ch, hch, hlast, fd, hfd, hne⟩
    cases hj
    obtain rfl := Option.some.inj (hc.symm.trans hd)
    have hinhabited : ch.memberFds.filter (· ≠ c.fd) ≠ [] :=
      List.ne_nil_of_mem (List.mem_filter.mpr ⟨hfd, by simpa using hne⟩)
    refine hleft _ (table.mem_without.mpr ⟨ch, hch, hinhabited, rfl⟩) ?_
    rw [(table.consistent ch hch).leave_eq]
    simp [hlast]
  · intro hstays ch' hch' hnil
    obtain ⟨ch, hch, hinhabited, rfl⟩ := table.mem_without.mp hch'
    have consistent := table.consistent ch hch
    rw [consistent.leave_eq] at hnil
    obtain ⟨fd, hfd⟩ := List.exists_mem_of_ne_nil _ hinhabited
    obtain ⟨hmember, hne⟩ := List.mem_filter.mp hfd
    -- no operator but `c` itself
    rw [← erase_eq_filter consistent.operators_nodup] at hnil
    rcases List.erase_eq_nil_iff.mp hnil with hnone | hlast
    · exact h ch hch hnone
    · exact hstays ⟨i, c, rfl, hc, ch, hch, hlast, fd, hmember, by simpa using hne⟩

theorem Table.operated_step {s s' : Machine} {e : Event} (table : Table s.toServer)
    (operated : Operated s) (hstep : IrcServer.step s e = some s') :
    Operated s' ↔ ¬ Abandons s e := by
  rw [(table.step hstep).operated_iff]
  have h := table.operated_iff.mp operated
  have stays : ∀ {e : Event}, (∀ i, e ≠ .disconnect i) → ¬ Abandons s e :=
    fun hne ⟨i, _, he, _⟩ => hne i he
  cases step_stepped table hstep with
  | unconnected => exact iff_of_true h (stays (by simp))
  | dropped => exact iff_of_true h (stays (by simp))
  | connected => exact iff_of_true h (stays (by simp))
  | buffered => exact iff_of_true h (stays (by simp))
  | flushed => exact iff_of_true h (stays (by simp))
  | dispatched i c hc line clean c' channels sends effect =>
      refine iff_of_true ?_ (stays (by simp))
      rw [settle_channels]
      exact effect.tableChange.keeps_operators h
  | disconnected i c hc => exact table.operated_without h hc

/-- In a run every channel is always operated exactly if no only operator of a channel
disconnects while other members stay. -/
theorem operated_iff_not_abandoned {fd : Int} {passwd : Bytes} {events : List Event} {s : Machine}
    (hrun : run step (Machine.start fd passwd) events = some s) :
    (∀ u, Visits step (Machine.start fd passwd) events u → Operated u) ↔
      ∀ a e b, Takes step (Machine.start fd passwd) events a e b → ¬ Abandons a e :=
  forall_visits_iff (I := fun u : Machine => Table u.toServer)
    (fun _ _ _ table hstep => table.step hstep)
    (fun _ _ _ table operated hstep => table.operated_step operated hstep)
    (start_table fd passwd) (fun _ hch => absurd hch List.not_mem_nil) hrun

def abandonedRun : List Event := sampleRun ++ [.disconnect 0]

theorem operated_iff_not_abandoned_sample :
    ∃ s, run step (Machine.start 3 (text "pw")) abandonedRun = some s ∧
      ((∀ u, Visits step (Machine.start 3 (text "pw")) abandonedRun u → Operated u) ↔
        ∀ a e b, Takes step (Machine.start 3 (text "pw")) abandonedRun a e b → ¬ Abandons a e) := by
  have hrun : (run step (Machine.start 3 (text "pw")) abandonedRun).isSome = true := by decide
  obtain ⟨s, hs⟩ := Option.isSome_iff_exists.mp hrun
  exact ⟨s, hs, operated_iff_not_abandoned hs⟩

theorem not_operated_reachable : ¬ ∀ s, Reachable s → Operated s := by
  intro h
  have hlost : ¬ Operated (stateAfter abandonedRun) := by decide
  exact hlost (h _ (stateAfter_reachable abandonedRun))

end IrcServer
