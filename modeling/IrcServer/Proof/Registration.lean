import IrcServer.Proof.History
import IrcServer.Proof.Verbs

/-! # The registration protocol

PASS, then NICK and USER in either order. The second of the two completes the
registration and queues the one welcome of the connection, wherever it comes from;
no other line touches a flag or queues an `001`.
-/

namespace IrcServer

open Search Machine Transition

def welcomes (messages : List Bytes) : Nat := messages.countP fun m => decide (verb m = codeText 1)

structure Protocol (s : Machine) (c : Client) : Prop where
  registered : c.registered = true ↔ c.nicknameReceived = true ∧ c.userRecived = true
  nickPass : c.nicknameReceived = true → c.passRecived = true
  userPass : c.userRecived = true → c.passRecived = true
  password : c.passRecived = true → ∃ line ∈ linesFrom c.fd (sinceAccepted c.fd s.history),
    (Parser.parse line).command = text "PASS" ∧ (Parser.parse line).params ≠ [] ∧
      (Parser.parse line).param 0 = s.passwd
  welcome : welcomes (queuedTo c.fd s) = if c.registered then 1 else 0

def Departs (s : Machine) (fd : Int) (e : Event) : Prop :=
  ∃ i c, e = .disconnect i ∧ s.clients[i]? = some c ∧ c.fd = fd

structure RegistrationProtocol (s : Machine) : Prop where
  protocol : ∀ c ∈ s.clients, Protocol s c
  kept : ∀ c ∈ s.clients, c.registered = true → ∀ events t, run step s events = some t →
    (∀ a e b, Takes step s events a e b → ¬ Departs a c.fd e) →
      ∃ d ∈ t.clients, d.fd = c.fd ∧ d.registered = true
  members : ∀ ch ∈ s.channels, ∀ fd, fd ∈ ch.memberFds ∨ fd ∈ ch.operatorFds →
    ∃ c ∈ s.clients, c.fd = fd ∧ c.registered = true

/-! ## The welcome -/

section Line

variable {s : Server} {i : Nat} {c : Client} {message : Message} {c' : Client}
  {channels : List Channel} {sends : List (Nat × Bytes)}

/-- A line queues a welcome exactly when it completes the registration of its sender. -/
theorem Dispatched.welcome (effect : Dispatched s i c message c' channels sends)
    (clean : message.Clean) (sound : c.Sound) :
    (c'.registered = c.registered ∧ ∀ call ∈ sends, verb call.2 ≠ codeText 1) ∨
      (c.registered = false ∧ c'.registered = true ∧ ∃ m, sends = [(i, m)] ∧ verb m = codeText 1) := by
  rcases effect.verbs clean sound with ⟨m, refusal, rfl, _, rfl⟩ | registers | ⟨hreg, hplain⟩
  · refine Or.inl ⟨rfl, fun call hcall heq => ?_⟩
    rw [List.mem_singleton.mp hcall] at heq
    exact refusal.errorVerb.ne_of_not (by decide) heq
  · exact Or.inr registers
  · exact Or.inl ⟨hreg, fun call hcall heq => (hplain call hcall).ne_welcome heq⟩

/-- PASS sets the flag, and it must name the password of the server. -/
theorem Dispatched.password (effect : Dispatched s i c message c' channels sends)
    (h : c'.passRecived = true) :
    c.passRecived = true ∨
      message.command = text "PASS" ∧ message.params ≠ [] ∧ message.param 0 = s.passwd := by
  cases effect with
  | passed command unregistered given password => exact Or.inr ⟨command, given, password.symm⟩
  | _ => exact Or.inl h

end Line

/-! ## Every event -/

/-- One welcome for every registered connection, none for the others. -/
def Greeted (s : Machine) : Prop :=
  ∀ c ∈ s.clients, welcomes (queuedTo c.fd s) = if c.registered then 1 else 0

def Authenticated (s : Machine) : Prop :=
  ∀ c ∈ s.clients, c.passRecived = true →
    ∃ line ∈ linesFrom c.fd (sinceAccepted c.fd s.history),
      (Parser.parse line).command = text "PASS" ∧ (Parser.parse line).params ≠ [] ∧
        (Parser.parse line).param 0 = s.passwd

theorem welcomes_append (xs ys : List Bytes) : welcomes (xs ++ ys) = welcomes xs + welcomes ys := by
  simp [welcomes]

theorem welcomes_eq_zero {messages : List Bytes} (h : ∀ m ∈ messages, verb m ≠ codeText 1) :
    welcomes messages = 0 := by
  rw [welcomes, List.countP_eq_zero]
  intro m hm
  simpa using h m hm

section Event

variable {s s' : Machine} {e : Event}

/-- Besides dispatching, an event keeps the connections or starts one with an empty record. -/
theorem Stepped.connections (invariant : Invariant s) (h : Stepped s e s')
    (hne : ∀ i line, e ≠ .command i line) {x : Client} (hx : x ∈ s'.clients) :
    (x = { fd := x.fd } ∧ sinceAccepted x.fd s'.history = []) ∨
      ∃ y ∈ s.clients, x.identity = y.identity := by
  cases h.origin invariant.table hx with
  | new fcntl event blank fresh =>
      have gone : ¬ x ∈ s.clients := by
        intro hmem
        apply fresh
        rw [invariant.table.aligned]
        exact List.mem_cons_of_mem _ (List.mem_map_of_mem hmem)
      subst event
      cases h with
      | unconnected => exact absurd hx gone
      | dropped => exact absurd hx gone
      | connected => exact Or.inl ⟨blank, sinceAccepted_accepted _ _⟩
  | kept y hy same => exact Or.inr ⟨y, hy, same⟩
  | acted i line event => exact absurd event (hne i line)

theorem Stepped.passwd (h : Stepped s e s') : s'.passwd = s.passwd := by
  cases h with
  | dispatched => exact settle_passwd _ _ _ _ _
  | _ => rfl

theorem Stepped.greeted (invariant : Invariant s) (h : Stepped s e s') (greeted : Greeted s) :
    Greeted s' := by
  intro x hx
  have quiet : (∀ i line, e ≠ .command i line) →
      welcomes (queuedTo x.fd s') = if x.registered then 1 else 0 := by
    intro hne
    rcases h.connections invariant hne hx with ⟨blank, hempty⟩ | ⟨y, hy, same⟩
    · rw [queuedTo, hempty, blank]
      rfl
    · rw [Client.fd_of_identity same, Client.registered_of_identity same,
        h.queuedTo_eq invariant hy, h.quiet hne, List.append_nil]
      exact greeted y hy
  rcases h.command_cases with hne | ⟨i, c, line, c', channels, sends, rfl, hc, clean, effect, rfl⟩
  · exact quiet hne
  · have hmem := List.mem_of_getElem? hc
    have sound := invariant.identities.sound c hmem
    have welcome := effect.welcome (parse_clean clean) sound
    rcases settle_mem (s := s.record (.line c.fd line)) hc hx with same | ⟨j, y, hji, hy, same⟩
    · have hfd : x.fd = c.fd := (Client.fd_of_identity same).trans effect.fd_eq
      rw [hfd, Client.registered_of_identity same, h.queuedTo_eq invariant hmem,
        dispatched_messagesTo invariant hc clean effect hc, welcomes_append, greeted c hmem]
      rcases welcome with ⟨hreg, hnone⟩ | ⟨hbefore, hafter, m, rfl, hm⟩
      · have hzero : welcomes (messagesFor i sends) = 0 := welcomes_eq_zero fun m hm => by
          obtain ⟨call, hcall, rfl⟩ := List.mem_map.mp hm
          exact hnone call (List.mem_filter.mp hcall).1
        rw [hzero, hreg]
        rfl
      · simp [hbefore, hafter, messagesFor, welcomes, hm]
    · have hzero : welcomes (messagesFor j sends) = 0 := welcomes_eq_zero fun m hm => by
        obtain ⟨call, hcall, rfl⟩ := List.mem_map.mp hm
        obtain ⟨hmem, hj⟩ := List.mem_filter.mp hcall
        rcases welcome with ⟨_, hnone⟩ | ⟨_, _, m, rfl, _⟩
        · exact hnone call hmem
        · rw [List.mem_singleton.mp hmem] at hj
          exact absurd (of_decide_eq_true hj).symm hji
      have hymem := List.mem_of_getElem? hy
      rw [Client.fd_of_identity same, Client.registered_of_identity same,
        h.queuedTo_eq invariant hymem, dispatched_messagesTo invariant hc clean effect hy,
        welcomes_append, hzero, Nat.add_zero]
      exact greeted y hymem

theorem Stepped.authenticated (invariant : Invariant s) (h : Stepped s e s')
    (authenticated : Authenticated s) : Authenticated s' := by
  intro x hx hpass
  have old : ∀ y ∈ s.clients, x.identity = y.identity → y.passRecived = true →
      ∃ line ∈ linesFrom x.fd (sinceAccepted x.fd s'.history),
        (Parser.parse line).command = text "PASS" ∧ (Parser.parse line).params ≠ [] ∧
          (Parser.parse line).param 0 = s'.passwd := by
    intro y hy same hypass
    obtain ⟨line, hline, hsent⟩ := authenticated y hy hypass
    rw [Client.fd_of_identity same, h.sinceAccepted_eq invariant hy, linesFrom_append, h.passwd]
    exact ⟨line, List.mem_append_left _ hline, hsent⟩
  have quiet : (∀ i line, e ≠ .command i line) →
      ∃ line ∈ linesFrom x.fd (sinceAccepted x.fd s'.history),
        (Parser.parse line).command = text "PASS" ∧ (Parser.parse line).params ≠ [] ∧
          (Parser.parse line).param 0 = s'.passwd := by
    intro hne
    rcases h.connections invariant hne hx with ⟨blank, _⟩ | ⟨y, hy, same⟩
    · rw [blank] at hpass
      cases hpass
    · exact old y hy same (Client.passRecived_of_identity same ▸ hpass)
  rcases h.command_cases with hne | ⟨i, c, line, c', channels, sends, rfl, hc, clean, effect, rfl⟩
  · exact quiet hne
  · have hmem := List.mem_of_getElem? hc
    rcases settle_mem (s := s.record (.line c.fd line)) hc hx with same | ⟨j, y, hji, hy, same⟩
    · have hfd : x.fd = c.fd := (Client.fd_of_identity same).trans effect.fd_eq
      rw [hfd, h.sinceAccepted_eq invariant hmem, linesFrom_append, h.passwd]
      rcases effect.password (Client.passRecived_of_identity same ▸ hpass) with hold | hsent
      · obtain ⟨line, hline, hsent⟩ := authenticated c hmem hold
        exact ⟨line, List.mem_append_left _ hline, hsent⟩
      · refine ⟨line, List.mem_append_right _ (mem_linesFrom.mpr ?_), hsent⟩
        rw [added_eq (dispatched_history invariant hc clean effect)]
        exact List.mem_cons_self
    · exact old y (List.mem_of_getElem? hy) same (Client.passRecived_of_identity same ▸ hpass)

end Event

/-! ## Runs -/

theorem Reachable.protocol {s : Machine} (h : Reachable s) :
    Invariant s ∧ Greeted s ∧ Authenticated s := by
  obtain ⟨fd, passwd, events, hrun⟩ := h
  refine run_invariant (P := fun s => Invariant s ∧ Greeted s ∧ Authenticated s) ?_
    ⟨start_invariant fd passwd, fun _ hc => absurd hc List.not_mem_nil,
      fun _ hc => absurd hc List.not_mem_nil⟩ hrun
  rintro a e b ⟨invariant, greeted, authenticated⟩ hstep
  have stepped := step_stepped invariant.table hstep
  exact ⟨invariant.step hstep, stepped.greeted invariant greeted,
    stepped.authenticated invariant authenticated⟩

theorem Stepped.connected_of_stays {s s' : Machine} {e : Event} (h : Stepped s e s') {c : Client}
    (hc : c ∈ s.clients) (stays : ¬ Departs s c.fd e) : ∃ d ∈ s'.clients, d.fd = c.fd := by
  have kept : c.fd ∈ s'.clients.map (·.fd) := by
    have hfd : c.fd ∈ s.clients.map (·.fd) := List.mem_map_of_mem hc
    cases h with
    | unconnected => exact hfd
    | dropped => exact hfd
    | connected =>
        rw [including, List.map_append]
        exact List.mem_append_left _ hfd
    | buffered i d hd contents =>
        rwa [setClient, List.map_set, map_set_same (f := (·.fd)) hd rfl]
    | dispatched i d hd line clean c' channels sends effect =>
        rw [settle_map _ _ _ _ _ (·.fd) (fun _ _ => rfl)]
        exact (map_set_same (f := (·.fd)) hd effect.fd_eq).symm ▸ hfd
    | flushed i d hd send rest poll kept entries sent =>
        change c.fd ∈ (s.clients.set i _).map (·.fd)
        rwa [List.map_set, map_set_same (f := (·.fd)) hd rfl]
    | disconnected i d hd =>
        have hne : c ≠ d := fun heq => stays ⟨i, d, rfl, hd, by rw [heq]⟩
        refine List.mem_map_of_mem ?_
        exact (mem_eraseIdx_of_mem hd hc).resolve_left hne
  exact List.mem_map.mp kept

theorem registered_run {s t : Machine} {events : List Event} (invariant : Invariant s)
    (hrun : run step s events = some t) {c : Client} (hc : c ∈ s.clients)
    (registered : c.registered = true)
    (stays : ∀ a e b, Takes step s events a e b → ¬ Departs a c.fd e) :
    ∃ d ∈ t.clients, d.fd = c.fd ∧ d.registered = true := by
  induction events generalizing s c with
  | nil =>
      cases hrun
      exact ⟨c, hc, rfl, registered⟩
  | cons e events ih =>
      obtain ⟨s', hstep, hrest⟩ := run_cons_some.mp hrun
      have stepped := step_stepped invariant.table hstep
      obtain ⟨d, hd, hfd⟩ := stepped.connected_of_stays hc (stays s e s' (.head hstep))
      have hreg := stepped.registered invariant.table hd hc hfd registered
      have hstays : ∀ a f b, Takes step s' events a f b → ¬ Departs a d.fd f := by
        rw [hfd]
        exact fun a f b taken => stays a f b (taken.cons hstep)
      have hend := ih (invariant.step hstep) hrest hd hreg hstays
      rwa [hfd] at hend

theorem registrationProtocol_reachable {s : Machine} (h : Reachable s) :
    RegistrationProtocol s := by
  obtain ⟨invariant, greeted, authenticated⟩ := h.protocol
  refine ⟨fun c hc => ?_, ?_, ?_⟩
  · have sound := invariant.identities.sound c hc
    exact ⟨sound.registered, sound.nickPass, sound.userPass, authenticated c hc, greeted c hc⟩
  · intro c hc registered events t hrun stays
    exact registered_run invariant hrun hc registered stays
  · intro ch hch fd hfd
    have member : fd ∈ ch.memberFds := hfd.elim id fun hop =>
      (invariant.table.consistent ch hch).operators_members fd hop
    exact invariant.identities.members ch hch fd member

theorem registrationProtocol_sample : RegistrationProtocol (stateAfter sampleRun) :=
  registrationProtocol_reachable (stateAfter_reachable sampleRun)

end IrcServer
