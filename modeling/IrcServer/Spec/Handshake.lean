import IrcServer.Library.Latch
import IrcServer.Spec.Locality
import IrcServer.Spec.Strangers

/-! # The handshake

An account changes by PASS, NICK and USER of its own connection, and by nothing else.
Whoever has given the password sets each of the two names by itself; with both it is
registered.
-/

namespace IrcServer

variable {ι : Type*}

def Network.Names (net : Network ι) (x : ι) (message : Message) : Prop :=
  message.command = text "NICK" ∧ checkNickValid (message.param 0) = true ∧
    ∀ y, net.Holds (message.param 0) y → y = x

def Message.Introduces (message : Message) : Prop :=
  message.command = text "USER" ∧ 4 ≤ message.params.length

namespace Network

variable [DecidableEq ι] (net : Network ι) (x : ι) (a : Account) (message : Message)

theorem pass_passed :
    (net.pass x a message).account.passed = true ↔ a.passed = true ∨
      ¬ a.Registered ∧ message.params ≠ [] ∧ net.password = message.param 0 := by
  unfold pass
  split
  · next registered => exact (or_iff_left fun h => h.1 registered).symm
  split
  · next empty => exact (or_iff_left fun h => h.2.1 empty).symm
  split
  · next registered given correct => exact iff_of_true rfl (.inr ⟨registered, given, correct⟩)
  · next wrong => exact (or_iff_left fun h => wrong h.2.2).symm

theorem pass_names :
    (net.pass x a message).account.nickname = a.nickname ∧
      (net.pass x a message).account.username = a.username := by
  unfold pass
  split
  · exact ⟨rfl, rfl⟩
  split
  · exact ⟨rfl, rfl⟩
  split <;> exact ⟨rfl, rfl⟩

theorem nick_nickname :
    (net.nick x a message).account.nickname ≠ none ↔ a.nickname ≠ none ∨
      a.passed = true ∧ checkNickValid (message.param 0) = true ∧
        ∀ y, net.Holds (message.param 0) y → y = x := by
  have accepted : ∀ {p : Prop}, p → (some (message.param 0) ≠ none ↔ a.nickname ≠ none ∨ p) :=
    fun hp => iff_of_true (Option.some_ne_none _) (.inr hp)
  unfold nick
  dsimp only
  split
  · next unpassed => exact (or_iff_left fun h => by simp [unpassed] at h).symm
  split
  · next empty =>
      have hparam : message.param 0 = [] := by rw [Message.param, empty]; rfl
      exact (or_iff_left fun h => by simp [hparam, checkNickValid] at h).symm
  split
  · next invalid => exact (or_iff_left fun h => by simp [invalid] at h).symm
  split
  · next taken =>
      obtain ⟨y, hne, holds⟩ := taken
      exact (or_iff_left fun h => hne (h.2.2 y holds)).symm
  · next passed _ valid free =>
      have named : a.passed = true ∧ checkNickValid (message.param 0) = true ∧
          ∀ y, net.Holds (message.param 0) y → y = x := by
        refine ⟨by simpa using passed, by simpa using valid, fun y holds => ?_⟩
        by_contra hne
        exact free ⟨y, hne, holds⟩
      split
      · exact accepted named
      split <;> exact accepted named

theorem nick_rest :
    (net.nick x a message).account.passed = a.passed ∧
      (net.nick x a message).account.username = a.username := by
  unfold nick
  dsimp only
  split
  · exact ⟨rfl, rfl⟩
  split
  · exact ⟨rfl, rfl⟩
  split
  · exact ⟨rfl, rfl⟩
  split
  · exact ⟨rfl, rfl⟩
  split
  · exact ⟨rfl, rfl⟩
  split <;> exact ⟨rfl, rfl⟩

theorem user_username :
    (user x a message).account.username ≠ none ↔ a.username ≠ none ∨
      a.passed = true ∧ 4 ≤ message.params.length := by
  unfold user
  dsimp only
  split
  · next registered => exact iff_of_true registered.2 (.inl registered.2)
  split
  · next unpassed => exact (or_iff_left fun h => by simp [unpassed] at h).symm
  split
  · next few => exact (or_iff_left fun h => by omega).symm
  · next passed enough =>
      have introduced : a.passed = true ∧ 4 ≤ message.params.length :=
        ⟨by simpa using passed, by omega⟩
      split <;> exact iff_of_true (Option.some_ne_none _) (.inr introduced)

theorem user_rest :
    (user x a message).account.passed = a.passed ∧
      (user x a message).account.nickname = a.nickname := by
  unfold user
  dsimp only
  split
  · exact ⟨rfl, rfl⟩
  split
  · exact ⟨rfl, rfl⟩
  split
  · exact ⟨rfl, rfl⟩
  split <;> exact ⟨rfl, rfl⟩

/-! ## What a line does to the account -/

theorem respond_pass (command : message.command = text "PASS") :
    net.respond x a message = net.pass x a message :=
  if_pos command

theorem respond_nick (command : message.command = text "NICK") :
    net.respond x a message = net.nick x a message := by
  unfold respond
  dsimp only
  rw [command, if_neg (by decide), if_pos rfl]

theorem respond_user (command : message.command = text "USER") :
    net.respond x a message = user x a message := by
  unfold respond
  dsimp only
  rw [command, if_neg (by decide), if_neg (by decide), if_pos rfl]

/-- A field of the account that only lines with the command `word` change. -/
theorem respond_field {α : Type*} (field : Account → α) {word : Bytes}
    (pass : text "PASS" ≠ word → field (net.pass x a message).account = field a)
    (nick : text "NICK" ≠ word → field (net.nick x a message).account = field a)
    (user : text "USER" ≠ word → field (Network.user x a message).account = field a)
    (other : message.command ≠ word) : field (net.respond x a message).account = field a := by
  by_cases hpass : message.command = text "PASS"
  · rw [respond_pass net x a message hpass]
    exact pass (hpass ▸ other)
  by_cases hnick : message.command = text "NICK"
  · rw [respond_nick net x a message hnick]
    exact nick (hnick ▸ other)
  by_cases huser : message.command = text "USER"
  · rw [respond_user net x a message huser]
    exact user (huser ▸ other)
  · have others : message.command ∉ accountCommands := by
      simp [accountCommands, hpass, hnick, huser]
    rw [(respond_responds net x a message).account others]

/-- Whoever is registered has given the password, so that PASS refuses nobody who needs it. -/
theorem respond_passed (admitted : a.nickname ≠ none → a.passed = true) :
    (net.respond x a message).account.passed = true ↔
      a.passed = true ∨ message.Authenticates net.password := by
  by_cases command : message.command = text "PASS"
  · rw [respond_pass net x a message command, pass_passed]
    constructor
    · rintro (passed | ⟨_, given, correct⟩)
      · exact .inl passed
      · exact .inr ⟨command, given, correct⟩
    · rintro (passed | ⟨_, given, correct⟩)
      · exact .inl passed
      · by_cases registered : a.Registered
        · exact .inl (admitted registered.1)
        · exact .inr ⟨registered, given, correct⟩
  · have kept := respond_field net x a message Account.passed (fun h => absurd rfl h)
      (fun _ => (nick_rest net x a message).1) (fun _ => (user_rest x a message).1) command
    rw [kept]
    exact (or_iff_left fun h => command h.1).symm

theorem respond_nickname :
    (net.respond x a message).account.nickname ≠ none ↔
      a.nickname ≠ none ∨ a.passed = true ∧ net.Names x message := by
  by_cases command : message.command = text "NICK"
  · rw [respond_nick net x a message command, nick_nickname, Names]
    simp only [command, true_and]
  · have kept := respond_field net x a message Account.nickname
      (fun _ => (pass_names net x a message).1) (fun h => absurd rfl h)
      (fun _ => (user_rest x a message).2) command
    rw [kept]
    exact (or_iff_left fun h => command h.2.1).symm

theorem respond_username :
    (net.respond x a message).account.username ≠ none ↔
      a.username ≠ none ∨ a.passed = true ∧ message.Introduces := by
  by_cases command : message.command = text "USER"
  · rw [respond_user net x a message command, user_username, Message.Introduces]
    simp only [command, true_and]
  · have kept := respond_field net x a message Account.username
      (fun _ => (pass_names net x a message).2) (fun _ => (nick_rest net x a message).2)
      (fun h => absurd rfl h) command
    rw [kept]
    exact (or_iff_left fun h => command h.2.1).symm

end Network

/-! ## The account of a connection -/

def Action.Keeps (x : ι) (action : Action ι) : Prop := action ≠ .connect x ∧ action ≠ .close x

theorem Action.Keeps.cases {x : ι} {action : Action ι} (keeps : action.Keeps x) :
    action.connection ≠ x ∨ ∃ message, action = .line x message := by
  cases action with
  | connect y => exact .inl fun h => keeps.1 (congrArg Action.connect h)
  | close y => exact .inl fun h => keeps.2 (congrArg Action.close h)
  | line y message =>
      by_cases h : y = x
      · exact .inr ⟨message, congrArg (Action.line · message) h⟩
      · exact .inl h

namespace Network

variable [DecidableEq ι] {password : Bytes} {x : ι}

def Has (p : Account → Prop) (x : ι) (state : Network ι × (ι → List Notice)) : Prop :=
  ∃ a, state.1.account x = some a ∧ p a

omit [DecidableEq ι] in
theorem has_iff {p : Account → Prop} {state : Network ι × (ι → List Notice)} {a : Account}
    (connected : state.1.account x = some a) : Has p x state ↔ p a := by
  constructor
  · rintro ⟨b, hb, hp⟩
    obtain rfl := Option.some.inj (connected.symm.trans hb)
    exact hp
  · exact fun hp => ⟨a, connected, hp⟩

theorem deliver_password (state : Network ι × (ι → List Notice)) (action : Action ι) :
    (deliver state action).1.password = state.1.password := by
  cases action with
  | connect y => rfl
  | close y => rfl
  | line y message =>
      simp only [deliver, act]
      split <;> rfl

theorem deliver_others (state : Network ι × (ι → List Notice)) {action : Action ι}
    (other : action.connection ≠ x) : (deliver state action).1.account x = state.1.account x := by
  cases action with
  | connect y => exact connect_account state.1 (Ne.symm other)
  | close y => exact close_account state.1 (Ne.symm other)
  | line y message =>
      simp only [deliver, act]
      split
      · rfl
      · exact apply_account state.1 (Ne.symm other) _

theorem deliver_self (state : Network ι × (ι → List Notice)) {a : Account}
    (connected : state.1.account x = some a) (message : Message) :
    (deliver state (.line x message)).1.account x = some (state.1.respond x a message).account := by
  rw [deliver_line state connected]
  exact Function.update_self ..

/-- Connected, and with a nickname only if the password was given. -/
structure Admits (password : Bytes) (x : ι) (state : Network ι × (ι → List Notice)) : Prop where
  password : state.1.password = password
  account : Has (fun a => a.nickname ≠ none → a.passed = true) x state

theorem Admits.deliver {state : Network ι × (ι → List Notice)} (h : Admits password x state)
    {action : Action ι} (keeps : action.Keeps x) :
    Admits password x (Network.deliver state action) := by
  refine ⟨(deliver_password state action).trans h.password, ?_⟩
  obtain ⟨a, connected, admitted⟩ := h.account
  rcases keeps.cases with other | ⟨message, rfl⟩
  · exact ⟨a, (deliver_others state other).trans connected, admitted⟩
  · refine ⟨_, deliver_self state connected message, fun named => ?_⟩
    rw [respond_passed state.1 x a message admitted]
    rcases (respond_nickname state.1 x a message).mp named with before | ⟨passed, _⟩
    · exact .inl (admitted before)
    · exact .inl passed

/-! ## Since it was accepted -/

def Authenticated (password : Bytes) (x : ι) (actions : List (Action ι)) : Prop :=
  ∃ message, Action.line x message ∈ actions ∧ message.Authenticates password

/-- After the password came a line such that `p`, in the network that it found. -/
def Follows (password : Bytes) (x : ι) (before during : List (Action ι))
    (p : Network ι → Message → Prop) : Prop :=
  ∃ early message late, during = early ++ .line x message :: late ∧
    Authenticated password x early ∧ p (replay password (before ++ .connect x :: early)).1 message

structure Earned (password : Bytes) (x : ι) (before during : List (Action ι)) : Prop where
  named : Follows password x before during fun net message => net.Names x message
  introduced : Follows password x before during fun _ message => message.Introduces

theorem replay_password (password : Bytes) (actions : List (Action ι)) :
    (replay password actions).1.password = password := by
  induction actions using List.reverseRecOn with
  | nil => rfl
  | append_singleton actions action ih =>
      rw [replay_append, List.foldl_cons, List.foldl_nil, deliver_password, ih]

theorem replay_since (before during : List (Action ι)) :
    replay password (before ++ .connect x :: during) =
      during.foldl deliver (deliver (replay password before) (.connect x)) := by
  rw [replay_append, List.foldl_cons]

theorem connect_new (before : List (Action ι)) :
    (deliver (replay password before) (.connect x)).1.account x = some {} := by
  rw [deliver_connect]
  exact Function.update_self ..

theorem connect_admits (before : List (Action ι)) :
    Admits password x (deliver (replay password before) (.connect x)) where
  password := (deliver_password _ _).trans (replay_password password before)
  account := ⟨{}, connect_new before, fun named => absurd rfl named⟩

section Set

variable (p : Account → Prop) (sets : Network ι → Message → Prop)
  (line : ∀ (net : Network ι) (a : Account) (message : Message), net.password = password →
    net.account x = some a → (a.nickname ≠ none → a.passed = true) →
    (p (net.respond x a message).account ↔ p a ∨ sets net message))

include line

theorem latched : Latch.Latched deliver (Action.Keeps x) (Admits password x) (Has p x)
    (fun state action => ∃ message, action = .line x message ∧ sets state.1 message) where
  invariant _ _ keeps h := h.deliver keeps
  flag state action keeps h := by
    obtain ⟨a, connected, admitted⟩ := h.account
    rcases keeps.cases with other | ⟨message, rfl⟩
    · rw [has_iff ((deliver_others state other).trans connected), has_iff connected]
      refine (or_iff_left ?_).symm
      rintro ⟨message, rfl, _⟩
      exact other rfl
    · rw [has_iff (deliver_self state connected message), has_iff connected,
        line state.1 a message h.password connected admitted]
      refine or_congr_right ⟨fun sets => ⟨message, rfl, sets⟩, ?_⟩
      rintro ⟨message', same, sets⟩
      cases same
      exact sets

theorem set_since (new : ¬ p {}) {before during : List (Action ι)}
    (keeps : ∀ action ∈ during, action.Keeps x) :
    Has p x (replay password (before ++ .connect x :: during)) ↔
      ∃ early message late, during = early ++ .line x message :: late ∧
        sets (replay password (before ++ .connect x :: early)).1 message := by
  rw [replay_since, (latched p sets line).iff_happens (connect_admits before) keeps,
    has_iff (connect_new before), or_iff_right new]
  constructor
  · rintro ⟨early, _, late, rfl, message, rfl, hsets⟩
    exact ⟨early, message, late, rfl, by rwa [replay_since]⟩
  · rintro ⟨early, message, late, rfl, hsets⟩
    rw [replay_since] at hsets
    exact ⟨early, _, late, rfl, message, rfl, hsets⟩

end Set

variable {before during : List (Action ι)} (keeps : ∀ action ∈ during, action.Keeps x)

include keeps

theorem passed_since : Has (fun a => a.passed = true) x
    (replay password (before ++ .connect x :: during)) ↔ Authenticated password x during := by
  rw [set_since _ (fun _ message => message.Authenticates password)
    (fun net a message same _ admitted => by rw [respond_passed net x a message admitted, same])
    (by decide) keeps]
  constructor
  · rintro ⟨early, message, late, rfl, gives⟩
    exact ⟨message, by simp, gives⟩
  · rintro ⟨message, hmem, gives⟩
    obtain ⟨early, late, rfl⟩ := List.append_of_mem hmem
    exact ⟨early, message, late, rfl, gives⟩

theorem named_since (p : Account → Prop) (sets : Network ι → Message → Prop) (new : ¬ p {})
    (line : ∀ (net : Network ι) (a : Account) (message : Message),
      p (net.respond x a message).account ↔ p a ∨ a.passed = true ∧ sets net message) :
    Has p x (replay password (before ++ .connect x :: during)) ↔
      Follows password x before during sets := by
  have passed_sets : ∀ (net : Network ι) (a : Account) (message : Message),
      net.password = password → net.account x = some a → (a.nickname ≠ none → a.passed = true) →
      (p (net.respond x a message).account ↔
        p a ∨ (∃ b, net.account x = some b ∧ b.passed = true) ∧ sets net message) := by
    intro net a message _ connected _
    rw [line]
    simp only [connected, Option.some.injEq, exists_eq_left']
  rw [set_since p _ passed_sets new keeps]
  constructor
  · rintro ⟨early, message, late, rfl, passed, hsets⟩
    have early_keeps := fun action ha => keeps action (List.mem_append_left _ ha)
    exact ⟨early, message, late, rfl, (passed_since early_keeps).mp passed, hsets⟩
  · rintro ⟨early, message, late, rfl, authenticated, hsets⟩
    have early_keeps := fun action ha => keeps action (List.mem_append_left _ ha)
    exact ⟨early, message, late, rfl, (passed_since early_keeps).mpr authenticated, hsets⟩

/-- Registered is who has earned both names. -/
theorem registered_since : Has Account.Registered x
    (replay password (before ++ .connect x :: during)) ↔ Earned password x before during := by
  have nickname : _ ↔ Follows password x before during _ :=
    named_since keeps (fun a => a.nickname ≠ none) _ (by simp)
      fun net a message => respond_nickname net x a message
  have username : _ ↔ Follows password x before during _ :=
    named_since keeps (fun a => a.username ≠ none) (fun _ message => message.Introduces) (by simp)
      fun net a message => respond_username net x a message
  constructor
  · rintro ⟨a, connected, named, introduced⟩
    exact ⟨nickname.mp ⟨a, connected, named⟩, username.mp ⟨a, connected, introduced⟩⟩
  · rintro ⟨named, introduced⟩
    obtain ⟨a, connected, hnickname⟩ := nickname.mpr named
    exact ⟨a, connected, hnickname, (has_iff connected).mp (username.mpr introduced)⟩

omit keeps in
/-- Whoever is connected was accepted, and not closed since. -/
theorem connected_since {actions : List (Action ι)} {a : Account}
    (connected : (replay password actions).1.account x = some a) :
    ∃ before during, actions = before ++ .connect x :: during ∧
      ∀ action ∈ during, action.Keeps x := by
  induction actions using List.reverseRecOn generalizing a with
  | nil => cases connected
  | append_singleton actions action ih =>
      rw [replay_append, List.foldl_cons, List.foldl_nil] at connected
      by_cases opens : action = .connect x
      · subst opens
        exact ⟨actions, [], rfl, by simp⟩
      by_cases closes : action = .close x
      · subst closes
        rw [deliver_close] at connected
        have gone : ((replay password actions).1.close x).account x = none :=
          Function.update_self ..
        rw [gone] at connected
        cases connected
      have keeps : action.Keeps x := ⟨opens, closes⟩
      have earlier : ∃ b, (replay password actions).1.account x = some b := by
        rcases keeps.cases with other | ⟨message, rfl⟩
        · exact ⟨a, (deliver_others _ other).symm.trans connected⟩
        · cases known : (replay password actions).1.account x with
          | some b => exact ⟨b, rfl⟩
          | none =>
              simp only [deliver, act, known] at connected
              cases connected
      obtain ⟨b, hb⟩ := earlier
      obtain ⟨before, during, rfl, hkeeps⟩ := ih hb
      refine ⟨before, during ++ [action], by simp, fun action' ha => ?_⟩
      rcases List.mem_append.mp ha with ha | ha
      · exact hkeeps action' ha
      · rw [List.mem_singleton.mp ha]
        exact keeps

end Network

end IrcServer
