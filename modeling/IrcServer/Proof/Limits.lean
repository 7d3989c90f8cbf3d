import IrcServer.Proof.Admission
import IrcServer.Proof.Delivery
import IrcServer.Proof.Refusal
import Mathlib.Data.Nat.Digits.Defs

/-! # User limits

`+l` announces the digits it was given and stores what `atoi` makes of them. The two
agree, or the command is refused, unless the number is too large for an `int` and its
last 32 bits are those of a positive `int`.
-/

namespace IrcServer

open Search Machine Transition

def decimal (digits : Bytes) : Nat :=
  Nat.ofDigits 10 (digits.reverse.map fun c => c.toNat - 48)

def Decimal (digits : Bytes) : Prop := digits ≠ [] ∧ digits.all isDigit = true

/-- A number that a `long` holds and an `int` does not, and whose last 32 bits are those of a
positive `int`. -/
def Wraps (digits : Bytes) : Prop :=
  Decimal digits ∧ 2 ^ 32 ≤ decimal digits ∧ decimal digits < 2 ^ 63 ∧
    1 ≤ decimal digits % 2 ^ 32 ∧ decimal digits % 2 ^ 32 < 2 ^ 31

structure LimitRefused (s s' : Machine) (c : Client) : Prop where
  channels : s'.channels = s.channels
  told : messagesTo c.fd (added s s') = [replyCmd 461 c (text "MODE")]

structure LimitSet (s s' : Machine) (c : Client) (k : Nat) (ch : Channel) (digits : Bytes)
    (limit : Nat) : Prop where
  denoted : Decimal digits ∧ decimal digits = limit
  positive : 1 ≤ limit
  stored : s'.channels = s.channels.set k { ch with limit := limit }
  told : ∀ d ∈ s.clients, d.fd ∈ ch.memberFds →
    messagesTo d.fd (added s s') = [modeMessage c ch.name (text "+l " ++ digits)]
  enforced : ∀ j d line t', s'.clients[j]? = some d → d.registered = true →
    d.fd ∉ ch.memberFds → (Parser.parse line).command = text "JOIN" →
    (Parser.parse line).param 0 = ch.name → step s' (.command j line) = some t' →
    (IsMember t' ch.name d.fd ↔ (ch.inviteOnly = true → d.fd ∈ ch.invitedFds) ∧
      (ch.key = [] ∨ (Parser.parse line).params[1]? = some ch.key) ∧ ch.memberFds.length < limit)

/-! ## `atoi` -/

section Atoi

variable {digits : Bytes}

theorem digitsValue_eq (h : digits.all isDigit = true) (value : Nat) :
    digitsValue value digits = value * 10 ^ digits.length + decimal digits := by
  induction digits generalizing value with
  | nil => simp [digitsValue, decimal]
  | cons c rest ih =>
      rw [List.all_cons, Bool.and_eq_true] at h
      have hvalue : decimal (c :: rest) = decimal rest + 10 ^ rest.length * (c.toNat - 48) := by
        simp [decimal, Nat.ofDigits_append]
      rw [digitsValue, if_pos h.1, ih h.2, hvalue, List.length_cons, Nat.pow_succ]
      ring

theorem strtol_digits (h : Decimal digits) :
    strtol digits = min (2 ^ 63 - 1) (decimal digits : Int) := by
  obtain ⟨hne, hall⟩ := h
  have hvalue := digitsValue_eq hall 0
  cases digits with
  | nil => exact absurd rfl hne
  | cons c rest =>
      have hdigit : isDigit c = true := by
        rw [List.all_cons, Bool.and_eq_true] at hall
        exact hall.1
      have hspace : isSpace c = false := by grind [isDigit, isSpace]
      have hminus : c ≠ hyphen := by grind [isDigit, hyphen]
      have hplus : c ≠ 43 := by grind [isDigit]
      rw [strtol, List.dropWhile_cons_of_neg (by rw [hspace]; decide)]
      simp only [hminus, hplus, if_false]
      rw [hvalue, Nat.zero_mul, Nat.zero_add]

/-- The conversion keeps the last 32 bits, and reads them with a sign. -/
theorem toInt32_eq (n : Nat) :
    toInt32 n = if n % 2 ^ 32 < 2 ^ 31 then ((n % 2 ^ 32 : Nat) : Int) else n % 2 ^ 32 - 2 ^ 32 := by
  unfold toInt32
  rw [Int.bmod_def]
  split <;> split <;> omega

/-- `atoi` on digits: the last 32 bits of the number, with a sign, or -1 for what no `long` holds. -/
theorem atoi_digits (h : Decimal digits) :
    atoi digits = if decimal digits < 2 ^ 63 then toInt32 (decimal digits) else -1 := by
  rw [atoi, strtol_digits h]
  split
  · next hsmall => rw [Int.min_eq_right (by omega)]
  · next hlarge =>
      rw [Int.min_eq_left (by omega)]
      rfl

theorem atoi_small (h : Decimal digits) (small : decimal digits < 2 ^ 31) :
    atoi digits = decimal digits := by
  rw [atoi_digits h, if_pos (by omega), toInt32_natCast small]

/-- The result is positive for the numbers from 1 on that an `int` holds, and for those that wrap
around. -/
theorem atoi_pos_iff (h : Decimal digits) :
    0 < atoi digits ↔ 1 ≤ decimal digits ∧ decimal digits < 2 ^ 31 ∨ Wraps digits := by
  rw [atoi_digits h, Wraps]
  by_cases hlong : decimal digits < 2 ^ 63
  · rw [if_pos hlong, toInt32_eq]
    simp only [h, hlong, true_and]
    split <;> omega
  · rw [if_neg hlong]
    omega

theorem atoi_ne_of_wraps (h : Wraps digits) : atoi digits ≠ decimal digits := by
  obtain ⟨hdecimal, hlarge, hlong, _, hsmall⟩ := h
  rw [atoi_digits hdecimal, if_pos hlong, toInt32_eq, if_pos hsmall]
  omega

end Atoi

/-! ## `+l` -/

section Limit

variable {s s' : Machine} {i k : Nat} {c : Client} {line : Bytes} {ch : Channel}

theorem modes_limit_refused {message : Message} (invariant : Invariant s)
    (hc : s.clients[i]? = some c) (at_ : Addresses s.toServer c message "MODE" k ch)
    (operator : c.fd ∈ ch.operatorFds) (plus : message.param 1 = text "+l")
    (three : 3 ≤ message.params.length)
    (bad : ¬ (Decimal (message.param 2) ∧ 0 < atoi (message.param 2))) :
    modes i message s = s.sendingQueue i (replyCmd 461 c (text "MODE")) := by
  refine modes_answer invariant hc at_ operator (by omega) ?_
  rw [inviteOnly_none (by rw [plus]; decide), letSChangeTheTopic_none (by rw [plus]; decide),
    secretKey_none (by rw [plus]; decide)]
  simp only [limitedUsage, plus, Server.clientAt_of_getElem? hc]
  rw [if_neg (by decide), if_neg (by decide), if_neg (by omega)]
  by_cases hdecimal : Decimal (message.param 2)
  · have hdigits : ¬ ((message.param 2).isEmpty || !(message.param 2).all isDigit) = true := by
      simp [hdecimal.1, hdecimal.2]
    have hneg : atoi (message.param 2) ≤ 0 := Int.not_lt.mp fun hpos => bad ⟨hdecimal, hpos⟩
    rw [if_neg hdigits, if_pos hneg]
    rfl
  · have hdigits : ((message.param 2).isEmpty || !(message.param 2).all isDigit) = true := by
      by_contra hgood
      rw [Bool.not_eq_true, Bool.or_eq_false_iff, Bool.not_eq_false', List.isEmpty_eq_false_iff]
        at hgood
      exact hdecimal hgood
    rw [if_pos hdigits]
    rfl

theorem limitRefused_of_bad (h : Reachable s) (hc : s.clients[i]? = some c)
    (at_ : Addresses s.toServer c (Parser.parse line) "MODE" k ch)
    (operator : c.fd ∈ ch.operatorFds) (plus : (Parser.parse line).param 1 = text "+l")
    (three : 3 ≤ (Parser.parse line).params.length)
    (bad : ¬ (Decimal ((Parser.parse line).param 2) ∧ 0 < atoi ((Parser.parse line).param 2)))
    (hstep : step s (.command i line) = some s') : LimitRefused s s' c := by
  obtain ⟨_, rfl⟩ := step_command hc hstep
  have logged : Invariant (s.record (.line c.fd line)) := ⟨h.invariant.table, h.invariant.identities⟩
  have hrefused := modes_limit_refused logged hc at_ operator plus three bad
  rw [dispatchCommand_mode at_.command, hrefused]
  exact ⟨sendingQueue_channels _ _ _, replied_messagesTo hc line (isRefusal_461 c _).ne_nil⟩

theorem limitSet_of_small (h : Reachable s) (hc : s.clients[i]? = some c)
    (at_ : Addresses s.toServer c (Parser.parse line) "MODE" k ch)
    (operator : c.fd ∈ ch.operatorFds) (plus : (Parser.parse line).param 1 = text "+l")
    (three : 3 ≤ (Parser.parse line).params.length)
    (hdecimal : Decimal ((Parser.parse line).param 2))
    (positive : 1 ≤ decimal ((Parser.parse line).param 2))
    (small : decimal ((Parser.parse line).param 2) < 2 ^ 31)
    (hstep : step s (.command i line) = some s') :
    LimitSet s s' c k ch ((Parser.parse line).param 2) (decimal ((Parser.parse line).param 2)) := by
  have hatoi := atoi_small hdecimal small
  have changes : ModeChange (Parser.parse line) ch _ _ := .limit plus three hdecimal (by omega)
  rw [hatoi] at changes
  have announces := Announces.mode k ch _ _ at_ operator changes
  obtain ⟨hchannels, delivery⟩ := announces.delivery h.invariant hc hstep
  have hk : k < s.channels.length := (List.getElem?_eq_some_iff.mp at_.found).choose
  refine ⟨⟨hdecimal, rfl⟩, positive, hchannels, fun d hd member => ?_, ?_⟩
  · rw [delivery.queued d hd, if_pos member]
    simp
  · intro j d line' t' hd registered outside command hname hjoin
    have hch : { ch with limit := (decimal ((Parser.parse line).param 2) : Int) } ∈ s'.channels := by
      rw [hchannels]
      exact List.mem_set hk _
    refine (join_member_iff (h.step hstep) hd hch registered command hname outside hjoin).trans ?_
    constructor
    · intro may
      have hroom := may.limit
      exact ⟨may.invited, may.key, by simp only at hroom; omega⟩
    · rintro ⟨hinvited, hkey, hroom⟩
      exact ⟨outside, hinvited, hkey, Or.inr (by simp only; omega)⟩

/-- `+l` is refused, or announces the limit it stores, exactly if the number does not wrap around. -/
theorem limitAgrees_iff_not_wraps (h : Reachable s) (hc : s.clients[i]? = some c)
    (at_ : Addresses s.toServer c (Parser.parse line) "MODE" k ch)
    (operator : c.fd ∈ ch.operatorFds) (plus : (Parser.parse line).param 1 = text "+l")
    (three : 3 ≤ (Parser.parse line).params.length) (hstep : step s (.command i line) = some s') :
    (LimitRefused s s' c ∨ ∃ limit, LimitSet s s' c k ch ((Parser.parse line).param 2) limit) ↔
      ¬ Wraps ((Parser.parse line).param 2) := by
  constructor
  · intro hagrees wraps
    have hdecimal := wraps.1
    have hpos := (atoi_pos_iff hdecimal).mpr (.inr wraps)
    have changes : ModeChange (Parser.parse line) ch _ _ := .limit plus three hdecimal hpos
    have announces := Announces.mode k ch _ _ at_ operator changes
    obtain ⟨hchannels, delivery⟩ := announces.delivery h.invariant hc hstep
    rcases hagrees with refused | ⟨limit, set⟩
    · -- the sender is a member, and is told of a change
      have hmem := List.mem_of_getElem? hc
      have member := (h.table.consistent ch (List.mem_of_getElem? at_.found)).operators_members c.fd
        operator
      have htold := delivery.queued c hmem
      rw [refused.told, if_pos member, ite_self, List.append_nil] at htold
      have sound := h.invariant.identities.sound c hmem
      have clean := parse_clean (step_command hc hstep).1
      refine announces.not_refusal clean sound ?_
      rw [← (List.cons.inj htold).1]
      exact isRefusal_461 c _
    · have hk : k < s.channels.length := (List.getElem?_eq_some_iff.mp at_.found).choose
      have hstored := congrArg (·[k]?) (hchannels.symm.trans set.stored)
      simp only [List.getElem?_set_self hk, Option.some.injEq, Channel.mk.injEq] at hstored
      have hlimit : atoi ((Parser.parse line).param 2) = limit := by tauto
      rw [← set.denoted.2] at hlimit
      exact atoi_ne_of_wraps wraps hlimit
  · intro hnot
    by_cases hgood : Decimal ((Parser.parse line).param 2) ∧ 0 < atoi ((Parser.parse line).param 2)
    · obtain ⟨positive, small⟩ := ((atoi_pos_iff hgood.1).mp hgood.2).resolve_right hnot
      exact .inr ⟨_, limitSet_of_small h hc at_ operator plus three hgood.1 positive small hstep⟩
    · exact .inl (limitRefused_of_bad h hc at_ operator plus three hgood hstep)

end Limit

/-- The founder of a channel makes room for three. -/
theorem limitAgrees_iff_not_wraps_sample :
    LimitRefused (stateAfter sampleRun)
        (stateAfter (sampleRun ++ [.command 0 (text "MODE #42 +l 3")]))
        ((stateAfter sampleRun).clientAt 0) ∨
      ∃ limit, LimitSet (stateAfter sampleRun)
        (stateAfter (sampleRun ++ [.command 0 (text "MODE #42 +l 3")]))
        ((stateAfter sampleRun).clientAt 0) 0 ((stateAfter sampleRun).channelAt 0)
        ((Parser.parse (text "MODE #42 +l 3")).param 2) limit := by
  have hc : (stateAfter sampleRun).clients[0]? = some ((stateAfter sampleRun).clientAt 0) :=
    clientAt_table (by decide)
  have hch : (stateAfter sampleRun).channels[0]? = some ((stateAfter sampleRun).channelAt 0) := by
    decide
  have hstep := step_stateAfter sampleRun (.command 0 (text "MODE #42 +l 3")) (by decide)
  have hsmall : ¬ 2 ^ 32 ≤ decimal ((Parser.parse (text "MODE #42 +l 3")).param 2) := by decide
  exact (limitAgrees_iff_not_wraps (stateAfter_reachable sampleRun) hc
    ⟨by decide, by decide, hch, by decide⟩ (by decide) (by decide) (by decide) hstep).mpr
      fun wraps => hsmall wraps.2.1

/-- `MODE #42 +l 4294967297` stores the limit 1. -/
theorem not_limitAgrees_wrapped : ¬ ∀ (s s' : Machine) (i k : Nat) (c : Client) (ch : Channel)
    (line : Bytes), Reachable s → s.clients[i]? = some c →
    Addresses s.toServer c (Parser.parse line) "MODE" k ch → c.fd ∈ ch.operatorFds →
    (Parser.parse line).param 1 = text "+l" → 3 ≤ (Parser.parse line).params.length →
    step s (.command i line) = some s' →
    LimitRefused s s' c ∨ ∃ limit, LimitSet s s' c k ch ((Parser.parse line).param 2) limit := by
  intro h
  have hc : (stateAfter sampleRun).clients[0]? = some ((stateAfter sampleRun).clientAt 0) :=
    clientAt_table (by decide)
  have hch : (stateAfter sampleRun).channels[0]? = some ((stateAfter sampleRun).channelAt 0) := by
    decide
  have hstep := step_stateAfter sampleRun (.command 0 (text "MODE #42 +l 4294967297")) (by decide)
  rcases h _ _ 0 0 _ _ _ (stateAfter_reachable sampleRun) hc ⟨by decide, by decide, hch, by decide⟩
      (by decide) (by decide) (by decide) hstep with refused | ⟨limit, set⟩
  · have hchanged : (stateAfter (sampleRun ++ [.command 0 (text "MODE #42 +l 4294967297")])).channels ≠
        (stateAfter sampleRun).channels := by decide
    exact hchanged refused.channels
  · have hstored := congrArg (List.map Channel.limit) set.stored
    rw [← set.denoted.2] at hstored
    revert hstored
    decide

end IrcServer
