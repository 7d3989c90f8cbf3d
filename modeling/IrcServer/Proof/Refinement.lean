import IrcServer.Proof.Enrolment

/-! # The dispatcher refines the reaction of the network

The five functions of MODE are the cases of `Network.alter`. With them every line that
can be dispatched does what `Network.respond` says.
-/

namespace IrcServer

open Search Machine Network

/-! ## MODE -/

theorem other_mode {mode a b x y : Bytes} (h : mode = a ∨ mode = b)
    (hne : a ≠ x ∧ a ≠ y ∧ b ≠ x ∧ b ≠ y) : ¬ (mode = x ∨ mode = y) := by
  rcases h with rfl | rfl
  · exact not_or.mpr ⟨hne.1, hne.2.1⟩
  · exact not_or.mpr hne.2.2

section Mode

variable {s t : Machine} {i : Nat} {c : Client} {message : Message} (invariant : Invariant s)
  (hc : s.clients[i]? = some c) {k : Nat} {ch : Channel} {r : Room Int}
  (at_ : Addresses s.toServer c message "MODE" k ch) (operator : c.fd ∈ ch.operatorFds)
  (models : ch.Models r)

include invariant hc at_ operator models

omit operator in
theorem Follows.moded {ch' : Channel} {r' : Room Int} {change : Bytes}
    (announces : Announces s.toServer c message (s.channels.set k ch')
      ⟨ch.name, ch.memberFds, modeMessage c ch.name change, []⟩)
    (hname : ch'.name = ch.name) (hmembers : ch'.memberFds = ch.memberFds) (models' : ch'.Models r') :
    Follows s i c message
      (Network.announce c.account (message.param 0) r (some r')
        (.moded c.account.nick (message.param 0) change))
      (IrcServer.announce c k ch' change s) := by
  rw [account_nick, ← at_.name]
  apply Follows.announce invariant.table announces (announce_eq hc ch' change hname hmembers) rfl rfl
  · exact fun fd => by rw [models.members]
  · exact stores_set at_.found hname models'

theorem Follows.changes {ch' : Channel} {r' : Room Int} {change : Bytes}
    (changes : ModeChange message ch ch' change) (models' : ch'.Models r') :
    Follows s i c message
      (Network.announce c.account (message.param 0) r (some r')
        (.moded c.account.nick (message.param 0) change))
      (IrcServer.announce c k ch' change s) := by
  apply Follows.moded invariant hc at_ models (.mode k ch ch' change at_ operator changes) _ _ models'
  · cases changes <;> rfl
  · cases changes <;> rfl

theorem inviteOnly_follows (h : inviteOnly i message k s = some t) :
    Follows s i c message
      ((s.network invariant.table).alter c.fd c.account message (message.param 0) r) t := by
  unfold inviteOnly at h
  simp only [Server.clientAt_of_getElem? hc, Server.channelAt_of_getElem? at_.found] at h
  split at h
  · cases h
  · next hmode =>
      cases h
      have hmode : message.param 1 = text "+i" ∨ message.param 1 = text "-i" := by tauto
      unfold Network.alter
      simp only [if_pos hmode]
      exact .changes invariant hc at_ operator models (.inviteOnly hmode)
        { models with inviteOnly := rfl }

theorem letSChangeTheTopic_follows (h : letSChangeTheTopic i message k s = some t) :
    Follows s i c message
      ((s.network invariant.table).alter c.fd c.account message (message.param 0) r) t := by
  unfold letSChangeTheTopic at h
  simp only [Server.clientAt_of_getElem? hc, Server.channelAt_of_getElem? at_.found] at h
  split at h
  · cases h
  · next hmode =>
      cases h
      have hmode : message.param 1 = text "+t" ∨ message.param 1 = text "-t" := by tauto
      have hother := other_mode (x := text "+i") (y := text "-i") hmode (by decide)
      unfold Network.alter
      simp only [if_neg hother, if_pos hmode]
      exact .changes invariant hc at_ operator models (.changeTopic hmode)
        { models with topicLocked := rfl }

theorem secretKey_follows (h : secretKey i message k s = some t) :
    Follows s i c message
      ((s.network invariant.table).alter c.fd c.account message (message.param 0) r) t := by
  unfold secretKey at h
  simp only [Server.clientAt_of_getElem? hc, Server.channelAt_of_getElem? at_.found] at h
  unfold Network.alter
  split at h
  · cases h
  · next hmode =>
      have hmode : message.param 1 = text "+k" ∨ message.param 1 = text "-k" := by tauto
      rw [if_neg (other_mode hmode (by decide)), if_neg (other_mode hmode (by decide)),
        if_pos hmode]
      split at h
      · next hshort =>
          cases h
          rw [if_pos hshort]
          exact .literal invariant.table hc (by decide)
      · next hthree =>
          rw [if_neg hthree]
          have three := Nat.not_lt.mp hthree
          split at h
          · next hplus =>
              cases h
              rw [if_pos hplus]
              exact .changes invariant hc at_ operator models (.key hplus three)
                { models with key := rfl }
          · next hplus =>
              cases h
              rw [if_neg hplus]
              exact .changes invariant hc at_ operator models (.noKey (by tauto) three)
                { models with key := rfl }

/-- The limit is a decimal number above zero. -/
theorem limit_follows (plus : message.param 1 = text "+l")
    (h : limitedUsage i message k s = some t) :
    Follows s i c message
      (if message.params.length < 3 ∨ message.param 2 = [] ∨
          (message.param 2).all isDigit = false ∨ atoi (message.param 2) ≤ 0 then
        Network.reply c.fd c.account (.numeric 461 c.account.nick (text "MODE"))
      else
        Network.announce c.account (message.param 0) r
          (some { r with limit := some (atoi (message.param 2)).toNat })
          (.moded c.account.nick (message.param 0) (text "+l " ++ message.param 2))) t := by
  unfold limitedUsage at h
  simp only [Server.clientAt_of_getElem? hc, Server.channelAt_of_getElem? at_.found, plus] at h
  rw [if_neg (by decide), if_neg (by decide)] at h
  have refuses : Follows s i c message
      (Network.reply c.fd c.account (.numeric 461 c.account.nick (text "MODE")))
      (s.sendingQueue i (replyCmd 461 c (text "MODE"))) := .literal invariant.table hc (by decide)
  split at h
  · next hshort =>
      cases h
      rw [if_pos (.inl hshort)]
      exact refuses
  · next hthree =>
      split at h
      · next hdigits =>
          cases h
          have hdigits : message.param 2 = [] ∨ (message.param 2).all isDigit = false := by
            simpa using hdigits
          rw [if_pos (.inr (by tauto))]
          exact refuses
      · next hdigits =>
          have digits : message.param 2 ≠ [] ∧ (message.param 2).all isDigit = true := by
            simpa using hdigits
          split at h
          · next hnegative =>
              cases h
              rw [if_pos (.inr (.inr (.inr hnegative)))]
              exact refuses
          · next hpositive =>
              cases h
              have positive : 0 < atoi (message.param 2) := Int.not_le.mp hpositive
              rw [if_neg (by simp [digits.1, digits.2, hthree, hpositive])]
              exact .changes invariant hc at_ operator models
                (.limit plus (Nat.not_lt.mp hthree) digits positive)
                { models with limit := if_pos positive }

theorem limitedUsage_follows (h : limitedUsage i message k s = some t) :
    Follows s i c message
      ((s.network invariant.table).alter c.fd c.account message (message.param 0) r) t := by
  have hmode : message.param 1 = text "+l" ∨ message.param 1 = text "-l" := by
    by_contra hother
    rw [not_or] at hother
    rw [limitedUsage_none hother] at h
    cases h
  unfold Network.alter
  rw [if_neg (other_mode hmode (by decide)), if_neg (other_mode hmode (by decide)),
    if_neg (other_mode hmode (by decide))]
  by_cases hminus : message.param 1 = text "-l"
  · have hnone : limitedUsage i message k s =
        some (IrcServer.announce c k { ch with limit := 0 } (text "-l") s) := by
      simp only [limitedUsage, Server.clientAt_of_getElem? hc,
        Server.channelAt_of_getElem? at_.found, hminus]
      rw [if_neg (by decide), if_pos trivial]
      rfl
    obtain rfl := Option.some.inj (hnone.symm.trans h)
    rw [if_pos hminus]
    exact .changes invariant hc at_ operator models (.noLimit hminus) { models with limit := rfl }
  · have hplus : message.param 1 = text "+l" := by tauto
    rw [if_neg hminus, if_pos hplus]
    exact limit_follows invariant hc at_ operator models hplus h

theorem Follows.hands (hmode : message.param 1 = text "+o" ∨ message.param 1 = text "-o")
    (three : 3 ≤ message.params.length) {target : Nat} {d : Client}
    (targets : Targets s.toServer (message.param 2) target d) (member : d.fd ∈ ch.memberFds)
    (member' : d.fd ∈ r.members) :
    Follows s i c message (hand c.fd c.account message (message.param 0) r d.fd member')
      (if message.param 1 = text "+o" then
        if ch.isOperator d.fd = true then s
        else IrcServer.announce c k (ch.addOperator d.fd)
          (message.param 1 ++ text " " ++ message.param 2) s
      else if (!ch.isOperator d.fd) = true then s
      else if ch.operatorFds.length = 1 then s.sendingQueue i (modeNotice c)
      else IrcServer.announce c k (ch.removeOperator d.fd)
          (message.param 1 ++ text " " ++ message.param 2) s) := by
  have table := invariant.table
  have consistent := table.consistent ch (List.mem_of_getElem? at_.found)
  have hoperator : ch.isOperator d.fd = true ↔ d.fd ∈ r.operators := by
    rw [ch.isOperator_iff, models.operators]
  unfold hand
  refine Follows.ite Iff.rfl (fun hplus => ?_) fun hplus => ?_
  · refine Follows.ite hoperator (fun _ => .silence hc) fun hordinary => ?_
    have ordinary : d.fd ∉ ch.operatorFds := by rwa [models.operators]
    have announces := Announces.grant k ch at_ operator hplus three target d targets member ordinary
    rw [Channel.addOperator_of_not_mem ordinary, hplus]
    exact .moded invariant hc at_ models announces rfl rfl
      { models with
        operators := fun fd => by
          rw [List.mem_append, List.mem_singleton, models.operators, or_comm]
          rfl }
  · have hminus : message.param 1 = text "-o" := hmode.resolve_left hplus
    refine Follows.ite (by rw [ordinary_iff, models.operators]) (fun _ => .silence hc)
      fun hspecial => ?_
    have special : d.fd ∈ ch.operatorFds := by
      rw [models.operators]
      exact not_not.mp hspecial
    have hlast : ch.operatorFds.length = 1 ↔ r.operators = {d.fd} := by
      rw [models.sole_iff consistent]
      exact (and_iff_right special).symm
    refine Follows.ite hlast (fun _ => .reply table hc .lastMode (by rw [account_nick]; rfl))
      fun hseveral => ?_
    have announces := Announces.revoke k ch at_ operator hminus three target d targets member special
      (fun hone => hseveral (hlast.mp hone))
    rw [hminus]
    exact .moded invariant hc at_ models announces rfl rfl
      { models with
        operators := fun fd => by
          rw [Channel.removeOperator, consistent.operators_nodup.mem_erase_iff, models.operators,
            and_comm]
          rfl }

theorem operators_follows (clean : message.Clean) (h : operators i message k s = some t) :
    Follows s i c message
      ((s.network invariant.table).alter c.fd c.account message (message.param 0) r) t := by
  have table := invariant.table
  have hch := List.mem_of_getElem? at_.found
  have consistent := table.consistent ch hch
  unfold operators at h
  simp only [Server.clientAt_of_getElem? hc, Server.channelAt_of_getElem? at_.found] at h
  unfold Network.alter
  split at h
  · cases h
  · next hmode =>
      have hmode : message.param 1 = text "+o" ∨ message.param 1 = text "-o" := by tauto
      have hlimit := other_mode (x := text "-l") (y := text "+l") hmode (by decide)
      rw [if_neg (other_mode hmode (by decide)), if_neg (other_mode hmode (by decide)),
        if_neg (other_mode hmode (by decide)), if_neg (not_or.mp hlimit).1,
        if_neg (not_or.mp hlimit).2, if_pos hmode]
      unfold Network.appoint
      split at h
      · next hshort =>
          cases h
          rw [if_pos hshort]
          exact .literal table hc (by decide)
      · next hthree =>
          rw [if_neg hthree]
          have three : 3 ≤ message.params.length := Nat.not_lt.mp hthree
          split at h
          · next hnone =>
              cases h
              rw [if_pos ((findIdx?_nicknamed_none table).mpr hnone)]
              exact .numeric table hc (by decide) (clean.param 2)
          · next target htarget =>
              obtain ⟨d, hd, hnick⟩ := findIdx?_some htarget
              have targets : Targets s.toServer (message.param 2) target d :=
                ⟨hd, by simpa [nicknamed] using hnick⟩
              have hsome : ¬ ¬ ∃ fd, (s.network table).Holds (message.param 2) fd := by
                rw [findIdx?_nicknamed_none table, htarget]
                simp
              have hfind := members_find invariant hch models (List.mem_of_getElem? hd) targets.nickname
              rw [if_neg hsome]
              simp only [Server.clientAt_of_getElem? hd, at_.name] at h
              split at h
              · next outside =>
                  cases h
                  rw [if_neg (outside_iff.mp outside)] at hfind
                  split
                  · exact .numeric table hc (by decide) (clean_pair (clean.param 2) (clean.param 0))
                  · next fd hfd =>
                      rw [hfind] at hfd
                      cases hfd
              · next hmember =>
                  have member : d.fd ∈ ch.memberFds := by simpa [outside_iff] using hmember
                  rw [if_pos member] at hfind
                  split
                  · next hnone =>
                      rw [hfind] at hnone
                      cases hnone
                  · next fd hfd =>
                      obtain rfl := Option.some.inj (hfind.symm.trans hfd)
                      simp only [← apply_ite some, Option.some.injEq] at h
                      subst h
                      exact .hands invariant hc at_ operator models hmode three targets member _

end Mode

/-! A mode string that none of the five functions answers is none of theirs. -/

section Declines

variable {s : Machine} {i k : Nat} {message : Message}

theorem inviteOnly_declines (h : inviteOnly i message k s = none) :
    ¬ (message.param 1 = text "+i" ∨ message.param 1 = text "-i") := by
  rw [not_or]
  by_contra hmode
  rw [inviteOnly, if_neg hmode] at h
  cases h

theorem letSChangeTheTopic_declines (h : letSChangeTheTopic i message k s = none) :
    ¬ (message.param 1 = text "+t" ∨ message.param 1 = text "-t") := by
  rw [not_or]
  by_contra hmode
  rw [letSChangeTheTopic, if_neg hmode] at h
  cases h

theorem secretKey_declines (h : secretKey i message k s = none) :
    ¬ (message.param 1 = text "+k" ∨ message.param 1 = text "-k") := by
  rw [not_or]
  by_contra hmode
  rw [secretKey, if_neg hmode] at h
  dsimp only at h
  split_ifs at h

theorem limitedUsage_declines (h : limitedUsage i message k s = none) :
    ¬ (message.param 1 = text "-l" ∨ message.param 1 = text "+l") := by
  rw [or_comm, not_or]
  by_contra hmode
  rw [limitedUsage, if_neg hmode] at h
  dsimp only at h
  split_ifs at h

theorem operators_declines (h : operators i message k s = none) :
    ¬ (message.param 1 = text "+o" ∨ message.param 1 = text "-o") := by
  rw [not_or]
  by_contra hmode
  rw [operators, if_neg hmode] at h
  dsimp only at h
  split at h
  · cases h
  · split at h
    · cases h
    · split_ifs at h

end Declines

section Dispatch

variable {s : Machine} {i : Nat} {c : Client} (invariant : Invariant s)
  (hc : s.clients[i]? = some c)

include invariant hc

theorem modes_follows {message : Message} (clean : message.Clean)
    (command : message.command = text "MODE") :
    Follows s i c message ((s.network invariant.table).mode c.fd c.account message)
      (modes i message s) := by
  have table := invariant.table
  have sound := invariant.identities.sound c (List.mem_of_getElem? hc)
  unfold modes Network.mode
  simp only [Server.clientAt_of_getElem? hc]
  refine Follows.ite sound.account_unregistered (fun _ => .bare table hc (by decide)) fun hreg => ?_
  refine Follows.ite Iff.rfl (fun _ => .literal table hc (by decide)) fun htwo => ?_
  have registered := sound.account_registered.mp (not_not.mp hreg)
  rcases room_lookup table (message.param 0) with
    ⟨k, ch, hk, hname, _, hfirst, hroom⟩ | ⟨_, _, hfirst, hroom⟩
  · have at_ : Addresses s.toServer c message "MODE" k ch := ⟨command, registered, hk, hname⟩
    have models := room_models ch (table.consistent ch (List.mem_of_getElem? hk))
    simp only [hfirst, hroom, Server.channelAt_of_getElem? hk]
    refine Follows.ite ordinary_iff (fun _ => .numeric table hc (by decide) (clean.param 0))
      fun hoperator => ?_
    have operator : c.fd ∈ ch.operatorFds := not_not.mp hoperator
    split
    · next s' h =>
        simp only [Option.orElse_eq_orElse, Option.orElse_eq_or, Option.or_eq_some_iff] at h
        rcases h with h | ⟨_, h | ⟨_, h | ⟨_, h | ⟨_, h⟩⟩⟩⟩
        · exact inviteOnly_follows invariant hc at_ operator models h
        · exact letSChangeTheTopic_follows invariant hc at_ operator models h
        · exact secretKey_follows invariant hc at_ operator models h
        · exact limitedUsage_follows invariant hc at_ operator models h
        · exact operators_follows invariant hc at_ operator models clean h
    · next hnone =>
        simp only [Option.orElse_eq_orElse, Option.orElse_eq_or, Option.or_eq_none_iff] at hnone
        obtain ⟨hinvite, htopic, hkey, hlimit, hops⟩ := hnone
        unfold Network.alter
        have hl := not_or.mp (limitedUsage_declines hlimit)
        simp only [if_neg (inviteOnly_declines hinvite), if_neg (letSChangeTheTopic_declines htopic),
          if_neg (secretKey_declines hkey), if_neg hl.1, if_neg hl.2,
          if_neg (operators_declines hops)]
        exact .numeric table hc (by decide) (clean.param 1)
  · simp only [hfirst, hroom]
    exact .numeric table hc (by decide) (clean.param 0)

/-- Every line is dispatched as the network reacts to it. -/
theorem dispatchCommand_follows (numbered : Numbered s) {line : Bytes} (h : LF ∉ line) :
    Follows s i c (Parser.parse line)
      ((s.network invariant.table).respond c.fd c.account (Parser.parse line))
      (dispatchCommand i line s) := by
  have clean := parse_clean h
  unfold dispatchCommand Network.respond
  simp only [Server.clientAt_of_getElem? hc]
  refine .ite Iff.rfl (fun command => passHundler_follows invariant hc command) fun _ => ?_
  refine .ite Iff.rfl (fun command => nickHundler_follows invariant hc clean command) fun _ => ?_
  refine .ite Iff.rfl (fun command => userHandler_follows invariant hc command) fun _ => ?_
  refine .ite Iff.rfl (fun command => ?_) fun _ => ?_
  · have small : ∀ ch ∈ s.channels, c.fd ∉ ch.memberFds → ch.memberFds.length < 2 ^ 31 :=
      fun ch hch => numbered.members_lt invariant.table hch (List.mem_of_getElem? hc)
    exact joinHandler_follows invariant hc small clean command
  refine .ite Iff.rfl (fun command => ?_) fun _ => ?_
  · exact privmsgHandler_follows invariant hc clean command Parser.param_zero_ne_nil
  refine .ite Iff.rfl (fun command => topicHandler_follows invariant hc clean command) fun _ => ?_
  refine .ite Iff.rfl (fun command => kickHandler_follows invariant hc clean command) fun _ => ?_
  refine .ite Iff.rfl (fun command => ?_) fun _ => ?_
  · exact inviteHandler_follows invariant hc clean command Parser.param_zero_ne_nil
  refine .ite Iff.rfl (fun command => modes_follows invariant hc clean command) fun _ => ?_
  by_cases hempty : (Parser.parse line).command = []
  · have hnone : (!((Parser.parse line).cmd.map toUpper).isEmpty) = false := by
      rw [Bool.not_eq_false', List.isEmpty_iff]
      exact hempty
    rw [if_pos hempty, if_neg (Bool.eq_false_iff.mp hnone)]
    exact .silence hc
  · have hsome : (!((Parser.parse line).cmd.map toUpper).isEmpty) = true := by
      rw [Bool.not_eq_true', List.isEmpty_eq_false_iff]
      exact hempty
    rw [if_neg hempty, if_pos hsome]
    exact .numeric invariant.table hc (by decide) clean.command

end Dispatch

end IrcServer
