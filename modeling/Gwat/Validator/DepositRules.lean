/-
  The delegating rules of a deposit (`validator/operation/deposit.go`,
  `delegated_stake_data.go`).
-/
import Gwat.Validator.DepositFrame

namespace Gwat

open GoLib DelegatingStakeRules

variable {shares shares' : List UInt8} {r r' : DelegatingStakeRules}

/-! ## What the rules grant -/

/-- The shares of the map total `n`. -/
def SharesTotal (share : Option (GoMap Address UInt8)) (n : ℕ) : Prop :=
  ∃ m, share = some m ∧ sumBy UInt8.toNat m = n

/-- The map has a share. -/
def Shared (share : Option (GoMap Address UInt8)) : Prop :=
  ∃ m, share = some m ∧ 0 < m.keys.length

/-- Someone has the role. -/
def Granted (role : Option (List Address)) : Prop := ∃ l, role = some l ∧ 0 < l.length

/-- A payout under the rules is shared in full, and someone may exit and someone withdraw. -/
structure Claimable (r : DelegatingStakeRules) : Prop where
  profit : SharesTotal r.profitShare 100
  stake : SharesTotal r.stakeShare 100
  exit : Granted r.exit
  withdrawal : Granted r.withdrawal

/-- What holds of trial rules, which may be left out: under rules that let someone withdraw or,
    in a trial period, share a profit, the profit is shared in full and someone may withdraw;
    under rules that let someone exit or, in a trial period, share the stake, both are shared
    in full and someone may exit. -/
structure TrialClaimable (trialPeriod : UInt64) (r : DelegatingStakeRules) : Prop where
  withdrawal : (0 < trialPeriod ∧ Shared r.profitShare) ∨ Granted r.withdrawal →
    SharesTotal r.profitShare 100 ∧ Granted r.withdrawal
  exit : (0 < trialPeriod ∧ Shared r.stakeShare) ∨ Granted r.exit →
    SharesTotal r.profitShare 100 ∧ SharesTotal r.stakeShare 100 ∧ Granted r.exit

instance (share : Option (GoMap Address UInt8)) (n : ℕ) : Decidable (SharesTotal share n) :=
  match share with
  | none => .isFalse fun ⟨_, h, _⟩ => by cases h
  | some m => decidable_of_iff (sumBy UInt8.toNat m = n)
      ⟨fun h => ⟨m, rfl, h⟩, fun ⟨_, hm, h⟩ => by cases hm; exact h⟩

instance (role : Option (List Address)) : Decidable (Granted role) :=
  match role with
  | none => .isFalse fun ⟨_, h, _⟩ => by cases h
  | some l => decidable_of_iff (0 < l.length)
      ⟨fun h => ⟨l, rfl, h⟩, fun ⟨_, hl, h⟩ => by cases hl; exact h⟩

instance (r : DelegatingStakeRules) : Decidable (Claimable r) :=
  decidable_of_iff (_ ∧ _ ∧ _ ∧ _)
    ⟨fun ⟨h1, h2, h3, h4⟩ => ⟨h1, h2, h3, h4⟩, fun h => ⟨h.1, h.2, h.3, h.4⟩⟩

/-- No address has two shares of the profit, or two shares of the stake. -/
structure DistinctShares (r : DelegatingStakeRules) : Prop where
  profit : ((nonZeroShares r.addrs r.profitShares).map Prod.fst).Nodup
  stake : ((nonZeroShares r.addrs r.stakeShares).map Prod.fst).Nodup

/-- Each address has its shares. -/
structure Fitted (r : DelegatingStakeRules) : Prop where
  profit : r.profitShares.length = r.addrs.length
  stake : r.stakeShares.length = r.addrs.length

theorem fitted_of_copy (h : r.copy = some r') : Fitted r' := by
  obtain ⟨profitShares, hprofit, h⟩ := Option.bind_eq_some_iff.1 h
  obtain ⟨stakeShares, hstake, h⟩ := Option.bind_eq_some_iff.1 h
  cases h
  exact ⟨copyShares_eq_some hprofit, copyShares_eq_some hstake⟩

/-- With one share for each address, the shares of the map total what `Validate` sums up. -/
theorem sharesTotal_of_distinct {addrs : List Address} (hlen : shares.length = addrs.length)
    (hdistinct : ((nonZeroShares addrs shares).map Prod.fst).Nodup) :
    SharesTotal (shareMap addrs shares) (total shares) := by
  refine ⟨_, shareMap_eq hlen.ge, ?_⟩
  rw [← sum_nonZeroShares hlen]
  refine (sumBy_ofPairs_eq_iff fun e he => ?_).2 hdistinct
  have hpos : 0 < e.2 := by simpa using (List.mem_filter.1 he).2
  simpa using UInt8.lt_iff_toNat_lt.1 hpos

section
variable {r : DelegatingStakeRules} {u : Unit} {e : ValError}

theorem sharesTotal_of_check {addrs : List Address} {shares : List UInt8}
    (hlen : shares.length = addrs.length)
    (hdistinct : ((nonZeroShares addrs shares).map Prod.fst).Nodup)
    (h : (if total shares ≠ 100 then .error e else .ok () : Except ValError Unit) = .ok u) :
    SharesTotal (shareMap addrs shares) 100 := by
  split_ifs at h with htotal
  have hsum := sharesTotal_of_distinct hlen hdistinct
  rwa [not_not.1 htotal] at hsum

theorem granted_of_check {role : Option (List Address)}
    (h : (do let l ← orPanic role; if l.isEmpty then .error e else .ok ()) = .ok u) :
    Granted role := by
  obtain ⟨l, hl, h⟩ := bind_eq_ok.1 h
  split_ifs at h with hempty
  exact ⟨l, orPanic_eq_ok.1 hl, by simpa [List.length_pos_iff] using hempty⟩

theorem claimable_of_validate (hfit : Fitted r) (hdistinct : DistinctShares r)
    (h : r.validate = .ok u) : Claimable r := by
  simp only [validate, bind_eq_ok] at h
  obtain ⟨_, hprofit, _, hstake, _, hexit, hwithdrawal⟩ := h
  exact ⟨sharesTotal_of_check hfit.profit hdistinct.profit hprofit,
    sharesTotal_of_check hfit.stake hdistinct.stake hstake, granted_of_check hexit,
    granted_of_check hwithdrawal⟩

end

/-! ## The trial rules of a decoded deposit -/

namespace DelegatingStakeData

variable {d : DelegatingStakeData}

theorem trialGrants_eq_true {trialPeriod : UInt64} {share : Option (GoMap Address UInt8)}
    {role : Option (List Address)} {grants : Bool}
    (h : trialGrants trialPeriod share role = .ok grants)
    (hgrants : (0 < trialPeriod ∧ Shared share) ∨ Granted role) : grants = true := by
  obtain ⟨shared, hshared, h⟩ := bind_eq_ok.1 h
  cases shared with
  | true => exact (Except.ok.inj h).symm
  | false =>
    rcases hgrants with ⟨hperiod, m, rfl, hkeys⟩ | ⟨l, rfl, hl⟩
    · -- the share is seen before the role
      rw [trialShares, if_pos hperiod] at hshared
      exact absurd hkeys (of_decide_eq_false (Except.ok.inj hshared))
    · exact (Except.ok.inj h).symm.trans (decide_eq_true hl)

theorem trialClaimable_of_checks {u u' : Unit} (hfit : Fitted d.trialRules)
    (hdistinct : DistinctShares d.trialRules) (hwithdrawal : d.checkTrialWithdrawal = .ok u)
    (hexit : d.checkTrialExit = .ok u') : TrialClaimable d.trialPeriod d.trialRules := by
  constructor
  · intro hgrants
    obtain ⟨grants, hcase, h⟩ := bind_eq_ok.1 hwithdrawal
    have hchecks := checkIf_eq_ok.1 h (trialGrants_eq_true hcase hgrants)
    obtain ⟨_, hprofit, hrole⟩ := bind_eq_ok.1 hchecks
    exact ⟨sharesTotal_of_check hfit.profit hdistinct.profit hprofit, granted_of_check hrole⟩
  · intro hgrants
    obtain ⟨grants, hcase, h⟩ := bind_eq_ok.1 hexit
    have hchecks := checkIf_eq_ok.1 h (trialGrants_eq_true hcase hgrants)
    obtain ⟨_, hstake, hchecks⟩ := bind_eq_ok.1 hchecks
    obtain ⟨_, hrole, hprofit⟩ := bind_eq_ok.1 hchecks
    exact ⟨sharesTotal_of_check hfit.profit hdistinct.profit hprofit,
      sharesTotal_of_check hfit.stake hdistinct.stake hstake, granted_of_check hrole⟩

theorem checked_eq_ok {delegate : Option DelegatingStakeData}
    (h : checked delegate = .ok (some d)) :
    Fitted d.rules ∧ Fitted d.trialRules ∧ d.checkTrialWithdrawal = .ok () ∧
      d.checkTrialExit = .ok () := by
  cases delegate with
  | none => cases h
  | some raw =>
    simp only [checked, bind_eq_ok, orPanic_eq_ok, pure_eq_ok, Except.ok.injEq,
      Option.some.injEq] at h
    obtain ⟨_, hcopy, -, -, _, hwithdrawal, _, hexit, rfl⟩ := h
    obtain ⟨rules, hrules, hcopy⟩ := Option.bind_eq_some_iff.1 hcopy
    obtain ⟨trialRules, htrial, hcopy⟩ := Option.bind_eq_some_iff.1 hcopy
    cases hcopy
    exact ⟨fitted_of_copy hrules, fitted_of_copy htrial, hwithdrawal, hexit⟩

end DelegatingStakeData

theorem DepositOp.unmarshalBinary_eq_ok {b : Bytes} {op : DepositOp}
    (h : DepositOp.unmarshalBinary b = .ok op) : op.creatorAddress ≠ 0 ∧
      ∃ delegate, DelegatingStakeData.checked delegate = .ok op.delegatingStake := by
  simp only [unmarshalBinary, newDepositOperation, bind_eq_ok, failIf_eq_ok, pure_eq_ok,
    Except.ok.injEq] at h
  obtain ⟨-, -, delegate, -, -, -, -, hcreator, -, -, -, -, _, hchecked, rfl⟩ := h
  exact ⟨hcreator, delegate, hchecked⟩

/-! ## The rules that are selected -/

namespace Processor

variable {p : Processor} {s s' : StateDB} {caller toAddr : Address} {value : ℤ} {txHash : Hash}
  {ret : Bytes} {d : DelegatingStakeData}

/-- A deposit is processed only if its main rules are valid. -/
theorem validate_of_validatorDeposit {op : DepositOp} (hd : op.delegatingStake = some d)
    (h : p.validatorDeposit s caller toAddr value op txHash = .ok (ret, s')) :
    d.rules.validate = .ok () := by
  obtain ⟨-, -, v, _, _, _, hv, -, -⟩ := validatorDeposit_eq_ok h
  obtain ⟨fresh, hfresh, -⟩ := bind_eq_ok.1 hv
  rw [freshRecord, hd] at hfresh
  obtain ⟨_, -, hfresh⟩ := bind_eq_ok.1 hfresh
  obtain ⟨_, hvalid, -⟩ := bind_eq_ok.1 hfresh
  exact hvalid

theorem actualRules_eq_ok {v : Validator} {isTrial : Bool} {r : DelegatingStakeRules}
    (hd : v.delegatingStake = some d) (h : p.actualRules v = .ok (isTrial, r)) :
    r = if isTrial then d.trialRules else d.rules := by
  obtain ⟨d', hd', h⟩ := bind_eq_ok.1 h
  obtain ⟨isTrial', -, h⟩ := bind_eq_ok.1 h
  obtain ⟨rfl, rfl⟩ := return_eq_ok.1 h
  obtain rfl : d = d' := by simpa [hd] using hd'
  rfl

/-- The rules in force for a validator whose deposit was decoded and accepted, at any slot in
    any era: the main rules share every payout in full and let someone exit and someone
    withdraw, and the trial rules do so as far as they grant anything. -/
theorem selected_claimable (p p' : Processor) (s s' : StateDB) (caller toAddr : Address)
    (value : ℤ) (b ret : Bytes) (op : DepositOp) (txHash : Hash) (d : DelegatingStakeData)
    (hdecode : DepositOp.unmarshalBinary b = .ok op) (hdelegate : op.delegatingStake = some d)
    (haccept : p.validatorDeposit s caller toAddr value op txHash = .ok (ret, s'))
    (hdistinct : DistinctShares d.rules ∧ DistinctShares d.trialRules)
    (v : Validator) (hv : v.delegatingStake = some d) (isTrial : Bool) (r : DelegatingStakeRules)
    (hselect : p'.actualRules v = .ok (isTrial, r)) :
    (isTrial = false → Claimable r) ∧ (isTrial = true → TrialClaimable d.trialPeriod r) := by
  obtain ⟨-, delegate, hchecked⟩ := DepositOp.unmarshalBinary_eq_ok hdecode
  rw [hdelegate] at hchecked
  obtain ⟨hfit, htrial, hwithdrawal, hexit⟩ := DelegatingStakeData.checked_eq_ok hchecked
  rw [actualRules_eq_ok hv hselect]
  constructor
  · rintro rfl
    exact claimable_of_validate hfit hdistinct.1 (validate_of_validatorDeposit hdelegate haccept)
  · rintro rfl
    exact DelegatingStakeData.trialClaimable_of_checks htrial hdistinct.2 hwithdrawal hexit

end Processor

/-! ## Deposits without trial rules -/

/-- Two accounts share the profit and the stake; the second may exit and the first may
    withdraw. -/
def twoShares (a b : Address) : DelegatingStakeRules :=
  ⟨[a, b], [60, 40], [50, 50], [0b110], [0b101]⟩

/-- A deposit with the given rules and a trial period of 321 slots. -/
def delegatedOp (rules trialRules : DelegatingStakeRules) : DepositOp :=
  { depositFor 12 with delegatingStake := some ⟨rules, 321, trialRules⟩ }

/-- The data of the deposit is decoded, and the deposit is processed. -/
def delegatedRun (op : DepositOp) : Except ValError (Bytes × StateDB) := do
  let op ← DepositOp.unmarshalBinary op.marshalBinary
  Processor.devnet.validatorDeposit (depositState 0xFFFF (uint64BytesBE 0)) 1 0xFFFF
    (10 * bigWat) op 5

/-- The processor of slot 400, after the trial period of validators activated in era 0. -/
def laterProcessor : Processor := { Processor.devnet with ctx := ⟨400, 0, 1⟩ }

/-- Rules that are valid, with a trial in which the two accounts change places. -/
def validOp : DepositOp := delegatedOp (twoShares 1 2) (twoShares 2 1)

/-- Before the activation the trial rules are selected, after the trial the main rules. -/
theorem selected_claimable_two :
    ∃ ret s' v rt rm, delegatedRun validOp = .ok (ret, s') ∧
      getValidator .binary s' 12 = .ok v ∧
      Processor.devnet.actualRules v = .ok (true, rt) ∧ TrialClaimable 321 rt ∧
      laterProcessor.actualRules { v with activationEra := 0 } = .ok (false, rm) ∧
      Claimable rm := by
  have hdecodes : (DepositOp.unmarshalBinary validOp.marshalBinary).toOption.any
      (fun op => op = validOp) = true := by decide +kernel
  have hok : (delegatedRun validOp).toOption.any (fun (r : _ × StateDB) => decide (∃ v,
      getValidator .binary r.2 12 = .ok v ∧ v.delegatingStake = validOp.delegatingStake ∧
      (∃ q, Processor.devnet.actualRules v = .ok q ∧ q.1 = true) ∧
      ∃ q, laterProcessor.actualRules { v with activationEra := 0 } = .ok q ∧ q.1 = false)) =
      true := by decide +kernel
  obtain ⟨op, hdecode, hop⟩ := any_toOption.1 hdecodes
  obtain rfl : op = validOp := of_decide_eq_true hop
  obtain ⟨⟨ret, s'⟩, h, hcheck⟩ := any_toOption.1 hok
  obtain ⟨v, hv, hdata, ⟨⟨_, rt⟩, ht, rfl⟩, ⟨_, rm⟩, hm, rfl⟩ := of_decide_eq_true hcheck
  obtain ⟨op, hdecode', haccept⟩ := bind_eq_ok.1 h
  obtain rfl : validOp = op := Except.ok.inj (hdecode.symm.trans hdecode')
  have hdistinct : DistinctShares (twoShares 1 2) ∧ DistinctShares (twoShares 2 1) :=
    ⟨⟨by decide, by decide⟩, by decide, by decide⟩
  have hselected := fun p' => Processor.selected_claimable Processor.devnet p' _ s' _ _ _ _ ret
    validOp 5 _ hdecode rfl haccept hdistinct
  exact ⟨ret, s', v, rt, rm, h, hv, ht, (hselected _ v hdata _ rt ht).2 rfl, hm,
    (hselected _ { v with activationEra := 0 } hdata _ rm hm).1 rfl⟩

/-- The deposit is decoded and accepted, but the rules that are selected for its record, with
    the given activation era, are not claimable. -/
def SelectsUnclaimable (op : DepositOp) (p' : Processor) (activationEra : UInt64) : Prop :=
  ∃ r, delegatedRun op = .ok r ∧ ∃ v, getValidator .binary r.2 12 = .ok v ∧
    ∃ q, p'.actualRules { v with activationEra := activationEra } = .ok q ∧ ¬ Claimable q.2

instance (op : DepositOp) (p' : Processor) (activationEra : UInt64) :
    Decidable (SelectsUnclaimable op p' activationEra) := by
  unfold SelectsUnclaimable
  infer_instance

/-- A deposit without trial rules: before the activation nobody may exit or withdraw.  And a
    deposit whose rules name account 1 twice: after the trial it has one of its two shares. -/
theorem trial_rules_left_out :
    SelectsUnclaimable (delegatedOp (twoShares 1 2) {}) Processor.devnet maxUint64 ∧
    SelectsUnclaimable (delegatedOp (twoShares 1 1) (twoShares 1 2)) laterProcessor 0 := by
  constructor <;> decide +kernel

end Gwat
