/-
  The records that accepted operations write, after the fork of the operation tracking.
-/
import Gwat.Validator.DepositFrame

namespace Gwat

open GoLib List StateDB

variable {valAddr c : Address} {s s' : StateDB} {v v' : Validator}

/-! ## The stakes of a record -/

namespace Validator

variable {v v' : Validator} {a b : Address} {x new : ℤ}
variable {l : List StakeByAddress} {n : ℤ}

/-- The first entry of an address in a list of stakes. -/
def stakeOf (l : List StakeByAddress) (a : Address) : ℤ :=
  ((l.find? (·.address = a)).map (·.sum)).getD 0

theorem stakeByAddress_eq (v : Validator) (a : Address) : v.stakeByAddress a = stakeOf v.stake a :=
  rfl

@[simp] theorem stakeOf_nil (a : Address) : stakeOf [] a = 0 := rfl

theorem stakeOf_cons (e : StakeByAddress) (l : List StakeByAddress) (a : Address) :
    stakeOf (e :: l) a = if e.address = a then e.sum else stakeOf l a := by
  by_cases h : e.address = a <;> simp [stakeOf, h]

theorem stakeOf_addFirst : ∀ (l : List StakeByAddress), (b = a → ∃ e ∈ l, e.address = a) →
    stakeOf (addStake.addFirst a x l) b = stakeOf l b + if b = a then x else 0
  | [], h => by
    have hb : b ≠ a := fun hb => by simpa using h hb
    simp [addStake.addFirst, hb]
  | e :: l, h => by
    by_cases he : e.address = a
    · simp only [addStake.addFirst, if_pos he, stakeOf_cons]
      grind
    · have ih := stakeOf_addFirst l fun hb => by simpa [he] using h hb
      simp only [addStake.addFirst, if_neg he, stakeOf_cons, ih]
      grind

theorem stakeOf_snoc (h : ∀ e ∈ l, e.address ≠ a) :
    stakeOf (l ++ [⟨a, x⟩]) b = stakeOf l b + if b = a then x else 0 := by
  induction l with
  | nil => simp [stakeOf_cons, eq_comm]
  | cons e l ih =>
    obtain ⟨he, hl⟩ := forall_mem_cons.1 h
    rw [cons_append, stakeOf_cons, stakeOf_cons, ih hl]
    grind

/-- A deposit adds to the stake of its sender only. -/
theorem stakeByAddress_addStake (v : Validator) (a b : Address) (x : ℤ) :
    (v.addStake a x).stakeByAddress b = v.stakeByAddress b + if b = a then x else 0 := by
  rw [addStake]
  by_cases hany : v.stake.any (·.address = a)
  · rw [if_pos hany]
    exact stakeOf_addFirst _ fun _ => by simpa using hany
  · rw [if_neg hany]
    exact stakeOf_snoc (by simpa using hany)

theorem subtractStake_go_eq_ok : ∀ {l l' : List StakeByAddress} {new : ℤ},
    subtractStake.go a x l = .ok (new, l') →
    new = stakeOf l a - x ∧ x ≤ stakeOf l a ∧
      (∀ b, stakeOf l' b = stakeOf l b - if b = a then x else 0) ∧
      l'.length = l.length ∧ ∀ e' ∈ l', e' ∈ l ∨ e'.sum = new
  | [], _, _, h => by cases h
  | e :: l, l', new, h => by
    rw [subtractStake.go] at h
    split_ifs at h with he hlt
    · cases h
      simp only [stakeOf_cons]
      grind
    · obtain ⟨⟨new', l₁⟩, hgo, h⟩ := bind_eq_ok.1 h
      obtain ⟨rfl, rfl⟩ := return_eq_ok.1 h
      obtain ⟨hnew, hle, hstake, hlen, hsum⟩ := subtractStake_go_eq_ok hgo
      simp only [stakeOf_cons, hstake, if_neg he]
      refine ⟨hnew, hle, fun b => ?_, by simp [hlen], ?_⟩ <;> grind

theorem stakeOf_lt (hn : 0 < n) (h : ∀ e ∈ l, e.sum < n) (a : Address) : stakeOf l a < n := by
  induction l with
  | nil => simpa using hn
  | cons e l ih =>
    rw [stakeOf_cons]
    split_ifs
    · exact h e (by simp)
    · exact ih fun e' he' => h e' (by simp [he'])

theorem stakeByAddress_rmStakeByAddress (v : Validator) (a b : Address) :
    (v.rmStakeByAddress a).stakeByAddress b = if b = a then 0 else v.stakeByAddress b := by
  rw [stakeByAddress_eq, rmStakeByAddress, stakeByAddress_eq]
  induction v.stake with
  | nil => simp
  | cons e l ih =>
    rw [filter_cons]
    split_ifs with he <;> simp only [stakeOf_cons, ih] <;> grind

theorem length_addStake (v : Validator) (a : Address) (x : ℤ) :
    (v.addStake a x).stake.length ≤ v.stake.length + 1 := by
  have hfirst : ∀ l : List StakeByAddress, (addStake.addFirst a x l).length = l.length := by
    intro l
    induction l with
    | nil => rfl
    | cons e l ih =>
      rw [addStake.addFirst]
      split_ifs <;> simp [ih]
  rw [addStake]
  split_ifs <;> simp [hfirst]

theorem sum_le_of_mem_addStake (hx : 0 ≤ x) (hn : 0 ≤ n) (h : ∀ e ∈ v.stake, e.sum < n) :
    ∀ e ∈ (v.addStake a x).stake, e.sum < n + x + 1 := by
  have hfirst : ∀ l : List StakeByAddress, (∀ e ∈ l, e.sum < n) →
      ∀ e ∈ addStake.addFirst a x l, e.sum < n + x + 1 := by
    intro l
    induction l with
    | nil => simp [addStake.addFirst]
    | cons e l ih =>
      intro hl e' he'
      rw [addStake.addFirst] at he'
      grind
  rw [addStake]
  split_ifs
  · exact hfirst v.stake h
  · grind

end Validator

/-! ## Records in their accounts -/

/-- The record of the account, if it has one, is its own and has room for one more stake. -/
def RecordInPlace (s : StateDB) (c : Address) : Prop :=
  ∀ v, getValidator .binary s c = .ok v → v.address = c ∧ v.Small

/-- The record is written to its account, and besides it only the validators' account gets
    other code. -/
def WritesRecord (valAddr : Address) (s s' : StateDB) (v' : Validator) : Prop :=
  ∃ bin, v'.marshalBinary = .ok bin ∧
    ∀ a, a ≠ valAddr → s'.getCode a = if a = v'.address then bin else s.getCode a

/-- The stored record `v` is replaced by `v'`, which fits in its encoding. -/
structure Rewrites (valAddr : Address) (s s' : StateDB) (v v' : Validator) : Prop where
  read : getValidator .binary s v'.address = .ok v
  fits : v'.Fits
  writes : WritesRecord valAddr s s' v'

namespace WritesRecord

variable {valAddr a : Address} {s s' : StateDB} {v' : Validator}

theorem getCode_of_ne (h : WritesRecord valAddr s s' v') (ha : a ≠ valAddr)
    (hne : a ≠ v'.address) : s'.getCode a = s.getCode a := by
  obtain ⟨bin, -, hcode⟩ := h
  exact (hcode a ha).trans (if_neg hne)

theorem getValidator_self (h : WritesRecord valAddr s s' v') (hfits : v'.Fits)
    (hne : v'.address ≠ valAddr) : getValidator .binary s' v'.address = .ok v'.normal := by
  obtain ⟨bin, hbin, hcode⟩ := h
  exact getValidator_of_marshalBinary hbin hfits ((hcode _ hne).trans (if_pos rfl))

end WritesRecord

theorem RecordInPlace.rewrites {bin : Bytes} (h : RecordInPlace s c)
    (hv : getValidator .binary s c = .ok v) (haddr : v'.address = v.address)
    (hstake : v'.stake = v.stake) (htxs : v'.depositTxs = v.depositTxs)
    (hdelegate : v'.delegatingStake = v.delegatingStake) (hbin : v'.marshalBinary = .ok bin)
    (hcode : ∀ a, a ≠ valAddr → s'.getCode a = if a = v'.address then bin else s.getCode a) :
    v.address = c ∧ Rewrites valAddr s s' v v' := by
  obtain ⟨hhome, hsmall⟩ := h v hv
  refine ⟨hhome, haddr.trans hhome ▸ hv, ?_, bin, hbin, hcode⟩
  refine hsmall.fits (by rw [hstake]; omega) (fun e he => ?_) (by rw [htxs]; omega) hdelegate
  have := hsmall.sums e (hstake ▸ he)
  omega

theorem value_lt_of_bnCanCastToUint64 {value : ℤ} (h : bnCanCastToUint64 (value / bigGwei)) :
    value < 2 ^ 95 := by
  have hlt : value / bigGwei < 2 ^ 64 := (of_decide_eq_true h).2
  rw [bigGwei] at hlt
  omega

namespace Processor

variable {p : Processor} {s s' : StateDB} {caller toAddr : Address} {value opAmount : ℤ}
  {txHash : Hash} {ret : Bytes}
variable {op : SyncOp} {v v' : Validator} {amount : ℤ} {withdrawalTo : Address}

/-! ## Operations of users -/

theorem small_of_depositRecord {op : DepositOp} (hcodec : p.codec = .binary)
    (h : p.depositRecord s op = .ok v) (hrec : RecordInPlace s op.creatorAddress)
    (hdelegate : (DelegatingStakeData.marshalBinary op.delegatingStake).length < 2 ^ 32) :
    v.Small := by
  rcases depositRecord_eq_ok h with ⟨-, hfresh⟩ | ⟨hget, -⟩
  · rw [freshRecord_eq_ok hfresh]
    exact ⟨by simp [newValidator], by simp [newValidator], by simp [newValidator], hdelegate⟩
  · exact (hrec v (hcodec ▸ hget)).2

theorem stake_depositedRecord (v : Validator) :
    (p.depositedRecord v caller value txHash).stake = (v.addStake caller value).stake := by
  simp only [depositedRecord, Validator.addStake, Validator.addDepositTxs,
    updateValidatorVersionBySlot]
  split_ifs <;> rfl

theorem length_depositTxs_depositedRecord (v : Validator) :
    (p.depositedRecord v caller value txHash).depositTxs.length ≤ v.depositTxs.length + 1 := by
  have hdedup := (dedup_sublist (v.depositTxs ++ [txHash]).reverse).length_le
  simp only [depositedRecord, Validator.addStake, Validator.addDepositTxs,
    updateValidatorVersionBySlot]
  split_ifs <;> simp_all

theorem fits_depositedRecord (hsmall : v.Small) (hmin : 0 ≤ value)
    (hcast : bnCanCastToUint64 (value / bigGwei)) :
    (p.depositedRecord v caller value txHash).Fits := by
  have hvalue := value_lt_of_bnCanCastToUint64 hcast
  refine hsmall.fits ?_ (fun e he => ?_) (length_depositTxs_depositedRecord v) ?_
  · rw [stake_depositedRecord]
    exact Validator.length_addStake _ _ _
  · rw [stake_depositedRecord] at he
    have := Validator.sum_le_of_mem_addStake hmin (by norm_num) hsmall.sums e he
    omega
  · rw [depositedRecord_eq]

theorem validatorDeposit_writes {op : DepositOp} (hcodec : p.codec = .binary)
    (hrec : RecordInPlace s op.creatorAddress)
    (hdelegate : (DelegatingStakeData.marshalBinary op.delegatingStake).length < 2 ^ 32)
    (h : p.validatorDeposit s caller toAddr value op txHash = .ok (ret, s')) :
    ∃ v, p.depositRecord s op = .ok v ∧ (p.depositedRecord v caller value txHash).Fits ∧
      WritesRecord p.validatorsStateAddress s s' (p.depositedRecord v caller value txHash) ∧
      0 ≤ value ∧ ∀ a, s'.getBalance a = s.getBalance a - if a = caller then value else 0 := by
  obtain ⟨hmin, hcast, v, bin, n, log, hv, -, hbin, -, hs'⟩ := validatorDeposit_eq_ok h
  rw [hcodec] at hbin
  have hvalue : 0 ≤ value := le_trans (by decide) hmin
  have hfits : (p.depositedRecord v caller value txHash).Fits :=
    fits_depositedRecord (small_of_depositRecord hcodec hv hrec hdelegate) hvalue hcast
  refine ⟨v, hv, hfits, ⟨bin, hbin, fun a ha => ?_⟩, hvalue, fun a => ?_⟩
  · rw [hs']
    simp [getCode_setCode, ha]
  · rw [hs', getBalance_subBalance]
    simp

theorem validatorExit_writes {op : ExitOp} (hcodec : p.codec = .binary)
    (hrec : RecordInPlace s op.creatorAddress)
    (h : p.validatorExit s caller toAddr op txHash = .ok (ret, s')) :
    ∃ v, v.address = op.creatorAddress ∧ Rewrites p.validatorsStateAddress s s' v
      ((p.updateValidatorVersionBySlot v).setExitTx (some txHash)) := by
  obtain ⟨v, bin, log, hv, hbin, hs'⟩ := validatorExit_eq_ok h
  rw [hcodec] at hv hbin
  refine ⟨v, hrec.rewrites hv rfl rfl rfl rfl hbin fun a _ => ?_⟩
  rw [hs', getCode_addLog, getCode_setCode]
  rfl

theorem withdrawalAmount_eq_ok (hfork : p.blockchain.config.isForkSlotValOpTracking p.ctx.slot)
    (h : p.withdrawalAmount v caller opAmount = .ok (amount, v')) : v' = v := by
  rw [withdrawalAmount, withdrawInsufficientDeposit, if_neg (not_not.2 hfork)] at h
  split_ifs at h <;> simp_all [bind_eq_ok]

theorem validatorWithdrawal_writes {op : WithdrawalOp} (hcodec : p.codec = .binary)
    (hfork : p.blockchain.config.isForkSlotValOpTracking p.ctx.slot)
    (hrec : RecordInPlace s op.creatorAddress)
    (h : p.validatorWithdrawal s caller toAddr op txHash = .ok (ret, s')) :
    ∃ v, v.address = op.creatorAddress ∧ Rewrites p.validatorsStateAddress s s' v
      ((p.updateValidatorVersionBySlot v).setWithdrawalTx (some txHash)) := by
  obtain ⟨v, amount, v', bin, log, hv, -, hamount, hbin, hs'⟩ := validatorWithdrawal_eq_ok h
  rw [hcodec] at hv hbin
  obtain rfl := withdrawalAmount_eq_ok hfork hamount
  exact ⟨v, hrec.rewrites hv rfl rfl rfl rfl hbin fun a _ => by simp [hs', getCode_setCode]⟩

/-! ## Operations of the coordinator -/

theorem validatorActivate_writes (hcodec : p.codec = .binary)
    (hfork : p.blockchain.config.isForkSlotValOpTracking p.ctx.slot)
    (hrec : RecordInPlace s op.creator) (h : p.validatorActivate s op = .ok (ret, s')) :
    ∃ v era, v.address = op.creator ∧ v.activationEra = maxUint64 ∧
      Rewrites p.validatorsStateAddress s s' v (p.activatedRecord v op era) := by
  obtain ⟨v, era, bin, s₁, ls, hv, hact, -, hbin, hs₁, hs'⟩ := validatorActivate_eq_ok h
  rw [hcodec] at hv hbin
  obtain ⟨hhome, hsmall⟩ := hrec v hv
  have hfits : (p.activatedRecord v op era).Fits :=
    hsmall.fits (Nat.zero_le _) (by simp [activatedRecord]) (Nat.zero_le _) rfl
  refine ⟨v, era, hhome, hact hfork, hhome.symm ▸ hv, hfits, bin, hbin, fun a ha => ?_⟩
  have hself : s₁.getCode a = if a = v.address then bin else s.getCode a := by
    rcases hs₁ with rfl | ⟨code, rfl⟩ <;> simp [getCode_setCode, ha]
  rw [hs', getCode_withLogs, hself]
  rfl

theorem validatorDeactivate_writes (hcodec : p.codec = .binary)
    (hrec : RecordInPlace s op.creator) (h : p.validatorDeactivate s op = .ok (ret, s')) :
    ∃ v era, v.exitEra = maxUint64 ∧ p.opEra op.procEpoch = .ok era ∧
      v.activationEra < (if p.blockchain.config.isForkSlotValSyncProc p.ctx.slot then p.ctx.era
        else era.number) ∧
      v.address = op.creator ∧
      Rewrites p.validatorsStateAddress s s' v (p.deactivatedRecord v era) := by
  obtain ⟨v, era, bin, ls, hv, hmax, hera, hguard, hbin, hs'⟩ := validatorDeactivate_eq_ok h
  rw [hcodec] at hv hbin
  refine ⟨v, era, hmax, hera, hguard, hrec.rewrites hv rfl rfl rfl rfl hbin fun a _ => ?_⟩
  rw [hs', getCode_withLogs, getCode_setCode]
  rfl

/-- A refund takes the amount from the stake of its receiver, or the whole stake if that is
    less, and changes nothing else. -/
theorem refundInsufficientDeposit_stake
    (hfork : p.blockchain.config.isForkSlotValOpTracking p.ctx.slot)
    (hamount : op.amount = some amount)
    (h : p.refundInsufficientDeposit v op = .ok (withdrawalTo, v')) :
    v' = { v with stake := v'.stake } ∧ v'.stake.length ≤ v.stake.length ∧
      (0 ≤ amount → ∀ n, 0 < n → (∀ e ∈ v.stake, e.sum < n) → ∀ e' ∈ v'.stake, e'.sum < n) ∧
      ∀ a, v'.stakeByAddress a = v.stakeByAddress a -
        if a = withdrawalTo then min (v.stakeByAddress withdrawalTo) amount else 0 := by
  obtain ⟨initTx, -, rfl, hrefund, -⟩ := refundInsufficientDeposit_eq_ok h
  obtain ⟨amount', new, v₁, hamount', hsub, hv'⟩ := hrefund hfork
  obtain rfl : amount = amount' := by simpa [hamount] using hamount'
  obtain ⟨⟨new', l⟩, hgo, hv₁⟩ := bind_eq_ok.1 hsub
  obtain ⟨rfl, rfl⟩ := return_eq_ok.1 hv₁
  obtain ⟨hnew, -, hstake, hlen, hmem⟩ := Validator.subtractStake_go_eq_ok hgo
  rw [← Validator.stakeByAddress_eq] at hnew
  have hsum : 0 ≤ amount → ∀ n, 0 < n → (∀ e ∈ v.stake, e.sum < n) → ∀ e' ∈ l, e'.sum < n := by
    intro hpos n hn hlt e' he'
    rcases hmem e' he' with he | he
    · exact hlt e' he
    · have hcur := Validator.stakeOf_lt hn hlt initTx.sender
      rw [Validator.stakeByAddress_eq] at hnew
      omega
  split_ifs at hv' with hzero
  · -- the stake is used up and its entry removed
    subst hv'
    refine ⟨rfl, le_trans (length_filter_le _ _) hlen.le,
      fun hpos n hn hlt e' he' => hsum hpos n hn hlt e' (mem_of_mem_filter he'), fun a => ?_⟩
    rw [Validator.stakeByAddress_rmStakeByAddress]
    split_ifs with ha
    · rw [ha]
      omega
    · rw [Validator.stakeByAddress_eq, hstake, if_neg ha]
      rfl
  · subst hv'
    exact ⟨rfl, hlen.le, hsum, hstake⟩

theorem payWithdrawal_writes (hcodec : p.codec = .binary)
    (h : p.payWithdrawal s op v withdrawalTo = .ok (ret, s')) :
    ∃ bin amount, v.marshalBinary = .ok bin ∧ op.amount = some amount ∧
      (∀ a, s'.getCode a = if a = v.address then bin else s.getCode a) ∧
      ∀ a, s'.getBalance a = s.getBalance a + if a = withdrawalTo then amount else 0 := by
  obtain ⟨bin, amount, ls, hbin, hamount, hs'⟩ := payWithdrawal_eq_ok h
  rw [hcodec] at hbin
  subst hs'
  exact ⟨bin, amount, hbin, hamount, by simp [getCode_setCode],
    by simp [getBalance_addBalance]⟩

/-- The refund of an insufficient deposit takes the amount from the recorded stake and pays it. -/
theorem refund_writes
    (hcodec : p.codec = .binary) (hfork : p.blockchain.config.isForkSlotValOpTracking p.ctx.slot)
    (hsmall : v.Small) (hpos : ∀ amount ∈ op.amount, 0 ≤ amount)
    (hrefund : p.refundInsufficientDeposit
      ((p.updateValidatorVersionBySlot v).setWithdrawalTx none) op = .ok (withdrawalTo, v'))
    (h : p.payWithdrawal s op v' withdrawalTo = .ok (ret, s')) :
    v' = { (p.updateValidatorVersionBySlot v).setWithdrawalTx none with stake := v'.stake } ∧
      v'.Fits ∧ WritesRecord p.validatorsStateAddress s s' v' ∧
      ∃ amount ∈ op.amount,
        (∀ a, v'.stakeByAddress a = v.stakeByAddress a -
          if a = withdrawalTo then min (v.stakeByAddress withdrawalTo) amount else 0) ∧
        ∀ a, s'.getBalance a = s.getBalance a + if a = withdrawalTo then amount else 0 := by
  obtain ⟨bin, amount, hbin, hamount, hcode, hbalance⟩ := payWithdrawal_writes hcodec h
  obtain ⟨hv', hlen, hsum, hstake⟩ := refundInsufficientDeposit_stake hfork hamount hrefund
  refine ⟨hv', ?_, ⟨bin, hbin, fun a _ => hcode a⟩, amount, hamount, hstake, hbalance⟩
  refine hsmall.fits (Nat.le_succ_of_le hlen) (fun e he => ?_)
    (by rw [hv']; exact Nat.le_succ _) (by rw [hv']; rfl)
  exact lt_trans (hsum (hpos amount hamount) _ (by norm_num) hsmall.sums e he) (by norm_num)

theorem payShares_getCode (es : List ShareRuleApplying) (a : Address) :
    (payShares s es).getCode a = s.getCode a := by
  induction es generalizing s with
  | nil => rfl
  | cons e es ih => exact ih.trans (getCode_addBalance e.amount)

/-- A payout replaces the record by one without pending withdrawal, unless it follows the
    rules of a delegating validator: then no record is written. -/
theorem validatorUpdateBalance_writes (hcodec : p.codec = .binary)
    (hfork : p.blockchain.config.isForkSlotValOpTracking p.ctx.slot)
    (hrec : RecordInPlace s op.creator) (hpos : ∀ amount ∈ op.amount, 0 ≤ amount)
    (h : p.validatorUpdateBalance s op = .ok (ret, s')) :
    ∃ v, getValidator .binary s op.creator = .ok v ∧
      (¬ p.PaysShares v ∧ (∃ stake, Rewrites p.validatorsStateAddress s s' v
          { (p.updateValidatorVersionBySlot v).setWithdrawalTx none with stake := stake }) ∨
        p.PaysShares v ∧ SameCode s s') := by
  obtain ⟨v, hv, h⟩ := validatorUpdateBalance_eq_ok h
  rw [hcodec] at hv
  obtain ⟨hhome, hsmall⟩ := hrec v hv
  refine ⟨v, hv, ?_⟩
  rcases payBalance_eq_ok h with ⟨hins, withdrawalTo, v', hrefund, hpay⟩ | ⟨hshares, hpay⟩ |
    ⟨⟨-, hno⟩, dst, hpay⟩
  · obtain ⟨hv', hfits, hwrites, -⟩ := refund_writes hcodec hfork hsmall hpos hrefund hpay
    rw [hv'] at hfits hwrites
    exact .inl ⟨fun hshares => hshares.1 hins, v'.stake, hhome.symm ▸ hv, hfits, hwrites⟩
  · obtain ⟨entries, ls, rfl⟩ := applyDelegatingStakeRules_eq_ok hpay
    exact .inr ⟨hshares, payShares_getCode entries⟩
  · obtain ⟨bin, -, hbin, -, hcode, -⟩ := payWithdrawal_writes hcodec hpay
    have hrewrites : v.address = op.creator ∧ Rewrites p.validatorsStateAddress s s' v
        ((p.updateValidatorVersionBySlot v).setWithdrawalTx none) :=
      hrec.rewrites hv rfl rfl rfl rfl hbin fun a _ => hcode a
    exact .inl ⟨hno, v.stake, hrewrites.2⟩

end Processor

end Gwat
