/-
  The stakes of a validator that is not activated, as a ledger.
-/
import Gwat.Validator.RecordWrites

namespace Gwat

open GoLib List

variable {s s₀ : StateDB} {c valAddr : Address} {v v' : Validator}

/-! ## The ledger -/

/-- The stake of `a` in the record of the validator `c`. -/
def recordedStake (s : StateDB) (c a : Address) : ℤ :=
  match getValidator .binary s c with
  | .ok v => v.stakeByAddress a
  | .error _ => 0

theorem recordedStake_of_ok (h : getValidator .binary s c = .ok v) (a : Address) :
    recordedStake s c a = v.stakeByAddress a := by
  rw [recordedStake, h]

theorem recordedStake_of_not_ok (h : ∀ v, getValidator .binary s c ≠ .ok v) (a : Address) :
    recordedStake s c a = 0 := by
  rw [recordedStake]
  split <;> simp_all

namespace OpStep

/-- What `a` pays in a deposit. -/
def paidIn (st : OpStep) (a : Address) : ℤ :=
  match st.op with
  | .deposit _ => st.before.getBalance a - st.after.getBalance a
  | _ => 0

/-- What a refund pays to `a`. -/
def paidOut (st : OpStep) (a : Address) : ℤ :=
  match st.op with
  | .sync _ => st.after.getBalance a - st.before.getBalance a
  | _ => 0

/-- A deposit, a withdrawal request, or a balance update that takes the refund path. -/
def StakeKind (c : Address) (st : OpStep) : ValOp → Prop
  | .deposit _ => True
  | .withdrawal _ => True
  | .exit _ => False
  | .sync op => op.opType = .updateBalance ∧
    ∃ v, getValidator .binary st.before c = .ok v ∧ st.p.isInsufficientDeposit v

instance (c : Address) (st : OpStep) (op : ValOp) : Decidable (st.StakeKind c op) := by
  cases op <;> dsimp only [StakeKind] <;> infer_instance

/-- The step is such an operation for the validator `c`, after the tracking fork. -/
structure IsStakeOp (c : Address) (st : OpStep) : Prop where
  fork : st.p.blockchain.config.isForkSlotValOpTracking st.p.ctx.slot
  creator : st.op.creator = c
  kind : st.StakeKind c st.op

instance (c : Address) (st : OpStep) : Decidable (st.IsStakeOp c) :=
  decidable_of_iff (_ ∧ _ ∧ _) ⟨fun ⟨h1, h2, h3⟩ => ⟨h1, h2, h3⟩, fun h => ⟨h.1, h.2, h.3⟩⟩

/-- The data of a new validator has a length of four bytes, and a refund is covered by the
    stake of the sender of the request. -/
def Covered (c : Address) (st : OpStep) : ValOp → Prop
  | .deposit op => (DelegatingStakeData.marshalBinary op.delegatingStake).length < 2 ^ 32
  | .withdrawal _ => True
  | .exit _ => True
  | .sync op => ∀ initTx ∈ st.p.blockchain.getTransaction op.initTxHash, ∀ amount ∈ op.amount,
    0 ≤ amount ∧ amount ≤ recordedStake st.before c initTx.sender

instance (c : Address) (st : OpStep) (op : ValOp) : Decidable (st.Covered c op) := by
  cases op <;> dsimp only [Covered] <;> infer_instance

/-- The validator is not the validators' account, its record has room for one more stake,
    and a refund is covered by the stake. -/
structure WithinStake (c : Address) (st : OpStep) : Prop where
  creator_ne : c ≠ st.p.validatorsStateAddress
  small : ∀ v, getValidator .binary st.before c = .ok v → v.Small
  covered : st.Covered c st.op

instance (c : Address) (st : OpStep) : Decidable (st.WithinStake c) :=
  decidable_of_iff (_ ∧ _ ∧ _) ⟨fun ⟨h1, h2, h3⟩ => ⟨h1, h2, h3⟩, fun h => ⟨h.1, h.2, h.3⟩⟩

end OpStep

variable {s : StateDB} {c : Address}

/-- What `a` paid in the deposits of a run. -/
def deposited (steps : List OpStep) (a : Address) : ℤ := (steps.map (·.paidIn a)).sum

/-- What the refunds of a run paid to `a`. -/
def creditedBack (steps : List OpStep) (a : Address) : ℤ := (steps.map (·.paidOut a)).sum

/-- The account has no code or a record of its own. -/
def NoForeignCode (s : StateDB) (c : Address) : Prop := s.getCode c = [] ∨ HoldsRecord .binary s c

theorem NoForeignCode.address_eq (h : NoForeignCode s c) (hv : getValidator .binary s c = .ok v) :
    v.address = c := by
  rcases h with hnil | ⟨w, hw, haddr⟩
  · exact absurd hnil (getValidator_eq_ok.1 hv).1
  · cases hw.symm.trans hv
    exact haddr

/-! ## One step -/

theorem NoForeignCode.recordInPlace (h : NoForeignCode s c)
    (hsmall : ∀ v, getValidator .binary s c = .ok v → v.Small) : RecordInPlace s c :=
  fun v hv => ⟨h.address_eq hv, hsmall v hv⟩

theorem WritesRecord.recordedStake {s' : StateDB} (h : WritesRecord valAddr s s' v')
    (hfits : v'.Fits) (hne : v'.address ≠ valAddr) : HoldsRecord .binary s' v'.address ∧
      ∀ a, recordedStake s' v'.address a = v'.stakeByAddress a :=
  have hget := h.getValidator_self hfits hne
  ⟨⟨v'.normal, hget, rfl⟩, fun a => recordedStake_of_ok hget a⟩

namespace Processor

variable {p : Processor} {s s' : StateDB} {caller toAddr : Address} {value : ℤ} {txHash : Hash}
  {ret : Bytes} {c : Address} {op : DepositOp}

theorem stake_of_depositRecord {v : Validator} (hcodec : p.codec = .binary)
    (h : p.depositRecord s op = .ok v) (a : Address) :
    v.stakeByAddress a = recordedStake s op.creatorAddress a := by
  rcases depositRecord_eq_ok h with ⟨hno, hfresh⟩ | ⟨hget, -⟩
  · rw [hcodec] at hno
    rw [recordedStake_of_not_ok hno, freshRecord_eq_ok hfresh]
    rfl
  · rw [hcodec] at hget
    rw [recordedStake_of_ok hget]

theorem validatorDeposit_stake (hcodec : p.codec = .binary)
    (hne : op.creatorAddress ≠ p.validatorsStateAddress) (hown : NoForeignCode s op.creatorAddress)
    (hrec : RecordInPlace s op.creatorAddress)
    (hdelegate : (DelegatingStakeData.marshalBinary op.delegatingStake).length < 2 ^ 32)
    (h : p.validatorDeposit s caller toAddr value op txHash = .ok (ret, s')) :
    HoldsRecord .binary s' op.creatorAddress ∧ ∀ a, recordedStake s' op.creatorAddress a =
        recordedStake s op.creatorAddress a + (s.getBalance a - s'.getBalance a) ∧
        0 ≤ s.getBalance a - s'.getBalance a := by
  obtain ⟨v, hv, hfits, hwrites, hvalue, hbalance⟩ :=
    validatorDeposit_writes hcodec hrec hdelegate h
  have haddr : (p.depositedRecord v caller value txHash).address = op.creatorAddress := by
    rw [address_depositedRecord, address_of_depositRecord hv (hcodec ▸ hown)]
  obtain ⟨hholds, hstake⟩ := hwrites.recordedStake hfits (haddr ▸ hne)
  rw [haddr] at hholds hstake
  refine ⟨hholds, fun a => ?_⟩
  rw [hstake, Validator.stakeByAddress_eq, stake_depositedRecord, ← Validator.stakeByAddress_eq,
    Validator.stakeByAddress_addStake, stake_of_depositRecord hcodec hv, hbalance]
  split_ifs <;> omega

theorem validatorWithdrawal_stake {op : WithdrawalOp} (hcodec : p.codec = .binary)
    (hfork : p.blockchain.config.isForkSlotValOpTracking p.ctx.slot)
    (hne : op.creatorAddress ≠ p.validatorsStateAddress) (hrec : RecordInPlace s op.creatorAddress)
    (h : p.validatorWithdrawal s caller toAddr op txHash = .ok (ret, s')) :
    HoldsRecord .binary s' op.creatorAddress ∧
      ∀ a, recordedStake s' op.creatorAddress a = recordedStake s op.creatorAddress a := by
  obtain ⟨v, haddr, hread, hfits, hwrites⟩ := validatorWithdrawal_writes hcodec hfork hrec h
  rw [← haddr] at hne ⊢
  obtain ⟨hholds, hstake⟩ := hwrites.recordedStake hfits hne
  exact ⟨hholds, fun a => (hstake a).trans (recordedStake_of_ok hread a).symm⟩

theorem validatorUpdateBalance_stake {op : SyncOp} (hcodec : p.codec = .binary)
    (hfork : p.blockchain.config.isForkSlotValOpTracking p.ctx.slot)
    (hne : op.creator ≠ p.validatorsStateAddress) (hrec : RecordInPlace s op.creator)
    (hpath : ∃ v, getValidator .binary s op.creator = .ok v ∧ p.isInsufficientDeposit v)
    (hcover : ∀ initTx ∈ p.blockchain.getTransaction op.initTxHash, ∀ amount ∈ op.amount,
      0 ≤ amount ∧ amount ≤ recordedStake s op.creator initTx.sender)
    (h : p.validatorUpdateBalance s op = .ok (ret, s')) : HoldsRecord .binary s' op.creator ∧
      ∀ a, recordedStake s' op.creator a =
          recordedStake s op.creator a - (s'.getBalance a - s.getBalance a) ∧
        (0 ≤ recordedStake s op.creator a → 0 ≤ recordedStake s' op.creator a) := by
  obtain ⟨v, hv, h⟩ := validatorUpdateBalance_eq_ok h
  rw [hcodec] at hv
  obtain ⟨w, hw, hins⟩ := hpath
  obtain rfl : v = w := by simpa [hv] using hw
  obtain ⟨haddr, hsmall⟩ := hrec v hv
  rcases payBalance_eq_ok h with ⟨-, withdrawalTo, v', hrefund, hpay⟩ | ⟨⟨hno, -⟩, -⟩ | ⟨⟨hno, -⟩, -⟩
  · obtain ⟨initTx, htx, rfl, -, -⟩ := refundInsufficientDeposit_eq_ok hrefund
    obtain ⟨hv', hfits, hwrites, amount, hamount, hstake', hbalance⟩ := refund_writes hcodec hfork
      hsmall (fun amount hamount => (hcover initTx htx amount hamount).1) hrefund hpay
    obtain ⟨hpos, hle⟩ := hcover initTx htx amount hamount
    rw [recordedStake_of_ok hv] at hle
    have haddr' : v'.address = op.creator := by rw [hv']; exact haddr
    obtain ⟨hholds, hrecorded⟩ := hwrites.recordedStake hfits (haddr' ▸ hne)
    rw [haddr'] at hholds hrecorded
    refine ⟨hholds, fun a => ?_⟩
    rw [hrecorded, hbalance, recordedStake_of_ok hv, hstake', min_eq_right hle]
    exact ⟨by omega, fun _ => by split_ifs with ha <;> [rw [ha]; skip] <;> omega⟩
  · exact absurd hins hno
  · exact absurd hins hno

end Processor

variable {c : Address} {s s' : StateDB}

/-- A step that stays within the stakes keeps the record in place and moves the recorded
    stake of every depositor by what it paid in or was paid back. -/
theorem OpStep.stake_step {st : OpStep} (hcodec : st.p.codec = .binary) (hst : st.IsStakeOp c)
    (hcond : st.WithinStake c) (hown : NoForeignCode st.before c) (h : st.Accepted) :
    NoForeignCode st.after c ∧ ∀ a, recordedStake st.after c a =
          recordedStake st.before c a + st.paidIn a - st.paidOut a ∧
        (0 ≤ recordedStake st.before c a → 0 ≤ recordedStake st.after c a) := by
  obtain ⟨p, caller, toAddr, value, txHash, op, s, s'⟩ := st
  obtain ⟨hfork, hcreator, hkind⟩ := hst
  obtain ⟨hne, hsmall, hop⟩ := hcond
  have hrec := hown.recordInPlace hsmall
  obtain ⟨ret, h⟩ := h
  cases op with
  | deposit op =>
    obtain rfl : op.creatorAddress = c := hcreator
    obtain ⟨hholds, heff⟩ := Processor.validatorDeposit_stake hcodec hne hown hrec hop h
    refine ⟨.inr hholds, fun a => ?_⟩
    obtain ⟨hstake, hpaid⟩ := heff a
    simp only [paidIn, paidOut, sub_zero]
    exact ⟨hstake, fun hnonneg => hstake ▸ add_nonneg hnonneg hpaid⟩
  | withdrawal op =>
    obtain rfl : op.creatorAddress = c := hcreator
    obtain ⟨hholds, heff⟩ := Processor.validatorWithdrawal_stake hcodec hfork hne hrec h
    refine ⟨.inr hholds, fun a => ?_⟩
    simp only [paidIn, paidOut, add_zero, sub_zero]
    exact ⟨heff a, fun hnonneg => heff a ▸ hnonneg⟩
  | exit op => exact hkind.elim
  | sync op =>
    obtain rfl : op.creator = c := hcreator
    obtain ⟨htype, hpath⟩ := hkind
    have hupdate : p.validatorUpdateBalance s op = .ok (ret, s') := by
      simpa [htype] using Processor.syncOpProcessing_eq_ok h
    obtain ⟨hholds, heff⟩ :=
      Processor.validatorUpdateBalance_stake hcodec hfork hne hrec hpath hop hupdate
    refine ⟨.inr hholds, fun a => ?_⟩
    simp only [paidIn, paidOut, add_zero]
    exact heff a

/-! ## Runs -/

theorem recordedStake_congr (h : SameCode s s') (c a : Address) :
    recordedStake s' c a = recordedStake s c a := by
  rw [recordedStake, recordedStake, getValidator_congr (h c)]

theorem NoForeignCode.congr (h : NoForeignCode s c) (hsame : SameCode s s') :
    NoForeignCode s' c := by
  rcases h with hnil | ⟨v, hv, haddr⟩
  · exact .inl ((hsame c).trans hnil)
  · exact .inr ⟨v, (getValidator_congr (hsame c)).trans hv, haddr⟩

/-- The ledger of a run within the stakes, by induction on the run: every step moves the
    recorded stake as it moves the totals. -/
theorem OpRun.ledger {steps : List OpStep} (hrun : OpRun s₀ steps s)
    (hcodec : ∀ st ∈ steps, st.p.codec = .binary) (hfresh : s₀.getCode c = [])
    (hops : ∀ st ∈ steps, st.IsStakeOp c) (hcond : ∀ st ∈ steps, st.WithinStake c) :
    NoForeignCode s c ∧ (∀ a, recordedStake s c a = deposited steps a - creditedBack steps a ∧
        0 ≤ recordedStake s c a) ∧ ∀ st ∈ steps, ∀ a, recordedStake st.after c a =
        recordedStake st.before c a + st.paidIn a - st.paidOut a := by
  induction hrun with
  | nil =>
    have hnone : ∀ v, getValidator .binary s₀ c ≠ .ok v := fun v hv =>
      (getValidator_eq_ok.1 hv).1 hfresh
    refine ⟨.inl hfresh, fun a => ?_, by simp⟩
    rw [recordedStake_of_not_ok hnone]
    simp [deposited, creditedBack]
  | @snoc steps s₁ st _ hsame hacc ih =>
    simp only [forall_mem_append, forall_mem_singleton] at hcodec hops hcond ⊢
    obtain ⟨hown, hledger, hsteps⟩ := ih hcodec.1 hops.1 hcond.1
    obtain ⟨hown', heff⟩ := OpStep.stake_step hcodec.2 hops.2 hcond.2 (hown.congr hsame) hacc
    refine ⟨hown', fun a => ?_, hsteps, fun a => (heff a).1⟩
    obtain ⟨hstake, hnonneg⟩ := heff a
    rw [recordedStake_congr hsame, (hledger a).1] at hstake
    refine ⟨?_, hnonneg (by rw [recordedStake_congr hsame]; exact (hledger a).2)⟩
    simp only [hstake, deposited, creditedBack, map_append, sum_append, map_cons,
      map_nil, sum_cons, sum_nil]
    omega

/-- Stake accounting before activation: from a fresh validator, over every run of deposits,
    withdrawal requests and refunds in which no refund is above the stake of its receiver,
    the recorded stake of each depositor is what it deposited less what it was credited and
    is not negative, and each refund credits what it takes from the recorded stake. -/
theorem OpRun.stake_exact (c : Address) (s₀ s : StateDB) (steps : List OpStep)
    (hrun : OpRun s₀ steps s) (hcodec : ∀ st ∈ steps, st.p.codec = .binary)
    (hfresh : s₀.getCode c = []) (hops : ∀ st ∈ steps, st.IsStakeOp c)
    (hcond : ∀ st ∈ steps, st.WithinStake c) :
    (∀ a, recordedStake s c a = deposited steps a - creditedBack steps a ∧
      0 ≤ recordedStake s c a) ∧
    ∀ st ∈ steps, (∃ op, st.op = .sync op) → ∀ a,
      st.after.getBalance a - st.before.getBalance a =
        recordedStake st.before c a - recordedStake st.after c a := by
  obtain ⟨-, hledger, hsteps⟩ := hrun.ledger hcodec hfresh hops hcond
  refine ⟨hledger, fun st hst hop a => ?_⟩
  obtain ⟨op, hop⟩ := hop
  have hstep := hsteps st hst a
  simp only [OpStep.paidIn, OpStep.paidOut, hop] at hstep
  omega

/-! ## A refund above the stake -/

/-- The coordinator refunds `amount` wat for the request in transaction 77. -/
def refundOf (amount : ℤ) : SyncOp where
  version := ver1
  opType := .updateBalance
  initTxHash := 77
  procEpoch := 0
  index := 0
  creator := 12
  amountField := some (amount * bigWat)
  withdrawalAddress := none
  balance := some 0

/-- The processor of a chain on which account 1 sent the request. -/
def ledgerProcessor (amount : ℤ) : Processor :=
  { Processor.devnet with
    blockchain := { Processor.devnet.blockchain with
      getValidatorSyncData := fun _ =>
        some ⟨77, .updateBalance, 0, 0, 12, some (amount * bigWat), none, some 0⟩
      getTransaction := fun _ => some ⟨ValOp.data (.withdrawal ⟨12, 15 * bigWat⟩), 1⟩
      getTransactionReceipt := fun _ => (some .successful, 0) } }

/-- Account 1 deposits 20 wat, asks for 15 wat, and is refunded `amount` wat. -/
def ledgerRun (amount : ℤ) : Except ValError (List OpStep × StateDB) :=
  runOps (ledgerProcessor amount) (depositState 0xFFFF (uint64BytesBE 0))
    [(1, 20 * bigWat, 5, .deposit (depositFor 12)), (1, 0, 77, .withdrawal ⟨12, 15 * bigWat⟩),
      (2, 0, 80, .sync (refundOf amount))]

/-- A refund of the 15 wat that were asked for leaves a stake of 5 wat. -/
theorem stake_exact_fifteen :
    ∃ steps s, OpRun (depositState 0xFFFF (uint64BytesBE 0)) steps s ∧ steps.length = 3 ∧
      recordedStake s 12 1 = 5 * bigWat ∧
      recordedStake s 12 1 = deposited steps 1 - creditedBack steps 1 := by
  have hok : (ledgerRun 15).toOption.any (fun r => r.1.length = 3 ∧
      recordedStake r.2 12 1 = 5 * bigWat ∧
      ∀ st ∈ r.1, st.IsStakeOp 12 ∧ st.WithinStake 12) = true := by decide +kernel
  obtain ⟨⟨steps, s⟩, h, hcheck⟩ := any_toOption.1 hok
  obtain ⟨hlen, hstake, hsteps⟩ := of_decide_eq_true hcheck
  obtain ⟨hrun, hp⟩ := opRun_of_runOps h
  have hexact := OpRun.stake_exact 12 _ s steps hrun (fun st hst => by rw [hp st hst]; rfl)
    (by decide) (fun st hst => (hsteps st hst).1) fun st hst => (hsteps st hst).2
  exact ⟨steps, s, hrun, hlen, hstake, (hexact.1 1).1⟩

/-- A refund of 25 wat takes the stake of 20 wat and pays 25. -/
theorem refund_above_stake :
    ∃ steps s, OpRun (depositState 0xFFFF (uint64BytesBE 0)) steps s ∧
      (depositState 0xFFFF (uint64BytesBE 0)).getCode 12 = [] ∧
      (∀ st ∈ steps, st.p.codec = .binary ∧ st.IsStakeOp 12) ∧
      recordedStake s 12 1 = 0 ∧ deposited steps 1 = 20 * bigWat ∧
      creditedBack steps 1 = 25 * bigWat := by
  have hok : (ledgerRun 25).toOption.any (fun r => recordedStake r.2 12 1 = 0 ∧
      deposited r.1 1 = 20 * bigWat ∧ creditedBack r.1 1 = 25 * bigWat ∧
      ∀ st ∈ r.1, st.IsStakeOp 12) = true := by decide +kernel
  obtain ⟨⟨steps, s⟩, h, hcheck⟩ := any_toOption.1 hok
  obtain ⟨hstake, hdep, hcred, hsteps⟩ := of_decide_eq_true hcheck
  obtain ⟨hrun, hp⟩ := opRun_of_runOps h
  exact ⟨steps, s, hrun, by decide,
    fun st hst => ⟨by rw [hp st hst]; rfl, hsteps st hst⟩, hstake, hdep, hcred⟩

end Gwat
