/-
  The check of a coordinator operation by the creator of a block
  (`ValidateCreateTxValidatorSyncOp` in `validator/validatorsync`), beside the checks of the
  processor that executes the operation.
-/
import Gwat.Validator.Steps

namespace Gwat

open GoLib DelegatingStakeRules Validator DelegatingStakeData ValOp

inductive CreateTxError where
  | nilData
  | stateBlockNotFound
  | outdatedEpoch
  | stateNotFound
  | addressIsNotValidator
  | validatorAlreadyActivated
  | validatorAlreadyDeactivated
  | exitEpochIsTooLow
  | withdrawalAmountIsRequired
  | withdrawalAmountIsNegative
  | unknownOperationType
  | validator (e : ValError)
  deriving DecidableEq, Repr

/-- The operation of the transaction that is created (`getValSyncTxData`). -/
def ValidatorSync.toSyncOp (valSyncOp : ValidatorSync) (version : UInt16)
    (withdrawal : Option Address) : Except ValError SyncOp :=
  newValidatorSyncOperation version valSyncOp.opType valSyncOp.initTxHash valSyncOp.procEpoch
    valSyncOp.index valSyncOp.creator valSyncOp.amount withdrawal valSyncOp.balance

namespace Processor

variable (p : Processor)

/-- The era of the epoch of a slot. -/
def slotEra (slot : UInt64) : Except ValError Era := do
  let epoch ← p.blockchain.config.slotToEpoch slot
  p.opEra epoch

/-- `isLowExitEpoch`: the validator is not active in the era of the operation or, after the fork,
    in the era of the slot.  The two comparisons differ. -/
def isLowExitEpoch (slot : UInt64) (v : Validator) (procEpoch : UInt64) : Except ValError Bool := do
  let procEra ← p.opEra procEpoch
  if p.blockchain.config.isForkSlotValSyncProc slot then
    let procEra ← p.slotEra slot
    return procEra.number < v.activationEra
  else return procEra.number ≤ v.activationEra

/-- The check of the life cycle of the validator. -/
def checkLifeCycle (slot : UInt64) (v : Validator) (valSyncOp : ValidatorSync) :
    Except CreateTxError Unit :=
  match valSyncOp.opType with
  | .activate => failIf (v.activationEra < maxUint64) .validatorAlreadyActivated
  | .deactivate => do
    failIf (v.exitEra < maxUint64) .validatorAlreadyDeactivated
    let low ← (p.isLowExitEpoch slot v valSyncOp.procEpoch).mapError .validator
    failIf low .exitEpochIsTooLow
  | .updateBalance => do
    failIf (valSyncOp.amount = none ∨ valSyncOp.amount = some 0) .withdrawalAmountIsRequired
    failIf (∃ amount ∈ valSyncOp.amount, amount < 0) .withdrawalAmountIsNegative
  | .other _ => .error .unknownOperationType

/-- `ValidateCreateTxValidatorSyncOp`; `stateAt` gives the state of a stored block. -/
def validateCreateTxValidatorSyncOp (stateAt : Hash → Option StateDB) (stateBlockHash : Hash)
    (slot : UInt64) (valSyncOp : Option ValidatorSync) : Except CreateTxError Unit :=
  match valSyncOp with
  | none => .error .nilData
  | some valSyncOp =>
    match p.blockchain.getHeaderByHash stateBlockHash with
    | none => .error .stateBlockNotFound
    | some stateSlot => do
      checkIf (¬ p.blockchain.config.isForkSlotDelegate slot) do
        let stateEpoch ← (p.blockchain.config.slotToEpoch stateSlot).mapError .validator
        failIf (valSyncOp.procEpoch < stateEpoch) .outdatedEpoch
      match stateAt stateBlockHash with
      | none => .error .stateNotFound
      | some stateDb => do
        failIf (¬ stateDb.isValidatorAddress valSyncOp.creator) .addressIsNotValidator
        let v ← (getValidator p.codec stateDb valSyncOp.creator).mapError .validator
        p.checkLifeCycle slot v valSyncOp

/-- The switch of `syncOpProcessing`. -/
def carryOut (s : StateDB) (op : SyncOp) : Except ValError (Bytes × StateDB) :=
  match op.opType with
  | .activate => p.validatorActivate s op
  | .deactivate => p.validatorDeactivate s op
  | .updateBalance => p.validatorUpdateBalance s op
  | .other _ => return ([], s)

end Processor

/-! ## Errors about the status of the validator -/

/-- The processor rejects an operation for the activation or the exit of the validator. -/
def ValError.isStatus : ValError → Bool
  | .validatorActivated | .validatorIsOut | .notActivatedValidator => true
  | _ => false

/-- No error of the computation is about the status of the validator. -/
abbrev StatusFree {α : Type} (x : Except ValError α) : Prop := Fails (fun e => e.isStatus = false) x

theorem ne_of_statusFree {α : Type} {x : Except ValError α} (h : StatusFree x) {e : ValError}
    (he : e.isStatus) : x ≠ .error e := by
  intro hx
  rw [h e hx] at he
  cases he

section

variable {cd : RecordCodec} {s : StateDB} {v : Validator} {index : UInt64} {b : Bytes}
  {a valAddr validator address : Address}

@[simp] theorem isStatus_codec (n : ℕ) : (ValError.codec n).isStatus = false := rfl

@[simp] theorem isStatus_opDecode (n : ℕ) : (ValError.opDecode n).isStatus = false := rfl

@[simp] theorem statusFree_orPanic {α : Type} (x : Option α) : StatusFree (orPanic x) := by
  cases x <;> simp +decide

@[simp] theorem statusFree_getValidator : StatusFree (getValidator cd s a) := by
  have hcode : ∀ code, (codecError code).isStatus = false := fun code => by
    unfold codecError
    split_ifs <;> rfl
  simp +decide [getValidator, hcode]

@[simp] theorem statusFree_setValidator : StatusFree (setValidator cd s v) := by
  simp [setValidator]

@[simp] theorem statusFree_addValidatorToList :
    StatusFree (addValidatorToList s valAddr index validator) := by
  simp +decide [addValidatorToList, setValidatorsList, getDepositCount]

@[simp] theorem statusFree_subtractStake {sum : ℤ} : StatusFree (v.subtractStake address sum) := by
  have hgo : ∀ l, StatusFree (Validator.subtractStake.go address sum l) := by
    intro l
    induction l with
    | nil => simp +decide [Validator.subtractStake.go]
    | cons s ss ih => simp +decide [Validator.subtractStake.go, ih]
  simp [subtractStake, hgo]

/-! ### Decoding -/

@[simp] theorem statusFree_slice {lo hi : ℕ} : StatusFree (slice b lo hi) := by
  simp +decide [slice]

@[simp] theorem statusFree_syncUnmarshal : StatusFree (SyncOp.unmarshalBinary b) := by
  unfold SyncOp.unmarshalBinary
  split <;>
    simp +decide [SyncOp.unmarshalBinaryLegacy, SyncOp.readPayment, newValidatorSyncOperation]

@[simp] theorem statusFree_rules {r : DelegatingStakeRules} :
    StatusFree r.validateProfitShare ∧ StatusFree r.validateStakeShare ∧
      StatusFree r.validateExit ∧ StatusFree r.validateWithdrawal := by
  simp +decide [validateProfitShare, validateStakeShare, validateExit, validateWithdrawal]

@[simp] theorem statusFree_checked {d : Option DelegatingStakeData} : StatusFree (checked d) := by
  cases d <;> simp [checked, DelegatingStakeRules.validate,
    checkTrialWithdrawal, checkTrialExit,
    trialGrants, trialShares]

@[simp] theorem statusFree_depositUnmarshal : StatusFree (DepositOp.unmarshalBinary b) := by
  simp +decide [DepositOp.unmarshalBinary, DepositOp.readDelegate, newDepositOperation]

@[simp] theorem statusFree_exitUnmarshal : StatusFree (ExitOp.unmarshalBinary b) := by
  simp +decide [ExitOp.unmarshalBinary, ExitOp.readEpoch, newExitOperation]

@[simp] theorem statusFree_withdrawalUnmarshal : StatusFree (WithdrawalOp.unmarshalBinary b) := by
  simp +decide [WithdrawalOp.unmarshalBinary, newWithdrawalOperation]

@[simp] theorem statusFree_decodeBytes : StatusFree (decodeBytes b) := by
  unfold decodeBytes ValOp.getOpCode ValOp.unmarshalBinary
  split <;> simp +decide

end

/-! ### Balance updates -/

namespace Processor

section

variable {p : Processor} {v : Validator} {s : StateDB} {op : SyncOp}

@[simp] theorem statusFree_actualRules : StatusFree (p.actualRules v) := by
  have htrial : StatusFree (p.isValidatorTrialPeriod v) := by
    unfold isValidatorTrialPeriod
    split <;> simp +decide [ChainConfig.slotOfEpochStart]
  simp [actualRules, htrial]

@[simp] theorem statusFree_applyDelegatingStakeRules :
    StatusFree (p.applyDelegatingStakeRules s op v) := by
  simp +decide [applyDelegatingStakeRules, payoutEntries]

@[simp] theorem statusFree_updateBalanceCheck : StatusFree (p.updateBalanceCheck v op) := by
  unfold updateBalanceCheck
  split <;> simp +decide

theorem statusFree_refundInsufficientDeposit (hdec : p.opCodec.decodeBytes = decodeBytes) :
    StatusFree (p.refundInsufficientDeposit v op) := by
  unfold refundInsufficientDeposit
  split <;> simp +decide [hdec]

@[simp] theorem statusFree_payWithdrawal {withdrawalTo : Address} :
    StatusFree (p.payWithdrawal s op v withdrawalTo) := by
  simp [payWithdrawal]

theorem statusFree_validatorUpdateBalance (hdec : p.opCodec.decodeBytes = decodeBytes) :
    StatusFree (p.validatorUpdateBalance s op) := by
  have hpay : ∀ v, StatusFree (p.payBalance s op v) := fun v => by
    cases hw : v.withdrawalAddress <;>
      simp +decide [payBalance, hw, statusFree_refundInsufficientDeposit hdec]
  simp [validatorUpdateBalance, hpay]

/-! ## The two checks -/

theorem statusFree_validatorActivate (hv : getValidator p.codec s op.creator = .ok v)
    (hact : v.activationEra = maxUint64) : StatusFree (p.validatorActivate s op) := by
  simp [validatorActivate, opEra, hv, hact, failIf_of_not]

end

variable {p : Processor} {s : StateDB} {op : SyncOp} {vs : ValidatorSync}

/-- The era with which the processor compares the activation of a validator that leaves. -/
def exitEraNr (p : Processor) (era : Era) : UInt64 :=
  if p.blockchain.config.isForkSlotValSyncProc p.ctx.slot then p.ctx.era else era.number

/-- The exit of a validator that has not left is rejected for its status exactly if it is not
    activated before the era of the operation. -/
theorem validatorDeactivate_status_iff {v : Validator} {era : Era}
    (hv : getValidator p.codec s op.creator = .ok v) (hexit : v.exitEra = maxUint64)
    (hera : p.opEra op.procEpoch = .ok era) :
    (∀ e : ValError, e.isStatus → p.validatorDeactivate s op ≠ .error e) ↔
      v.activationEra < p.exitEraNr era := by
  have hrun : p.validatorDeactivate s op = (do
      failIf (p.exitEraNr era ≤ v.activationEra) .notActivatedValidator
      let v := (p.updateValidatorVersionBySlot v).setExitTx none
      let s ← setValidator p.codec s { v with exitEra := era.number + postpone }
      return (op.creator.bytes, p.addSyncLog s .deactivate op)) := by
    rw [validatorDeactivate, hv, ok_bind, failIf_of_not (fun h => h hexit), ok_bind, hera, ok_bind]
    rfl
  rw [hrun]
  constructor
  · intro hno
    by_contra hle
    exact hno .notActivatedValidator rfl (by rw [failIf_of (UInt64.not_lt.1 hle), error_bind])
  · intro hlt e he
    rw [failIf_of_not (UInt64.not_le.2 hlt), ok_bind]
    exact ne_of_statusFree (by simp) he

theorem accepted_of_create {stateAt : Hash → Option StateDB} {stateBlockHash : Hash}
    {slot : UInt64} (hs : stateAt stateBlockHash = some s)
    (h : p.validateCreateTxValidatorSyncOp stateAt stateBlockHash slot (some vs) = .ok ()) :
    ∃ v, getValidator p.codec s vs.creator = .ok v ∧ p.checkLifeCycle slot v vs = .ok () := by
  unfold validateCreateTxValidatorSyncOp at h
  dsimp only at h
  split at h
  · cases h
  · obtain ⟨-, -, h⟩ := bind_eq_ok.1 h
    rw [hs] at h
    obtain ⟨-, -, h⟩ := bind_eq_ok.1 h
    obtain ⟨v, hv, h⟩ := bind_eq_ok.1 h
    exact ⟨v, mapError_eq_ok.1 hv, h⟩

theorem toSyncOp_eq_ok {version : UInt16} {withdrawal : Option Address}
    (h : vs.toSyncOp version withdrawal = .ok op) :
    op.opType = vs.opType ∧ op.procEpoch = vs.procEpoch ∧ op.creator = vs.creator := by
  obtain ⟨-, -, h⟩ := bind_eq_ok.1 h
  obtain ⟨-, -, h⟩ := bind_eq_ok.1 h
  obtain ⟨-, -, h⟩ := bind_eq_ok.1 h
  cases h
  exact ⟨rfl, rfl, rfl⟩

theorem eq_maxUint64_of_not_lt {n : UInt64} (h : ¬ n < maxUint64) : n = maxUint64 :=
  UInt64.le_antisymm (UInt64.le_iff_toNat_le.2 (Nat.le_of_lt_succ n.toNat_lt)) (UInt64.not_lt.1 h)

/-- An operation that the creator accepts at a slot is rejected for the activation or the exit of
    the validator, when it is executed at the same slot, era and state, exactly if it is an exit
    after the fork `ValSyncProc` in the era in which the validator is activated. -/
theorem create_checks_agree_iff {p : Processor} (hdec : p.opCodec.decodeBytes = decodeBytes)
    {stateAt : Hash → Option StateDB} {stateBlockHash : Hash} {vs : ValidatorSync} {s : StateDB}
    {version : UInt16} {withdrawal : Option Address} {op : SyncOp}
    (hs : stateAt stateBlockHash = some s)
    (hera : ∀ era, p.slotEra p.ctx.slot = .ok era → era.number = p.ctx.era)
    (hop : vs.toSyncOp version withdrawal = .ok op)
    (h : p.validateCreateTxValidatorSyncOp stateAt stateBlockHash p.ctx.slot (some vs) = .ok ()) :
    (∀ e : ValError, e.isStatus → p.carryOut s op ≠ .error e) ↔
      ¬ (vs.opType = .deactivate ∧ p.blockchain.config.isForkSlotValSyncProc p.ctx.slot ∧
        ∃ v, getValidator p.codec s vs.creator = .ok v ∧ v.activationEra = p.ctx.era) := by
  obtain ⟨v, hv, hlife⟩ := accepted_of_create hs h
  obtain ⟨htype, hepoch, hcreator⟩ := toSyncOp_eq_ok hop
  have hvop : getValidator p.codec s op.creator = .ok v := by rw [hcreator, hv]
  unfold checkLifeCycle at hlife
  unfold carryOut
  rw [htype]
  cases hvs : vs.opType with
  | activate =>
    rw [hvs] at hlife
    have hact := eq_maxUint64_of_not_lt (failIf_eq_ok.1 hlife)
    exact iff_of_true (fun e => ne_of_statusFree (statusFree_validatorActivate hvop hact))
      fun hbad => by cases hbad.1
  | deactivate =>
    -- the creator compares with the era of the slot after the fork
    rw [hvs] at hlife
    obtain ⟨_, hexit, hlife⟩ := bind_eq_ok.1 hlife
    obtain ⟨low, hlow, hlife⟩ := bind_eq_ok.1 hlife
    obtain ⟨era, hopEra, hlow⟩ := bind_eq_ok.1 (mapError_eq_ok.1 hlow)
    have hlow' : low = false := by simpa using failIf_eq_ok.1 hlife
    rw [hlow'] at hlow
    rw [validatorDeactivate_status_iff hvop (eq_maxUint64_of_not_lt (failIf_eq_ok.1 hexit))
      (hepoch ▸ hopEra), exitEraNr]
    split_ifs at hlow ⊢ with hfork
    · obtain ⟨slotEra, hslotEra, hlow⟩ := bind_eq_ok.1 hlow
      have hle : v.activationEra ≤ p.ctx.era := by
        have : ¬ slotEra.number < v.activationEra := by simpa using hlow
        rw [hera slotEra hslotEra] at this
        exact UInt64.not_lt.1 this
      constructor
      · rintro hlt ⟨-, -, v', hv', heq⟩
        obtain rfl : v = v' := Except.ok.inj (hv.symm.trans hv')
        exact absurd hlt (by rw [heq]; exact UInt64.lt_irrefl _)
      · intro hno
        exact UInt64.lt_of_le_of_ne hle fun heq => hno ⟨rfl, hfork, v, hv, heq⟩
    · have hlt : v.activationEra < era.number := by
        have : ¬ era.number ≤ v.activationEra := by simpa using hlow
        exact UInt64.not_le.1 this
      exact iff_of_true hlt fun hbad => hfork hbad.2.1
  | updateBalance =>
    exact iff_of_true (fun e => ne_of_statusFree (statusFree_validatorUpdateBalance hdec))
      fun hbad => by cases hbad.1
  | other code =>
    rw [hvs] at hlife
    cases hlife

/-! ### An exit in the era of the activation -/

/-- A validator that is activated in the given era. -/
def enteringValidator (activationEra : UInt64) : Validator :=
  { newValidator 7 9 (some 9) with index := 0, activationEra := activationEra, version := ver1 }

/-- The first slot of era 1, on a chain with two eras and every fork active. -/
def enteringProcessor : Processor :=
  { Processor.devnet with
    blockchain := { Blockchain.empty ⟨0xFFFF, 3200, 100, 0, 0, 0, 32⟩ [⟨0, 0, 99⟩, ⟨1, 100, 199⟩] with
      getHeaderByHash := fun _ => some 3199 }
    node := ⟨3200, ⟨1, 100, 199⟩⟩
    ctx := ⟨3200, 1, 1⟩ }

def enteringState (activationEra : UInt64) : StateDB := stateOf (enteringValidator activationEra)

/-- The exit of the validator that the coordinator confirmed. -/
def enteringExit : ValidatorSync := ⟨0xAB, .deactivate, 100, 0, 9, none, none, none⟩

def enteringOp : SyncOp := ⟨ver1, .deactivate, 0xAB, 100, 0, 9, none, none, none⟩

theorem create_checks_agree_active :
    enteringProcessor.validateCreateTxValidatorSyncOp (fun _ => some (enteringState 0)) 2 3200
        (some enteringExit) = .ok () ∧
      ∀ e : ValError, e.isStatus → enteringProcessor.carryOut (enteringState 0) enteringOp ≠ .error e := by
  have hcreate : enteringProcessor.validateCreateTxValidatorSyncOp (fun _ => some (enteringState 0)) 2
      3200 (some enteringExit) = .ok () := by decide +kernel
  have hop : enteringExit.toSyncOp ver1 none = .ok enteringOp := by decide
  refine ⟨hcreate, (create_checks_agree_iff rfl (s := enteringState 0) rfl ?_ hop hcreate).2 ?_⟩
  · intro era hera
    have : enteringProcessor.slotEra 3200 = .ok ⟨1, 100, 199⟩ := by decide
    rw [show enteringProcessor.ctx.slot = 3200 from rfl, this] at hera
    cases hera
    rfl
  · rintro ⟨-, -, v, hv, heq⟩
    have hv' : getValidator enteringProcessor.codec (enteringState 0) 9 =
        .ok (enteringValidator 0) := by decide +kernel
    obtain rfl : enteringValidator 0 = v := Except.ok.inj (hv'.symm.trans hv)
    exact absurd heq (by decide)

/-- A validator that is activated in era 1 leaves in era 1: the creator accepts the operation, and
    the processor rejects it. -/
theorem created_exit_rejected :
    enteringProcessor.slotEra 3200 = .ok ⟨1, 100, 199⟩ ∧
    enteringProcessor.validateCreateTxValidatorSyncOp (fun _ => some (enteringState 1)) 2 3200
        (some enteringExit) = .ok () ∧
      enteringExit.toSyncOp ver1 none = .ok enteringOp ∧
      enteringProcessor.validatorDeactivate (enteringState 1) enteringOp =
        .error .notActivatedValidator := by
  refine ⟨by decide, by decide +kernel, by decide, ?_⟩
  have hv : getValidator enteringProcessor.codec (enteringState 1) enteringOp.creator =
      .ok (enteringValidator 1) := by decide +kernel
  rw [validatorDeactivate, hv]
  rfl

end Processor

end Gwat
