/-
  What an accepted validator operation does: for each handler of the processor, the
  record it reads, the checks that passed, the record it writes and the state
  afterwards.
-/
import Gwat.Validator.SyncOps

namespace Gwat

open GoLib DelegatingStakeRules

variable {cd : RecordCodec} {s s' : StateDB} {a valAddr : Address} {v : Validator}

/-! ## Storage -/

theorem getValidator_eq_ok :
    getValidator cd s a = .ok v ↔ s.getCode a ≠ [] ∧ cd.unmarshal (s.getCode a) = .ok v := by
  rw [getValidator]
  split_ifs with h
  · simp [h]
  · simp [h, mapError_eq_ok]

theorem setValidator_eq_ok :
    setValidator cd s v = .ok s' ↔ ∃ bin, cd.marshal v = .ok bin ∧ s.setCode v.address bin = s' := by
  simp only [setValidator, bind_eq_ok, mapError_eq_ok, pure_eq_ok, Except.ok.injEq]

/-- The code of the validators' account with the given deposit count. -/
def withDepositCount (s : StateDB) (valAddr : Address) (n : UInt64) : Bytes :=
  uint64BytesBE n ++ (s.getCode valAddr).drop 8

theorem incrementDepositCount_eq_ok : incrementDepositCount s valAddr = .ok s' ↔
      ∃ n, getDepositCount s valAddr = .ok n ∧
        s.setCode valAddr (withDepositCount s valAddr (n + 1)) = s' := by
  have hbuf : (if s.getCode valAddr = [] then uint64BytesBE 0 else s.getCode valAddr).drop 8 =
      (s.getCode valAddr).drop 8 := by
    split_ifs with h
    · simp [h, uint64BytesBE]
    · rfl
  simp only [incrementDepositCount, bind_eq_ok, pure_eq_ok, Except.ok.injEq, hbuf, withDepositCount]

theorem addValidatorToList_eq_ok {i : UInt64} (h : addValidatorToList s valAddr i a = .ok s') :
    s' = s ∨ ∃ code, s' = s.setCode valAddr code := by
  simp only [addValidatorToList] at h
  split_ifs at h
  · cases h; exact .inl rfl
  · obtain ⟨n, -, h⟩ := bind_eq_ok.1 h
    cases h
    exact .inr ⟨_, rfl⟩

namespace Processor

variable {p : Processor} {s s' : StateDB} {caller toAddr : Address} {value : ℤ} {txHash : Hash}
  {ret data : Bytes}
variable {op : SyncOp} {v v' : Validator} {withdrawalTo : Address}
  {rules trialRules : DelegatingStakeRules}

/-! ## Operations of users -/

theorem newDelegatingStakeData_eq_ok {trialPeriod : UInt64} {d : DelegatingStakeData}
    (h : newDelegatingStakeData rules trialPeriod trialRules = .ok d) :
    d = ⟨rules, trialPeriod, trialRules⟩ := by
  simp only [newDelegatingStakeData, bind_eq_ok, pure_eq_ok, Except.ok.injEq] at h
  obtain ⟨-, -, -, -, -, -, rfl⟩ := h
  rfl

theorem freshRecord_eq_ok {op : DepositOp} (h : p.freshRecord op = .ok v) :
    v = { newValidator op.pubKey op.creatorAddress (some op.withdrawalAddress) with
      delegatingStake := op.delegatingStake } := by
  simp only [freshRecord] at h
  split at h
  · next hd => cases h; rw [hd]; rfl
  · next d hd =>
    simp only [bind_eq_ok, pure_eq_ok, Except.ok.injEq] at h
    obtain ⟨-, -, -, -, data, hdata, rfl⟩ := h
    rw [newDelegatingStakeData_eq_ok hdata, hd]

/-- A deposit starts from a new record when none can be read, or from the stored one, which
    is not activated and agrees with the operation. -/
theorem depositRecord_eq_ok {op : DepositOp} (h : p.depositRecord s op = .ok v) :
    ((∀ w, getValidator p.codec s op.creatorAddress ≠ .ok w) ∧ p.freshRecord op = .ok v) ∨
    (getValidator p.codec s op.creatorAddress = .ok v ∧ p.checkCompliance op v = .ok ()) := by
  rw [depositRecord] at h
  obtain ⟨fresh, hfresh, h⟩ := bind_eq_ok.1 h
  split at h
  · cases h
  · next e he =>
    cases h
    exact .inl ⟨by simp [he], hfresh⟩
  · next curr hcurr =>
    obtain ⟨⟨⟩, hcomp, h⟩ := bind_eq_ok.1 h
    cases h
    exact .inr ⟨hcurr, hcomp⟩

/-- The record after a deposit. -/
def depositedRecord (p : Processor) (v : Validator) (caller : Address) (value : ℤ)
    (txHash : Hash) : Validator :=
  ((p.updateValidatorVersionBySlot v).addDepositTxs txHash).addStake caller value

theorem depositedRecord_eq (p : Processor) (v : Validator) (caller : Address) (value : ℤ)
    (txHash : Hash) : p.depositedRecord v caller value txHash = { v with
        version := (p.depositedRecord v caller value txHash).version
        depositTxs := (p.depositedRecord v caller value txHash).depositTxs
        stake := (p.depositedRecord v caller value txHash).stake } := by
  simp only [depositedRecord, Validator.addStake, Validator.addDepositTxs,
    updateValidatorVersionBySlot]
  split_ifs <;> rfl

@[simp] theorem address_depositedRecord (v : Validator) :
    (p.depositedRecord v caller value txHash).address = v.address := by
  rw [depositedRecord_eq]

theorem validatorDeposit_eq_ok {op : DepositOp}
    (h : p.validatorDeposit s caller toAddr value op txHash = .ok (ret, s')) :
    minDepositVal ≤ value ∧ bnCanCastToUint64 (value / bigGwei) ∧
    ∃ v bin n log, p.depositRecord s op = .ok v ∧
      (ver1 ≤ v.version → p.prevOpCheck v.getWithdrawalTx = .ok ()) ∧
      p.codec.marshal (p.depositedRecord v caller value txHash) = .ok bin ∧
      let s₁ := s.setCode (p.depositedRecord v caller value txHash).address bin
      getDepositCount s₁ p.validatorsStateAddress = .ok n ∧
      s' = ((s₁.addLog log).setCode p.validatorsStateAddress
        (withDepositCount s₁ p.validatorsStateAddress (n + 1))).subBalance caller value := by
  simp only [validatorDeposit, bind_eq_ok, failIf_eq_ok, checkIf_eq_ok, setValidator_eq_ok,
    incrementDepositCount_eq_ok, return_eq_ok] at h
  obtain ⟨-, -, -, -, -, hmin, -, hcast, -, -, v, hv, -, hcheck, _, ⟨bin, hbin, rfl⟩, _, -, _,
    ⟨n, hn, rfl⟩, -, rfl⟩ := h
  exact ⟨not_lt.1 hmin, not_not.1 hcast, v, bin, n, _, hv, hcheck, hbin, hn, rfl⟩

theorem validatorExit_eq_ok {op : ExitOp}
    (h : p.validatorExit s caller toAddr op txHash = .ok (ret, s')) :
    ∃ v bin log, getValidator p.codec s op.creatorAddress = .ok v ∧
      p.codec.marshal ((p.updateValidatorVersionBySlot v).setExitTx (some txHash)) = .ok bin ∧
      s' = (s.setCode v.address bin).addLog log := by
  simp only [validatorExit, exitRequest, bind_eq_ok, setValidator_eq_ok, return_eq_ok] at h
  obtain ⟨-, -, v, hv, -, -, -, -, -, -, -, -, -, ⟨bin, hbin, rfl⟩, -, rfl⟩ := h
  exact ⟨v, bin, _, hv, hbin, rfl⟩

theorem validatorWithdrawal_eq_ok {op : WithdrawalOp}
    (h : p.validatorWithdrawal s caller toAddr op txHash = .ok (ret, s')) :
    ∃ v amount v' bin log, getValidator p.codec s op.creatorAddress = .ok v ∧
      (ver1 ≤ v.version → p.prevOpCheck v.getWithdrawalTx = .ok ()) ∧
      p.withdrawalAmount ((p.updateValidatorVersionBySlot v).setWithdrawalTx (some txHash)) caller
        op.amount = .ok (amount, v') ∧
      p.codec.marshal v' = .ok bin ∧ s' = (s.setCode v'.address bin).addLog log := by
  simp only [validatorWithdrawal, bind_eq_ok, Prod.exists, checkIf_eq_ok, setValidator_eq_ok,
    return_eq_ok] at h
  obtain ⟨-, -, -, -, v, hv, -, hcheck, amount, v', hamount, -, ⟨bin, hbin, rfl⟩, -, rfl⟩ := h
  exact ⟨v, amount, v', bin, _, hv, hcheck, hamount, hbin, rfl⟩

/-! ## Operations of the coordinator -/

/-- The record after an activation in the given era. -/
def activatedRecord (p : Processor) (v : Validator) (op : SyncOp) (era : Era) : Validator :=
  { (p.updateValidatorVersionBySlot v).resetDepositTxs with
    activationEra := era.number + postpone, index := op.index, stake := [] }

/-- The record after an exit in the given era. -/
def deactivatedRecord (p : Processor) (v : Validator) (era : Era) : Validator :=
  { (p.updateValidatorVersionBySlot v).setExitTx none with exitEra := era.number + postpone }

theorem addSyncLog_eq (s : StateDB) (event : Event) (op : SyncOp) :
    ∃ ls, p.addSyncLog s event op = s.withLogs ls := by
  rw [addSyncLog]
  split_ifs
  · exact ⟨_, rfl⟩
  · exact ⟨s.logs, rfl⟩

theorem validatorActivate_eq_ok (h : p.validatorActivate s op = .ok (ret, s')) :
    ∃ v era bin s₁ ls, getValidator p.codec s op.creator = .ok v ∧
      (p.blockchain.config.isForkSlotValOpTracking p.ctx.slot → v.activationEra = maxUint64) ∧
      p.opEra op.procEpoch = .ok era ∧ p.codec.marshal (p.activatedRecord v op era) = .ok bin ∧
      (s₁ = s.setCode v.address bin ∨
        ∃ code, s₁ = (s.setCode v.address bin).setCode p.validatorsStateAddress code) ∧
      s' = s₁.withLogs ls := by
  simp only [validatorActivate, bind_eq_ok, failIf_eq_ok, not_and, not_not, setValidator_eq_ok,
    return_eq_ok] at h
  obtain ⟨v, hv, -, hact, era, hera, -, ⟨bin, hbin, rfl⟩, s₂, h₂, -, rfl⟩ := h
  obtain ⟨ls, hls⟩ := @addSyncLog_eq p s₂ .activate op
  exact ⟨v, era, bin, s₂, ls, hv, hact, hera, hbin, addValidatorToList_eq_ok h₂, hls⟩

theorem validatorDeactivate_eq_ok (h : p.validatorDeactivate s op = .ok (ret, s')) :
    ∃ v era bin ls, getValidator p.codec s op.creator = .ok v ∧ v.exitEra = maxUint64 ∧
      p.opEra op.procEpoch = .ok era ∧
      v.activationEra < (if p.blockchain.config.isForkSlotValSyncProc p.ctx.slot then p.ctx.era
        else era.number) ∧
      p.codec.marshal (p.deactivatedRecord v era) = .ok bin ∧
      s' = (s.setCode v.address bin).withLogs ls := by
  simp only [validatorDeactivate, bind_eq_ok, failIf_eq_ok, not_not, setValidator_eq_ok,
    return_eq_ok] at h
  obtain ⟨v, hv, -, hexit, era, hera, -, hact, -, ⟨bin, hbin, rfl⟩, -, rfl⟩ := h
  obtain ⟨ls, hls⟩ := @addSyncLog_eq p (s.setCode v.address bin) .deactivate op
  exact ⟨v, era, bin, ls, hv, hexit, hera, UInt64.not_le.1 hact, hbin, hls⟩

theorem payWithdrawal_eq_ok (h : p.payWithdrawal s op v withdrawalTo = .ok (ret, s')) :
    ∃ bin amount ls, p.codec.marshal v = .ok bin ∧ op.amount = some amount ∧
      s' = ((s.setCode v.address bin).addBalance withdrawalTo amount).withLogs ls := by
  simp only [payWithdrawal, bind_eq_ok, setValidator_eq_ok, orPanic_eq_ok, return_eq_ok] at h
  obtain ⟨-, ⟨bin, hbin, rfl⟩, amount, hamount, -, rfl⟩ := h
  split_ifs
  · exact ⟨bin, amount, _, hbin, hamount, rfl⟩
  · exact ⟨bin, amount, (s.setCode v.address bin).logs, hbin, hamount, rfl⟩

theorem refundInsufficientDeposit_eq_ok
    (h : p.refundInsufficientDeposit v op = .ok (withdrawalTo, v')) :
    ∃ initTx, p.blockchain.getTransaction op.initTxHash = some initTx ∧
      withdrawalTo = initTx.sender ∧
      (p.blockchain.config.isForkSlotValOpTracking p.ctx.slot → ∃ amount new v₁,
        op.amount = some amount ∧
        v.subtractStake initTx.sender (min (v.stakeByAddress initTx.sender) amount) =
          .ok (new, v₁) ∧
        v' = if new = 0 then v₁.rmStakeByAddress initTx.sender else v₁) ∧
      (¬ p.blockchain.config.isForkSlotValOpTracking p.ctx.slot → v' = v) := by
  rw [refundInsufficientDeposit] at h
  cases htx : p.blockchain.getTransaction op.initTxHash with
  | none => rw [htx] at h; cases h
  | some initTx =>
    simp only [htx, bind_eq_ok] at h
    obtain ⟨iop, -, -, -, h⟩ := h
    split_ifs at h with hfork
    · simp only [bind_eq_ok, Prod.exists, orPanic_eq_ok, return_eq_ok] at h
      obtain ⟨amount, hamount, new, v₁, hsub, rfl, rfl⟩ := h
      exact ⟨initTx, rfl, rfl, fun _ => ⟨amount, new, v₁, hamount, hsub, rfl⟩,
        fun hno => absurd hfork hno⟩
    · obtain ⟨rfl, rfl⟩ := return_eq_ok.1 h
      exact ⟨initTx, rfl, rfl, fun hyes => absurd hyes hfork, fun _ => rfl⟩

theorem applyDelegatingStakeRules_eq_ok (h : p.applyDelegatingStakeRules s op v = .ok (ret, s')) :
    ∃ entries ls, s' = (payShares s entries).withLogs ls := by
  simp only [applyDelegatingStakeRules, bind_eq_ok, Prod.exists, return_eq_ok] at h
  obtain ⟨-, -, -, -, -, -, -, -, -, entries, -, -, rfl⟩ := h
  exact ⟨entries, _, rfl⟩

/-- The payout of a delegating validator with a sufficient deposit follows its rules. -/
def PaysShares (p : Processor) (v : Validator) : Prop :=
  ¬ p.isInsufficientDeposit v ∧ v.hasDelegatingStake = some true

instance (v : Validator) : Decidable (p.PaysShares v) := inferInstanceAs (Decidable (_ ∧ _))

theorem payBalance_eq_ok (h : p.payBalance s op v = .ok (ret, s')) :
    (p.isInsufficientDeposit v ∧ ∃ withdrawalTo v',
      p.refundInsufficientDeposit v op = .ok (withdrawalTo, v') ∧
      p.payWithdrawal s op v' withdrawalTo = .ok (ret, s')) ∨
    (p.PaysShares v ∧ p.applyDelegatingStakeRules s op v = .ok (ret, s')) ∨
    ((¬ p.isInsufficientDeposit v ∧ ¬ p.PaysShares v) ∧ ∃ withdrawalTo,
      p.payWithdrawal s op v withdrawalTo = .ok (ret, s')) := by
  rw [payBalance] at h
  split_ifs at h with hins
  · obtain ⟨⟨withdrawalTo, v'⟩, hrefund, h⟩ := bind_eq_ok.1 h
    exact .inl ⟨hins, withdrawalTo, v', hrefund, h⟩
  · obtain ⟨delegated, hdelegated, h⟩ := bind_eq_ok.1 h
    have hdelegated := orPanic_eq_ok.1 hdelegated
    split_ifs at h with hd
    · exact .inr (.inl ⟨⟨hins, hd ▸ hdelegated⟩, h⟩)
    · split at h
      · cases h
      · refine .inr (.inr ⟨⟨hins, fun hshares => hd ?_⟩, _, h⟩)
        exact Option.some.inj (hdelegated.symm.trans hshares.2)

theorem validatorUpdateBalance_eq_ok (h : p.validatorUpdateBalance s op = .ok (ret, s')) :
    ∃ v, getValidator p.codec s op.creator = .ok v ∧
      p.payBalance s op ((p.updateValidatorVersionBySlot v).setWithdrawalTx none) =
        .ok (ret, s') := by
  rw [validatorUpdateBalance] at h
  obtain ⟨v, hv, h⟩ := bind_eq_ok.1 h
  obtain ⟨-, -, h⟩ := bind_eq_ok.1 h
  exact ⟨v, hv, h⟩

theorem syncOpProcessing_eq_ok (h : p.syncOpProcessing s op txHash = .ok (ret, s')) :
    (op.opType = .activate ∧ p.validatorActivate s op = .ok (ret, s')) ∨
    (op.opType = .deactivate ∧ p.validatorDeactivate s op = .ok (ret, s')) ∨
    (op.opType = .updateBalance ∧ p.validatorUpdateBalance s op = .ok (ret, s')) ∨
    ((∃ code, op.opType = .other code) ∧ s' = s) := by
  rw [syncOpProcessing] at h
  obtain ⟨-, -, h⟩ := bind_eq_ok.1 h
  split at h
  · next htype => exact .inl ⟨htype, h⟩
  · next htype => exact .inr (.inl ⟨htype, h⟩)
  · next htype => exact .inr (.inr (.inl ⟨htype, h⟩))
  · next code htype =>
    obtain ⟨-, rfl⟩ := return_eq_ok.1 h
    exact .inr (.inr (.inr ⟨⟨code, htype⟩, rfl⟩))

/-! ## The entry point -/

theorem call_eq_ok (h : p.call s caller toAddr value data txHash = (.ok ret, s')) :
    ∃ op, p.opCodec.decodeBytes data = .ok op ∧
      p.handle (s.setNonce caller (s.getNonce caller + 1)) caller toAddr value txHash op =
        .ok (ret, s') := by
  rw [call] at h
  split at h
  · cases h
  · next op hop =>
    refine ⟨op, hop, ?_⟩
    simp only at h
    split at h
    · cases h
    · next ret' s'' hrun => cases h; exact hrun

end Processor

/-! ## Runs of operations -/

/-- The validator that an operation names. -/
def ValOp.creator : ValOp → Address
  | .deposit op => op.creatorAddress
  | .exit op => op.creatorAddress
  | .withdrawal op => op.creatorAddress
  | .sync op => op.creator

/-- One operation in its block, with the state before and after it. -/
structure OpStep where
  p : Processor
  caller : Address
  toAddr : Address
  value : ℤ
  txHash : Hash
  op : ValOp
  before : StateDB
  after : StateDB

/-- The handler accepts the operation. -/
def OpStep.Accepted (st : OpStep) : Prop :=
  ∃ ret, st.p.handle st.before st.caller st.toAddr st.value st.txHash st.op = .ok (ret, st.after)

def SameCode (s s' : StateDB) : Prop := ∀ a, s'.getCode a = s.getCode a

/-- Accepted operations one after the other.  Between two of them, nonces grow and other
    transactions run that change no code. -/
inductive OpRun (s : StateDB) : List OpStep → StateDB → Prop
  | nil : OpRun s [] s
  | snoc {steps : List OpStep} {s₁ : StateDB} {st : OpStep} : OpRun s steps s₁ →
      SameCode s₁ st.before → st.Accepted → OpRun s (steps ++ [st]) st.after

theorem OpRun.cons {st : OpStep} {steps : List OpStep} (hsame : SameCode s st.before)
    (hacc : st.Accepted) (hrun : OpRun st.after steps s') : OpRun s (st :: steps) s' := by
  induction hrun with
  | nil => exact OpRun.snoc .nil hsame hacc
  | @snoc steps s₁ st' _ hsame' hacc' ih => exact ih.snoc hsame' hacc'

/-- Operations run one after the other in one block. -/
def runOps (p : Processor) (s : StateDB) :
    List (Address × ℤ × Hash × ValOp) → Except ValError (List OpStep × StateDB)
  | [] => .ok ([], s)
  | (caller, value, txHash, op) :: ops => do
    let (_, s') ← p.handle s caller p.validatorsStateAddress value txHash op
    let (steps, s'') ← runOps p s' ops
    return (⟨p, caller, p.validatorsStateAddress, value, txHash, op, s, s'⟩ :: steps, s'')

theorem opRun_of_runOps {p : Processor} : ∀ {ops : List (Address × ℤ × Hash × ValOp)}
    {s s' : StateDB} {steps : List OpStep}, runOps p s ops = .ok (steps, s') →
    OpRun s steps s' ∧ ∀ st ∈ steps, st.p = p
  | [], s, s', steps, h => by
    cases h
    exact ⟨.nil, by simp⟩
  | (caller, value, txHash, op) :: ops, s, s', steps, h => by
    simp only [runOps, bind_eq_ok, Prod.exists, return_eq_ok] at h
    obtain ⟨ret, s₁, hop, steps₁, s₂, hops, rfl, rfl⟩ := h
    obtain ⟨hrun, hp⟩ := opRun_of_runOps hops
    exact ⟨.cons (fun _ => rfl) ⟨ret, hop⟩ hrun, by simpa using hp⟩

theorem getValidator_congr (h : s'.getCode a = s.getCode a) :
    getValidator cd s' a = getValidator cd s a := by
  simp only [getValidator, h]

end Gwat
