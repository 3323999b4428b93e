/-
  The operations of the coordinator, and the entry point of the processor
  (`validator/processor.go`).
-/
import Gwat.Validator.Processor

namespace Gwat

open GoLib DelegatingStakeRules

/-! ## Admission -/

def compareValSync (saved : ValidatorSync) (input : SyncOp) (isForkDelegate : Bool) : Bool :=
  if saved.initTxHash ≠ input.initTxHash then false
  else if saved.opType ≠ input.opType then false
  else if saved.creator ≠ input.creator then false
  else if saved.index ≠ input.index then false
  else if ¬ isForkDelegate ∧ input.procEpoch < saved.procEpoch then false
  else decide (saved.amount = input.amount)

/-- The check of a sync operation against the transaction that asked for it. -/
def checkInitTx (oc : OpCodec) (bc : Blockchain) (op : SyncOp) : Except ValError Unit := do
  match bc.getTransaction op.initTxHash with
  | none => throw .txNotFound
  | some initTx => do
    match ← oc.decodeBytes initTx.data with
    | .deposit iop => do
      failIf (op.opCode = depositCode) .invalidOpCode
      failIf (iop.creatorAddress ≠ op.creator) .invalidCreator
    | .exit iop => do
      failIf (op.opCode = exitCode) .invalidOpCode
      failIf (iop.creatorAddress ≠ op.creator) .invalidCreator
      failIf (∃ e ∈ iop.exitAfterEpoch, op.procEpoch < e) .invalidOpEpoch
    | .withdrawal iop => do
      failIf (op.opCode = withdrawalCode) .invalidOpCode
      failIf (iop.creatorAddress ≠ op.creator) .invalidCreator
      failIf (op.version = ver1 ∧ op.balance = none) .noBalance
    | .sync _ => throw .invalidOpCode
    match (bc.getTransactionReceipt op.initTxHash).1 with
    | none => throw .receiptNotFound
    | some status => failIf (status ≠ .successful) .invalidReceiptStatus

def validateValidatorSyncOp (oc : OpCodec) (bc : Blockchain) (op : SyncOp) (applySlot : UInt64)
    (txHash : Hash) : Except ValError Unit := do
  match bc.getValidatorSyncData op.initTxHash with
  | none => throw .noSavedValSyncOp
  | some saved => do
    let isForkDelegate := bc.config.isForkSlotDelegate applySlot
    checkIf (¬ isForkDelegate) do
      let blockEpoch ← bc.config.slotToEpoch applySlot
      failIf (op.procEpoch < blockEpoch) .invalidOpEpoch
    failIf (¬ compareValSync saved op isForkDelegate) .mismatchValSyncOp
    failIf (∃ t ∈ saved.txHash, t ≠ txHash ∧
      (¬ isForkDelegate ∨ (bc.getTransactionReceipt t).1 = some .successful)) .valSyncTxExists
    -- an operation started by slashing has no initial transaction
    if op.initTxHash.bytes.take 20 = op.creator.bytes then return ()
    else checkInitTx oc bc op

namespace Processor

variable (p : Processor)

/-! ## Activation and exit -/

/-- The era of an epoch, as the node computes it. -/
def opEra (epoch : UInt64) : Except ValError Era :=
  orPanic (epochToEra p.blockchain.eras p.node.curEra epoch)

/-- The log of a sync operation, written after the delegating fork. -/
def addSyncLog (s : StateDB) (event : Event) (op : SyncOp) : StateDB :=
  if p.blockchain.config.isForkSlotDelegate p.ctx.slot then
    s.addLog ⟨p.validatorsStateAddress, event, [op.creator.hash, op.initTxHash],
      .validatorSync op.initTxHash op.creator op.procEpoch op.index⟩
  else s

def validatorActivate (s : StateDB) (op : SyncOp) : Except ValError (Bytes × StateDB) := do
  let v ← getValidator p.codec s op.creator
  failIf (p.blockchain.config.isForkSlotValOpTracking p.ctx.slot ∧ v.activationEra ≠ maxUint64)
    .validatorActivated
  let v := (p.updateValidatorVersionBySlot v).resetDepositTxs
  let era ← p.opEra op.procEpoch
  let v := { v with activationEra := era.number + postpone, index := op.index, stake := [] }
  let s ← setValidator p.codec s v
  let s ← addValidatorToList s p.validatorsStateAddress op.index op.creator
  return (op.creator.bytes, p.addSyncLog s .activate op)

def validatorDeactivate (s : StateDB) (op : SyncOp) : Except ValError (Bytes × StateDB) := do
  let v ← getValidator p.codec s op.creator
  failIf (v.exitEra ≠ maxUint64) .validatorIsOut
  let era ← p.opEra op.procEpoch
  let opEraNr :=
    if p.blockchain.config.isForkSlotValSyncProc p.ctx.slot then p.ctx.era else era.number
  failIf (opEraNr ≤ v.activationEra) .notActivatedValidator
  let v := (p.updateValidatorVersionBySlot v).setExitTx none
  let v := { v with exitEra := era.number + postpone }
  let s ← setValidator p.codec s v
  return (op.creator.bytes, p.addSyncLog s .deactivate op)

/-! ## Balance updates -/

/-- The two parts of a delegated withdrawal of `amount`, when the coordinator reports
    `balance` as what is left: profit above the effective balance, and stake. -/
def splitAmount (effectiveBalanceWei balance amount : ℤ) : ℤ × ℤ :=
  let opBalance := balance + amount
  let profitBalance := if opBalance - effectiveBalanceWei < 0 then 0 else opBalance - effectiveBalanceWei
  let profitOpAmt := profitBalance - amount
  if profitOpAmt ≤ 0 then (profitBalance, amount - profitBalance) else (profitOpAmt, 0)

/-- The shares of `opAmt`, in the order in which the share map is traversed. -/
def shareEntries (ruleType : RuleType) (isTrial : Bool) (opAmt : ℤ) (o : Shuffle Address)
    (share : GoMap Address UInt8) : List ShareRuleApplying :=
  if 0 < opAmt then
    let percent := opAmt / 100
    (o.order share.keys).filterMap fun adr =>
      (share.lookup adr).map fun prc => ⟨adr, ruleType, isTrial, percent * prc.toNat⟩
  else []

/-- `AddBalance` for each share. -/
def payShares (s : StateDB) (entries : List ShareRuleApplying) : StateDB :=
  entries.foldl (fun s e => s.addBalance e.address e.amount) s

/-- The log of a balance update. -/
def updateBalanceLog (op : SyncOp) (amount : ℤ) (withdrawalTo : Option Address) : Log :=
  ⟨p.validatorsStateAddress, .updateBalance,
    [op.creator.hash, op.initTxHash] ++ withdrawalTo.toList.map Address.hash,
    .updateBalance op.initTxHash op.creator op.procEpoch amount⟩

/-- The log of a delegated payout: its entries sorted by address, with the addresses as
    topics. -/
def delegatingStakeLog (entries : List ShareRuleApplying) : Log :=
  ⟨p.validatorsStateAddress, .delegatingStake,
    sortAsc ((entries.map fun e => e.address.hash).reverse.dedup.reverse),
    .delegatingStake (p.order.sortLog.sort entries)⟩

/-- The payments of a delegated withdrawal under the rules in force. -/
def payoutEntries (isTrial : Bool) (rules : DelegatingStakeRules) (balance amount : ℤ) :
    Except ValError (List ShareRuleApplying) := do
  let profitShare ← orPanic rules.profitShare
  let stakeShare ← orPanic rules.stakeShare
  let (profitOpAmt, stakeOpAmt) :=
    splitAmount p.blockchain.config.effectiveBalanceWei balance amount
  return shareEntries .profitShare isTrial profitOpAmt p.order.profit profitShare ++
    shareEntries .stakeShare isTrial stakeOpAmt p.order.stake stakeShare

def applyDelegatingStakeRules (s : StateDB) (op : SyncOp) (v : Validator) :
    Except ValError (Bytes × StateDB) := do
  failIf (¬ p.blockchain.config.isForkSlotDelegate p.ctx.slot) .delegateForkRequire
  let (isTrial, rules) ← p.actualRules v
  let balance ← orPanic op.balance
  let amount ← orPanic op.amount
  let entries ← p.payoutEntries isTrial rules balance amount
  let s := payShares s entries
  let s := s.addLog (p.updateBalanceLog op amount none)
  return (op.creator.bytes, s.addLog (p.delegatingStakeLog entries))

/-- The version-1 check of `validatorUpdateBalance`: the pending withdrawal is the one
    that is paid, or another that failed or expired.  Without a pending withdrawal the
    operation must have been started before the tracking fork. -/
def updateBalanceCheck (v : Validator) (op : SyncOp) : Except ValError Unit := do
  match v.getWithdrawalTx with
  | none => do
    let expiration := p.blockchain.config.validatorOpExpireSlots
    let checkSlot := if expiration < p.ctx.slot then p.ctx.slot - expiration else 0
    failIf (p.blockchain.config.isForkSlotValOpTracking checkSlot) .noActiveWithdrawalOp
    let receipt := p.blockchain.getTransactionReceipt op.initTxHash
    failIf (receipt.1 = none) .initTxReceiptNotFound
    failIf (receipt.1 ≠ some .successful) .initTxReceiptFailed
    let initTxSlot ← orPanic (p.blockchain.getHeaderByHash receipt.2)
    failIf (p.blockchain.config.isForkSlotValOpTracking initTxSlot) .noActiveWithdrawalOp
  | some prevOpTx =>
    failIf (prevOpTx ≠ op.initTxHash ∧ p.isPending (p.blockchain.getTransactionReceipt prevOpTx))
      .valOpBlocked

/-- The refund of a deposit too small to activate the validator: the sender of the
    initial transaction is paid, and after the tracking fork its stake is reduced. -/
def refundInsufficientDeposit (v : Validator) (op : SyncOp) :
    Except ValError (Address × Validator) := do
  match p.blockchain.getTransaction op.initTxHash with
  | none => throw .txNotFound
  | some initTx => do
    let iop ← p.opCodec.decodeBytes initTx.data
    failIf (iop.opCode ≠ withdrawalCode) .invalidOpCode
    if p.blockchain.config.isForkSlotValOpTracking p.ctx.slot then
      let amount ← orPanic op.amount
      let curDepositStake := v.stakeByAddress initTx.sender
      let (newStake, v) ← v.subtractStake initTx.sender (min curDepositStake amount)
      return (initTx.sender, if newStake = 0 then v.rmStakeByAddress initTx.sender else v)
    else return (initTx.sender, v)

/-- Store the record and pay the whole amount to one address. -/
def payWithdrawal (s : StateDB) (op : SyncOp) (v : Validator) (withdrawalTo : Address) :
    Except ValError (Bytes × StateDB) := do
  let s ← setValidator p.codec s v
  let amount ← orPanic op.amount
  let s := s.addBalance withdrawalTo amount
  return (op.creator.bytes,
    if p.blockchain.config.isForkSlotDelegate p.ctx.slot then
      s.addLog (p.updateBalanceLog op amount (some withdrawalTo))
    else s)

/-- The payment of `validatorUpdateBalance`: the refund of a small deposit, a delegated
    payout, or a withdrawal to the withdrawal address. -/
def payBalance (s : StateDB) (op : SyncOp) (v : Validator) : Except ValError (Bytes × StateDB) :=
  if p.isInsufficientDeposit v then do
    let (withdrawalTo, v) ← p.refundInsufficientDeposit v op
    p.payWithdrawal s op v withdrawalTo
  else do
    if ← orPanic v.hasDelegatingStake then p.applyDelegatingStakeRules s op v
    else
      match v.withdrawalAddress with
      | none => throw .noWithdrawalCred
      | some withdrawalTo => p.payWithdrawal s op v withdrawalTo

def validatorUpdateBalance (s : StateDB) (op : SyncOp) : Except ValError (Bytes × StateDB) := do
  let v ← getValidator p.codec s op.creator
  checkIf (ver1 ≤ v.version) (p.updateBalanceCheck v op)
  p.payBalance s op ((p.updateValidatorVersionBySlot v).setWithdrawalTx none)

/-! ## The entry point -/

def syncOpProcessing (s : StateDB) (op : SyncOp) (txHash : Hash) :
    Except ValError (Bytes × StateDB) := do
  validateValidatorSyncOp p.opCodec p.blockchain op p.ctx.slot txHash
  match op.opType with
  | .activate => p.validatorActivate s op
  | .deactivate => p.validatorDeactivate s op
  | .updateBalance => p.validatorUpdateBalance s op
  | .other _ => return ([], s)

/-- The handler of an operation. -/
def handle (s : StateDB) (caller toAddr : Address) (value : ℤ) (txHash : Hash) :
    ValOp → Except ValError (Bytes × StateDB)
  | .deposit op => p.validatorDeposit s caller toAddr value op txHash
  | .sync op => p.syncOpProcessing s op txHash
  | .exit op => p.validatorExit s caller toAddr op txHash
  | .withdrawal op => p.validatorWithdrawal s caller toAddr op txHash

/-- `Processor.Call`: the result and the state afterwards. -/
def call (s : StateDB) (caller toAddr : Address) (value : ℤ) (data : Bytes) (txHash : Hash) :
    Except ValError Bytes × StateDB :=
  match p.opCodec.decodeBytes data with
  | .error e => (.error e, s)
  | .ok op =>
    let s := s.setNonce caller (s.getNonce caller + 1)
    match p.handle s caller toAddr value txHash op with
    | .error e => (.error e, s)
    | .ok (ret, s') => (.ok ret, s')

end Processor

end Gwat
