/-
  The processor of validator operations (`validator/processor.go`): the checks its
  handlers share and the operations that users send.

  A handler takes the state and returns the new one or an error.  Map iteration
  and `sort.Slice` take their orders from `PayoutOrder`.
-/
import Gwat.Validator.OpBinary

namespace Gwat

open GoLib DelegatingStakeRules

/-- The orders in which one payout ranges over the share maps and sorts its log. -/
structure PayoutOrder where
  profit : Shuffle Address
  stake : Shuffle Address
  sortLog : SliceSort fun a b : ShareRuleApplying => decide (a.address < b.address)

/-- Maps traversed as stored, and a stable sort. -/
instance : Inhabited PayoutOrder where
  default :=
    { profit := default
      stake := default
      sortLog :=
        { sort := List.insertionSort fun a b => a.address ≤ b.address
          perm := List.perm_insertionSort _
          sorted := fun l => by
            have : Std.Total fun a b : ShareRuleApplying => a.address ≤ b.address :=
              ⟨fun a b => le_total _ _⟩
            have : IsTrans ShareRuleApplying fun a b => a.address ≤ b.address :=
              ⟨fun a b c => le_trans⟩
            exact (List.pairwise_insertionSort _ l).imp fun h => by simpa using h } }

/-- `validator.Processor` -/
structure Processor where
  codec : RecordCodec
  opCodec : OpCodec
  blockchain : Blockchain
  node : NodeLocal
  ctx : BlockContext
  order : PayoutOrder

/-- A processor on an empty chain with every fork active and an effective balance of
    3200 wat. -/
def Processor.devnet : Processor where
  codec := .binary
  opCodec := .binary
  blockchain := .empty ⟨0xFFFF, 3200, 100, 0, 0, 0, 32⟩ [⟨0, 0, 99⟩]
  node := ⟨10, ⟨0, 0, 99⟩⟩
  ctx := ⟨10, 0, 1⟩
  order := default

/-- The hash of an operation that slashing of the account 12 starts: the address comes first. -/
def slashingHash : Hash := 0xC000000000000000000000000

/-- `MinDepositVal`: 10 wat. -/
def minDepositVal : ℤ := 10 * bigWat

def postpone : UInt64 := 2

/-- `common.BnCanCastToUint64` -/
def bnCanCastToUint64 (n : ℤ) : Bool := 0 ≤ n ∧ n < 2 ^ 64

namespace Processor

variable (p : Processor)

/-- `GetValidatorsStateAddress` -/
def validatorsStateAddress : Address := p.blockchain.config.validatorsStateAddress

def isValidatorOp (addrTo : Address) : Bool := addrTo = p.validatorsStateAddress

def updateValidatorVersionBySlot (v : Validator) : Validator :=
  { v with version := if p.blockchain.config.isForkSlotValOpTracking p.ctx.slot then ver1 else noVer }

/-! ## Checks shared by the handlers -/

/-- An operation with this receipt succeeded and has not expired. -/
def isPending (receipt : Option ReceiptStatus × Hash) : Bool :=
  receipt.1 = some .successful &&
    match p.blockchain.getHeaderByHash receipt.2 with
    | none => false
    | some slot => p.ctx.slot < slot + p.blockchain.config.validatorOpExpireSlots

/-- An operation is blocked by an earlier one in the same block or still pending. -/
def prevOpCheck (prevOpTx : Option Hash) : Except ValError Unit :=
  match prevOpTx with
  | none => .ok ()
  | some tx =>
    let receipt := p.blockchain.getTransactionReceipt tx
    if receipt.2 ≠ 0 ∧ receipt.2 = p.ctx.blockHash then .error .valOpBlocked
    else if p.isPending receipt then .error .valOpBlocked
    else .ok ()

/-- `isValidatorTrialPeriod`: not activated yet, inside the trial period, or deactivated
    while it lasted. -/
def isValidatorTrialPeriod (v : Validator) : Except ValError Bool :=
  if p.ctx.era < v.activationEra then .ok true
  else do
    let activationEra ← orPanic (readEra p.blockchain.eras v.activationEra)
    let activationSlot ← p.blockchain.config.slotOfEpochStart activationEra.fromEpoch
    let delegatingStake ← orPanic v.delegatingStake
    let endTrialSlot := activationSlot + delegatingStake.trialPeriod
    if p.ctx.slot ≤ endTrialSlot then return true
    else if v.exitEra ≤ p.ctx.era then
      let exitEra ← orPanic (readEra p.blockchain.eras v.exitEra)
      let exitSlot ← p.blockchain.config.slotOfEpochStart exitEra.fromEpoch
      return decide (exitSlot ≤ endTrialSlot)
    else return false

/-- The rules in force: those of the trial period while it lasts. -/
def actualRules (v : Validator) : Except ValError (Bool × DelegatingStakeRules) := do
  let delegatingStake ← orPanic v.delegatingStake
  let isTrial ← p.isValidatorTrialPeriod v
  return (isTrial, if isTrial then delegatingStake.trialRules else delegatingStake.rules)

/-- The sender of an exit or a withdrawal has the role for it, or is the withdrawal
    address of a validator without delegating rules. -/
def checkSender (role : DelegatingStakeRules → Option (List Address)) (v : Validator)
    (sender : Address) : Except ValError Unit := do
  if ← orPanic v.hasDelegatingStake then
    let (_, rules) ← p.actualRules v
    let allowedAddrs ← orPanic (role rules)
    failIf (sender ∉ allowedAddrs) .senderRejByDelegate
  else
    let withdrawalAddress ← orPanic v.withdrawalAddress
    failIf (sender ≠ withdrawalAddress) .invalidFromAddresses

/-- The total stake is too small to activate the validator. -/
def isInsufficientDeposit (v : Validator) : Bool :=
  v.activationEra = maxUint64 ∧ v.totalStake < p.blockchain.config.effectiveBalanceWei

/-! ## Operations of users -/

def packDepositLogData (op : DepositOp) (amount : ℤ) (depositIndex : UInt64) : Bytes :=
  let amount := if amount < 0 then 1000000000 else amount
  op.pubKey.bytes ++ op.creatorAddress.bytes ++ op.withdrawalAddress.bytes ++
    uint64ToBytes (UInt64.ofNat (amount / bigGwei).toNat) ++ op.signature.bytes ++
    uint64ToBytes depositIndex

/-- The new record of a deposit; its delegating rules are checked. -/
def freshRecord (op : DepositOp) : Except ValError Validator :=
  let fresh := newValidator op.pubKey op.creatorAddress (some op.withdrawalAddress)
  match op.delegatingStake with
  | none => .ok fresh
  | some d => do
    failIf (¬ p.blockchain.config.isForkSlotDelegate p.ctx.slot) .delegateForkRequire
    d.rules.validate
    let data ← newDelegatingStakeData d.rules d.trialPeriod d.trialRules
    return { fresh with delegatingStake := some data }

/-- The stored record is not activated and agrees with the operation. -/
def checkCompliance (op : DepositOp) (curr : Validator) : Except ValError Unit := do
  failIf (curr.activationEra < maxUint64) .alreadyActivated
  failIf (curr.pubKey ≠ op.pubKey) .mismatchDepositKey
  let withdrawalAddress ← orPanic curr.withdrawalAddress
  failIf (withdrawalAddress ≠ op.withdrawalAddress) .mismatchDepositWithdrawal
  let curDlg ← (p.codec.marshalDelegate curr.delegatingStake).mapError .codec
  let opDlg ← (p.codec.marshalDelegate op.delegatingStake).mapError .codec
  failIf (curDlg ≠ opDlg) .mismatchDelegateData

/-- The record a deposit starts from: a new one, or the stored one if it agrees with the
    operation.  The error of the lookup is discarded. -/
def depositRecord (s : StateDB) (op : DepositOp) : Except ValError Validator := do
  let fresh ← p.freshRecord op
  match getValidator p.codec s op.creatorAddress with
  | .error .panic => throw .panic
  | .error _ => return fresh
  | .ok curr => do
    p.checkCompliance op curr
    return curr

def validatorDeposit (s : StateDB) (caller toAddr : Address) (value : ℤ) (op : DepositOp)
    (txHash : Hash) : Except ValError (Bytes × StateDB) := do
  failIf (¬ p.isValidatorOp toAddr) .invalidToAddress
  p.opCodec.verifyDepositSig op.signature op.pubKey op.creatorAddress op.withdrawalAddress
  failIf (value < minDepositVal) .tooLowDepositValue
  failIf (¬ bnCanCastToUint64 (value / bigGwei)) .invalidAmount
  failIf (s.getBalance caller < value) .insufficientFundsForOp
  let v ← p.depositRecord s op
  checkIf (ver1 ≤ v.version) (p.prevOpCheck v.getWithdrawalTx)
  let v := ((p.updateValidatorVersionBySlot v).addDepositTxs txHash).addStake caller value
  let s ← setValidator p.codec s v
  let depositCount ← getDepositCount s p.validatorsStateAddress
  let s := s.addLog ⟨toAddr, .depositLog, [], .raw (packDepositLogData op value depositCount)⟩
  let s ← incrementDepositCount s p.validatorsStateAddress
  return (bytesBE 32 value.toNat, s.subBalance caller value)

def packExitRequestLogData (pubKey : BlsPubKey) (creator : Address) (valIndex : UInt64)
    (exitAfterEpoch : Option UInt64) : Bytes :=
  pubKey.bytes ++ creator.bytes ++ uint64ToBytes valIndex ++
    (exitAfterEpoch.map uint64ToBytes).getD []

/-- The epoch after which the validator leaves: as requested, or one after the epoch of
    the node's clock. -/
def exitAfterEpoch (op : ExitOp) : Except ValError UInt64 :=
  match op.exitAfterEpoch with
  | some epoch => .ok epoch
  | none => do
    let epoch ← p.blockchain.config.slotToEpoch p.node.currentSlot
    return epoch + 1

/-- The checks of `validatorExit` after the activation check. -/
def exitChecks (v : Validator) (caller : Address) : Except ValError Unit := do
  failIf (v.exitEra ≠ maxUint64) .validatorIsOut
  p.checkSender DelegatingStakeRules.exit v caller
  checkIf (ver1 ≤ v.version) (p.prevOpCheck v.getExitTx)

/-- `validatorExit` after the activation check: the request is stored and logged. -/
def exitRequest (s : StateDB) (caller toAddr : Address) (op : ExitOp) (txHash : Hash)
    (v : Validator) (exitEpoch : UInt64) : Except ValError (Bytes × StateDB) := do
  p.exitChecks v caller
  let v := (p.updateValidatorVersionBySlot v).setExitTx (some txHash)
  let s ← setValidator p.codec s v
  let logData := packExitRequestLogData op.pubKey op.creatorAddress v.index (some exitEpoch)
  return (op.creatorAddress.bytes, s.addLog ⟨toAddr, .exitRequestLog, [], .raw logData⟩)

def validatorExit (s : StateDB) (caller toAddr : Address) (op : ExitOp) (txHash : Hash) :
    Except ValError (Bytes × StateDB) := do
  failIf (¬ p.isValidatorOp toAddr) .invalidToAddress
  let v ← getValidator p.codec s op.creatorAddress
  failIf (v.pubKey ≠ op.pubKey) .mismatchPublicKey
  let exitEpoch ← p.exitAfterEpoch op
  failIf (p.node.curEra.number < v.activationEra) .notActivatedValidator
  p.exitRequest s caller toAddr op txHash v exitEpoch

def packWithdrawalLogData (pubKey : BlsPubKey) (creator : Address) (valIndex amtGwei : UInt64) :
    Bytes :=
  pubKey.bytes ++ creator.bytes ++ uint64ToBytes valIndex ++ uint64ToBytes amtGwei

/-- The withdrawal of a deposit that is too small to activate the validator: the amount
    and the record.  Before the tracking fork the stake is reduced at once. -/
def withdrawInsufficientDeposit (v : Validator) (caller : Address) (opAmount : ℤ) :
    Except ValError (ℤ × Validator) := do
  let stakeByAddr := v.stakeByAddress caller
  failIf (stakeByAddr = 0) .invalidFromAddresses
  failIf (stakeByAddr < opAmount) .insufficientFundsForOp
  let opAmount := if opAmount = 0 then stakeByAddr else opAmount
  if ¬ p.blockchain.config.isForkSlotValOpTracking p.ctx.slot then
    let (newStake, v) ← v.subtractStake caller opAmount
    return (opAmount, if newStake = 0 then v.rmStakeByAddress caller else v)
  else return (opAmount, v)

/-- The amount that may be withdrawn and the record afterwards. -/
def withdrawalAmount (v : Validator) (caller : Address) (opAmount : ℤ) :
    Except ValError (ℤ × Validator) :=
  if p.isInsufficientDeposit v then p.withdrawInsufficientDeposit v caller opAmount
  else do
    p.checkSender DelegatingStakeRules.withdrawal v caller
    return (opAmount, v)

def validatorWithdrawal (s : StateDB) (caller toAddr : Address) (op : WithdrawalOp)
    (txHash : Hash) : Except ValError (Bytes × StateDB) := do
  failIf (¬ p.isValidatorOp toAddr) .invalidToAddress
  failIf (¬ bnCanCastToUint64 (op.amount / bigGwei)) .invalidAmount
  let v ← getValidator p.codec s op.creatorAddress
  checkIf (ver1 ≤ v.version) (p.prevOpCheck v.getWithdrawalTx)
  let v := (p.updateValidatorVersionBySlot v).setWithdrawalTx (some txHash)
  let (opAmount, v) ← p.withdrawalAmount v caller op.amount
  let s ← setValidator p.codec s v
  let amtGwei := UInt64.ofNat (opAmount / bigGwei).toNat
  let logData := packWithdrawalLogData v.pubKey op.creatorAddress v.index amtGwei
  return (op.creatorAddress.bytes, s.addLog ⟨toAddr, .withdrawalRequestLog, [], .raw logData⟩)

end Processor

end Gwat
