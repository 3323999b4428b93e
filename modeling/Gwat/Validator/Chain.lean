/-
  What the validator processor reads besides the state: the operations carried
  by transactions, the chain configuration, slots and eras, and the chain data
  behind the `blockchain` interface of `validator/processor.go`.
-/
import Gwat.Validator.Record

namespace Gwat

open GoLib

/-! ## Operations -/

/-- `types.ValidatorSyncOp`, a number with three known values. -/
inductive SyncOpType where
  | activate
  | deactivate
  | updateBalance
  | other (code : UInt64)
  deriving DecidableEq, Repr

/-- The operation codes of `validator/operation`. -/
def depositCode : UInt8 := 0x01
def activateCode : UInt8 := 0x02
def exitCode : UInt8 := 0x03
def deactivateCode : UInt8 := 0x04
def updateBalanceCode : UInt8 := 0x05
def withdrawalCode : UInt8 := 0x06

/-- `validatorSyncOperation` -/
structure SyncOp where
  version : UInt16
  opType : SyncOpType
  initTxHash : Hash
  procEpoch : UInt64
  index : UInt64
  creator : Address
  amountField : Option ℤ
  withdrawalAddress : Option Address
  balance : Option ℤ
  deriving DecidableEq, Repr

/-- `OpCode` of a sync operation. -/
def SyncOp.opCode (op : SyncOp) : UInt8 :=
  match op.opType with
  | .activate => activateCode
  | .deactivate => deactivateCode
  | .updateBalance => updateBalanceCode
  | .other _ => 0

/-- `Amount` is only that of a balance update. -/
def SyncOp.amount (op : SyncOp) : Option ℤ :=
  if op.opCode = updateBalanceCode then op.amountField else none

/-- `depositOperation` -/
structure DepositOp where
  pubKey : BlsPubKey
  creatorAddress : Address
  withdrawalAddress : Address
  signature : BlsSignature
  delegatingStake : Option DelegatingStakeData
  deriving DecidableEq, Repr

/-- `exitOperation` -/
structure ExitOp where
  pubKey : BlsPubKey
  creatorAddress : Address
  exitAfterEpoch : Option UInt64
  deriving DecidableEq, Repr

/-- `withdrawalOperation` -/
structure WithdrawalOp where
  creatorAddress : Address
  amount : ℤ
  deriving DecidableEq, Repr

/-- A decoded validator operation. -/
inductive ValOp where
  | deposit (op : DepositOp)
  | exit (op : ExitOp)
  | withdrawal (op : WithdrawalOp)
  | sync (op : SyncOp)
  deriving DecidableEq, Repr

def ValOp.opCode : ValOp → UInt8
  | .deposit _ => depositCode
  | .exit _ => exitCode
  | .withdrawal _ => withdrawalCode
  | .sync op => op.opCode

/-- The decoding of operations (`operation.DecodeBytes`) and the check of the deposit
    signature (`VerifyDepositSig`). -/
structure OpCodec where
  decodeBytes : Bytes → Except ValError ValOp
  verifyDepositSig : BlsSignature → BlsPubKey → Address → Address → Except ValError Unit

/-! ## Configuration and calendar -/

/-- The fields of `params.ChainConfig` that the model reads. -/
structure ChainConfig where
  validatorsStateAddress : Address
  effectiveBalance : ℤ
  validatorOpExpireSlots : UInt64
  forkSlotDelegate : UInt64
  forkSlotValOpTracking : UInt64
  forkSlotValSyncProc : UInt64
  slotsPerEpoch : UInt64
  deriving DecidableEq, Repr

namespace ChainConfig

def isForkSlotDelegate (c : ChainConfig) (slot : UInt64) : Bool := c.forkSlotDelegate ≤ slot
def isForkSlotValOpTracking (c : ChainConfig) (slot : UInt64) : Bool :=
  c.forkSlotValOpTracking ≤ slot
def isForkSlotValSyncProc (c : ChainConfig) (slot : UInt64) : Bool := c.forkSlotValSyncProc ≤ slot

/-- `SlotInfo.SlotToEpoch` -/
def slotToEpoch (c : ChainConfig) (slot : UInt64) : Except ValError UInt64 :=
  if c.slotsPerEpoch = 0 then .error .panic else .ok (slot / c.slotsPerEpoch)

/-- `SlotInfo.SlotOfEpochStart` -/
def slotOfEpochStart (c : ChainConfig) (epoch : UInt64) : Except ValError UInt64 :=
  if 2 ^ 64 ≤ c.slotsPerEpoch.toNat * epoch.toNat then .error .slotOverflow
  else .ok (c.slotsPerEpoch * epoch)

theorem avoids_slotOfEpochStart {e : ValError} {c : ChainConfig} {epoch : UInt64}
    (he : .slotOverflow ≠ e) : Avoids e (c.slotOfEpochStart epoch) := by
  unfold ChainConfig.slotOfEpochStart
  split_ifs
  · exact avoids_error.2 he
  · exact avoids_ok _

def effectiveBalanceWei (c : ChainConfig) : ℤ := c.effectiveBalance * bigWat

end ChainConfig

/-- `era.Era`: its number and its first and last epoch. -/
structure Era where
  number : UInt64
  fromEpoch : UInt64
  toEpoch : UInt64
  deriving DecidableEq, Repr, Inhabited

def Era.isContainsEpoch (e : Era) (epoch : UInt64) : Bool := e.fromEpoch ≤ epoch ∧ epoch ≤ e.toEpoch

/-- `rawdb.ReadEra`: the stored eras are numbered from `0`. -/
def readEra (eras : List Era) (number : UInt64) : Option Era := eras[number.toNat]?

/-- How a search ends: with an era, with a nil dereference, or not within its rounds. -/
inductive EraLookup where
  | found (era : Era)
  | missing
  | running
  deriving DecidableEq, Repr

def EraLookup.era? : EraLookup → Option Era
  | .found era => some era
  | _ => none

/-- `for !findingEra.IsContainsEpoch(epoch)`, downwards by halving. -/
def lookupDown (eras : List Era) (epoch : UInt64) : ℕ → UInt64 → UInt64 → Era → EraLookup
  | n, low, high, findingEra =>
    if findingEra.isContainsEpoch epoch then .found findingEra
    else
      match n with
      | 0 => .running
      | n + 1 =>
        let eraNumber := (low + high) / 2
        match readEra eras eraNumber with
        | none => .missing
        | some findingEra =>
          if epoch < findingEra.toEpoch then
            lookupDown eras epoch n low (eraNumber - 1) findingEra
          else lookupDown eras epoch n (eraNumber + 1) high findingEra

/-- `for !findingEra.IsContainsEpoch(epoch)`, upwards one era at a time. -/
def lookupUp (eras : List Era) (epoch : UInt64) : ℕ → UInt64 → Era → EraLookup
  | n, eraNumber, findingEra =>
    if findingEra.isContainsEpoch epoch then .found findingEra
    else
      match n with
      | 0 => .running
      | n + 1 =>
        match readEra eras (eraNumber + 1) with
        | none => .missing
        | some findingEra => lookupUp eras epoch n (eraNumber + 1) findingEra

/-- `EpochToEra` with at most `n` rounds of a loop. -/
def lookupEra (n : ℕ) (eras : List Era) (curEra : Era) (epoch : UInt64) : EraLookup :=
  if curEra.isContainsEpoch epoch then .found curEra
  else if epoch < curEra.fromEpoch then lookupDown eras epoch n 0 curEra.number curEra
  else if curEra.toEpoch < epoch then lookupUp eras epoch n curEra.number curEra
  else .found curEra

/-- `EpochToEra`, from the era `curEra` the node has entered; none is the read of a missing era.  Each
    search visits a stored era at most once. -/
def epochToEra (eras : List Era) (curEra : Era) (epoch : UInt64) : Option Era :=
  (lookupEra (eras.length + 1) eras curEra epoch).era?

/-! ## The blockchain interface -/

/-- The status of a receipt. -/
inductive ReceiptStatus where
  | failed
  | successful
  deriving DecidableEq, Repr

/-- A transaction, as far as validator operations read it. -/
structure InitTx where
  data : Bytes
  sender : Address

/-- `types.ValidatorSync`: the operation the coordinator confirmed. -/
structure ValidatorSync where
  initTxHash : Hash
  opType : SyncOpType
  procEpoch : UInt64
  index : UInt64
  creator : Address
  amount : Option ℤ
  txHash : Option Hash
  balance : Option ℤ
  deriving DecidableEq, Repr

/-- The chain data that all nodes share. -/
structure Blockchain where
  config : ChainConfig
  eras : List Era
  getValidatorSyncData : Hash → Option ValidatorSync
  getTransaction : Hash → Option InitTx
  /-- The receipt, when it is stored, and the hash of the block, zero when the
      transaction is unknown. -/
  getTransactionReceipt : Hash → Option ReceiptStatus × Hash
  /-- The slot of the header with the given hash. -/
  getHeaderByHash : Hash → Option UInt64

/-- A chain without transactions. -/
def Blockchain.empty (config : ChainConfig) (eras : List Era) : Blockchain where
  config := config
  eras := eras
  getValidatorSyncData _ := none
  getTransaction _ := none
  getTransactionReceipt _ := (none, 0)
  getHeaderByHash _ := none

/-- What a node knows on its own: the slot of its clock (`CurrentSlot`) and the era it
    has entered (`GetEraInfo`). -/
structure NodeLocal where
  currentSlot : UInt64
  curEra : Era

/-- The fields of `vm.BlockContext` that the processor reads. -/
structure BlockContext where
  slot : UInt64
  era : UInt64
  blockHash : Hash
  deriving DecidableEq, Repr

end Gwat
