/-
  The binary format of validator operations (`DecodeBytes`, `EncodeToBytes` and the
  operations' `MarshalBinary`, `UnmarshalBinary` in `validator/operation`).

  An operation is a prefix byte, its code and its fields.  A sync operation has two formats:
  its fields at fixed offsets, and RLP wrapped with a version.  The reader tries the second
  one first and takes what it cannot unwrap for the first.
-/
import Gwat.Validator.Chain
import Gwat.Validator.RecordBinary

namespace Gwat

open GoLib GoLib.Rlp DelegatingStakeRules

/-- `b[lo:hi]`.  What lies behind the end of `b` is no part of it, also where Go's slice has
    the capacity for it. -/
def slice (b : Bytes) (lo hi : ℕ) : Except ValError Bytes :=
  if hi ≤ b.length then .ok ((b.drop lo).take (hi - lo)) else .error .panic

/-- `binary.BigEndian.Uint64`, for eight bytes. -/
def uint64OfBytes (b : Bytes) : UInt64 := UInt64.ofNat (natOfBytes b)

/-! ## Sync operations -/

namespace SyncOpType

def toUint64 : SyncOpType → UInt64
  | activate => 0
  | deactivate => 1
  | updateBalance => 2
  | other code => code

def ofUint64 (n : UInt64) : SyncOpType :=
  if n = 0 then activate
  else if n = 1 then deactivate
  else if n = 2 then updateBalance
  else other n

end SyncOpType

/-- `NewValidatorSyncOperation`, with `validatorSyncOperation.init`. -/
def newValidatorSyncOperation (version : UInt16) (opType : SyncOpType) (initTxHash : Hash)
    (procEpoch index : UInt64) (creator : Address) (amount : Option ℤ)
    (withdrawalAddress : Option Address) (balance : Option ℤ) : Except ValError SyncOp := do
  failIf (initTxHash = 0) .noInitTxHash
  failIf (creator = 0) .noCreatorAddress
  checkIf (opType = .updateBalance) do
    failIf (amount = none) .noAmount
    failIf (withdrawalAddress = none) .noWithdrawalAddress
    failIf (noVer < version ∧ balance = none) .noBalance
  return {
    version, opType, initTxHash, procEpoch, index, creator
    amountField := amount
    withdrawalAddress := if opType = .updateBalance then withdrawalAddress else none
    balance := if opType = .updateBalance then balance else none }

structure RlpValSyncOpVer1 where
  opType : SyncOpType
  initTxHash : Hash
  procEpoch : UInt64
  index : UInt64
  creator : Address
  withdrawalAddress : Address
  amount : ℤ
  balance : ℤ

namespace RlpValSyncOpVer1

def item (d : RlpValSyncOpVer1) : Item :=
  .list [uint64Item d.opType.toUint64, hashItem d.initTxHash, uint64Item d.procEpoch,
    uint64Item d.index, addressItem d.creator, addressItem d.withdrawalAddress,
    .ofNat d.amount.toNat, .ofNat d.balance.toNat]

def ofItem? : Item → Option RlpValSyncOpVer1
  | .list [t, h, e, i, c, w, a, b] => do
    let opType ← toUint64? t
    let initTxHash ← toHash? h
    let procEpoch ← toUint64? e
    let index ← toUint64? i
    let creator ← toAddress? c
    let withdrawalAddress ← toAddress? w
    let amount ← a.toNat?
    let balance ← b.toNat?
    return ⟨.ofUint64 opType, initTxHash, procEpoch, index, creator, withdrawalAddress, amount,
      balance⟩
  | _ => none

/-- `rlp.EncodeToBytes` of the data; RLP has no negative numbers. -/
def encodeToBytes (d : RlpValSyncOpVer1) : Except ValError Bytes := do
  failIf (d.amount < 0 ∨ d.balance < 0) (.opDecode errNegativeBigInt)
  return encode d.item

end RlpValSyncOpVer1

def wrapVersionedData (version : UInt16) (b : Bytes) : Bytes :=
  encode (.list [.ofNat version.toNat, .str b])

/-- `rlpVerWrapper` -/
def versionedOfItem? : Item → Option (UInt16 × Bytes)
  | .list [v, d] => do
    let version ← v.toUint? 2
    let data ← d.toBytes?
    return (UInt16.ofNat version, data)
  | _ => none

def unwrapVersionedData (b : Bytes) : Option (UInt16 × Bytes) :=
  (decodeBytes b).bind versionedOfItem?

/-- `valSyncOpDataMinLen`; the fields that are always there take eight bytes more. -/
def valSyncOpDataMinLen : ℕ := 8 + 8 + 20 + 32

namespace SyncOp

/-- The data of version 1; only a balance update has an amount. -/
def dataVer1 (op : SyncOp) : Except ValError RlpValSyncOpVer1 :=
  if op.opType = .updateBalance then do
    let withdrawalAddress ← orPanic op.withdrawalAddress
    let amount ← orPanic op.amountField
    let balance ← orPanic op.balance
    return ⟨op.opType, op.initTxHash, op.procEpoch, op.index, op.creator, withdrawalAddress,
      amount, balance⟩
  else
    return ⟨op.opType, op.initTxHash, op.procEpoch, op.index, op.creator, 0, 0, 0⟩

def marshalBinaryLegacy (op : SyncOp) : Bytes :=
  uint64BytesBE op.opType.toUint64 ++ (op.initTxHash.bytes ++ (uint64BytesBE op.procEpoch ++
    (uint64BytesBE op.index ++ (op.creator.bytes ++
      ((op.withdrawalAddress.map Address.bytes).getD [] ++
        (op.amountField.map fun n => beBytes n.natAbs).getD [])))))

/-- `validatorSyncOperation.MarshalBinary` -/
def marshalBinary (op : SyncOp) : Except ValError Bytes :=
  if op.version = noVer then .ok op.marshalBinaryLegacy
  else if op.version = ver1 then do
    let data ← op.dataVer1
    let binData ← data.encodeToBytes
    return wrapVersionedData op.version binData
  else .error .opBadVersion

/-- The withdrawal address and the amount at the end of the old format. -/
def readPayment (opType : SyncOpType) (b : Bytes) : Except ValError (Address × Option ℤ) :=
  if opType = .updateBalance then do
    let withdrawal ← slice b 76 96
    return (addressOfBytes withdrawal, some (natOfBytes (b.drop 96) : ℤ))
  else .ok (0, none)

def unmarshalBinaryLegacy (b : Bytes) : Except ValError SyncOp := do
  failIf (b.length < valSyncOpDataMinLen) (.opDecode errBadDataLen)
  let opType ← slice b 0 8
  let initTxHash ← slice b 8 40
  let procEpoch ← slice b 40 48
  let index ← slice b 48 56
  let creator ← slice b 56 76
  let opType := SyncOpType.ofUint64 (uint64OfBytes opType)
  let (withdrawal, amount) ← readPayment opType b
  newValidatorSyncOperation noVer opType (hashOfBytes initTxHash) (uint64OfBytes procEpoch)
    (uint64OfBytes index) (addressOfBytes creator) amount (some withdrawal) none

/-- `validatorSyncOperation.UnmarshalBinary` -/
def unmarshalBinary (b : Bytes) : Except ValError SyncOp :=
  match unwrapVersionedData b with
  | none => unmarshalBinaryLegacy b
  | some (version, binData) =>
    if version = ver1 then do
      let d ← (rlpOk ((decodeBytes binData).bind RlpValSyncOpVer1.ofItem?)).mapError .opDecode
      newValidatorSyncOperation version d.opType d.initTxHash d.procEpoch d.index d.creator
        (some d.amount) (some d.withdrawalAddress) (some d.balance)
    else .error .opBadVersion

end SyncOp

/-! ## Deposits -/

namespace DelegatingStakeRules

/-- The shares of the first `n` addresses; a missing one is a read beyond the end. -/
def copyShares (n : ℕ) (shares : List UInt8) : Option (List UInt8) :=
  if shares.length < n then none else some (shares.take n)

variable {n : ℕ} {shares shares' : List UInt8}

theorem copyShares_self (h : shares.length = n) : copyShares n shares = some shares := by
  rw [copyShares, if_neg (by omega), ← h, List.take_length]

theorem copyShares_eq_some (h : copyShares n shares = some shares') :
    shares'.length = n := by
  rw [copyShares] at h
  split_ifs at h with hlen
  cases h
  simpa using hlen

/-- The bitlist for `n` addresses; roles that are left out stay out. -/
def copyRoles (n : ℕ) (bits : Bytes) : Bytes :=
  if bits = [] then [] else copyOver (newBitlist n) bits

/-- `DelegatingStakeRules.Copy` -/
def copy (r : DelegatingStakeRules) : Option DelegatingStakeRules := do
  let profitShares ← copyShares r.addrs.length r.profitShares
  let stakeShares ← copyShares r.addrs.length r.stakeShares
  return ⟨r.addrs, profitShares, stakeShares, copyRoles r.addrs.length r.exitBits,
    copyRoles r.addrs.length r.withdrawalBits⟩

end DelegatingStakeRules

namespace DelegatingStakeData

/-- `DelegatingStakeData.Copy` -/
def copy (d : DelegatingStakeData) : Option DelegatingStakeData := do
  let rules ← d.rules.copy
  let trialRules ← d.trialRules.copy
  return ⟨rules, d.trialPeriod, trialRules⟩

/-- `TrialPeriod > 0 && len(share) > 0` -/
def trialShares (trialPeriod : UInt64) (share : Option (GoMap Address UInt8)) :
    Except ValError Bool :=
  if 0 < trialPeriod then (fun m => decide (0 < m.keys.length)) <$> orPanic share else .ok false

/-- `TrialPeriod > 0 && len(share) > 0 || len(role) > 0` -/
def trialGrants (trialPeriod : UInt64) (share : Option (GoMap Address UInt8))
    (role : Option (List Address)) : Except ValError Bool := do
  let shared ← trialShares trialPeriod share
  if shared then return true
  else (fun l => decide (0 < l.length)) <$> orPanic role

/-- The check of trial rules under which someone may withdraw. -/
def checkTrialWithdrawal (d : DelegatingStakeData) : Except ValError Unit := do
  let grants ← trialGrants d.trialPeriod d.trialRules.profitShare d.trialRules.withdrawal
  checkIf grants do
    d.trialRules.validateProfitShare
    d.trialRules.validateWithdrawal

/-- The check of trial rules under which someone may exit; the profit is shared then, too. -/
def checkTrialExit (d : DelegatingStakeData) : Except ValError Unit := do
  let grants ← trialGrants d.trialPeriod d.trialRules.stakeShare d.trialRules.exit
  checkIf grants do
    d.trialRules.validateStakeShare
    d.trialRules.validateExit
    d.trialRules.validateProfitShare

/-- The delegating data of a deposit, copied and checked. -/
def checked : Option DelegatingStakeData → Except ValError (Option DelegatingStakeData)
  | none => .ok none
  | some d => do
    let d ← orPanic d.copy
    d.rules.validate
    d.checkTrialWithdrawal
    d.checkTrialExit
    return some d

end DelegatingStakeData

/-- `NewDepositOperation`, with `depositOperation.init`. -/
def newDepositOperation (pubKey : BlsPubKey) (creatorAddress withdrawalAddress : Address)
    (signature : BlsSignature) (delegate : Option DelegatingStakeData) :
    Except ValError DepositOp := do
  failIf (pubKey = 0) .noPubKey
  failIf (creatorAddress = 0) .noCreatorAddress
  failIf (withdrawalAddress = 0 ∧ delegate = none) .noWithdrawalAddress
  failIf (signature = 0) .noSignature
  let delegatingStake ← DelegatingStakeData.checked delegate
  return ⟨pubKey, creatorAddress, withdrawalAddress, signature, delegatingStake⟩

/-- `BytesToBlsSig`, for 96 bytes. -/
def blsSignatureOfBytes (b : Bytes) : BlsSignature := Fin.ofNat _ (natOfBytes b)

namespace DepositOp

def minBinaryLen : ℕ := 48 + 20 + 20 + 96

/-- The delegating data behind the fixed part, with its length in front. -/
def readDelegate (extendedData : Bytes) : Except ValError (Option DelegatingStakeData) :=
  if extendedData = [] then .ok none
  else if extendedData.length < 4 then .error .panic
  else
    let n := natOfBytes (extendedData.take 4)
    if (extendedData.drop 4).length < n then .error (.opDecode errBadDataLen)
    else (DelegatingStakeData.unmarshalBinary ((extendedData.drop 4).take n)).mapError .opDecode

/-- `depositOperation.UnmarshalBinary` -/
def unmarshalBinary (b : Bytes) : Except ValError DepositOp := do
  failIf (b.length < minBinaryLen) (.opDecode errBadDataLen)
  let delegate ← readDelegate (b.drop minBinaryLen)
  newDepositOperation (blsPubKeyOfBytes (b.take 48)) (addressOfBytes ((b.drop 48).take 20))
    (addressOfBytes ((b.drop 68).take 20)) (blsSignatureOfBytes ((b.drop 88).take 96)) delegate

/-- `depositOperation.MarshalBinary` -/
def marshalBinary (op : DepositOp) : Bytes :=
  let base := op.pubKey.bytes ++ op.creatorAddress.bytes ++ op.withdrawalAddress.bytes ++
    op.signature.bytes
  match op.delegatingStake with
  | none => base
  | some d => base ++ lengthPrefixed (DelegatingStakeData.marshalBinary (some d))

end DepositOp

/-! ## Exits and withdrawals -/

def newExitOperation (pubKey : BlsPubKey) (creatorAddress : Address)
    (exitAfterEpoch : Option UInt64) : Except ValError ExitOp := do
  failIf (pubKey = 0) .noPubKey
  failIf (creatorAddress = 0) .noCreatorAddress
  return ⟨pubKey, creatorAddress, exitAfterEpoch⟩

def minExitRequestLen : ℕ := 48 + 20

namespace ExitOp

/-- `exitOperation.MarshalBinary` -/
def marshalBinary (op : ExitOp) : Bytes :=
  op.pubKey.bytes ++ (op.creatorAddress.bytes ++ (op.exitAfterEpoch.map uint64BytesBE).getD [])

/-- The epoch behind the fixed part, if there is anything. -/
def readEpoch (data : Bytes) : Except ValError (Option UInt64) :=
  if minExitRequestLen < data.length then do
    let epoch ← slice data 68 76
    return some (uint64OfBytes epoch)
  else .ok none

/-- `exitOperation.UnmarshalBinary` -/
def unmarshalBinary (data : Bytes) : Except ValError ExitOp := do
  failIf (data.length < minExitRequestLen) (.opDecode errBadDataLen)
  let exitAfterEpoch ← readEpoch data
  newExitOperation (blsPubKeyOfBytes (data.take 48)) (addressOfBytes ((data.drop 48).take 20))
    exitAfterEpoch

end ExitOp

def newWithdrawalOperation (creatorAddress : Address) (amount : Option ℤ) :
    Except ValError WithdrawalOp := do
  failIf (creatorAddress = 0) .noCreatorAddress
  match amount with
  | none => throw .noAmount
  | some amount => return ⟨creatorAddress, amount⟩

namespace WithdrawalOp

/-- `withdrawalOperation.MarshalBinary` -/
def marshalBinary (op : WithdrawalOp) : Bytes := op.creatorAddress.bytes ++ beBytes op.amount.natAbs

/-- `withdrawalOperation.UnmarshalBinary`; the length is not checked. -/
def unmarshalBinary (data : Bytes) : Except ValError WithdrawalOp := do
  let creatorAddress ← slice data 0 20
  newWithdrawalOperation (addressOfBytes creatorAddress) (some (natOfBytes (data.drop 20) : ℤ))

end WithdrawalOp

/-! ## The prefix and the code -/

/-- `Prefix` of the data of a validator operation. -/
def opPrefix : UInt8 := 0xF4

def ValOp.getOpCode : Bytes → Except ValError UInt8
  | x :: code :: _ => if x ≠ opPrefix then .error .prefixNotValid else .ok code
  | _ => .error .rawDataShort

/-- The code of an activation, a deactivation or a balance update. -/
def IsSyncCode (opCode : UInt8) : Prop :=
  opCode = activateCode ∨ opCode = deactivateCode ∨ opCode = updateBalanceCode

instance (opCode : UInt8) : Decidable (IsSyncCode opCode) :=
  inferInstanceAs (Decidable (_ ∨ _ ∨ _))

namespace ValOp

/-- The operation with the given code. -/
def unmarshalBinary (opCode : UInt8) (b : Bytes) : Except ValError ValOp :=
  if opCode = depositCode then .deposit <$> DepositOp.unmarshalBinary b
  else if IsSyncCode opCode then .sync <$> SyncOp.unmarshalBinary b
  else if opCode = exitCode then .exit <$> ExitOp.unmarshalBinary b
  else if opCode = withdrawalCode then .withdrawal <$> WithdrawalOp.unmarshalBinary b
  else .error .opNotValid

def decodeBytes (b : Bytes) : Except ValError ValOp := do
  let opCode ← getOpCode b
  unmarshalBinary opCode (b.drop 2)

/-- The code of an operation and its fields; a sync operation is read back for its code. -/
def marshalBinary : ValOp → Except ValError (UInt8 × Bytes)
  | .deposit op => .ok (depositCode, op.marshalBinary)
  | .exit op => .ok (exitCode, op.marshalBinary)
  | .withdrawal op => .ok (withdrawalCode, op.marshalBinary)
  | .sync op => do
    let b ← op.marshalBinary
    let vs ← SyncOp.unmarshalBinary b
    return (vs.opCode, b)

def encodeToBytes (op : ValOp) : Except ValError Bytes := do
  let (opCode, b) ← op.marshalBinary
  return opPrefix :: opCode :: b

/-- The data of a transaction with the operation. -/
def data (op : ValOp) : Bytes := op.encodeToBytes.toOption.getD []

end ValOp

/-- The codec of the transactions, for deposits whose signatures are all valid. -/
def OpCodec.binary : OpCodec := ⟨ValOp.decodeBytes, fun _ _ _ _ => .ok ()⟩

end Gwat
