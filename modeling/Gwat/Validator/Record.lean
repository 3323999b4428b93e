/-
  The validator record (`validator/storage/validator.go`) and its place in the
  state (`validator/storage/storage.go`).

  A record is stored as the code of the validator's account.  Its binary format
  is a parameter here (`RecordCodec`); what the handlers of the processor read and
  write are the fields.
-/
import Gwat.State.StateDB
import Gwat.Validator.Rules

namespace Gwat

open GoLib

structure StakeByAddress where
  address : Address
  sum : ℤ
  deriving DecidableEq, Repr

/-- `ValidatorVersion`: `NoVer` and `Ver1`. -/
def noVer : UInt16 := 0
def ver1 : UInt16 := 1

/-- `storage.Validator` -/
structure Validator where
  address : Address
  pubKey : BlsPubKey
  withdrawalAddress : Option Address
  index : UInt64 := maxUint64
  activationEra : UInt64 := maxUint64
  exitEra : UInt64 := maxUint64
  stake : List StakeByAddress := []
  delegatingStake : Option DelegatingStakeData := none
  version : UInt16 := noVer
  depositTxs : List Hash := []
  withdrawalTx : Option Hash := none
  exitTx : Option Hash := none
  deriving DecidableEq, Repr

def newValidator (pubKey : BlsPubKey) (address : Address) (withdrawal : Option Address) :
    Validator := { address, pubKey, withdrawalAddress := withdrawal }

namespace Validator

/-- A tracking hash, absent in records without a version and when it is zero. -/
def trackedTx (v : Validator) (tx : Option Hash) : Option Hash :=
  if v.version = noVer ∨ tx = some 0 then none else tx

def getWithdrawalTx (v : Validator) : Option Hash := v.trackedTx v.withdrawalTx

def setWithdrawalTx (v : Validator) (tx : Option Hash) : Validator :=
  { v with withdrawalTx := v.trackedTx tx }

def getExitTx (v : Validator) : Option Hash := v.trackedTx v.exitTx

def setExitTx (v : Validator) (tx : Option Hash) : Validator := { v with exitTx := v.trackedTx tx }

def addDepositTxs (v : Validator) (tx : Hash) : Validator :=
  if v.version = noVer then { v with depositTxs := [] }
  else { v with depositTxs := (v.depositTxs ++ [tx]).reverse.dedup.reverse }

def resetDepositTxs (v : Validator) : Validator := { v with depositTxs := [] }

def addStake (v : Validator) (address : Address) (sum : ℤ) : Validator :=
  if v.stake.any (·.address = address) then
    { v with stake := addFirst v.stake }
  else { v with stake := v.stake ++ [⟨address, sum⟩] }
where
  addFirst : List StakeByAddress → List StakeByAddress
    | [] => []
    | s :: ss => if s.address = address then ⟨s.address, s.sum + sum⟩ :: ss else s :: addFirst ss

/-- `SubtractStake`: the new stake of the address is returned beside the record. -/
def subtractStake (v : Validator) (address : Address) (sum : ℤ) :
    Except ValError (ℤ × Validator) := do
  let (new, stake) ← go v.stake
  return (new, { v with stake })
where
  go : List StakeByAddress → Except ValError (ℤ × List StakeByAddress)
    | [] => .error .stakeNotFound
    | s :: ss =>
      if s.address = address then
        if s.sum < sum then .error .stakeTooSmall
        else .ok (s.sum - sum, ⟨s.address, s.sum - sum⟩ :: ss)
      else do
        let (new, ss) ← go ss
        return (new, s :: ss)

def totalStake (v : Validator) : ℤ := (v.stake.map (·.sum)).sum

def stakeByAddress (v : Validator) (address : Address) : ℤ :=
  ((v.stake.find? (·.address = address)).map (·.sum)).getD 0

def rmStakeByAddress (v : Validator) (address : Address) : Validator :=
  { v with stake := v.stake.filter (·.address ≠ address) }

/-- `HasDelegatingStake` returns true if the validator has delegating rules to apply. -/
def hasDelegatingStake (v : Validator) : Option Bool :=
  match v.delegatingStake with
  | none => some false
  | some d => d.isEmpty.map not

end Validator

/-! ## Storage -/

/-- The binary format of the validator record (`MarshalBinary`, `UnmarshalBinary`) and
    of the delegating stake data, with its own errors. -/
structure RecordCodec where
  marshal : Validator → Except ℕ Bytes
  unmarshal : Bytes → Except ℕ Validator
  marshalDelegate : Option DelegatingStakeData → Except ℕ Bytes

/-- The error that a codec uses for a read beyond the end of its input. -/
def panicCode : ℕ := 1000

/-- An error of the codec; a read beyond the end is a panic, which no caller sees. -/
def codecError (code : ℕ) : ValError := if code = panicCode then .panic else .codec code

/-- `GetValidator`: missing code means that the address has no record. -/
def getValidator (cd : RecordCodec) (s : StateDB) (a : Address) : Except ValError Validator :=
  if s.getCode a = [] then .error .noStateValidatorInfo
  else (cd.unmarshal (s.getCode a)).mapError codecError

def setValidator (cd : RecordCodec) (s : StateDB) (v : Validator) : Except ValError StateDB := do
  let valData ← (cd.marshal v).mapError .codec
  return s.setCode v.address valData

/-- `GetDepositCount`: the first eight bytes of the code at the validators' address. -/
def getDepositCount (s : StateDB) (valAddr : Address) : Except ValError UInt64 :=
  let buf := s.getCode valAddr
  if buf = [] then .ok 0
  else if buf.length < 8 then .error .panic
  else .ok (UInt64.ofNat (natOfBytes (buf.take 8)))

def incrementDepositCount (s : StateDB) (valAddr : Address) : Except ValError StateDB := do
  let count ← getDepositCount s valAddr
  let buf := if s.getCode valAddr = [] then uint64BytesBE 0 else s.getCode valAddr
  return s.setCode valAddr (uint64BytesBE (count + 1) ++ buf.drop 8)

/-- The addresses packed in a byte string, twenty bytes each. -/
def addressesOfBytes (b : Bytes) : List Address :=
  (List.range (b.length / 20)).map fun i => Fin.ofNat _ (natOfBytes ((b.drop (20 * i)).take 20))

/-- `GetValidatorsList`: the addresses after the deposit count, without the zero ones. -/
def getValidatorsList (s : StateDB) (valAddr : Address) : List Address :=
  (addressesOfBytes ((s.getCode valAddr).drop 8)).filter (· ≠ 0)

def setValidatorsList (s : StateDB) (valAddr : Address) (list : List Address) :
    Except ValError StateDB := do
  let count ← getDepositCount s valAddr
  return s.setCode valAddr (uint64BytesBE count ++ list.flatMap Address.bytes)

def addValidatorToList (s : StateDB) (valAddr : Address) (index : UInt64) (validator : Address) :
    Except ValError StateDB :=
  let list := getValidatorsList s valAddr
  if validator ∈ list then .ok s
  else
    let padded := list ++ List.replicate (index.toNat + 1 - list.length) 0
    setValidatorsList s valAddr (padded.set index.toNat validator)

end Gwat
