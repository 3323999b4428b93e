/-
  The world state that transactions act on (`core/state/statedb.go`).

  An address either has a state object or has none; reading a missing one gives
  the empty account, and every write creates it.  A snapshot is the value of the
  state, and reverting to it restores that value.  Hash collisions are left out:
  an account has code exactly when its code hash is neither zero nor the hash of
  the empty code.
-/
import Gwat.Common

namespace Gwat

/-- `types.StateAccount` together with the code and the storage it points to. -/
structure Account where
  balance : ℤ := 0
  nonce : UInt64 := 0
  code : Bytes := []
  storage : Hash → Hash := fun _ => 0

/-- The rule of a delegated payout (`txlog.UpdateBalanceRuleType`). -/
inductive RuleType where
  | profitShare
  | stakeShare
  deriving DecidableEq, Repr

/-- `txlog.ShareRuleApplying` -/
structure ShareRuleApplying where
  address : Address
  ruleType : RuleType
  isTrial : Bool
  amount : ℤ
  deriving DecidableEq, Repr

/-- The event signatures that the first topic of a log carries; `contract` stands for
    the events of contracts and tokens. -/
inductive Event where
  | depositLog
  | exitRequestLog
  | withdrawalRequestLog
  | activate
  | deactivate
  | updateBalance
  | delegatingStake
  | contract (signature : Hash)
  deriving DecidableEq, Repr

/-- The data of a log: plain bytes, or the value whose RLP encoding the code stores. -/
inductive LogData where
  | raw (data : Bytes)
  | validatorSync (initTxHash : Hash) (creator : Address) (procEpoch index : UInt64)
  | updateBalance (initTxHash : Hash) (creator : Address) (procEpoch : UInt64) (amount : ℤ)
  | delegatingStake (entries : List ShareRuleApplying)
  deriving DecidableEq, Repr

/-- `types.Log`: the topics are those after the event signature. -/
structure Log where
  address : Address
  event : Event
  topics : List Hash
  data : LogData
  deriving DecidableEq, Repr

/-- `state.StateDB` -/
structure StateDB where
  accounts : Address → Option Account
  refund : UInt64
  logs : List Log
  accessAddresses : List Address
  accessSlots : List (Address × Hash)

namespace StateDB

def empty : StateDB := ⟨fun _ => none, 0, [], [], []⟩

/-- The account behind an address, empty when there is no state object. -/
def acct (s : StateDB) (a : Address) : Account := (s.accounts a).getD {}

/-- `Exist`: the address has a state object. -/
def exist (s : StateDB) (a : Address) : Bool := (s.accounts a).isSome

/-- A write to the state object of `a`, which `GetOrNewStateObject` creates if needed. -/
def modify (s : StateDB) (a : Address) (f : Account → Account) : StateDB :=
  { s with accounts := Function.update s.accounts a (some (f (s.acct a))) }

def getBalance (s : StateDB) (a : Address) : ℤ := (s.acct a).balance
def getNonce (s : StateDB) (a : Address) : UInt64 := (s.acct a).nonce
def getCode (s : StateDB) (a : Address) : Bytes := (s.acct a).code
def getState (s : StateDB) (a : Address) (key : Hash) : Hash := (s.acct a).storage key

def addBalance (s : StateDB) (a : Address) (amount : ℤ) : StateDB :=
  s.modify a fun acc => { acc with balance := acc.balance + amount }

def subBalance (s : StateDB) (a : Address) (amount : ℤ) : StateDB :=
  s.modify a fun acc => { acc with balance := acc.balance - amount }

def setNonce (s : StateDB) (a : Address) (n : UInt64) : StateDB :=
  s.modify a fun acc => { acc with nonce := n }

def setCode (s : StateDB) (a : Address) (code : Bytes) : StateDB :=
  s.modify a fun acc => { acc with code := code }

def setState (s : StateDB) (a : Address) (key value : Hash) : StateDB :=
  s.modify a fun acc => { acc with storage := Function.update acc.storage key value }

/-- `CreateAccount`: a new state object that keeps only the balance. -/
def createAccount (s : StateDB) (a : Address) : StateDB :=
  s.modify a fun acc => { balance := acc.balance }

def addLog (s : StateDB) (l : Log) : StateDB := { s with logs := s.logs ++ [l] }

/-- The same accounts with other logs. -/
def withLogs (s : StateDB) (ls : List Log) : StateDB := { s with logs := ls }

/-- `IsValidatorAddress`: the code starts with the address itself. -/
def isValidatorAddress (s : StateDB) (a : Address) : Bool :=
  20 ≤ (s.getCode a).length ∧ (s.getCode a).take 20 = a.bytes

def addAddressToAccessList (s : StateDB) (a : Address) : StateDB :=
  { s with accessAddresses := s.accessAddresses ++ [a] }

def prepareAccessList (s : StateDB) (sender : Address) (dst : Option Address)
    (precompiles : List Address) (list : List (Address × List Hash)) : StateDB :=
  { s with
    accessAddresses := s.accessAddresses ++ sender :: dst.toList ++ precompiles ++ list.map (·.1)
    accessSlots := s.accessSlots ++ list.flatMap fun el => el.2.map (el.1, ·) }

/-! ## Reading after writing -/

variable {s s' : StateDB} {a b : Address} {f : Account → Account}

theorem acct_modify : (s.modify a f).acct b = if b = a then f (s.acct a) else s.acct b := by
  by_cases h : b = a
  · subst h; simp [acct, modify]
  · simp [acct, modify, h]

@[simp] theorem acct_modify_self : (s.modify a f).acct a = f (s.acct a) := by simp [acct_modify]

theorem exist_modify : (s.modify a f).exist b = (decide (b = a) || s.exist b) := by
  by_cases h : b = a
  · subst h; simp [exist, modify]
  · simp [exist, modify, h]

theorem getBalance_addBalance (x : ℤ) :
    (s.addBalance a x).getBalance b = s.getBalance b + if b = a then x else 0 := by
  by_cases h : b = a <;> simp [getBalance, addBalance, acct_modify, h]

theorem getBalance_subBalance (x : ℤ) :
    (s.subBalance a x).getBalance b = s.getBalance b - if b = a then x else 0 := by
  by_cases h : b = a <;> simp [getBalance, subBalance, acct_modify, h]

@[simp] theorem getNonce_addBalance (x : ℤ) : (s.addBalance a x).getNonce b = s.getNonce b := by
  by_cases h : b = a <;> simp [getNonce, addBalance, acct_modify, h]

@[simp] theorem getNonce_subBalance (x : ℤ) : (s.subBalance a x).getNonce b = s.getNonce b := by
  by_cases h : b = a <;> simp [getNonce, subBalance, acct_modify, h]

@[simp] theorem getNonce_setCode (c : Bytes) : (s.setCode a c).getNonce b = s.getNonce b := by
  by_cases h : b = a <;> simp [getNonce, setCode, acct_modify, h]

theorem getNonce_setNonce (n : UInt64) :
    (s.setNonce a n).getNonce b = if b = a then n else s.getNonce b := by
  by_cases h : b = a <;> simp [getNonce, setNonce, acct_modify, h]

theorem getNonce_createAccount :
    (s.createAccount a).getNonce b = if b = a then 0 else s.getNonce b := by
  by_cases h : b = a <;> simp [getNonce, createAccount, acct_modify, h]

theorem getCode_createAccount :
    (s.createAccount a).getCode b = if b = a then [] else s.getCode b := by
  by_cases h : b = a <;> simp [getCode, createAccount, acct_modify, h]

theorem getNonce_setState (k v : Hash) : (s.setState a k v).getNonce b = s.getNonce b := by
  by_cases h : b = a <;> simp [getNonce, setState, acct_modify, h]

@[simp] theorem getNonce_addLog (l : Log) : (s.addLog l).getNonce b = s.getNonce b := rfl

theorem getCode_setCode (c : Bytes) :
    (s.setCode a c).getCode b = if b = a then c else s.getCode b := by
  by_cases h : b = a <;> simp [getCode, setCode, acct_modify, h]

@[simp] theorem getCode_setCode_self (c : Bytes) : (s.setCode a c).getCode a = c := by
  simp [getCode_setCode]

@[simp] theorem getCode_addBalance (x : ℤ) : (s.addBalance a x).getCode b = s.getCode b := by
  by_cases h : b = a <;> simp [getCode, addBalance, acct_modify, h]

@[simp] theorem getCode_subBalance (x : ℤ) : (s.subBalance a x).getCode b = s.getCode b := by
  by_cases h : b = a <;> simp [getCode, subBalance, acct_modify, h]

@[simp] theorem getCode_setNonce (n : UInt64) : (s.setNonce a n).getCode b = s.getCode b := by
  by_cases h : b = a <;> simp [getCode, setNonce, acct_modify, h]

@[simp] theorem getBalance_setNonce (n : UInt64) :
    (s.setNonce a n).getBalance b = s.getBalance b := by
  by_cases h : b = a <;> simp [getBalance, setNonce, acct_modify, h]

@[simp] theorem getBalance_setCode (c : Bytes) : (s.setCode a c).getBalance b = s.getBalance b := by
  by_cases h : b = a <;> simp [getBalance, setCode, acct_modify, h]

@[simp] theorem getState_setNonce (n : UInt64) (key : Hash) :
    (s.setNonce a n).getState b key = s.getState b key := by
  by_cases h : b = a <;> simp [getState, setNonce, acct_modify, h]

theorem getState_setState (key value k : Hash) : (s.setState a key value).getState b k =
    if b = a ∧ k = key then value else s.getState b k := by
  by_cases h : b = a
  · subst h
    by_cases hk : k = key <;> simp [getState, setState, hk]
  · simp [getState, setState, acct_modify, h]

@[simp] theorem getBalance_setState (key value : Hash) :
    (s.setState a key value).getBalance b = s.getBalance b := by
  by_cases h : b = a <;> simp [getBalance, setState, acct_modify, h]

@[simp] theorem getBalance_addLog (l : Log) : (s.addLog l).getBalance b = s.getBalance b := rfl

@[simp] theorem getBalance_withLogs (ls : List Log) :
    (s.withLogs ls).getBalance b = s.getBalance b := rfl

@[simp] theorem getNonce_withLogs (ls : List Log) : (s.withLogs ls).getNonce b = s.getNonce b := rfl

@[simp] theorem getCode_withLogs (ls : List Log) : (s.withLogs ls).getCode b = s.getCode b := rfl

@[simp] theorem getCode_addLog (l : Log) : (s.addLog l).getCode b = s.getCode b := rfl

theorem isValidatorAddress_congr (h : s'.getCode a = s.getCode a) :
    s'.isValidatorAddress a = s.isValidatorAddress a := by simp [isValidatorAddress, h]

theorem exist_of_nonce_ne_zero (h : s.getNonce a ≠ 0) : s.exist a = true := by
  cases ha : s.accounts a with
  | none => simp [getNonce, acct, ha] at h
  | some acc => simp [exist, ha]

end StateDB

end Gwat
