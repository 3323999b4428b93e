/-
  The application of one message to the state (`core/state_transition.go`).
-/
import Gwat.Core.Evm
import Gwat.Token.Dispatch

namespace Gwat

open GoLib

/-- The fields of `Message`; amounts are not negative. -/
structure Message where
  sender : Address
  toAddr : Option Address
  gasPrice : ℕ
  gasFeeCap : ℕ
  gasTipCap : ℕ
  gas : UInt64
  value : ℕ
  nonce : UInt64
  isFake : Bool
  data : Bytes
  accessList : List (Address × List Hash)
  txHash : Hash

/-- The core errors: the message is rejected. -/
inductive CoreError where
  | nonceTooHigh
  | nonceTooLow
  | senderNoEOA
  | feeCapVeryHigh
  | tipVeryHigh
  | tipAboveFeeCap
  | feeCapTooLow
  | insufficientFunds
  | gasLimitReached
  | gasUintOverflow
  | intrinsicGas
  | insufficientFundsForTransfer
  | validatorOp (e : ValError)
  | tokenOp (e : Token.OpError)
  deriving DecidableEq, Repr

/-- A call that does not return a result: a core error or a run-time panic. -/
inductive Halt where
  | core (e : CoreError)
  | panic
  deriving DecidableEq, Repr

/-- What the application of a message reads besides the state. -/
structure Env where
  evm : Evm
  tokens : Token.Processor
  validators : Processor
  baseFee : ℕ
  coinbase : Address
  noBaseFee : Bool

/-- `StateTransition`: the state, the gas pool of the block and the gas counters. -/
structure StateTransition where
  db : StateDB
  gp : UInt64
  gas : UInt64
  initialGas : UInt64

def newStateTransition (db : StateDB) (gp : UInt64) : StateTransition := ⟨db, gp, 0, 0⟩

structure ExecutionResult where
  usedGas : UInt64
  err : Option VmError
  returnData : Bytes

/-! ## Buying gas -/

section

variable (env : Env) (msg : Message)

/-- The tip per gas: the tip cap, or what the fee cap leaves above the base fee. -/
def tips : ℤ :=
  if msg.gasFeeCap < env.baseFee + msg.gasTipCap then msg.gasFeeCap - env.baseFee
  else msg.gasTipCap

/-- The fee debited by `buyGas`. -/
def txFee : ℤ := msg.gas.toNat * (env.baseFee + tips env msg)

def buyGas (st : StateTransition) : Except CoreError StateTransition := do
  failIf (st.db.getBalance msg.sender < msg.gas.toNat * msg.gasFeeCap + msg.value)
    .insufficientFunds
  failIf (st.gp < msg.gas) .gasLimitReached
  return { db := st.db.subBalance msg.sender (txFee env msg), gp := st.gp - msg.gas,
           gas := st.gas + msg.gas, initialGas := msg.gas }

/-- A message to the validators' address from the address of a validator. -/
def isValOp (s : StateDB) : Bool :=
  msg.toAddr = some env.validators.validatorsStateAddress ∧ s.isValidatorAddress msg.sender

/-- The nonce check and the check that the sender is no contract. -/
def checkSenderNonce (s : StateDB) : Except CoreError Unit := do
  failIf (s.getNonce msg.sender < msg.nonce) .nonceTooHigh
  failIf (msg.nonce < s.getNonce msg.sender) .nonceTooLow
  failIf (¬ isValOp env msg s ∧ s.getCode msg.sender ≠ [] ∧ ¬ s.isValidatorAddress msg.sender)
    .senderNoEOA

/-- The checks of the fee caps. -/
def checkFeeCaps (s : StateDB) : Except CoreError Unit := do
  failIf (2 ^ 256 ≤ msg.gasFeeCap) .feeCapVeryHigh
  failIf (2 ^ 256 ≤ msg.gasTipCap) .tipVeryHigh
  failIf (msg.gasFeeCap < msg.gasTipCap) .tipAboveFeeCap
  failIf (msg.gasFeeCap < env.baseFee ∧ ¬ isValOp env msg s) .feeCapTooLow

def preCheck (st : StateTransition) : Except CoreError StateTransition := do
  checkIf (¬ msg.isFake) (checkSenderNonce env msg st.db)
  checkIf (¬ env.noBaseFee ∨ 0 < msg.gasFeeCap ∨ 0 < msg.gasTipCap) (checkFeeCaps env msg st.db)
  buyGas env msg st

end

/-! ## The type of a message and its intrinsic gas -/

/-- The types of a message; `panics` stands for a recipient for which `IsToken` panics. -/
inductive TxType where
  | default
  | tokenCreation
  | tokenMethod
  | contractCreation
  | contractMethod
  | validatorMethod
  | validatorSync
  | unknown
  | panics
  deriving DecidableEq, Repr

/-- `tokenOp.GetOpCode` -/
def getOpCode : Bytes → Option UInt8
  | pfx :: code :: _ => if pfx = Token.opPrefix then some code else none
  | _ => none

def getTxType (env : Env) (msg : Message) (s : StateDB) : TxType :=
  if msg.data = [] then .default
  else match msg.toAddr with
    | none =>
      if getOpCode msg.data = some Token.Code.create.byte then .tokenCreation
      else .contractCreation
    | some toAddr =>
      match env.tokens.isToken s toAddr with
      | .error _ => .panics
      | .ok true => .tokenMethod
      | .ok false =>
        if env.validators.isValidatorOp toAddr then
          match env.validators.opCodec.decodeBytes msg.data with
          | .error _ => .unknown
          | .ok (.sync _) => .validatorSync
          | .ok _ => .validatorMethod
        else .contractMethod

def TxType.isTokenOp (t : TxType) : Bool := t = .tokenCreation ∨ t = .tokenMethod
def TxType.isValidatorOp (t : TxType) : Bool := t = .validatorMethod ∨ t = .validatorSync
def TxType.isContractCreation (t : TxType) : Bool := t = .contractCreation

/-- `gas + n * cost`, with the check that it fits in 64 bits. -/
def addDataGas (gas n cost : UInt64) : Except CoreError UInt64 :=
  if (maxUint64 - gas) / cost < n then .error .gasUintOverflow else .ok (gas + n * cost)

/-- The gas of the data and of the access list, on top of the base `gas`. -/
def dataGas (gas : UInt64) (data : Bytes) (accessList : List (Address × List Hash)) :
    Except CoreError UInt64 := do
  let nz := UInt64.ofNat (data.countP (· ≠ 0))
  let gas ← addDataGas gas nz 16
  let gas ← addDataGas gas (UInt64.ofNat data.length - nz) 4
  let keys := (accessList.map (·.2.length)).sum
  return gas + UInt64.ofNat accessList.length * 2400 + UInt64.ofNat keys * 1900

def intrinsicGas (oc : OpCodec) (data : Bytes) (accessList : List (Address × List Hash))
    (isContractCreation isValidatorOp : Bool) : Except CoreError UInt64 :=
  if isContractCreation then dataGas 53000 data accessList
  else if isValidatorOp then
    match oc.decodeBytes data with
    | .error e => .error (.validatorOp e)
    | .ok (.sync _) => .ok 0
    | .ok _ => dataGas 21000 data accessList
  else dataGas 21000 data accessList

/-- The intrinsic gas of a message of the given type. -/
def msgIntrinsicGas (env : Env) (msg : Message) (t : TxType) : Except CoreError UInt64 :=
  intrinsicGas env.validators.opCodec msg.data msg.accessList t.isContractCreation t.isValidatorOp

/-- The payment of the intrinsic gas, which sync operations are free of. -/
def payIntrinsicGas (env : Env) (msg : Message) (t : TxType) (st : StateTransition) :
    Except CoreError StateTransition := do
  let gas ← msgIntrinsicGas env msg t
  failIf (t ≠ .validatorSync ∧ st.gas < gas) .intrinsicGas
  return if t = .validatorSync then st else { st with gas := st.gas - gas }

/-! ## Execution -/

/-- `to`: the zero address for a creation. -/
def Message.recipient (msg : Message) : Address := msg.toAddr.getD 0

/-- `token.Processor.Call`; the gas is passed through. -/
def tokenCall (env : Env) (msg : Message) (op : Token.TokenOp) (s : StateDB) (gas : UInt64) :
    Except Halt Outcome :=
  match env.tokens.call s msg.sender msg.recipient msg.value op with
  | (.error .panic, _) => .error .panic
  | (.error e, s') => .ok ⟨[], gas, some (.token e), s'⟩
  | (.ok ret, s') => .ok ⟨ret, gas, none, s'⟩

/-- `validator.Processor.Call`; the gas is passed through. -/
def validatorCall (env : Env) (msg : Message) (s : StateDB) (gas : UInt64) : Except Halt Outcome :=
  match env.validators.call s msg.sender msg.recipient msg.value msg.data msg.txHash with
  | (.error .panic, _) => .error .panic
  | (.error e, s') => .ok ⟨[], gas, some (.validator e), s'⟩
  | (.ok ret, s') => .ok ⟨ret, gas, none, s'⟩

/-- The execution of a message of the given type. -/
def execute (env : Env) (msg : Message) (t : TxType) (s : StateDB) (gas : UInt64) :
    Except Halt Outcome :=
  if t.isContractCreation then
    .ok (env.evm.create s 0 msg.sender msg.data gas msg.value
      (env.evm.createAddress msg.sender (s.getNonce msg.sender)))
  else if t.isTokenOp then
    match Token.decodeTokenOp msg.data with
    | .error e => .error (.core (.tokenOp e))
    | .ok op => tokenCall env msg op s gas
  else if t.isValidatorOp then validatorCall env msg s gas
  else
    let s := s.setNonce msg.sender (s.getNonce msg.sender + 1)
    .ok (env.evm.call s 0 msg.sender msg.recipient msg.data gas msg.value)

/-! ## Refund and reward -/

/-- `RefundQuotientEIP3529` -/
def refundQuotient : UInt64 := 5

def StateTransition.gasUsed (st : StateTransition) : UInt64 := st.initialGas - st.gas

/-- The gas left when the capped refund counter has been added. -/
def StateTransition.gasAfterRefund (st : StateTransition) : UInt64 :=
  st.gas + min (st.gasUsed / refundQuotient) st.db.refund

/-- What `refundGas` returns to the sender. -/
def refundAmount (msg : Message) (st : StateTransition) : ℤ :=
  st.gasAfterRefund.toNat * msg.gasPrice

/-- `refundGas`; `GasPool.AddGas` panics when the pool overflows. -/
def refundGas (msg : Message) (st : StateTransition) : Except Halt StateTransition :=
  if 2 ^ 64 ≤ st.gp.toNat + st.gasAfterRefund.toNat then .error .panic
  else .ok { st with
    db := st.db.addBalance msg.sender (refundAmount msg st)
    gp := st.gp + st.gasAfterRefund
    gas := st.gasAfterRefund }

/-- `CalcCreatorReward`: the third of the fee that is not burned. -/
def calcCreatorReward (gas : UInt64) (baseFee : ℕ) : ℤ := (gas.toNat * baseFee / 3 : ℕ)

/-- The reward of the creator: its part of the fee, and the tips. -/
def creatorReward (env : Env) (msg : Message) : ℤ :=
  calcCreatorReward msg.gas env.baseFee + msg.gas.toNat * tips env msg

/-- The end of `TransitionDb`, after the execution, with the given reward of the creator. -/
def settleWith (reward : ℤ) (env : Env) (msg : Message) (o : Outcome) (st : StateTransition) :
    Except Halt ExecutionResult × StateTransition :=
  match refundGas msg st with
  | .error e => (.error e, st)
  | .ok st => (.ok ⟨st.gasUsed, o.err, o.ret⟩,
      { st with db := st.db.addBalance env.coinbase reward })

/-- The end of `TransitionDb`, after the execution. -/
def settle (env : Env) (msg : Message) (o : Outcome) (st : StateTransition) :
    Except Halt ExecutionResult × StateTransition :=
  settleWith (creatorReward env msg) env msg o st

/-! ## The transition -/

/-- `TransitionDb` up to the execution: the outcome, or the error and the state in which
    it leaves off. -/
def executeMsg (env : Env) (msg : Message) (st : StateTransition) :
    Except Halt Outcome × StateTransition :=
  match preCheck env msg st with
  | .error e => (.error (.core e), st)
  | .ok st =>
    let t := getTxType env msg st.db
    if t = .panics then (.error .panic, st)
    else
      match payIntrinsicGas env msg t st with
      | .error e => (.error (.core e), st)
      | .ok st =>
        if 0 < msg.value ∧ ¬ canTransfer st.db msg.sender msg.value then
          (.error (.core .insufficientFundsForTransfer), st)
        else
          let st := { st with db := st.db.prepareAccessList msg.sender msg.toAddr
                                      env.evm.activePrecompiles msg.accessList }
          match execute env msg t st.db st.gas with
          | .error e => (.error e, st)
          | .ok o => (.ok o, { st with db := o.db, gas := o.gas })

def transitionDb (env : Env) (msg : Message) (st : StateTransition) :
    Except Halt ExecutionResult × StateTransition :=
  match executeMsg env msg st with
  | (.error e, st) => (.error e, st)
  | (.ok o, st) => settle env msg o st

def applyMessage (env : Env) (msg : Message) (db : StateDB) (gp : UInt64) :
    Except Halt ExecutionResult × StateTransition :=
  transitionDb env msg (newStateTransition db gp)

/-! ## What passing the checks means -/

section

variable {env : Env} {msg : Message} {st st' : StateTransition}

/-- The state in which `preCheck` leaves a message that passes. -/
def charged (env : Env) (msg : Message) (st : StateTransition) : StateTransition where
  db := st.db.subBalance msg.sender (txFee env msg)
  gp := st.gp - msg.gas
  gas := st.gas + msg.gas
  initialGas := msg.gas

/-- The price per gas that `buyGas` charges. -/
theorem baseFee_add_tips :
    (env.baseFee : ℤ) + tips env msg = min (msg.gasTipCap + env.baseFee) msg.gasFeeCap := by
  unfold tips
  split_ifs with h
  · omega
  · omega

theorem txFee_le : txFee env msg ≤ msg.gas.toNat * msg.gasFeeCap := by
  unfold txFee
  rw [baseFee_add_tips]
  exact mul_le_mul_of_nonneg_left (by exact_mod_cast min_le_right _ _) (by positivity)

/-- A message passes `buyGas` when its sender can pay for it and the pool has the gas. -/
theorem buyGas_eq_ok : buyGas env msg st = .ok st' ↔
    msg.gas.toNat * msg.gasFeeCap + msg.value ≤ st.db.getBalance msg.sender ∧
      msg.gas ≤ st.gp ∧ st' = charged env msg st := by
  unfold buyGas
  simp only [bind_eq_ok, failIf_eq_ok, not_lt, UInt64.not_lt, exists_and_left, exists_const,
    pure_eq_ok, Except.ok.injEq]
  exact and_congr_right fun _ => and_congr_right fun _ => eq_comm

/-- What is known of a message that passes `preCheck`. -/
structure Admitted (env : Env) (msg : Message) (st : StateTransition) : Prop where
  sender : msg.isFake = false → checkSenderNonce env msg st.db = .ok ()
  funds : msg.gas.toNat * msg.gasFeeCap + msg.value ≤ st.db.getBalance msg.sender
  pool : msg.gas ≤ st.gp

theorem admitted_of_preCheck (h : preCheck env msg st = .ok st') :
    Admitted env msg st ∧ st' = charged env msg st := by
  obtain ⟨u, h₁, h⟩ := bind_eq_ok.1 h
  obtain ⟨-, -, h⟩ := bind_eq_ok.1 h
  obtain ⟨hfunds, hpool, rfl⟩ := buyGas_eq_ok.1 h
  exact ⟨⟨fun hf => checkIf_eq_ok.1 h₁ (by simp [hf]), hfunds, hpool⟩, rfl⟩

theorem Admitted.inert (h : Admitted env msg st) (hf : msg.isFake = false) :
    st.db.Inert msg.sender := by
  have h := h.sender hf
  obtain ⟨-, -, h⟩ := bind_eq_ok.1 h
  obtain ⟨-, -, h⟩ := bind_eq_ok.1 h
  simp only [failIf_eq_ok, isValOp, not_and, decide_eq_true_eq] at h
  unfold StateDB.Inert
  by_contra hc
  rw [not_or] at hc
  exact h (fun _ => hc.2) hc.1 hc.2

theorem Admitted.canTransfer (h : Admitted env msg st) :
    canTransfer (charged env msg st).db msg.sender msg.value = true := by
  have hfee := @txFee_le env msg
  have hfunds := h.funds
  simp only [Gwat.canTransfer, charged, StateDB.getBalance_subBalance, if_pos, decide_eq_true_eq]
  omega

end

end Gwat
