/-
  Calls and contract creations at the top of the EVM (`core/vm/evm.go`).

  The interpreter is a parameter: a function from a contract, an input and a
  state to an outcome, with the two facts about it that transactions rest on.
  It never returns more gas than it got, and it changes the nonce of no account
  that is in use and cannot run code; such an account can neither create a
  contract nor be created.
-/
import Gwat.Token.Stream
import Gwat.Validator.Frame

namespace Gwat

open StateDB

/-- The errors of an execution, which do not invalidate the transaction: those of
    `core/vm/errors.go`, of the token processor and of the validator processor. -/
inductive VmError where
  | depth
  | insufficientBalance
  | executionReverted
  | contractAddressCollision
  | maxCodeSizeExceeded
  | invalidCode
  | codeStoreOutOfGas
  | outOfGas
  | token (e : Token.TokenError)
  | validator (e : ValError)
  | other (code : ℕ)
  deriving DecidableEq, Repr

/-- `vm.Contract` -/
structure Contract where
  caller : Address
  self : Address
  value : ℕ
  gas : UInt64
  code : Bytes

/-- What an execution returns, and the state after it. -/
structure Outcome where
  ret : Bytes
  gas : UInt64
  err : Option VmError
  db : StateDB

/-- The address has no code that a call would run. -/
def StateDB.Inert (s : StateDB) (a : Address) : Prop := s.getCode a = [] ∨ s.isValidatorAddress a

instance (s : StateDB) (a : Address) : Decidable (s.Inert a) := inferInstanceAs (Decidable (_ ∨ _))

/-- `EVMInterpreter` -/
structure Interpreter where
  run : Contract → Bytes → StateDB → Outcome
  gas_run : ∀ c input s, (run c input s).gas ≤ c.gas
  nonce_run : ∀ c input s a, s.getNonce a ≠ 0 → a ≠ c.self → s.Inert a →
    (run c input s).db.getNonce a = s.getNonce a

structure PrecompiledContract where
  requiredGas : Bytes → UInt64
  run : Bytes → Bytes × Option VmError

/-- `vm.EVM`, with `crypto.CreateAddress`. -/
structure Evm where
  interpreter : Interpreter
  precompile : Address → Option PrecompiledContract
  activePrecompiles : List Address
  createAddress : Address → UInt64 → Address

def callCreateDepth : ℕ := 1024

def maxCodeSize : ℕ := 24576

def createDataGas : UInt64 := 200

def canTransfer (s : StateDB) (a : Address) (amount : ℕ) : Bool := amount ≤ s.getBalance a

def transfer (s : StateDB) (sender recipient : Address) (amount : ℕ) : StateDB :=
  (s.subBalance sender amount).addBalance recipient amount

def runPrecompiledContract (c : PrecompiledContract) (input : Bytes) (suppliedGas : UInt64)
    (s : StateDB) : Outcome :=
  if suppliedGas < c.requiredGas input then ⟨[], 0, some .outOfGas, s⟩
  else ⟨(c.run input).1, suppliedGas - c.requiredGas input, (c.run input).2, s⟩

/-- The return to the snapshot `s` after a failure, which costs all gas unless the
    contract reverted. -/
def Outcome.revertTo (s : StateDB) (o : Outcome) : Outcome :=
  match o.err with
  | none => o
  | some e => { o with db := s, gas := if e = .executionReverted then o.gas else 0 }

namespace Evm

variable (evm : Evm)
variable {o : Outcome} {gas : UInt64}

/-- The account that a call creates when the address has none. -/
def ensureAccount (s : StateDB) (addr : Address) : StateDB :=
  if s.exist addr then s else s.createAccount addr

/-- The code that a call runs. -/
def runCode (s : StateDB) (caller addr : Address) (input : Bytes) (gas : UInt64) (value : ℕ) :
    Outcome :=
  match evm.precompile addr with
  | some c => runPrecompiledContract c input gas s
  | none =>
    if s.Inert addr then ⟨[], gas, none, s⟩
    else evm.interpreter.run ⟨caller, addr, value, gas, s.getCode addr⟩ input s

/-- `EVM.Call` at the given depth. -/
def call (s : StateDB) (depth : ℕ) (caller addr : Address) (input : Bytes) (gas : UInt64)
    (value : ℕ) : Outcome :=
  if callCreateDepth < depth then ⟨[], gas, some .depth, s⟩
  else if value ≠ 0 ∧ ¬ canTransfer s caller value then ⟨[], gas, some .insufficientBalance, s⟩
  else if ¬ s.exist addr ∧ (evm.precompile addr).isNone ∧ value = 0 then ⟨[], gas, none, s⟩
  else
    let created := transfer (ensureAccount s addr) caller addr value
    (evm.runCode created caller addr input gas value).revertTo s

/-- The end of a creation: the returned code is checked, paid for and stored. -/
def storeCode (address : Address) (o : Outcome) : Outcome :=
  if o.err ≠ none then o
  else if maxCodeSize < o.ret.length then { o with err := some .maxCodeSizeExceeded }
  else if o.ret.head? = some 0xEF then { o with err := some .invalidCode }
  else if o.gas < UInt64.ofNat o.ret.length * createDataGas then
    { o with err := some .codeStoreOutOfGas }
  else
    { o with
      gas := o.gas - UInt64.ofNat o.ret.length * createDataGas
      db := o.db.setCode address o.ret }

/-- `EVM.create` at the given depth. -/
def create (s : StateDB) (depth : ℕ) (caller : Address) (code : Bytes) (gas : UInt64) (value : ℕ)
    (address : Address) : Outcome :=
  if callCreateDepth < depth then ⟨[], gas, some .depth, s⟩
  else if ¬ canTransfer s caller value then ⟨[], gas, some .insufficientBalance, s⟩
  else
    let s := (s.setNonce caller (s.getNonce caller + 1)).addAddressToAccessList address
    if s.getNonce address ≠ 0 ∨ s.getCode address ≠ [] then
      ⟨[], 0, some .contractAddressCollision, s⟩
    else
      let created := transfer ((s.createAccount address).setNonce address 1) caller address value
      (storeCode address (evm.interpreter.run ⟨caller, address, value, gas, code⟩ [] created)).revertTo s

/-! ## Gas -/

theorem gas_revertTo {s : StateDB} (h : o.gas ≤ gas) : (o.revertTo s).gas ≤ gas := by
  unfold Outcome.revertTo
  split
  · exact h
  · split_ifs
    · exact h
    · simp

theorem gas_runCode (s : StateDB) (caller addr : Address) (input : Bytes) (gas : UInt64)
    (value : ℕ) : (evm.runCode s caller addr input gas value).gas ≤ gas := by
  unfold runCode runPrecompiledContract
  split
  · split_ifs with h
    · simp
    · simp only [UInt64.not_lt] at h
      simp only [UInt64.le_iff_toNat_le, UInt64.toNat_sub_of_le _ _ h]
      omega
  · split_ifs
    · simp
    · exact evm.interpreter.gas_run _ _ _

theorem gas_call (s : StateDB) (depth : ℕ) (caller addr : Address) (input : Bytes) (gas : UInt64)
    (value : ℕ) : (evm.call s depth caller addr input gas value).gas ≤ gas := by
  unfold call
  split_ifs <;> first | exact UInt64.le_refl _ | exact gas_revertTo (evm.gas_runCode _ _ _ _ _ _)

theorem gas_storeCode {address : Address} (h : o.gas ≤ gas) : (storeCode address o).gas ≤ gas := by
  unfold storeCode
  split_ifs with h₁ h₂ h₃ h₄
  · exact h
  · exact h
  · exact h
  · exact h
  · simp only [UInt64.not_lt] at h₄
    simp only [UInt64.le_iff_toNat_le, UInt64.toNat_sub_of_le _ _ h₄] at h ⊢
    omega

theorem gas_create (s : StateDB) (depth : ℕ) (caller : Address) (code : Bytes) (gas : UInt64)
    (value : ℕ) (address : Address) :
    (evm.create s depth caller code gas value address).gas ≤ gas := by
  unfold create
  simp only
  split_ifs
  all_goals first
    | exact UInt64.le_refl _
    | exact UInt64.zero_le
    | exact gas_revertTo (gas_storeCode (evm.interpreter.gas_run _ _ _))

/-! ## The nonce of the sender -/

section Nonce

variable {evm} {s s' : StateDB} {a b caller : Address}
variable {recipient sender addr address : Address} {amount value depth : ℕ} {o : Outcome}
  {input code : Bytes} {gas n : UInt64}

@[simp] theorem getNonce_transfer :
    (transfer s sender recipient amount).getNonce a = s.getNonce a := by simp [transfer]

@[simp] theorem getCode_transfer :
    (transfer s sender recipient amount).getCode a = s.getCode a := by simp [transfer]

theorem inert_congr (h : s'.getCode a = s.getCode a) : s'.Inert a ↔ s.Inert a := by
  unfold StateDB.Inert
  rw [h, isValidatorAddress_congr h]

theorem getNonce_revertTo (hs : s.getNonce a = n) (ho : o.db.getNonce a = n) :
    (o.revertTo s).db.getNonce a = n := by
  unfold Outcome.revertTo
  split
  · exact ho
  · exact hs

theorem getNonce_runCode (hn : s.getNonce a ≠ 0) (hc : s.Inert a) :
    (evm.runCode s caller addr input gas value).db.getNonce a = s.getNonce a := by
  unfold runCode runPrecompiledContract
  split
  · split_ifs <;> rfl
  · split_ifs with h
    · rfl
    · have hne : a ≠ addr := by rintro rfl; exact h hc
      exact evm.interpreter.nonce_run _ _ _ _ hn hne hc

theorem ensureAccount_keeps (addr : Address) (hn : s.getNonce a ≠ 0) :
    (ensureAccount s addr).getNonce a = s.getNonce a ∧
      (ensureAccount s addr).getCode a = s.getCode a := by
  unfold ensureAccount
  split_ifs with he
  · exact ⟨rfl, rfl⟩
  · have hne : a ≠ addr := by rintro rfl; exact he (exist_of_nonce_ne_zero hn)
    rw [getNonce_createAccount, getCode_createAccount, if_neg hne, if_neg hne]
    exact ⟨rfl, rfl⟩

/-- A call leaves the nonce of a sender in use alone. -/
theorem getNonce_call (hn : s.getNonce a ≠ 0) (hc : s.Inert a) :
    (evm.call s depth a addr input gas value).db.getNonce a = s.getNonce a := by
  unfold call
  split_ifs with h₁ h₂ h₃
  · rfl
  · rfl
  · rfl
  · obtain ⟨hnonce, hcode⟩ := ensureAccount_keeps addr hn
    have hkeep : (transfer (ensureAccount s addr) a addr value).getNonce a = s.getNonce a := by
      rw [getNonce_transfer, hnonce]
    refine getNonce_revertTo rfl ?_
    rw [getNonce_runCode (by rwa [hkeep]), hkeep]
    exact (inert_congr (by rw [getCode_transfer, hcode])).2 hc

theorem getNonce_storeCode : (storeCode address o).db.getNonce a = o.db.getNonce a := by
  unfold storeCode
  split_ifs <;> simp

/-- A creation that the sender can pay adds one to its nonce, whether it succeeds or not. -/
theorem getNonce_create (hd : depth ≤ callCreateDepth) (hv : canTransfer s a value)
    (hn : s.getNonce a + 1 ≠ 0) (hc : s.Inert a) :
    (evm.create s depth a code gas value address).db.getNonce a = s.getNonce a + 1 := by
  unfold create
  rw [if_neg (by omega), if_neg (by simp [hv])]
  simp only
  obtain ⟨s₁, hs₁⟩ : ∃ s₁, s₁ = (s.setNonce a (s.getNonce a + 1)).addAddressToAccessList address :=
    ⟨_, rfl⟩
  have hnonce : s₁.getNonce a = s.getNonce a + 1 := by
    rw [hs₁]; exact (getNonce_setNonce _).trans (if_pos rfl)
  have hcode : s₁.getCode a = s.getCode a := by rw [hs₁]; exact getCode_setNonce _
  rw [← hs₁]
  split_ifs with h
  · exact hnonce
  · -- the new address has nonce zero, so it is not the sender
    rw [not_or, not_not] at h
    have hne : a ≠ address := by rintro rfl; exact hn (hnonce ▸ h.1)
    refine getNonce_revertTo hnonce ?_
    have hkeep : (transfer ((s₁.createAccount address).setNonce address 1) a address value).getNonce a
        = s.getNonce a + 1 := by
      rw [getNonce_transfer, getNonce_setNonce, if_neg hne, getNonce_createAccount,
        if_neg hne, hnonce]
    rw [getNonce_storeCode, evm.interpreter.nonce_run _ _ _ _ (by rwa [hkeep]) hne, hkeep]
    refine (inert_congr ?_).2 hc
    rw [getCode_transfer, getCode_setNonce, getCode_createAccount, if_neg hne, hcode]

end Nonce

end Evm

end Gwat
