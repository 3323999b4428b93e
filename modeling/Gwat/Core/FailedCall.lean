/-
  What a failed operation leaves behind: `Call` of `token/processor.go` and of
  `validator/processor.go`.
-/
import Gwat.Token.Processor
import Gwat.Validator.SyncOps

namespace Gwat

open GoLib GoLib.Act StateDB

/-! ## Validator operations with the journal -/

/-- The writes that the model of a handler does not fix: what a failing handler has written
    through the journal, and what the write in place does to the bytes the journal holds. -/
structure OpenWrites where
  left : StateDB → StateDB
  aliased : StateDB → StateDB

namespace Processor

variable (p : Processor) (w : OpenWrites)

/-- `validatorDeposit` up to the increment of the deposit count. -/
def depositPrepared (s : StateDB) (caller toAddr : Address) (value : ℤ) (op : DepositOp)
    (txHash : Hash) : Except ValError StateDB := do
  failIf (¬ p.isValidatorOp toAddr) .invalidToAddress
  p.opCodec.verifyDepositSig op.signature op.pubKey op.creatorAddress op.withdrawalAddress
  failIf (value < minDepositVal) .tooLowDepositValue
  failIf (¬ bnCanCastToUint64 (value / bigGwei)) .invalidAmount
  failIf (s.getBalance caller < value) .insufficientFundsForOp
  let v ← p.depositRecord s op
  checkIf (ver1 ≤ v.version) (p.prevOpCheck v.getWithdrawalTx)
  let v := ((p.updateValidatorVersionBySlot v).addDepositTxs txHash).addStake caller value
  let s ← setValidator p.codec s v
  let depositCount ← getDepositCount s p.validatorsStateAddress
  return s.addLog ⟨toAddr, .depositLog, [], .raw (packDepositLogData op value depositCount)⟩

theorem validatorDeposit_eq (s : StateDB) (caller toAddr : Address) (value : ℤ) (op : DepositOp)
    (txHash : Hash) : p.validatorDeposit s caller toAddr value op txHash = (do
      let s ← p.depositPrepared s caller toAddr value op txHash
      let s ← incrementDepositCount s p.validatorsStateAddress
      return (bytesBE 32 value.toNat, s.subBalance caller value)) := by
  unfold validatorDeposit depositPrepared
  simp

/-- `validatorDeposit` with the journal. -/
def depositAct (caller toAddr : Address) (value : ℤ) (op : DepositOp) (txHash : Hash) :
    Act ValError StateDB Bytes := do
  step w.left fun s => do
    let s ← p.depositPrepared s caller toAddr value op txHash
    return ((), s)
  let counted ← attempt fun s => incrementDepositCount s p.validatorsStateAddress
  writeInPlace (fun _ => counted) w.aliased
  write fun s => s.subBalance caller value
  return bytesBE 32 value.toNat

/-- The cases of `Call` with the journal. -/
def handleAct (caller toAddr : Address) (value : ℤ) (txHash : Hash) :
    ValOp → Act ValError StateDB Bytes
  | .deposit op => p.depositAct w caller toAddr value op txHash
  | op => step w.left fun s => p.handle s caller toAddr value txHash op

/-- `Call` with the journal. -/
def callAct (s : StateDB) (caller toAddr : Address) (value : ℤ) (data : Bytes) (txHash : Hash) :
    Except ValError Bytes × StateDB :=
  match p.opCodec.decodeBytes data with
  | .error e => (.error e, s)
  | .ok op => revertOnError (p.handleAct w caller toAddr value txHash op)
      (s.setNonce caller (s.getNonce caller + 1))

theorem undoable_depositAct (caller toAddr : Address) (value : ℤ) (op : DepositOp) (txHash : Hash) :
    Undoable (p.depositAct w caller toAddr value op txHash) := by
  refine (journals_step _ _).bind_undoable fun _ => (journals_attempt _).bind_undoable fun counted => ?_
  -- nothing can fail once the count has been written in place
  refine Succeeds.undoable fun j => ⟨_, _, rfl⟩

theorem undoable_handleAct (caller toAddr : Address) (value : ℤ) (txHash : Hash) (op : ValOp) :
    Undoable (p.handleAct w caller toAddr value txHash op) := by
  unfold handleAct
  split
  · exact p.undoable_depositAct w caller toAddr value _ txHash
  · exact (journals_step _ _).undoable

theorem revertOnError_depositAct (s : StateDB) (caller toAddr : Address) (value : ℤ)
    (op : DepositOp) (txHash : Hash) :
    revertOnError (p.depositAct w caller toAddr value op txHash) s =
      match p.validatorDeposit s caller toAddr value op txHash with
      | .ok (ret, s') => (.ok ret, s')
      | .error e => (.error e, s) := by
  rw [validatorDeposit_eq]
  unfold revertOnError depositAct
  cases h₁ : p.depositPrepared s caller toAddr value op txHash with
  | error e =>
    rw [exec_bind_of_error (by rw [exec_step, h₁]; rfl)]
    rfl
  | ok s₁ =>
    rw [exec_bind_of_ok (by rw [exec_step, h₁]; rfl)]
    cases h₂ : incrementDepositCount s₁ p.validatorsStateAddress with
    | error e =>
      rw [exec_bind_of_error (by exact congrArg (·, _) h₂), ok_bind, h₂]
      rfl
    | ok s₂ =>
      rw [exec_bind_of_ok (by exact congrArg (·, _) h₂), ok_bind, h₂]
      rfl

theorem revertOnError_handleAct (s : StateDB) (caller toAddr : Address) (value : ℤ)
    (txHash : Hash) (op : ValOp) :
    revertOnError (p.handleAct w caller toAddr value txHash op) s =
      match p.handle s caller toAddr value txHash op with
      | .ok (ret, s') => (.ok ret, s')
      | .error e => (.error e, s) := by
  unfold handleAct
  split
  · exact p.revertOnError_depositAct w s caller toAddr value _ txHash
  · rw [revertOnError, exec_step]
    rcases p.handle s caller toAddr value txHash op with e | ⟨ret, s'⟩ <;> rfl

/-- The journal makes no difference to what `Call` computes. -/
theorem callAct_eq (s : StateDB) (caller toAddr : Address) (value : ℤ) (data : Bytes)
    (txHash : Hash) :
    p.callAct w s caller toAddr value data txHash = p.call s caller toAddr value data txHash := by
  unfold callAct call
  cases p.opCodec.decodeBytes data with
  | error e => rfl
  | ok op =>
    simp only [revertOnError_handleAct]
    rcases p.handle (s.setNonce caller (s.getNonce caller + 1)) caller toAddr value txHash op with
      e | ⟨ret, s'⟩ <;> rfl

end Processor

/-! ## Failed operations -/

/-- A call of one of the two processors. -/
inductive OpCall where
  | validator (p : Processor) (w : OpenWrites) (toAddr : Address) (value : ℤ) (data : Bytes)
    (txHash : Hash)
  | token (p : Token.Processor) (token : Address) (value : ℤ) (op : Token.TokenOp)

/-- The errors of the two processors. -/
inductive OpError where
  | validator (e : ValError)
  | token (e : Token.TokenError)
  deriving DecidableEq, Repr

namespace OpCall

/-- `Call`; a panic ends the node, and the state it comes with means nothing. -/
def run : OpCall → StateDB → Address → Except OpError Bytes × StateDB
  | validator p w toAddr value data txHash, s, caller =>
    let r := p.callAct w s caller toAddr value data txHash
    (r.1.mapError .validator, r.2)
  | token p tokenAddr value op, s, caller =>
    let r := p.call s caller tokenAddr value op
    (r.1.mapError .token, r.2)

/-- The operation is decoded; a token operation comes decoded. -/
def Decodes : OpCall → Prop
  | validator p _ _ _ data _ => ∃ op, p.opCodec.decodeBytes data = .ok op
  | token _ _ _ _ => True

/-- The call is the creation of a token at an address that is given or in use. -/
def Refused : OpCall → StateDB → Address → Prop
  | validator _ _ _ _ _ _, _, _ => False
  | token p tokenAddr _ op, s, caller => p.Refuses s caller tokenAddr op

end OpCall

variable {s s' : StateDB} {caller : Address}

/-- No trace but the nonce: balances, code, storage, accounts and logs are as before, and
    the nonce of the caller has grown by one. -/
structure Untouched (caller : Address) (s s' : StateDB) : Prop where
  balance : ∀ a, s'.getBalance a = s.getBalance a
  code : ∀ a, s'.getCode a = s.getCode a
  storage : ∀ a key, s'.getState a key = s.getState a key
  accounts : ∀ a, s'.exist a = s.exist a
  logs : s'.logs = s.logs
  otherNonces : ∀ a ≠ caller, s'.getNonce a = s.getNonce a
  nonce : s'.getNonce caller = s.getNonce caller + 1

theorem untouched_setNonce_iff :
    Untouched caller s (s.setNonce caller (s.getNonce caller + 1)) ↔ s.exist caller = true := by
  constructor
  · intro h
    have hc := h.accounts caller
    rw [setNonce, exist_modify] at hc
    simpa using hc.symm
  · intro h
    refine ⟨by simp, by simp, by simp, fun a => ?_, rfl, fun a ha => ?_, ?_⟩
    · rw [setNonce, exist_modify]
      by_cases ha : a = caller
      · simp [ha, h]
      · simp [ha]
    · rw [getNonce_setNonce, if_neg ha]
    · rw [getNonce_setNonce, if_pos rfl]

theorem not_untouched_self : ¬ Untouched caller s s := by
  intro h
  have hn := congrArg UInt64.toBitVec h.nonce
  simp at hn

theorem OpCall.state_of_error {c : OpCall} {e : OpError} (hd : c.Decodes)
    (h : c.run s caller = (.error e, s')) (hr : ¬ c.Refused s caller) :
    s' = s.setNonce caller (s.getNonce caller + 1) := by
  cases c with
  | validator p w toAddr value data txHash =>
    obtain ⟨op, hop⟩ := hd
    obtain ⟨hres, hs'⟩ := Prod.mk.inj h
    obtain ⟨e', he'⟩ := exists_of_mapError_eq_error hres
    rw [Processor.callAct, hop] at he' hs'
    exact revertOnError_of_error (p.undoable_handleAct w caller toAddr value txHash op)
      (Prod.ext he' hs')
  | token p token value op =>
    obtain ⟨hres, hs'⟩ := Prod.mk.inj h
    obtain ⟨e', he'⟩ := exists_of_mapError_eq_error hres
    obtain ⟨token', hcall⟩ := @Token.Processor.call_of_not_refuses p s caller token value op hr
    rw [hcall] at he' hs'
    exact revertOnError_of_error (p.journals_handle caller token' value op).undoable
      (Prod.ext he' hs')

/-- A failed operation leaves no trace but the nonce exactly when the caller has an account
    and the operation is not the creation of a token that is refused at once. -/
theorem failed_untouched_iff (c : OpCall) (s s' : StateDB) (caller : Address) (e : OpError)
    (hd : c.Decodes) (h : c.run s caller = (.error e, s')) :
    Untouched caller s s' ↔ s.exist caller = true ∧ ¬ c.Refused s caller := by
  by_cases hr : c.Refused s caller
  · have hs' : s' = s := by
      cases c with
      | validator => exact hr.elim
      | token p token value op =>
        exact (Prod.mk.inj h).2.symm.trans (p.call_of_refuses hr)
    subst hs'
    simp [hr, not_untouched_self]
  · rw [OpCall.state_of_error hd h hr, untouched_setNonce_iff]
    simp [hr]

/-- A processor whose hashes are the hashed bytes. -/
def Token.Processor.plain : Token.Processor where
  keccak256 b := hashOfNat (natOfBytes b)
  createAddress a n := addressOfBytes (bytesBE 20 (Fin.val a * 256 + n.toNat + 1))

def oneAccount : StateDB := StateDB.empty.addBalance 5 1000

/-- A WRC-20 token with the given supply, created through the call with recipient `to`. -/
def createCall (recipient : Address) (totalSupply : ℤ) : OpCall :=
  .token .plain recipient 0
    (.create ⟨Token.textBytes "Coin", Token.textBytes "C", .wrc20 18 totalSupply,
      show 4 + 1 + 0 < 2 ^ 48 by decide⟩)

/-- A supply of 2^256 is found too large when the account of the token exists already. -/
theorem failed_untouched_overflow :
    ((createCall 0 (2 ^ 256)).run oneAccount 5).1 = .error (.token .uint256Overflow) ∧
      Untouched 5 oneAccount ((createCall 0 (2 ^ 256)).run oneAccount 5).2 := by
  have hres : ((createCall 0 (2 ^ 256)).run oneAccount 5).1 = .error (.token .uint256Overflow) := by
    decide +kernel
  refine ⟨hres, ?_⟩
  rcases hrun : (createCall 0 (2 ^ 256)).run oneAccount 5 with ⟨res, s'⟩
  rw [hrun] at hres
  refine (failed_untouched_iff (createCall 0 (2 ^ 256)) oneAccount s' 5 _ trivial
    (hrun.trans (congrArg (·, s') hres))).2 ⟨by decide, ?_⟩
  rintro (h | h)
  · exact h rfl
  · exact absurd h (by decide)

/-- A creation with a recipient fails and leaves the nonce as it was. -/
theorem refused_creation_keeps_nonce :
    ((createCall 9 1).run oneAccount 5).1 = .error (.token .notNilTo) ∧
      ((createCall 9 1).run oneAccount 5).2.getNonce 5 = oneAccount.getNonce 5 ∧
      ¬ Untouched 5 oneAccount ((createCall 9 1).run oneAccount 5).2 :=
  ⟨rfl, rfl, not_untouched_self⟩

end Gwat
