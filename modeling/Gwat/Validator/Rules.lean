/-
  Delegated stake: how a withdrawal is shared among the participants of a
  validator (`validator/operation/delegated_stake_rules.go`,
  `delegated_stake_data.go`).

  The rules are read from RLP without a check that the five lists fit together,
  so a share or a role may be looked up beyond the end of a list, where Go
  panics: such a read returns `none`.
-/
import Gwat.Common
import Gwat.Lib.Bitlist
import Gwat.Lib.GoMap

namespace Gwat

open GoLib List

/-- The errors of the validator package.  `panic` is a Go run-time panic, and the
    last group are errors of code that is kept abstract: the record codec, the
    operation codec and the deposit signature. -/
inductive ValError where
  | tooLowDepositValue
  | insufficientFundsForOp
  | invalidFromAddresses
  | unknownValidator
  | noWithdrawalCred
  | mismatchPublicKey
  | notActivatedValidator
  | validatorActivated
  | validatorIsOut
  | invalidToAddress
  | noSavedValSyncOp
  | valSyncTxExists
  | valOpBlocked
  | noActiveWithdrawalOp
  | mismatchValSyncOp
  | invalidOpEpoch
  | txNotFound
  | receiptNotFound
  | invalidReceiptStatus
  | invalidOpCode
  | invalidCreator
  | invalidAmount
  | mismatchDelegateData
  | senderRejByDelegate
  | alreadyActivated
  | mismatchDepositKey
  | mismatchDepositWithdrawal
  | noStateValidatorInfo
  | initTxReceiptNotFound
  | initTxReceiptFailed
  | stakeTooSmall
  | stakeNotFound
  | slotOverflow
  | badProfitShare
  | badStakeShare
  | noExitRoles
  | noWithdrawalRoles
  | delegateForkRequire
  | noBalance
  | noAmount
  | noPubKey
  | noCreatorAddress
  | noWithdrawalAddress
  | noSignature
  | noInitTxHash
  | rawDataShort
  | prefixNotValid
  | opNotValid
  | opBadVersion
  | panic
  | codec (code : ℕ)
  | opDecode (code : ℕ)
  | depositSignature (code : ℕ)
  deriving DecidableEq, Repr

/-- `DelegatingStakeRules`; the roles are bitlists over the addresses. -/
structure DelegatingStakeRules where
  addrs : List Address := []
  profitShares : List UInt8 := []
  stakeShares : List UInt8 := []
  exitBits : Bytes := []
  withdrawalBits : Bytes := []
  deriving DecidableEq, Repr

/-- The map of the non-zero entries of `shares`, indexed by `addrs`. -/
def shareMap (addrs : List Address) (shares : List UInt8) : Option (GoMap Address UInt8) :=
  addrs.zipIdx.foldlM (fun m (a, i) => do
    let v ← shares[i]?
    return if 0 < v then m.insert a v else m) ∅

/-- The non-zero shares with their addresses. -/
def nonZeroShares (addrs : List Address) (shares : List UInt8) : List (Address × UInt8) :=
  (addrs.zip shares).filter fun e => 0 < e.2

/-- The loop of `ProfitShare` and `StakeShare`, started at index `k` with the map `m`. -/
theorem shareMap_loop (shares : List UInt8) : ∀ (addrs : List Address) (k : ℕ)
    (m : GoMap Address UInt8), addrs.length + k ≤ shares.length →
    (addrs.zipIdx k).foldlM (fun m (a, i) => do
        let v ← shares[i]?
        return if 0 < v then m.insert a v else m) m =
      some ((nonZeroShares addrs (shares.drop k)).foldl (fun m e => m.insert e.1 e.2) m)
  | [], k, m, _ => rfl
  | a :: as, k, m, hl => by
    rw [length_cons] at hl
    have hk : k < shares.length := by omega
    rw [zipIdx_cons, foldlM_cons, drop_eq_getElem_cons hk, nonZeroShares,
      zip_cons_cons, filter_cons]
    simp only [List.getElem?_eq_getElem hk, Option.bind_eq_bind, Option.bind_some, Option.pure_def]
    refine (shareMap_loop shares as (k + 1) _ (by omega)).trans (congrArg some ?_)
    rw [nonZeroShares]
    by_cases hv : 0 < shares[k]
    · rw [if_pos hv, if_pos (decide_eq_true hv), foldl_cons]
    · rw [if_neg hv, if_neg (by simpa using hv)]

theorem shareMap_eq {addrs : List Address} {shares : List UInt8}
    (h : addrs.length ≤ shares.length) :
    shareMap addrs shares = some (ofPairs (nonZeroShares addrs shares)) :=
  shareMap_loop shares addrs 0 ∅ h

/-- The addresses at the indices of the set bits. -/
def roles (addrs : List Address) (bits : Bytes) : Option (List Address) :=
  (bitIndices bits).mapM fun i => addrs[i]?

namespace DelegatingStakeRules

variable {α : Type} {x : Option α}

/-- `ProfitShare` returns the participants' profit share in percent. -/
def profitShare (r : DelegatingStakeRules) : Option (GoMap Address UInt8) :=
  shareMap r.addrs r.profitShares

/-- `StakeShare` returns the participants' stake share in percent. -/
def stakeShare (r : DelegatingStakeRules) : Option (GoMap Address UInt8) :=
  shareMap r.addrs r.stakeShares

/-- `Exit` returns the addresses authorized to initiate the exit procedure. -/
def exit (r : DelegatingStakeRules) : Option (List Address) := roles r.addrs r.exitBits

/-- `Withdrawal` returns the addresses authorized to initiate a withdrawal. -/
def withdrawal (r : DelegatingStakeRules) : Option (List Address) := roles r.addrs r.withdrawalBits

def total (shares : List UInt8) : ℕ := (shares.map UInt8.toNat).sum

theorem sum_nonZeroShares : ∀ {addrs : List Address} {shares : List UInt8},
    shares.length = addrs.length →
    ((nonZeroShares addrs shares).map fun e => e.2.toNat).sum = total shares
  | [], [], _ => rfl
  | a :: as, v :: vs, h => by
    have ih := @sum_nonZeroShares as vs (by simpa using h)
    have htotal : total (v :: vs) =
        v.toNat + total vs := by
      simp [total]
    rw [nonZeroShares] at ih
    rw [htotal, ← ih, nonZeroShares, zip_cons_cons, filter_cons]
    by_cases hv : 0 < v
    · simp [hv]
    · have hzero : v.toNat = 0 := by
        simpa using UInt8.lt_iff_toNat_lt.not.1 hv
      simp [hv, hzero]

def validateProfitShare (r : DelegatingStakeRules) : Except ValError Unit :=
  if total r.profitShares ≠ 100 then .error .badProfitShare else .ok ()

def validateStakeShare (r : DelegatingStakeRules) : Except ValError Unit :=
  if total r.stakeShares ≠ 100 then .error .badStakeShare else .ok ()

/-- A value of Go code that panics where it is missing. -/
def orPanic {α : Type} (x : Option α) : Except ValError α := x.elim (.error .panic) .ok

@[simp] theorem orPanic_some (a : α) : orPanic (some a) = .ok a := rfl

@[simp] theorem orPanic_none : orPanic (none : Option α) = .error .panic := rfl

theorem orPanic_eq_ok {a : α} : orPanic x = .ok a ↔ x = some a := by
  cases x <;> simp

theorem avoids_orPanic {e : ValError} (he : .panic ≠ e) : Avoids e (orPanic x) := by
  cases x with
  | none => exact avoids_error.2 he
  | some a => exact avoids_ok a

def validateExit (r : DelegatingStakeRules) : Except ValError Unit := do
  let roles ← orPanic r.exit
  if roles.isEmpty then .error .noExitRoles else .ok ()

def validateWithdrawal (r : DelegatingStakeRules) : Except ValError Unit := do
  let roles ← orPanic r.withdrawal
  if roles.isEmpty then .error .noWithdrawalRoles else .ok ()

def validate (r : DelegatingStakeRules) : Except ValError Unit := do
  r.validateProfitShare
  r.validateStakeShare
  r.validateExit
  r.validateWithdrawal

end DelegatingStakeRules

structure DelegatingStakeData where
  rules : DelegatingStakeRules
  trialPeriod : UInt64
  trialRules : DelegatingStakeRules
  deriving DecidableEq, Repr

open DelegatingStakeRules in
/-- The check of one share map of the trial rules, made only for a trial period in which the
    map is not empty. -/
def checkTrialShare (trialPeriod : UInt64) (share : Option (GoMap Address UInt8))
    (validate : Except ValError Unit) : Except ValError Unit :=
  checkIf (0 < trialPeriod) do
    let share ← orPanic share
    checkIf (0 < share.keys.length) validate

def newDelegatingStakeData (rules : DelegatingStakeRules) (trialPeriod : UInt64)
    (trialRules : DelegatingStakeRules) : Except ValError DelegatingStakeData := do
  rules.validate
  checkTrialShare trialPeriod trialRules.profitShare trialRules.validateProfitShare
  checkTrialShare trialPeriod trialRules.stakeShare trialRules.validateStakeShare
  return ⟨rules, trialPeriod, trialRules⟩

/-- `IsEmpty` returns true if there are no rules to apply. -/
def DelegatingStakeData.isEmpty (d : DelegatingStakeData) : Option Bool :=
  d.rules.withdrawal.map List.isEmpty

end Gwat
