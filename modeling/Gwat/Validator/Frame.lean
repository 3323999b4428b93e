/-
  What the handlers of the validator processor leave alone: no handler changes a
  nonce (`Processor.handle_nonces`), so `Processor.call` changes exactly one, the
  sender's, and only when the operation decodes (`Processor.getNonce_call`).
-/
import Gwat.Validator.Steps

namespace Gwat

open GoLib DelegatingStakeRules

def SameNonces (s s' : StateDB) : Prop := ∀ a, s'.getNonce a = s.getNonce a

theorem SameNonces.refl (s : StateDB) : SameNonces s s := fun _ => rfl

namespace Processor

variable {p : Processor} {s s' : StateDB} {caller toAddr withdrawalTo : Address} {value : ℤ}
  {txHash : Hash} {ret data : Bytes} {op : SyncOp}

theorem payShares_nonces (es : List ShareRuleApplying) : SameNonces s (payShares s es) := by
  induction es generalizing s with
  | nil => exact .refl _
  | cons e es ih =>
    intro a
    exact (ih a).trans (StateDB.getNonce_addBalance e.amount)

theorem payWithdrawal_nonces {v : Validator}
    (h : p.payWithdrawal s op v withdrawalTo = .ok (ret, s')) : SameNonces s s' := by
  obtain ⟨bin, amount, ls, -, -, rfl⟩ := payWithdrawal_eq_ok h
  intro a
  simp

theorem validatorUpdateBalance_nonces (h : p.validatorUpdateBalance s op = .ok (ret, s')) :
    SameNonces s s' := by
  obtain ⟨v, -, h⟩ := validatorUpdateBalance_eq_ok h
  rcases payBalance_eq_ok h with ⟨-, dst, v', -, h⟩ | ⟨-, h⟩ | ⟨-, dst, h⟩
  · exact payWithdrawal_nonces h
  · obtain ⟨entries, ls, rfl⟩ := applyDelegatingStakeRules_eq_ok h
    exact payShares_nonces entries
  · exact payWithdrawal_nonces h

theorem syncOpProcessing_nonces (h : p.syncOpProcessing s op txHash = .ok (ret, s')) :
    SameNonces s s' := by
  rcases syncOpProcessing_eq_ok h with ⟨-, h⟩ | ⟨-, h⟩ | ⟨-, h⟩ | ⟨-, rfl⟩
  · obtain ⟨v, era, bin, s₁, ls, -, -, -, -, hs₁, rfl⟩ := validatorActivate_eq_ok h
    intro a
    rcases hs₁ with rfl | ⟨code, rfl⟩ <;> simp
  · obtain ⟨v, era, bin, ls, -, -, -, -, -, rfl⟩ := validatorDeactivate_eq_ok h
    intro a
    simp
  · exact validatorUpdateBalance_nonces h
  · exact .refl _

/-! ## The entry point -/

theorem handle_nonces {op : ValOp} (h : p.handle s caller toAddr value txHash op = .ok (ret, s')) :
    SameNonces s s' := by
  cases op with
  | deposit op =>
    obtain ⟨-, -, v, bin, n, log, -, -, -, -, rfl⟩ := validatorDeposit_eq_ok h
    intro a
    simp
  | exit op =>
    obtain ⟨v, bin, log, -, -, rfl⟩ := validatorExit_eq_ok h
    intro a
    simp
  | withdrawal op =>
    obtain ⟨v, amount, v', bin, log, -, -, -, -, rfl⟩ := validatorWithdrawal_eq_ok h
    intro a
    simp
  | sync op => exact syncOpProcessing_nonces h

/-- A decodable operation adds one to the nonce of the sender, whether it succeeds or
    not. -/
theorem getNonce_call (p : Processor) (s : StateDB) (caller toAddr : Address) (value : ℤ)
    (txHash : Hash) {op : ValOp} (hop : p.opCodec.decodeBytes data = .ok op) :
    (p.call s caller toAddr value data txHash).2.getNonce caller = s.getNonce caller + 1 := by
  unfold call
  rw [hop]
  simp only
  split
  · rw [StateDB.getNonce_setNonce, if_pos rfl]
  · next ret s' h => rw [handle_nonces h, StateDB.getNonce_setNonce, if_pos rfl]

end Processor

end Gwat
