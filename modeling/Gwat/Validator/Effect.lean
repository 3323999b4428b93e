/-
  How far the coordinator fixes the effect of its operations.
-/
import Gwat.Validator.Determinism
import Gwat.Validator.OpBinary
import Gwat.Validator.Payout

namespace Gwat

open GoLib DelegatingStakeRules

variable {op : SyncOp} {oc : OpCodec} {bc : Blockchain} {slot : UInt64} {tx : Hash}

/-! ## Accepted operations -/

theorem compareValSync_iff {saved : ValidatorSync} {fork : Bool} :
    compareValSync saved op fork = true ↔
      saved.initTxHash = op.initTxHash ∧ saved.opType = op.opType ∧ saved.creator = op.creator ∧
        saved.index = op.index ∧ (fork = false → saved.procEpoch ≤ op.procEpoch) ∧
        saved.amount = op.amount := by
  unfold compareValSync
  split_ifs with h₁ h₂ h₃ h₄ h₅ <;> simp_all

/-- An accepted operation passed the comparison with the one that the coordinator saved. -/
theorem accepted_saved (h : validateValidatorSyncOp oc bc op slot tx = .ok ()) :
    ∃ saved, bc.getValidatorSyncData op.initTxHash = some saved ∧
      compareValSync saved op (bc.config.isForkSlotDelegate slot) = true := by
  unfold validateValidatorSyncOp at h
  split at h
  · cases h
  · next saved hsaved =>
    obtain ⟨-, -, h⟩ := bind_eq_ok.1 h
    obtain ⟨u, hcmp, -⟩ := bind_eq_ok.1 h
    exact ⟨saved, hsaved, by simpa using hcmp⟩

/-- An accepted operation is the one that the coordinator saved, up to its processing
    epoch and the reported balance. -/
theorem accepted_agrees (h : validateValidatorSyncOp oc bc op slot tx = .ok ()) :
    ∃ saved, bc.getValidatorSyncData op.initTxHash = some saved ∧ saved.opType = op.opType ∧
      saved.creator = op.creator ∧ saved.index = op.index ∧ saved.amount = op.amount := by
  obtain ⟨saved, hsaved, hcmp⟩ := accepted_saved h
  obtain ⟨-, htype, hcreator, hindex, -, hamount⟩ := compareValSync_iff.1 hcmp
  exact ⟨saved, hsaved, htype, hcreator, hindex, hamount⟩

/-! ## Results up to logs -/

def StateDB.eraseLogs (s : StateDB) : StateDB := { s with logs := [] }

/-- The two results are the same up to the logs. -/
def SameEffect (r₁ r₂ : Except ValError (Bytes × StateDB)) : Prop :=
  r₁.map (Prod.map id StateDB.eraseLogs) = r₂.map (Prod.map id StateDB.eraseLogs)

namespace SameEffect

theorem refl (r : Except ValError (Bytes × StateDB)) : SameEffect r r := rfl

theorem bind {α : Type} (x : Except ValError α) {f₁ f₂ : α → Except ValError (Bytes × StateDB)}
    (h : ∀ a, SameEffect (f₁ a) (f₂ a)) : SameEffect (x >>= f₁) (x >>= f₂) := by
  cases x with
  | error e => rfl
  | ok a => exact h a

theorem ok (ret : Bytes) {s₁ s₂ : StateDB} (h : s₁.eraseLogs = s₂.eraseLogs) :
    SameEffect (.ok (ret, s₁)) (.ok (ret, s₂)) := by
  simp [SameEffect, Except.map, h]

end SameEffect

namespace Processor

variable {p : Processor} {s : StateDB} {op op₁ op₂ : SyncOp} {v : Validator}

@[simp] theorem eraseLogs_addLog (l : Log) : (s.addLog l).eraseLogs = s.eraseLogs := rfl

@[simp] theorem eraseLogs_addSyncLog (event : Event) :
    (p.addSyncLog s event op).eraseLogs = s.eraseLogs := by
  unfold addSyncLog
  split_ifs <;> simp

/-! ## The handlers -/

end Processor

end Gwat
