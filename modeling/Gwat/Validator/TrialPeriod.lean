/-
  The trial period as an interval of slots (`isValidatorTrialPeriod`).
-/
import Gwat.Validator.Processor

namespace Gwat

open GoLib DelegatingStakeRules

namespace Processor

/-- The first slot of an era of the table. -/
def eraStart (p : Processor) (number : UInt64) : Option ℕ :=
  (readEra p.blockchain.eras number).map fun e =>
    p.blockchain.config.slotsPerEpoch.toNat * e.fromEpoch.toNat

/-- The block is not later than `endSlot`, or the validator had exited by the era of the block,
    and not later than `endSlot`. -/
def EndsNotBefore (p : Processor) (v : Validator) (endSlot : ℕ) : Prop :=
  p.ctx.slot.toNat ≤ endSlot ∨
    v.exitEra ≤ p.ctx.era ∧ ∃ exit, p.eraStart v.exitEra = some exit ∧ exit ≤ endSlot

/-- The validator is not activated at the era of the block, or its trial period lasts. -/
def InTrial (p : Processor) (v : Validator) (trialPeriod : UInt64) : Prop :=
  p.ctx.era < v.activationEra ∨
    ∃ start, p.eraStart v.activationEra = some start ∧
      p.EndsNotBefore v (start + trialPeriod.toNat)

/-- The end of the trial period of an activated validator is a 64-bit number, or what is left of
    it modulo 2^64 is still not before the block or the exit. -/
def TrialFits (p : Processor) (v : Validator) (trialPeriod : UInt64) : Prop :=
  v.activationEra ≤ p.ctx.era → ∀ start, p.eraStart v.activationEra = some start →
    start + trialPeriod.toNat < 2 ^ 64 ∨
      start < 2 ^ 64 ∧ p.EndsNotBefore v (start + trialPeriod.toNat - 2 ^ 64)

section
variable {p : Processor} {v : Validator} {d : DelegatingStakeData} {start : ℕ}
  {number slot endSlot : UInt64}

/-- The code reads the first slot of an era, or fails if it is no 64-bit number. -/
theorem slotOfEpochStart_eq_ok {e : Era} (he : readEra p.blockchain.eras number = some e) :
    p.blockchain.config.slotOfEpochStart e.fromEpoch = .ok slot ↔
      p.eraStart number = some slot.toNat := by
  rw [eraStart, he, Option.map_some, Option.some.injEq, ChainConfig.slotOfEpochStart]
  have hlt := slot.toNat_lt
  split_ifs with hover
  · simp only [false_iff]
    omega
  · rw [Except.ok.injEq, ← UInt64.toNat_inj, UInt64.toNat_mul, Nat.mod_eq_of_lt (by omega)]

theorem exit_le_iff :
    (do
      let exitEra ← orPanic (readEra p.blockchain.eras number)
      let exitSlot ← p.blockchain.config.slotOfEpochStart exitEra.fromEpoch
      return decide (exitSlot ≤ endSlot) : Except ValError Bool) = .ok true ↔
      ∃ exit, p.eraStart number = some exit ∧ exit ≤ endSlot.toNat := by
  cases he : readEra p.blockchain.eras number with
  | none => simp [eraStart, he]
  | some e =>
    rw [orPanic_some, ok_bind, bind_eq_ok]
    constructor
    · rintro ⟨slot, hslot, hle⟩
      exact ⟨slot.toNat, (slotOfEpochStart_eq_ok he).1 hslot,
        UInt64.le_iff_toNat_le.1 (of_decide_eq_true (Except.ok.inj hle))⟩
    · rintro ⟨exit, hexit, hle⟩
      have hlt : exit < 2 ^ 64 := lt_of_le_of_lt hle endSlot.toNat_lt
      have hnat : (UInt64.ofNat exit).toNat = exit := UInt64.toNat_ofNat_of_lt' hlt
      refine ⟨.ofNat exit, (slotOfEpochStart_eq_ok he).2 (by rw [hnat, hexit]), ?_⟩
      exact congrArg Except.ok (decide_eq_true (UInt64.le_iff_toNat_le.2 (by rwa [hnat])))

/-- What the code compares once the validator is activated. -/
theorem isValidatorTrialPeriod_eq_true (hd : v.delegatingStake = some d)
    (hera : v.activationEra ≤ p.ctx.era) : p.isValidatorTrialPeriod v = .ok true ↔
      ∃ start, p.eraStart v.activationEra = some start ∧ start < 2 ^ 64 ∧
        p.EndsNotBefore v ((start + d.trialPeriod.toNat) % 2 ^ 64) := by
  rw [isValidatorTrialPeriod, if_neg (UInt64.not_lt.2 hera)]
  cases he : readEra p.blockchain.eras v.activationEra with
  | none => simp [eraStart, he]
  | some e =>
    rw [orPanic_some, ok_bind, bind_eq_ok]
    have hstep : ∀ slot : UInt64, (do
        let delegatingStake ← orPanic v.delegatingStake
        let endTrialSlot := slot + delegatingStake.trialPeriod
        if p.ctx.slot ≤ endTrialSlot then return true
        else if v.exitEra ≤ p.ctx.era then
          let exitEra ← orPanic (readEra p.blockchain.eras v.exitEra)
          let exitSlot ← p.blockchain.config.slotOfEpochStart exitEra.fromEpoch
          return decide (exitSlot ≤ endTrialSlot)
        else return false : Except ValError Bool) = .ok true ↔
        p.EndsNotBefore v ((slot.toNat + d.trialPeriod.toNat) % 2 ^ 64) := by
      intro slot
      rw [hd, orPanic_some, ok_bind, EndsNotBefore, ← UInt64.toNat_add]
      dsimp only
      split_ifs with hslot hexit
      · exact iff_of_true rfl (.inl (UInt64.le_iff_toNat_le.1 hslot))
      · rw [exit_le_iff, ← UInt64.le_iff_toNat_le]
        simp only [hslot, hexit, false_or, true_and]
      · rw [← UInt64.le_iff_toNat_le]
        simp only [hslot, hexit, false_or, false_and, iff_false]
        exact fun h => Bool.false_ne_true (Except.ok.inj h)
    constructor
    · rintro ⟨slot, hslot, h⟩
      exact ⟨slot.toNat, (slotOfEpochStart_eq_ok he).1 hslot, slot.toNat_lt, (hstep slot).1 h⟩
    · rintro ⟨start, hstart, hlt, h⟩
      have hnat : (UInt64.ofNat start).toNat = start := UInt64.toNat_ofNat_of_lt' hlt
      exact ⟨.ofNat start, (slotOfEpochStart_eq_ok he).2 (by rw [hnat, hstart]),
        (hstep _).2 (by rwa [hnat])⟩

/-- The code decides about the trial period by its end exactly where the end is a 64-bit number,
    or the wrapped end gives the same answer. -/
theorem isValidatorTrialPeriod_iff (hd : v.delegatingStake = some d) :
    (p.isValidatorTrialPeriod v = .ok true ↔ p.InTrial v d.trialPeriod) ↔
      p.TrialFits v d.trialPeriod := by
  by_cases hera : v.activationEra ≤ p.ctx.era
  swap
  · -- not activated yet
    have hlt := UInt64.not_le.1 hera
    have htrue : p.isValidatorTrialPeriod v = .ok true := by rw [isValidatorTrialPeriod, if_pos hlt]
    exact iff_of_true (iff_of_true htrue (.inl hlt)) fun h => absurd h hera
  rw [isValidatorTrialPeriod_eq_true hd hera, InTrial, TrialFits]
  simp only [UInt64.not_lt.2 hera, false_or, hera, true_implies]
  cases hstart : p.eraStart v.activationEra with
  | none => simp
  | some start =>
    simp only [Option.some.injEq, exists_eq_left', forall_eq']
    have hslot := p.ctx.slot.toNat_lt
    have hperiod := d.trialPeriod.toNat_lt
    rcases Nat.lt_or_ge (start + d.trialPeriod.toNat) (2 ^ 64) with hfits | hwraps
    · rw [Nat.mod_eq_of_lt hfits]
      exact iff_of_true (and_iff_right (by omega)) (.inl hfits)
    · -- the end is beyond every slot
      have hin : p.EndsNotBefore v (start + d.trialPeriod.toNat) := .inl (by omega)
      simp only [hin, iff_true, Nat.not_lt.2 hwraps, false_or]
      refine and_congr_right fun hlt => ?_
      rw [Nat.mod_eq_sub_mod hwraps, Nat.mod_eq_of_lt (by omega)]

end

/-! ## A trial period that wraps -/

/-- Era 1 starts with epoch 1 at slot 32; the block is in slot 40. -/
def wrapProcessor : Processor :=
  { Processor.devnet with
    blockchain := .empty ⟨0xFFFF, 3200, 100, 0, 0, 0, 32⟩ [⟨0, 0, 0⟩, ⟨1, 1, 99⟩]
    ctx := ⟨40, 1, 1⟩ }

/-- A validator that is activated with era 1, with the given trial period. -/
def wrapValidator (trialPeriod : UInt64) : Validator :=
  { newValidator 7 9 none with
    activationEra := 1
    delegatingStake := some ⟨⟨[], [], [], [], []⟩, trialPeriod, ⟨[], [], [], [], []⟩⟩ }

theorem isValidatorTrialPeriod_ten :
    (wrapValidator 10).delegatingStake =
      some ⟨⟨[], [], [], [], []⟩, 10, ⟨[], [], [], [], []⟩⟩ ∧
    (wrapProcessor.isValidatorTrialPeriod (wrapValidator 10) = .ok true ↔
      wrapProcessor.InTrial (wrapValidator 10) 10) := by
  have hfits : wrapProcessor.TrialFits (wrapValidator 10) 10 := by
    intro _ start hstart
    obtain rfl : 32 = start := Option.some.inj hstart
    exact .inl (by decide)
  have hd : (wrapValidator 10).delegatingStake =
      some ⟨⟨[], [], [], [], []⟩, 10, ⟨[], [], [], [], []⟩⟩ := rfl
  exact ⟨hd, (isValidatorTrialPeriod_iff hd).2 hfits⟩

/-- The longest trial period there is has ended eight slots after the activation. -/
theorem isValidatorTrialPeriod_wraps :
    wrapProcessor.isValidatorTrialPeriod (wrapValidator maxUint64) = .ok false ∧
      wrapProcessor.InTrial (wrapValidator maxUint64) maxUint64 :=
  ⟨by decide, .inr ⟨32, rfl, .inl (by decide)⟩⟩

end Processor

end Gwat
