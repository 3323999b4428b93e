/-
  The life cycle of a validator: its activation era and its exit era.
-/
import Gwat.Validator.RecordWrites

namespace Gwat

open GoLib

variable {v v' : Validator} {valAddr : Address} {s s' s₀ : StateDB}

/-- An operation sets an era that is not set and keeps one that is, and it sets the exit era
    of activated validators only. -/
structure Evolves (v v' : Validator) : Prop where
  activation : v.activationEra ≠ maxUint64 → v'.activationEra = v.activationEra
  exit : v.exitEra ≠ maxUint64 → v'.exitEra = v.exitEra
  exitAfterActivation : v.exitEra = maxUint64 → v'.exitEra ≠ maxUint64 →
    v.activationEra ≠ maxUint64

/-- The exit era, once set, is above the activation era. -/
def Ordered (v : Validator) : Prop := v.exitEra ≠ maxUint64 → v.activationEra < v.exitEra

theorem not_maxUint64_lt (n : UInt64) : ¬ maxUint64 < n := by
  rw [UInt64.lt_iff_toNat_lt]
  have hmax : maxUint64.toNat = 2 ^ 64 - 1 := rfl
  have := n.toNat_lt
  omega

theorem Evolves.of_eq (ha : v'.activationEra = v.activationEra) (he : v'.exitEra = v.exitEra) :
    Evolves v v' :=
  ⟨fun _ => ha, fun _ => he, fun h h' => absurd (he.trans h) h'⟩

theorem Ordered.of_eq (ha : v'.activationEra = v.activationEra) (he : v'.exitEra = v.exitEra)
    (h : Ordered v) : Ordered v' := by
  rw [Ordered, ha, he]
  exact h

/-- What one operation may do to the record of an account: nothing, an update in order, or a
    new record without eras. -/
inductive RecordStep (s s' : StateDB) (a : Address) : Prop
  | same (hcode : s'.getCode a = s.getCode a)
  | update (v v' : Validator) (hv : getValidator .binary s a = .ok v)
      (hv' : getValidator .binary s' a = .ok v') (haddr : v'.address = a) (hevolves : Evolves v v')
      (hordered : Ordered v → Ordered v')
  | create (v' : Validator) (hno : ∀ v, getValidator .binary s a ≠ .ok v)
      (hv' : getValidator .binary s' a = .ok v') (haddr : v'.address = a)
      (hact : v'.activationEra = maxUint64) (hexit : v'.exitEra = maxUint64)

/-- Every record lies in the account of its validator, with its eras in order. -/
structure LifeInv (valAddr : Address) (s : StateDB) : Prop where
  home : ∀ a v, a ≠ valAddr → getValidator .binary s a = .ok v → v.address = a
  ordered : ∀ a v, a ≠ valAddr → getValidator .binary s a = .ok v → Ordered v

theorem WritesRecord.recordStep_create (h : WritesRecord valAddr s s' v') (hfits : v'.Fits)
    (hno : ∀ v, getValidator .binary s v'.address ≠ .ok v) (hact : v'.activationEra = maxUint64)
    (hexit : v'.exitEra = maxUint64) (a : Address) (ha : a ≠ valAddr) : RecordStep s s' a := by
  by_cases hself : a = v'.address
  · subst hself
    exact .create v'.normal hno (h.getValidator_self hfits ha) rfl hact hexit
  · exact .same (h.getCode_of_ne ha hself)

theorem Rewrites.recordStep (h : Rewrites valAddr s s' v v') (hevolves : Evolves v v')
    (hordered : Ordered v → Ordered v') (a : Address) (ha : a ≠ valAddr) : RecordStep s s' a := by
  by_cases hself : a = v'.address
  · subst hself
    exact .update v v'.normal h.read (h.writes.getValidator_self h.fits ha) rfl
      ⟨hevolves.1, hevolves.2, hevolves.3⟩ hordered
  · exact .same (h.writes.getCode_of_ne ha hself)

theorem Rewrites.recordStep_same (h : Rewrites valAddr s s' v v')
    (hact : v'.activationEra = v.activationEra) (hexit : v'.exitEra = v.exitEra) (a : Address)
    (ha : a ≠ valAddr) : RecordStep s s' a :=
  h.recordStep (.of_eq hact hexit) (.of_eq hact hexit) a ha

namespace Processor

variable {p : Processor} {s s' : StateDB} {caller toAddr : Address} {value : ℤ} {txHash : Hash}
  {ret : Bytes}
variable {op : SyncOp}

theorem validatorDeposit_life {op : DepositOp} (hcodec : p.codec = .binary)
    (hrec : RecordInPlace s op.creatorAddress)
    (hdelegate : (DelegatingStakeData.marshalBinary op.delegatingStake).length < 2 ^ 32)
    (h : p.validatorDeposit s caller toAddr value op txHash = .ok (ret, s')) :
    ∀ a, a ≠ p.validatorsStateAddress → RecordStep s s' a := by
  obtain ⟨v, hv, hfits, hwrites, -⟩ := validatorDeposit_writes hcodec hrec hdelegate h
  have hact : (p.depositedRecord v caller value txHash).activationEra = v.activationEra := by
    rw [depositedRecord_eq]
  have hexit : (p.depositedRecord v caller value txHash).exitEra = v.exitEra := by
    rw [depositedRecord_eq]
  rcases depositRecord_eq_ok hv with ⟨hno, hfresh⟩ | ⟨hget, -⟩
  · rw [freshRecord_eq_ok hfresh] at hwrites hfits hact hexit
    rw [hcodec] at hno
    refine hwrites.recordStep_create hfits ?_ hact hexit
    rwa [address_depositedRecord]
  · rw [hcodec] at hget
    refine Rewrites.recordStep_same (v := v) ⟨?_, hfits, hwrites⟩ hact hexit
    rwa [address_depositedRecord, (hrec v hget).1]

theorem validatorActivate_life (hcodec : p.codec = .binary)
    (hfork : p.blockchain.config.isForkSlotValOpTracking p.ctx.slot)
    (hrec : RecordInPlace s op.creator) (h : p.validatorActivate s op = .ok (ret, s')) :
    ∀ a, a ≠ p.validatorsStateAddress → RecordStep s s' a := by
  obtain ⟨v, era, -, hmax, hrewrites⟩ := validatorActivate_writes hcodec hfork hrec h
  refine hrewrites.recordStep ?_ ?_
  · exact ⟨fun hne => absurd hmax hne, fun _ => rfl, fun h h' => absurd h h'⟩
  · intro hord hexit
    have hlt := hord hexit
    rw [hmax] at hlt
    exact absurd hlt (not_maxUint64_lt _)

/-- A deactivation sets the exit era of an activated validator, above the activation era if
    the era of the processing epoch is not more than one before it. -/
theorem validatorDeactivate_life (hcodec : p.codec = .binary) (hrec : RecordInPlace s op.creator)
    (hera : ∀ v era, getValidator .binary s op.creator = .ok v → p.opEra op.procEpoch = .ok era →
      v.activationEra.toNat ≤ era.number.toNat + 1 ∧ era.number.toNat + 2 < 2 ^ 64)
    (h : p.validatorDeactivate s op = .ok (ret, s')) :
    ∀ a, a ≠ p.validatorsStateAddress → RecordStep s s' a := by
  obtain ⟨v, era, hmax, hopEra, hguard, haddr, hrewrites⟩ :=
    validatorDeactivate_writes hcodec hrec h
  obtain ⟨hle, hlt⟩ := hera v era (haddr ▸ hrewrites.read) hopEra
  refine hrewrites.recordStep ?_ fun _ _ => ?_
  · refine ⟨fun _ => rfl, fun hne => absurd hmax hne, fun _ _ hact => ?_⟩
    rw [hact] at hguard
    exact absurd hguard (not_maxUint64_lt _)
  · have hsum : (era.number + postpone).toNat = era.number.toNat + 2 := by
      exact Nat.mod_eq_of_lt hlt
    change v.activationEra < era.number + postpone
    rw [UInt64.lt_iff_toNat_lt, hsum]
    omega

end Processor

/-! ## One step -/

namespace OpStep

/-- The operation runs after the forks of the tracking and of the sync processing, on the
    chain with the validators' account `valAddr`. -/
structure AfterForks (valAddr : Address) (st : OpStep) : Prop where
  tracking : st.p.blockchain.config.isForkSlotValOpTracking st.p.ctx.slot
  syncProc : st.p.blockchain.config.isForkSlotValSyncProc st.p.ctx.slot
  account : st.p.validatorsStateAddress = valAddr

/-- Amounts are not negative, and a deactivation is processed in an era that is at most one
    before the activation era. -/
def InTime (st : OpStep) : ValOp → Prop
  | .deposit op => (DelegatingStakeData.marshalBinary op.delegatingStake).length < 2 ^ 32
  | .withdrawal _ => True
  | .exit _ => True
  | .sync op => (∀ amount ∈ op.amount, 0 ≤ amount) ∧
    (op.opType = .deactivate → ∀ v, getValidator .binary st.before op.creator = .ok v →
      ∀ era, st.p.opEra op.procEpoch = .ok era →
        v.activationEra.toNat ≤ era.number.toNat + 1 ∧ era.number.toNat + 2 < 2 ^ 64)

instance (st : OpStep) (op : ValOp) : Decidable (st.InTime op) :=
  match op with
  | .deposit _ => inferInstanceAs (Decidable (_ < _))
  | .withdrawal _ | .exit _ => inferInstanceAs (Decidable True)
  | .sync _ => inferInstanceAs (Decidable (_ ∧ _))

/-- The operation names another account than the validators' one, its record has room for one
    more stake, and a deactivation is in time. -/
structure LifeCond (st : OpStep) : Prop where
  creator_ne : st.op.creator ≠ st.p.validatorsStateAddress
  small : ∀ v, getValidator .binary st.before st.op.creator = .ok v → v.Small
  inTime : st.InTime st.op

instance (st : OpStep) : Decidable st.LifeCond :=
  decidable_of_iff (_ ∧ _ ∧ _) ⟨fun ⟨h1, h2, h3⟩ => ⟨h1, h2, h3⟩, fun h => ⟨h.1, h.2, h.3⟩⟩

/-- An accepted operation does nothing to a record but update it in order or create it
    without eras. -/
theorem life_step {st : OpStep} (hcodec : st.p.codec = .binary) (hforks : st.AfterForks valAddr)
    (hcond : st.LifeCond) (hinv : LifeInv valAddr st.before) (h : st.Accepted) :
    ∀ a, a ≠ valAddr → RecordStep st.before st.after a := by
  obtain ⟨p, caller, toAddr, value, txHash, op, s, s'⟩ := st
  obtain ⟨hfork, -, rfl⟩ := hforks
  obtain ⟨hne, hsmall, htime⟩ := hcond
  have hrec : RecordInPlace s op.creator := fun v hv => ⟨hinv.home op.creator v hne hv, hsmall v hv⟩
  obtain ⟨ret, h⟩ := h
  cases op with
  | deposit op => exact Processor.validatorDeposit_life hcodec hrec htime h
  | exit op =>
    obtain ⟨v, -, hrewrites⟩ := Processor.validatorExit_writes hcodec hrec h
    exact hrewrites.recordStep_same rfl rfl
  | withdrawal op =>
    obtain ⟨v, -, hrewrites⟩ := Processor.validatorWithdrawal_writes hcodec hfork hrec h
    exact hrewrites.recordStep_same rfl rfl
  | sync op =>
    obtain ⟨hpos, hera⟩ := htime
    rcases Processor.syncOpProcessing_eq_ok h with ⟨-, h⟩ | ⟨htype, h⟩ | ⟨-, h⟩ | ⟨-, hsame⟩
    · exact Processor.validatorActivate_life hcodec hfork hrec h
    · exact Processor.validatorDeactivate_life hcodec hrec
        (fun v era hv hopEra => hera htype v hv era hopEra) h
    · obtain ⟨v, -, ⟨-, stake, hrewrites⟩ | ⟨-, hsame⟩⟩ :=
        Processor.validatorUpdateBalance_writes hcodec hfork hrec hpos h
      · exact hrewrites.recordStep_same rfl rfl
      · exact fun a _ => .same (hsame a)
    · obtain rfl : s' = s := hsame
      exact fun a _ => .same rfl

end OpStep

/-! ## Runs -/

variable {s s' s₁ : StateDB} {a valAddr : Address}

theorem RecordStep.evolves (h : RecordStep s s' a) (hv : getValidator .binary s a = .ok v) :
    ∃ v', getValidator .binary s' a = .ok v' ∧ Evolves v v' := by
  cases h with
  | same hcode => exact ⟨v, (getValidator_congr hcode).trans hv, .of_eq rfl rfl⟩
  | update w w' hw hw' _ hevolves _ =>
    cases hw.symm.trans hv
    exact ⟨w', hw', hevolves⟩
  | create _ hno _ _ _ _ => exact absurd hv (hno v)

theorem RecordStep.fresh (h : RecordStep s s' a) (hv' : getValidator .binary s' a = .ok v')
    (hno : ∀ v, getValidator .binary s a ≠ .ok v) :
    v'.activationEra = maxUint64 ∧ v'.exitEra = maxUint64 := by
  cases h with
  | same hcode => exact absurd ((getValidator_congr hcode).symm.trans hv') (hno v')
  | update w _ hw _ _ _ _ => exact absurd hw (hno w)
  | create w' _ hw' _ hact hexit =>
    cases hw'.symm.trans hv'
    exact ⟨hact, hexit⟩

theorem LifeInv.step (h : LifeInv valAddr s) (hstep : ∀ a, a ≠ valAddr → RecordStep s s' a) :
    LifeInv valAddr s' := by
  have hafter : ∀ a v, a ≠ valAddr → getValidator .binary s' a = .ok v →
      v.address = a ∧ Ordered v := by
    intro a w ha hw
    cases hstep a ha with
    | same hcode =>
      rw [getValidator_congr hcode] at hw
      exact ⟨h.home a w ha hw, h.ordered a w ha hw⟩
    | update v v' hv hv' haddr _ hordered =>
      cases hv'.symm.trans hw
      exact ⟨haddr, hordered (h.ordered a v ha hv)⟩
    | create v' _ hv' haddr _ hexit =>
      cases hv'.symm.trans hw
      exact ⟨haddr, fun hne => absurd hexit hne⟩
  exact ⟨fun a v ha hv => (hafter a v ha hv).1, fun a v ha hv => (hafter a v ha hv).2⟩

/-- The eras that are set are kept. -/
def ErasKept (s s' : StateDB) (a : Address) : Prop :=
  ∀ v, getValidator .binary s a = .ok v → ∃ v', getValidator .binary s' a = .ok v' ∧
    (v.activationEra ≠ maxUint64 → v'.activationEra = v.activationEra) ∧
    (v.exitEra ≠ maxUint64 → v'.exitEra = v.exitEra)

theorem ErasKept.refl (s : StateDB) (a : Address) : ErasKept s s a :=
  fun v hv => ⟨v, hv, fun _ => rfl, fun _ => rfl⟩

theorem ErasKept.step (h : ErasKept s s₁ a) (hstep : RecordStep s₁ s' a) : ErasKept s s' a := by
  intro v hv
  obtain ⟨v₁, hv₁, hact, hexit⟩ := h v hv
  obtain ⟨v', hv', hevolves⟩ := hstep.evolves hv₁
  refine ⟨v', hv', fun hne => ?_, fun hne => ?_⟩
  · have hset := hact hne
    exact (hevolves.activation (hset ▸ hne)).trans hset
  · have hset := hexit hne
    exact (hevolves.exit (hset ▸ hne)).trans hset

/-- The invariant and the steps of a run, by induction on the run. -/
theorem OpRun.recordSteps {steps : List OpStep} (hrun : OpRun s₀ steps s)
    (hcodec : ∀ st ∈ steps, st.p.codec = .binary) (hforks : ∀ st ∈ steps, st.AfterForks valAddr)
    (hcond : ∀ st ∈ steps, st.LifeCond) (hstart : LifeInv valAddr s₀) :
    LifeInv valAddr s ∧ (∀ a, a ≠ valAddr → ErasKept s₀ s a) ∧
      ∀ st ∈ steps, LifeInv valAddr st.after ∧
        ∀ a, a ≠ valAddr → RecordStep st.before st.after a := by
  induction hrun with
  | nil => exact ⟨hstart, fun a _ => .refl s₀ a, by simp⟩
  | @snoc steps s₁ st _ hsame hacc ih =>
    simp only [List.forall_mem_append, List.forall_mem_singleton] at hcodec hforks hcond ⊢
    obtain ⟨hinv, hkept, hsteps⟩ := ih hcodec.1 hforks.1 hcond.1
    have hbefore := hinv.step fun a _ => .same (hsame a)
    have hstep := OpStep.life_step hcodec.2 hforks.2 hcond.2 hbefore hacc
    have hafter := hbefore.step hstep
    exact ⟨hafter, fun a ha => ((hkept a ha).step (.same (hsame a))).step (hstep a ha), hsteps,
      hafter, hstep⟩

/-- The life cycle of validators is monotone: over every run of accepted operations in which
    each deactivation is in time, an era is set at most once, no step sets the exit era of a
    validator that has no activation era, and the exit era is above the activation era in
    every state. -/
theorem OpRun.lifeCycle (valAddr : Address) (s₀ s : StateDB) (steps : List OpStep)
    (hrun : OpRun s₀ steps s) (hcodec : ∀ st ∈ steps, st.p.codec = .binary)
    (hforks : ∀ st ∈ steps, st.AfterForks valAddr) (hcond : ∀ st ∈ steps, st.LifeCond)
    (hstart : LifeInv valAddr s₀) (a : Address) (ha : a ≠ valAddr) :
    ErasKept s₀ s a ∧
    (∀ v, getValidator .binary s a = .ok v → Ordered v) ∧
    ∀ st ∈ steps,
      (∀ v, getValidator .binary st.before a = .ok v →
        ∃ v', getValidator .binary st.after a = .ok v' ∧ Evolves v v') ∧
      (∀ v', getValidator .binary st.after a = .ok v' → Ordered v' ∧
        ((∀ v, getValidator .binary st.before a ≠ .ok v) →
          v'.activationEra = maxUint64 ∧ v'.exitEra = maxUint64)) := by
  obtain ⟨hinv, hkept, hsteps⟩ := hrun.recordSteps hcodec hforks hcond hstart
  refine ⟨hkept a ha, fun v => hinv.ordered a v ha, fun st hst => ?_⟩
  obtain ⟨hafter, hstep⟩ := hsteps st hst
  exact ⟨fun v hv => (hstep a ha).evolves hv,
    fun v' hv' => ⟨hafter.ordered a v' ha hv', (hstep a ha).fresh hv'⟩⟩

/-! ## An exit before the activation -/

/-- The coordinator's operation on the validator 12 for an epoch. -/
def lifeOp (opType : SyncOpType) (initTxHash : Hash) (procEpoch : UInt64) : SyncOp where
  version := ver1
  opType := opType
  initTxHash := initTxHash
  procEpoch := procEpoch
  index := 0
  creator := 12
  amountField := none
  withdrawalAddress := none
  balance := none

/-- The processor of a block in era 8 of a chain whose eras have ten epochs.  The coordinator
    activates validator 12 for the deposit in transaction 5 and slashes it. -/
def lifeProcessor : Processor :=
  let eras : List Era := (List.range 10).map fun n =>
    ⟨.ofNat n, .ofNat (10 * n), .ofNat (10 * n + 9)⟩
  { Processor.devnet with
    node := ⟨2600, ⟨8, 80, 89⟩⟩
    ctx := ⟨2600, 8, 1⟩
    blockchain := { Processor.devnet.blockchain with
      eras := eras
      getValidatorSyncData := fun h =>
        if h = 5 then some ⟨5, .activate, 50, 0, 12, none, none, none⟩
        else if h = slashingHash then some ⟨h, .deactivate, 30, 0, 12, none, none, none⟩
        else none
      getTransaction := fun _ => some ⟨ValOp.data (.deposit (depositFor 12)), 1⟩
      getTransactionReceipt := fun _ => (some .successful, 0) } }

def lifeState : StateDB := depositState 0xFFFF (uint64BytesBE 0)

/-- A deposit, the activation for an epoch of era 5, and a deactivation for the given epoch. -/
def lifeRun (procEpoch : UInt64) : Except ValError (List OpStep × StateDB) :=
  runOps lifeProcessor lifeState
    [(1, 10 * bigWat, 5, .deposit (depositFor 12)), (2, 0, 80, .sync (lifeOp .activate 5 50)),
      (2, 0, 81, .sync (lifeOp .deactivate slashingHash procEpoch))]

theorem lifeInv_lifeState : LifeInv 0xFFFF lifeState := by
  have hnone : ∀ a v, a ≠ 0xFFFF → getValidator .binary lifeState a ≠ .ok v := by
    intro a v ha hv
    refine (getValidator_eq_ok.1 hv).1 ?_
    rw [lifeState, depositState, StateDB.getCode_addBalance, StateDB.getCode_setCode, if_neg ha]
    rfl
  exact ⟨fun a v ha hv => absurd hv (hnone a v ha), fun a v ha hv => absurd hv (hnone a v ha)⟩

theorem afterForks_lifeProcessor {st : OpStep} (h : st.p = lifeProcessor) :
    st.AfterForks 0xFFFF := by
  refine ⟨?_, ?_, ?_⟩ <;> rw [h] <;> decide

/-- A deactivation for an epoch of era 6 exits in era 8, after the activation in era 7. -/
theorem lifeCycle_in_time :
    ∃ steps s v, OpRun lifeState steps s ∧ steps.length = 3 ∧ getValidator .binary s 12 = .ok v ∧
      v.activationEra = 7 ∧ v.exitEra = 8 ∧ Ordered v := by
  have hok : (lifeRun 60).toOption.any (fun r => r.1.length = 3 ∧ (∀ st ∈ r.1, st.LifeCond) ∧
      ∃ v, getValidator .binary r.2 12 = .ok v ∧ v.activationEra = 7 ∧ v.exitEra = 8) = true := by
    decide +kernel
  obtain ⟨⟨steps, s⟩, h, hcheck⟩ := any_toOption.1 hok
  obtain ⟨hlen, hcond, v, hv, hact, hexit⟩ := of_decide_eq_true hcheck
  obtain ⟨hrun, hp⟩ := opRun_of_runOps h
  have hlife := OpRun.lifeCycle 0xFFFF lifeState s steps hrun (fun st hst => by rw [hp st hst]; rfl)
    (fun st hst => afterForks_lifeProcessor (hp st hst)) hcond lifeInv_lifeState 12 (by decide)
  exact ⟨steps, s, v, hrun, hlen, hv, hact, hexit, hlife.2.1 v hv⟩

/-- A deactivation for an epoch of era 3 passes the check against the era of the block, and
    the validator activated in era 7 exits in era 5. -/
theorem exit_before_activation :
    ∃ steps s v, OpRun lifeState steps s ∧ LifeInv 0xFFFF lifeState ∧
      (∀ st ∈ steps, st.p.codec = .binary ∧ st.AfterForks 0xFFFF) ∧
      getValidator .binary s 12 = .ok v ∧ v.activationEra = 7 ∧ v.exitEra = 5 ∧ ¬ Ordered v := by
  have hok : (lifeRun 30).toOption.any (fun (r : _ × StateDB) => decide (∃ v,
      getValidator .binary r.2 12 = .ok v ∧ v.activationEra = 7 ∧ v.exitEra = 5)) = true := by
    decide +kernel
  obtain ⟨⟨steps, s⟩, h, hcheck⟩ := any_toOption.1 hok
  obtain ⟨v, hv, hact, hexit⟩ := of_decide_eq_true hcheck
  obtain ⟨hrun, hp⟩ := opRun_of_runOps h
  refine ⟨steps, s, v, hrun, lifeInv_lifeState, fun st hst => ?_, hv, hact, hexit, fun hord => ?_⟩
  · exact ⟨by rw [hp st hst]; rfl, afterForks_lifeProcessor (hp st hst)⟩
  · have hlt := hord (by rw [hexit]; decide)
    rw [hact, hexit] at hlt
    exact absurd hlt (by decide)

end Gwat
