/-
  What the result of a validator operation depends on besides the chain.
-/
import Gwat.Validator.Calendar
import Gwat.Validator.Frame

namespace Gwat

open GoLib DelegatingStakeRules

namespace Processor

variable {p : Processor} {n n₁ n₂ : NodeLocal} {s : StateDB} {caller toAddr : Address} {value : ℤ}
  {txHash : Hash}

/-- The processor of another node with the same chain. -/
def onNode (p : Processor) (n : NodeLocal) : Processor := { p with node := n }

/-! ## Operations that do not read the node -/

theorem opEra_onNode (ht : EraTable p.blockchain.eras) (h : n.curEra ∈ p.blockchain.eras) :
    (p.onNode n).opEra =
      fun epoch => orPanic (p.blockchain.eras.find? (·.isContainsEpoch epoch)) :=
  funext fun _ => congrArg orPanic (ht.epochToEra_eq_find h)

section SameEra

variable (hera : (p.onNode n₁).opEra = (p.onNode n₂).opEra)

include hera

theorem validatorActivate_onNode (op : SyncOp) :
    (p.onNode n₁).validatorActivate s op = (p.onNode n₂).validatorActivate s op := by
  unfold validatorActivate
  rw [hera]
  rfl

theorem validatorDeactivate_onNode (op : SyncOp) :
    (p.onNode n₁).validatorDeactivate s op = (p.onNode n₂).validatorDeactivate s op := by
  unfold validatorDeactivate
  rw [hera]
  rfl

theorem syncOpProcessing_onNode (op : SyncOp) :
    (p.onNode n₁).syncOpProcessing s op txHash = (p.onNode n₂).syncOpProcessing s op txHash := by
  unfold syncOpProcessing
  rw [validatorActivate_onNode hera, validatorDeactivate_onNode hera]
  rfl

theorem handle_onNode {op : ValOp} (hop : ∀ e, op ≠ .exit e) :
    (p.onNode n₁).handle s caller toAddr value txHash op =
      (p.onNode n₂).handle s caller toAddr value txHash op := by
  cases op with
  | deposit op => rfl
  | exit op => exact absurd rfl (hop op)
  | withdrawal op => rfl
  | sync op => exact syncOpProcessing_onNode hera op

end SameEra

/-! ## Exits -/

theorem isValidatorTrialPeriod_avoids {v : Validator} :
    Avoids .notActivatedValidator (p.isValidatorTrialPeriod v) := by
  unfold isValidatorTrialPeriod
  split <;> simp [avoids_orPanic, ChainConfig.avoids_slotOfEpochStart]

theorem exitChecks_avoids {v : Validator} :
    Avoids .notActivatedValidator (p.exitChecks v caller) := by
  have hprev : ∀ tx, Avoids .notActivatedValidator (p.prevOpCheck tx) := fun tx => by
    cases tx <;> simp [prevOpCheck]
  simp [exitChecks, checkSender, actualRules, avoids_orPanic, isValidatorTrialPeriod_avoids, hprev]

section Exit

variable {op : ExitOp} {v : Validator}

theorem exitRequest_avoids {epoch : UInt64} :
    Avoids .notActivatedValidator (p.exitRequest s caller toAddr op txHash v epoch) := by
  simp [exitRequest, exitChecks_avoids, setValidator]

/-- The exit request passes the checks after the activation check, and its record can be
    stored. -/
def ExitAccepted (p : Processor) (caller : Address) (txHash : Hash) (v : Validator) : Prop :=
  p.exitChecks v caller = .ok () ∧ ∃ b, p.codec.marshal
    ((p.updateValidatorVersionBySlot v).setExitTx (some txHash)) = .ok b

theorem exitRequest_eq_iff {e₁ e₂ : UInt64} :
    p.exitRequest s caller toAddr op txHash v e₁ = p.exitRequest s caller toAddr op txHash v e₂ ↔
      (p.ExitAccepted caller txHash v → e₁ = e₂) := by
  constructor
  · rintro h ⟨hchecks, b, hb⟩
    simp only [exitRequest, hchecks, ok_bind, setValidator, hb, Except.mapError, pure_eq_ok,
      Except.ok.injEq, Prod.mk.injEq, true_and] at h
    -- the two states end with logs that differ in their last eight bytes
    have hlogs := congrArg StateDB.logs h
    simp only [StateDB.addLog, List.append_cancel_left_eq, List.cons.injEq, Log.mk.injEq,
      LogData.raw.injEq, packExitRequestLogData, Option.map_some, Option.getD_some, and_true,
      true_and] at hlogs
    exact uint64ToBytes_inj hlogs
  · intro h
    cases hchecks : p.exitChecks v caller with
    | error e => simp [exitRequest, hchecks]
    | ok u =>
      cases hb : p.codec.marshal ((p.updateValidatorVersionBySlot v).setExitTx (some txHash)) with
      | error n =>
        simp [exitRequest, setValidator, hb, Except.mapError]
      | ok b => rw [h ⟨hchecks, b, hb⟩]

/-- Two nodes agree on an exit: both or neither have entered the activation era, and an
    accepted request without an epoch is made in the same epoch of both clocks. -/
def ExitAgrees (p : Processor) (n₁ n₂ : NodeLocal) (s : StateDB) (caller toAddr : Address)
    (op : ExitOp) (txHash : Hash) : Prop :=
  p.isValidatorOp toAddr → ∀ v, getValidator p.codec s op.creatorAddress = .ok v →
    v.pubKey = op.pubKey →
    (op.exitAfterEpoch = none → p.blockchain.config.slotsPerEpoch ≠ 0) →
    (n₁.curEra.number < v.activationEra ↔ n₂.curEra.number < v.activationEra) ∧
      (¬ n₁.curEra.number < v.activationEra → p.ExitAccepted caller txHash v →
        op.exitAfterEpoch = none →
        n₁.currentSlot / p.blockchain.config.slotsPerEpoch =
          n₂.currentSlot / p.blockchain.config.slotsPerEpoch)

/-- The epoch of a request, when it can be computed. -/
def exitEpochOn (p : Processor) (n : NodeLocal) (op : ExitOp) : UInt64 :=
  op.exitAfterEpoch.getD (n.currentSlot / p.blockchain.config.slotsPerEpoch + 1)

theorem exitAfterEpoch_onNode
    (h : op.exitAfterEpoch = none → p.blockchain.config.slotsPerEpoch ≠ 0) :
    (p.onNode n).exitAfterEpoch op = .ok (p.exitEpochOn n op) := by
  unfold exitAfterEpoch exitEpochOn
  cases hop : op.exitAfterEpoch with
  | some e => rfl
  | none =>
    have hslot : (p.onNode n).blockchain.config.slotToEpoch n.currentSlot =
        .ok (n.currentSlot / p.blockchain.config.slotsPerEpoch) := if_neg (h hop)
    show (do let epoch ← (p.onNode n).blockchain.config.slotToEpoch n.currentSlot
             return epoch + 1) = _
    rw [hslot]
    rfl

theorem validatorExit_of_record (hto : p.isValidatorOp toAddr)
    (hv : getValidator p.codec s op.creatorAddress = .ok v) (hk : v.pubKey = op.pubKey)
    (h : op.exitAfterEpoch = none → p.blockchain.config.slotsPerEpoch ≠ 0) :
    (p.onNode n).validatorExit s caller toAddr op txHash =
      if n.curEra.number < v.activationEra then .error .notActivatedValidator
      else p.exitRequest s caller toAddr op txHash v (p.exitEpochOn n op) := by
  have hto' : (p.onNode n).isValidatorOp toAddr := hto
  have hv' : getValidator (p.onNode n).codec s op.creatorAddress = .ok v := hv
  unfold validatorExit
  rw [failIf_of_not (not_not.2 hto'), ok_bind, hv', ok_bind, failIf_of_not (not_not.2 hk), ok_bind,
    exitAfterEpoch_onNode h, ok_bind]
  by_cases hlt : n.curEra.number < v.activationEra
  · have hlt' : (p.onNode n).node.curEra.number < v.activationEra := hlt
    rw [if_pos hlt, failIf_of hlt', error_bind]
  · have hlt' : ¬ (p.onNode n).node.curEra.number < v.activationEra := hlt
    rw [if_neg hlt, failIf_of_not hlt', ok_bind]
    rfl

theorem exitEpochOn_eq_iff : p.exitEpochOn n₁ op = p.exitEpochOn n₂ op ↔
    (op.exitAfterEpoch = none → n₁.currentSlot / p.blockchain.config.slotsPerEpoch =
      n₂.currentSlot / p.blockchain.config.slotsPerEpoch) := by
  unfold exitEpochOn
  cases op.exitAfterEpoch with
  | some e => simp
  | none => simp

/-- Without a record or an epoch, an exit fails in the same way on every node. -/
theorem validatorExit_of_noRecord
    (h : p.isValidatorOp toAddr → ∀ v, getValidator p.codec s op.creatorAddress = .ok v →
      v.pubKey = op.pubKey → op.exitAfterEpoch = none ∧ p.blockchain.config.slotsPerEpoch = 0) :
    (p.onNode n₁).validatorExit s caller toAddr op txHash =
      (p.onNode n₂).validatorExit s caller toAddr op txHash := by
  obtain ⟨e, he⟩ : ∃ e, ∀ n, (p.onNode n).validatorExit s caller toAddr op txHash = .error e := by
    by_cases hto : p.isValidatorOp toAddr
    · have hto' : ∀ n, ¬ ¬ (p.onNode n).isValidatorOp toAddr := fun _ => not_not.2 hto
      cases hv : getValidator p.codec s op.creatorAddress with
      | error e =>
        have hv' : ∀ n, getValidator (p.onNode n).codec s op.creatorAddress = .error e := fun _ => hv
        exact ⟨e, fun n => by rw [validatorExit, failIf_of_not (hto' n), ok_bind, hv' n, error_bind]⟩
      | ok v =>
        have hv' : ∀ n, getValidator (p.onNode n).codec s op.creatorAddress = .ok v := fun _ => hv
        by_cases hk : v.pubKey = op.pubKey
        · obtain ⟨hnone, hspe⟩ := h hto v hv hk
          have hpanic : ∀ n, (p.onNode n).exitAfterEpoch op = .error .panic := fun n => by
            simp [exitAfterEpoch, hnone, onNode, ChainConfig.slotToEpoch, hspe]
          exact ⟨.panic, fun n => by
            rw [validatorExit, failIf_of_not (hto' n), ok_bind, hv' n, ok_bind,
              failIf_of_not (not_not.2 hk), ok_bind, hpanic n, error_bind]⟩
        · exact ⟨.mismatchPublicKey, fun n => by
            rw [validatorExit, failIf_of_not (hto' n), ok_bind, hv' n, ok_bind, failIf_of hk,
              error_bind]⟩
    · have hto' : ∀ n, ¬ (p.onNode n).isValidatorOp toAddr := fun _ => hto
      exact ⟨.invalidToAddress, fun n => by rw [validatorExit, failIf_of (hto' n), error_bind]⟩
  rw [he, he]

theorem validatorExit_onNode : (p.onNode n₁).validatorExit s caller toAddr op txHash =
        (p.onNode n₂).validatorExit s caller toAddr op txHash ↔
      p.ExitAgrees n₁ n₂ s caller toAddr op txHash := by
  by_cases hrec : p.isValidatorOp toAddr ∧ ∃ v, getValidator p.codec s op.creatorAddress = .ok v ∧
      v.pubKey = op.pubKey ∧ (op.exitAfterEpoch = none → p.blockchain.config.slotsPerEpoch ≠ 0)
  · obtain ⟨hto, v, hv, hk, hspe⟩ := hrec
    have hagree : p.ExitAgrees n₁ n₂ s caller toAddr op txHash ↔
        (n₁.curEra.number < v.activationEra ↔ n₂.curEra.number < v.activationEra) ∧
          (¬ n₁.curEra.number < v.activationEra → p.ExitAccepted caller txHash v →
            p.exitEpochOn n₁ op = p.exitEpochOn n₂ op) := by
      rw [exitEpochOn_eq_iff]
      constructor
      · exact fun h => h hto v hv hk hspe
      · intro h _ v' hv' _ _
        rw [hv, Except.ok.injEq] at hv'
        subst hv'
        exact h
    rw [hagree, validatorExit_of_record hto hv hk hspe, validatorExit_of_record hto hv hk hspe]
    by_cases h₁ : n₁.curEra.number < v.activationEra <;>
      by_cases h₂ : n₂.curEra.number < v.activationEra
    · simp [h₁, h₂]
    · rw [if_pos h₁, if_neg h₂]
      exact ⟨fun h => absurd h.symm exitRequest_avoids, fun h => absurd (h.1.1 h₁) h₂⟩
    · rw [if_neg h₁, if_pos h₂]
      exact ⟨fun h => absurd h exitRequest_avoids, fun h => absurd (h.1.2 h₂) h₁⟩
    · simp [h₁, h₂, exitRequest_eq_iff]
  · refine ⟨fun _ hto v hv hk hspe => absurd ⟨hto, v, hv, hk, hspe⟩ hrec, fun _ => ?_⟩
    refine validatorExit_of_noRecord fun hto v hv hk => ?_
    by_contra hc
    exact hrec ⟨hto, v, hv, hk, fun hnone hspe => hc ⟨hnone, hspe⟩⟩

end Exit

/-! ## The entry point -/

theorem call_eq_iff {q₁ q₂ : Processor} {data : Bytes} {op : ValOp}
    (h₁ : q₁.opCodec.decodeBytes data = .ok op) (h₂ : q₂.opCodec.decodeBytes data = .ok op) :
    q₁.call s caller toAddr value data txHash = q₂.call s caller toAddr value data txHash ↔
      q₁.handle (s.setNonce caller (s.getNonce caller + 1)) caller toAddr value txHash op =
        q₂.handle (s.setNonce caller (s.getNonce caller + 1)) caller toAddr value txHash op := by
  simp only [call, h₁, h₂]
  constructor
  · intro h
    split at h <;> split at h <;> simp_all
  · intro h
    rw [h]

/-- A validator operation gives two nodes with the same chain the same result, state and
    logs exactly when it is no exit or an exit on which they agree. -/
theorem call_same_on_nodes_iff (p : Processor) (n₁ n₂ : NodeLocal) (s : StateDB)
    (caller toAddr : Address) (value : ℤ) (data : Bytes) (txHash : Hash)
    (ht : EraTable p.blockchain.eras) (h₁ : n₁.curEra ∈ p.blockchain.eras)
    (h₂ : n₂.curEra ∈ p.blockchain.eras) :
    (p.onNode n₁).call s caller toAddr value data txHash =
        (p.onNode n₂).call s caller toAddr value data txHash ↔
      ∀ op, p.opCodec.decodeBytes data = .ok (.exit op) →
        p.ExitAgrees n₁ n₂ s caller toAddr op txHash := by
  have hera : (p.onNode n₁).opEra = (p.onNode n₂).opEra :=
    (opEra_onNode ht h₁).trans (opEra_onNode ht h₂).symm
  cases hd : p.opCodec.decodeBytes data with
  | error e =>
    have hcall : ∀ n, (p.onNode n).call s caller toAddr value data txHash = (.error e, s) :=
      fun n => by simp only [call, onNode, hd]
    simp [hcall]
  | ok op =>
    rw [@call_eq_iff s caller toAddr value txHash (p.onNode n₁) (p.onNode n₂) data op hd hd]
    by_cases hop : ∃ e, op = .exit e
    · obtain ⟨e, rfl⟩ := hop
      have hget : ∀ a, getValidator p.codec (s.setNonce caller (s.getNonce caller + 1)) a =
          getValidator p.codec s a := fun a => by simp [getValidator]
      refine validatorExit_onNode.trans ?_
      simp only [ExitAgrees, hget, Except.ok.injEq, ValOp.exit.injEq, forall_eq']
    · refine ⟨fun _ e he => absurd ⟨e, Except.ok.inj he⟩ hop, fun _ => ?_⟩
      exact handle_onNode hera fun e he => hop ⟨e, he⟩

/-! ## An exit that two nodes see differently -/

/-- A validator that is activated in era 1. -/
def exitingValidator : Validator :=
  { newValidator 7 9 (some 9) with index := 0, activationEra := 1, version := ver1 }

def exitCall : Bytes := ValOp.data (.exit ⟨7, 9, none⟩)

/-- A chain with two eras. -/
def exitProcessor : Processor :=
  { Processor.devnet with
    blockchain := .empty ⟨0xFFFF, 3200, 100, 0, 0, 0, 32⟩ [⟨0, 0, 99⟩, ⟨1, 100, 199⟩] }

def exitState : StateDB := stateOf exitingValidator

/-- A node in era 0 rejects an exit that a node in era 1 accepts, and two nodes in era 1
    whose clocks show different epochs log different bytes. -/
theorem exit_differs_on_nodes :
    ((exitProcessor.onNode ⟨3199, ⟨0, 0, 99⟩⟩).call exitState 9 0xFFFF 0 exitCall 0xAB).1 =
        .error .notActivatedValidator ∧
      ((exitProcessor.onNode ⟨3200, ⟨1, 100, 199⟩⟩).call exitState 9 0xFFFF 0 exitCall 0xAB).1 =
        .ok (Address.bytes 9) ∧
      ((exitProcessor.onNode ⟨3200, ⟨1, 100, 199⟩⟩).call exitState 9 0xFFFF 0 exitCall 0xAB).2.logs ≠
        ((exitProcessor.onNode ⟨3232, ⟨1, 100, 199⟩⟩).call exitState 9 0xFFFF 0 exitCall 0xAB).2.logs := by
  decide +kernel

theorem exitProcessor_eras : EraTable exitProcessor.blockchain.eras :=
  (EraTable.singleton rfl rfl).snoc rfl rfl rfl rfl (by decide) (by decide)

/-- Two nodes in the same era whose clocks show the same epoch agree. -/
theorem exit_same_on_nodes :
    (exitProcessor.onNode ⟨3200, ⟨1, 100, 199⟩⟩).call exitState 9 0xFFFF 0 exitCall 0xAB =
      (exitProcessor.onNode ⟨3231, ⟨1, 100, 199⟩⟩).call exitState 9 0xFFFF 0 exitCall 0xAB := by
  refine (call_same_on_nodes_iff exitProcessor _ _ exitState 9 0xFFFF 0 exitCall 0xAB exitProcessor_eras
    (by decide) (by decide)).2 fun op hop => ?_
  intro _ v _ _ _
  exact ⟨Iff.rfl, fun _ _ _ => by decide⟩

end Processor

end Gwat
