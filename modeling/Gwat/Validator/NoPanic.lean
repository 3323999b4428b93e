/-
  Which transactions the validator processor answers without a panic.
-/
import Gwat.Validator.OpRoundTrip

namespace Gwat

open GoLib GoLib.Rlp DelegatingStakeRules List StateDB

/-! ## Reading a record -/

theorem avoids_codecError {α : Type} {x : Except ℕ α} :
    Avoids .panic (x.mapError codecError) ↔ Avoids panicCode x := by
  cases x with
  | ok a => simp [Except.mapError]
  | error n =>
    rw [Except.mapError, avoids_error, avoids_error, codecError]
    split_ifs with h <;> simp [h]

@[simp] theorem avoids_takePart {data : Bytes} :
    Avoids panicCode (takePart data) ↔ 4 ≤ data.length := by
  simp [takePart, errBadBinaryData, panicCode]

@[simp] theorem avoids_rlpOk {α : Type} {x : Option α} : Avoids panicCode (rlpOk x) := by
  cases x with
  | none => exact avoids_error.2 (by decide)
  | some a => exact avoids_ok a

@[simp] theorem DelegatingStakeData.avoids_unmarshalBinary {b : Bytes} :
    Avoids panicCode (DelegatingStakeData.unmarshalBinary b) := by
  simp +decide [DelegatingStakeData.unmarshalBinary]

namespace Validator

/-- Code that can be read as a record: it has an address and the length of the base data, and
    what follows the base data is nothing, or the length of the delegating data with its data
    and a version that is not cut in two. -/
def Readable (data : Bytes) : Prop :=
  24 ≤ data.length ∧ ∀ base ext, takePart (data.drop 20) = .ok (base, ext) →
    (∃ b, RlpBaseValidator.decodeBytes base = .ok b) → ext ≠ [] →
      4 ≤ ext.length ∧ ∀ delegate versioned, takePart ext = .ok (delegate, versioned) →
        (∃ d, DelegatingStakeData.unmarshalBinary delegate = .ok d) → versioned.length ≠ 1

@[simp] theorem avoids_readVersioned {v : Validator} {b : Bytes} :
    Avoids panicCode (v.readVersioned b) ↔ b.length ≠ 1 := by
  have hnil : b ≠ [] ↔ 0 < b.length := length_pos_iff.symm
  simp +decide only [readVersioned, avoids_ite, avoids_ok, avoids_error, avoids_bind, avoids_rlpOk]
  simp only [← ne_eq, hnil]
  simp
  omega

theorem avoids_readExtended {v : Validator} {ext : Bytes} :
    Avoids panicCode (v.readExtended ext) ↔ (ext ≠ [] →
      4 ≤ ext.length ∧ ∀ delegate versioned, takePart ext = .ok (delegate, versioned) →
        (∃ d, DelegatingStakeData.unmarshalBinary delegate = .ok d) → versioned.length ≠ 1) := by
  simp [readExtended]

theorem avoids_unmarshalBinary {data : Bytes} :
    Avoids panicCode (unmarshalBinary data) ↔ Readable data := by
  have hbase : ∀ b, Avoids panicCode (RlpBaseValidator.decodeBytes b) := fun b => avoids_rlpOk
  rw [unmarshalBinary, Readable]
  split_ifs with hshort
  · simp only [avoids_error, ne_eq, not_true_eq_false, false_iff, not_and]
    omega
  · have hlen : 4 ≤ data.length - 20 ↔ 24 ≤ data.length := by omega
    simp [avoids_readExtended, hbase, hlen]

end Validator

variable {s : StateDB}

/-- The account has no code, or code that can be read as a record. -/
def RecordSafe (s : StateDB) (a : Address) : Prop :=
  s.getCode a ≠ [] → Validator.Readable (s.getCode a)

@[simp] theorem avoids_getValidator {a : Address} :
    Avoids .panic (getValidator .binary s a) ↔ RecordSafe s a := by
  have hread : Avoids panicCode (RecordCodec.binary.unmarshal (s.getCode a)) ↔ _ :=
    Validator.avoids_unmarshalBinary
  simp [-avoids_mapError, getValidator, RecordSafe, avoids_codecError, hread]

/-- The validators' account has no code, or code with a deposit count. -/
def CountSafe (s : StateDB) (valAddr : Address) : Prop :=
  s.getCode valAddr ≠ [] → 8 ≤ (s.getCode valAddr).length

@[simp] theorem avoids_getDepositCount {valAddr : Address} :
    Avoids .panic (getDepositCount s valAddr) ↔ CountSafe s valAddr := by
  simp [getDepositCount, CountSafe]

@[simp] theorem avoids_setValidator {cd : RecordCodec} {v : Validator} :
    Avoids .panic (setValidator cd s v) := by
  simp [setValidator]

/-! ## Delegating rules -/

theorem foldlM_eq_none {α β : Type} {f : β → α → Option β} {l : List α} {a : α} (ha : a ∈ l)
    (hf : ∀ b, f b a = none) (b : β) : l.foldlM f b = none := by
  induction l generalizing b with
  | nil => cases ha
  | cons x l ih =>
    rcases mem_cons.1 ha with rfl | ha
    · simp [hf]
    · cases hx : f b x <;> simp [hx, ih ha]

theorem isSome_shareMap {addrs : List Address} {shares : List UInt8} :
    (shareMap addrs shares).isSome ↔ addrs.length ≤ shares.length := by
  constructor
  · intro h
    by_contra hlt
    -- the loop reads behind the end of the shares
    have hmem : (addrs[shares.length], shares.length) ∈ addrs.zipIdx := by
      simp [mem_zipIdx_iff_getElem?]
    rw [shareMap, foldlM_eq_none hmem fun m => by simp] at h
    cases h
  · intro h
    rw [shareMap_eq h]
    rfl

theorem isSome_shares {r : DelegatingStakeRules} :
    r.profitShare.isSome ∧ r.stakeShare.isSome ↔ Covered r := by
  rw [profitShare, stakeShare, isSome_shareMap, isSome_shareMap]
  exact ⟨fun h => ⟨h.1, h.2⟩, fun h => ⟨h.profit, h.stake⟩⟩

namespace Processor

variable {p : Processor} {s : StateDB} {caller toAddr : Address} {value : ℤ} {txHash : Hash}
  {v : Validator} {d : DelegatingStakeData}
variable {α : Type} {op : SyncOp} {valAddr : Address}

/-- The eras that decide about the trial period are stored: that of the activation, and after
    the trial that of the exit. -/
def TrialSafe (p : Processor) (v : Validator) (d : DelegatingStakeData) : Prop :=
  v.activationEra ≤ p.ctx.era → ∃ e, readEra p.blockchain.eras v.activationEra = some e ∧
    ∀ slot, p.blockchain.config.slotOfEpochStart e.fromEpoch = .ok slot →
      slot + d.trialPeriod < p.ctx.slot → v.exitEra ≤ p.ctx.era →
        (readEra p.blockchain.eras v.exitEra).isSome

theorem avoids_isValidatorTrialPeriod (hd : v.delegatingStake = some d) :
    Avoids .panic (p.isValidatorTrialPeriod v) ↔ p.TrialSafe v d := by
  have hslots : ∀ epoch, Avoids .panic (p.blockchain.config.slotOfEpochStart epoch) := fun _ =>
    ChainConfig.avoids_slotOfEpochStart (by decide)
  rw [isValidatorTrialPeriod, TrialSafe, hd]
  by_cases hera : p.ctx.era < v.activationEra
  · rw [if_pos hera]
    exact ⟨fun _ hle => absurd hera (UInt64.not_lt.2 hle), fun _ => avoids_ok _⟩
  · have hle := UInt64.not_lt.1 hera
    rw [if_neg hera]
    cases he : readEra p.blockchain.eras v.activationEra with
    | none => simp [hle]
    | some e =>
      rw [orPanic_some, ok_bind, avoids_bind]
      simp only [hslots, true_and, orPanic_some, ok_bind, Option.some.injEq, exists_eq_left', hle,
        true_implies]
      refine forall_congr' fun slot => imp_congr_right fun _ => ?_
      by_cases hslot : p.ctx.slot ≤ slot + d.trialPeriod
      · rw [if_pos hslot]
        exact ⟨fun _ hlt => absurd hslot (UInt64.not_le.2 hlt), fun _ => avoids_ok _⟩
      · have hlt := UInt64.not_le.1 hslot
        by_cases hexit : v.exitEra ≤ p.ctx.era
        · rw [if_neg hslot, if_pos hexit, avoids_bind, avoids_orPanic_iff]
          simp only [hlt, hexit, true_implies]
          exact and_iff_left fun _ _ => .bind (hslots _) fun _ => avoids_ok _
        · simp [hslot, hexit]

/-- Who may exit or withdraw is looked up in the rules in force, or without delegating rules
    compared with the withdrawal address.  Rules are in force unless nobody may withdraw under
    the main rules. -/
def SenderSafe (p : Processor) (role : DelegatingStakeRules → Option (List Address))
    (v : Validator) : Prop :=
  match v.delegatingStake with
  | none => v.withdrawalAddress.isSome
  | some d => d.rules.withdrawal.isSome ∧
      if d.rules.withdrawal = some [] then v.withdrawalAddress.isSome = true
      else p.TrialSafe v d ∧ ∀ isTrial, p.isValidatorTrialPeriod v = .ok isTrial →
        (role (if isTrial then d.trialRules else d.rules)).isSome

theorem avoids_actualRules_bind {f : Bool × DelegatingStakeRules → Except ValError α}
    (hd : v.delegatingStake = some d) : Avoids .panic (p.actualRules v >>= f) ↔
      p.TrialSafe v d ∧ ∀ isTrial, p.isValidatorTrialPeriod v = .ok isTrial →
        Avoids .panic (f (isTrial, if isTrial then d.trialRules else d.rules)) := by
  rw [actualRules, hd, orPanic_some, ok_bind, ← avoids_isValidatorTrialPeriod hd, bind_assoc,
    avoids_bind]
  rfl

theorem avoids_hasDelegatingStake_bind {f : Bool → Except ValError α} :
    Avoids .panic (orPanic v.hasDelegatingStake >>= f) ↔
      match v.delegatingStake with
      | none => Avoids .panic (f false)
      | some d => d.rules.withdrawal.isSome ∧ Avoids .panic (f (d.rules.withdrawal ≠ some [])) := by
  rw [Validator.hasDelegatingStake]
  cases v.delegatingStake with
  | none => rfl
  | some d =>
    simp only [DelegatingStakeData.isEmpty]
    cases d.rules.withdrawal with
    | none => simp
    | some l => cases l <;> simp

theorem avoids_orPanic_failIf {x : Option α} {c : α → Prop} [DecidablePred c] {e : ValError}
    (he : e ≠ .panic) : Avoids .panic (orPanic x >>= fun a => failIf (c a) e) ↔ x.isSome := by
  simp [he]

@[simp] theorem avoids_checkSender {role : DelegatingStakeRules → Option (List Address)} :
    Avoids .panic (p.checkSender role v caller) ↔ p.SenderSafe role v := by
  rw [checkSender, SenderSafe, avoids_hasDelegatingStake_bind]
  cases hd : v.delegatingStake with
  | none => exact avoids_orPanic_failIf (by decide)
  | some d =>
    refine and_congr_right fun _ => ?_
    by_cases hnil : d.rules.withdrawal = some []
    · simp [hnil]
    · rw [if_neg hnil, decide_eq_true hnil, if_pos rfl, avoids_actualRules_bind hd]
      exact and_congr_right fun _ => forall_congr' fun _ => imp_congr_right fun _ =>
        avoids_orPanic_failIf (by decide)

/-! ## Operations of users -/

/-- The codecs are those of the code, and the check of a deposit signature does not panic. -/
structure Coded (p : Processor) : Prop where
  codec : p.codec = .binary
  decodeBytes : p.opCodec.decodeBytes = ValOp.decodeBytes
  verifyDepositSig : ∀ signature pubKey creator withdrawal,
    Avoids .panic (p.opCodec.verifyDepositSig signature pubKey creator withdrawal)

@[simp] theorem avoids_prevOpCheck {tx : Option Hash} : Avoids .panic (p.prevOpCheck tx) := by
  cases tx <;> simp [prevOpCheck]

@[simp] theorem avoids_slotToEpoch {c : ChainConfig} {slot : UInt64} :
    Avoids .panic (c.slotToEpoch slot) ↔ c.slotsPerEpoch ≠ 0 := by
  simp [ChainConfig.slotToEpoch]

/-- An exit of an activated validator that is not out looks up who may exit. -/
def ExitSafe (p : Processor) (s : StateDB) (toAddr : Address) (op : ExitOp) : Prop :=
  p.isValidatorOp toAddr → RecordSafe s op.creatorAddress ∧
    ∀ v, getValidator .binary s op.creatorAddress = .ok v → v.pubKey = op.pubKey →
      (op.exitAfterEpoch = none → p.blockchain.config.slotsPerEpoch ≠ 0) ∧
      (¬ p.node.curEra.number < v.activationEra → v.exitEra = maxUint64 →
        p.SenderSafe DelegatingStakeRules.exit v)

@[simp] theorem avoids_exitAfterEpoch {op : ExitOp} : Avoids .panic (p.exitAfterEpoch op) ↔
    (op.exitAfterEpoch = none → p.blockchain.config.slotsPerEpoch ≠ 0) := by
  unfold exitAfterEpoch
  cases op.exitAfterEpoch <;> simp

@[simp] theorem avoids_exitRequest {op : ExitOp} {exitEpoch : UInt64} :
    Avoids .panic (p.exitRequest s caller toAddr op txHash v exitEpoch) ↔
      (v.exitEra = maxUint64 → p.SenderSafe DelegatingStakeRules.exit v) := by
  simp [exitRequest, exitChecks]

theorem avoids_validatorExit (hp : p.Coded) {op : ExitOp} :
    Avoids .panic (p.validatorExit s caller toAddr op txHash) ↔ p.ExitSafe s toAddr op := by
  rw [validatorExit, ExitSafe, avoids_failIf_bind (by decide), not_not, hp.codec, avoids_bind,
    avoids_getValidator]
  refine imp_congr_right fun _ => and_congr_right fun _ => forall_congr' fun v =>
    imp_congr_right fun _ => ?_
  rw [avoids_failIf_bind (by decide), ne_eq, not_not, avoids_bind, avoids_exitAfterEpoch]
  refine imp_congr_right fun _ => and_congr_right fun hepoch => ?_
  simp only [avoids_failIf_bind, avoids_exitRequest, ne_eq, reduceCtorEq, not_false_eq_true]
  obtain ⟨exitEpoch, hok⟩ : ∃ e, p.exitAfterEpoch op = .ok e := by
    unfold exitAfterEpoch
    cases hop : op.exitAfterEpoch with
    | some epoch => exact ⟨_, rfl⟩
    | none => exact ⟨_, by rw [ChainConfig.slotToEpoch, if_neg (hepoch hop)]; rfl⟩
  exact ⟨fun h => h _ hok, fun h _ _ => h⟩

@[simp] theorem avoids_subtractStake {address : Address} {sum : ℤ} :
    Avoids .panic (v.subtractStake address sum) := by
  refine .bind ?_ fun _ => avoids_ok _
  induction v.stake with
  | nil => simp [Validator.subtractStake.go]
  | cons e stake ih => simp [Validator.subtractStake.go, ih]

/-- A withdrawal that is not that of a small deposit looks up who may withdraw. -/
def WithdrawalSafe (p : Processor) (s : StateDB) (toAddr : Address) (op : WithdrawalOp) : Prop :=
  p.isValidatorOp toAddr → bnCanCastToUint64 (op.amount / bigGwei) →
    RecordSafe s op.creatorAddress ∧
    ∀ v, getValidator .binary s op.creatorAddress = .ok v →
      (ver1 ≤ v.version → p.prevOpCheck v.getWithdrawalTx = .ok ()) →
      ¬ p.isInsufficientDeposit v → p.SenderSafe DelegatingStakeRules.withdrawal v

@[simp] theorem avoids_withdrawalAmount {opAmount : ℤ} :
    Avoids .panic (p.withdrawalAmount v caller opAmount) ↔
      (¬ p.isInsufficientDeposit v → p.SenderSafe DelegatingStakeRules.withdrawal v) := by
  simp [withdrawalAmount, withdrawInsufficientDeposit]

theorem avoids_validatorWithdrawal (hp : p.Coded) {op : WithdrawalOp} :
    Avoids .panic (p.validatorWithdrawal s caller toAddr op txHash) ↔
      p.WithdrawalSafe s toAddr op := by
  have hsmall : ∀ v, p.isInsufficientDeposit ((p.updateValidatorVersionBySlot v).setWithdrawalTx
      (some txHash)) = p.isInsufficientDeposit v := fun _ => rfl
  have hsender : ∀ v, p.SenderSafe DelegatingStakeRules.withdrawal
      ((p.updateValidatorVersionBySlot v).setWithdrawalTx (some txHash)) ↔
        p.SenderSafe DelegatingStakeRules.withdrawal v := fun _ => Iff.rfl
  simp [validatorWithdrawal, WithdrawalSafe, hp.codec, checkIf_eq_ok, hsmall, hsender]

/-- A deposit compares the withdrawal address of the record it meets, and counts the deposits
    when it is accepted. -/
def DepositSafe (p : Processor) (s : StateDB) (caller toAddr : Address) (value : ℤ)
    (op : DepositOp) (txHash : Hash) : Prop :=
  p.isValidatorOp toAddr →
  p.opCodec.verifyDepositSig op.signature op.pubKey op.creatorAddress op.withdrawalAddress =
    .ok () →
  ¬ value < minDepositVal → bnCanCastToUint64 (value / bigGwei) → ¬ s.getBalance caller < value →
  (∀ fresh, p.freshRecord op = .ok fresh → RecordSafe s op.creatorAddress ∧
    ∀ v, getValidator .binary s op.creatorAddress = .ok v → ¬ v.activationEra < maxUint64 →
      v.pubKey = op.pubKey → v.withdrawalAddress.isSome) ∧
  ∀ v, p.depositRecord s op = .ok v →
    (ver1 ≤ v.version → p.prevOpCheck v.getWithdrawalTx = .ok ()) →
    (∃ bin, (p.depositedRecord v caller value txHash).marshalBinary = .ok bin) →
    v.address ≠ p.validatorsStateAddress → CountSafe s p.validatorsStateAddress

theorem avoids_checkTrialShare {trialPeriod : UInt64} {share : Option (GoMap Address UInt8)}
    {validate : Except ValError Unit} (hshare : share.isSome) (hvalidate : Avoids .panic validate) :
    Avoids .panic (checkTrialShare trialPeriod share validate) := by
  simp [checkTrialShare, hshare, hvalidate]

theorem avoids_validate_of_queryable {r : DelegatingStakeRules} (h : r.Queryable) :
    Avoids .panic r.validate :=
  avoids_validate.2 fun _ _ => ⟨isSome_roles.1 h.exit, fun _ => isSome_roles.1 h.withdrawal⟩

theorem avoids_freshRecord {op : DepositOp}
    (hop : ∀ d, op.delegatingStake = some d → d.Queryable) : Avoids .panic (p.freshRecord op) := by
  rw [freshRecord]
  cases hd : op.delegatingStake with
  | none => exact avoids_ok _
  | some d =>
    have hquery := hop d hd
    have hvalid := avoids_validate_of_queryable hquery.rules
    have hshares : ∀ r : DelegatingStakeRules, Avoids .panic r.validateProfitShare ∧
        Avoids .panic r.validateStakeShare := by
      simp [validateProfitShare, validateStakeShare]
    simp [newDelegatingStakeData, hvalid,
      avoids_checkTrialShare hquery.trialRules.profit (hshares _).1,
      avoids_checkTrialShare hquery.trialRules.stake (hshares _).2]

theorem avoids_checkCompliance {op : DepositOp} (hp : p.Coded) :
    Avoids .panic (p.checkCompliance op v) ↔
      (¬ v.activationEra < maxUint64 → v.pubKey = op.pubKey → v.withdrawalAddress.isSome) := by
  simp [checkCompliance, hp.codec]

theorem avoids_depositRecord {op : DepositOp} (hp : p.Coded)
    (hop : ∀ d, op.delegatingStake = some d → d.Queryable) : Avoids .panic (p.depositRecord s op) ↔
      ∀ fresh, p.freshRecord op = .ok fresh → RecordSafe s op.creatorAddress ∧
        ∀ v, getValidator .binary s op.creatorAddress = .ok v → ¬ v.activationEra < maxUint64 →
          v.pubKey = op.pubKey → v.withdrawalAddress.isSome := by
  rw [depositRecord, avoids_bind, and_iff_right (avoids_freshRecord hop)]
  refine forall_congr' fun fresh => imp_congr_right fun _ => ?_
  rw [← avoids_getValidator, hp.codec]
  cases hrec : getValidator .binary s op.creatorAddress with
  | ok curr =>
    simp [avoids_checkCompliance hp]
  | error e =>
    by_cases he : e = .panic
    · subst he
      simp
    · simp only [avoids_error, ne_eq, he, not_false_eq_true, reduceCtorEq, false_implies,
        implies_true, and_true, iff_true]
      exact avoids_ok _

/-- Writing a record leaves the deposit count readable if it was, or if the record is written
    over it. -/
theorem countSafe_setCode {a : Address} {bin : Bytes} (h : v.marshalBinary = .ok bin) :
    CountSafe (s.setCode a bin) valAddr ↔ (a ≠ valAddr → CountSafe s valAddr) := by
  unfold CountSafe
  rw [getCode_setCode]
  have hlen := (Validator.take_of_marshalBinary h).1
  by_cases ha : valAddr = a
  · rw [if_pos ha]
    exact ⟨fun _ hne => absurd ha.symm hne, fun _ _ => by omega⟩
  · simp [if_neg ha, Ne.symm ha]

theorem avoids_setValidator_bind {f : StateDB → Except ValError α}
    (hf : ∀ s', Avoids .panic (f s') ↔ CountSafe s' valAddr) :
    Avoids .panic (setValidator .binary s v >>= f) ↔
      ((∃ bin, v.marshalBinary = .ok bin) → v.address ≠ valAddr → CountSafe s valAddr) := by
  rw [avoids_bind, and_iff_right avoids_setValidator]
  constructor
  · rintro h ⟨bin, hbin⟩
    have hs := (hf _).1 (h _ (setValidator_eq_ok.2 ⟨bin, hbin, rfl⟩))
    exact (countSafe_setCode hbin).1 hs
  · intro h s' hs'
    obtain ⟨bin, hbin, rfl⟩ := setValidator_eq_ok.1 hs'
    exact (hf _).2 ((countSafe_setCode hbin).2 (h ⟨bin, hbin⟩))

theorem avoids_validatorDeposit (hp : p.Coded) {op : DepositOp}
    (hop : ∀ d, op.delegatingStake = some d → d.Queryable) :
    Avoids .panic (p.validatorDeposit s caller toAddr value op txHash) ↔
      p.DepositSafe s caller toAddr value op txHash := by
  rw [validatorDeposit, DepositSafe, avoids_failIf_bind (by decide), not_not, avoids_bind_unit,
    and_iff_right (hp.verifyDepositSig _ _ _ _)]
  refine imp_congr_right fun _ => imp_congr_right fun _ => ?_
  rw [avoids_failIf_bind (by decide), avoids_failIf_bind (by decide), not_not,
    avoids_failIf_bind (by decide), avoids_bind, avoids_depositRecord hp hop]
  refine imp_congr_right fun _ => imp_congr_right fun _ => imp_congr_right fun _ =>
    and_congr_right fun _ => forall_congr' fun v => imp_congr_right fun _ => ?_
  rw [avoids_bind_unit, avoids_checkIf, checkIf_eq_ok, and_iff_right fun _ => avoids_prevOpCheck]
  refine imp_congr_right fun _ => ?_
  have hcount : ∀ s', Avoids .panic (do
      let depositCount ← getDepositCount s' p.validatorsStateAddress
      let s := s'.addLog
        ⟨toAddr, .depositLog, [], .raw (packDepositLogData op value depositCount)⟩
      let s ← incrementDepositCount s p.validatorsStateAddress
      return (bytesBE 32 value.toNat, s.subBalance caller value) :
        Except ValError (Bytes × StateDB)) ↔ CountSafe s' p.validatorsStateAddress := by
    intro s'
    rw [avoids_bind, avoids_getDepositCount]
    refine and_iff_left_of_imp fun hsafe _ _ => ?_
    have hlog : ∀ log, CountSafe (s'.addLog log) p.validatorsStateAddress := fun _ => hsafe
    simp [incrementDepositCount, hlog]
  have haddr : (p.depositedRecord v caller value txHash).address = v.address :=
    address_depositedRecord v
  rw [hp.codec, ← haddr]
  exact avoids_setValidator_bind hcount

/-! ## Sync operations -/

/-- The data can be decoded. -/
def DecodeSafe (data : Bytes) : Prop :=
  ∀ opCode, ValOp.getOpCode data = .ok opCode → ValOp.Readable opCode (data.drop 2)

theorem avoids_decodeBytes {data : Bytes} : Avoids .panic (ValOp.decodeBytes data) ↔
    DecodeSafe data := ValOp.avoids_decodeBytes

/-- The transaction that asked for the operation can be decoded. -/
def InitTxSafe (p : Processor) (op : SyncOp) : Prop :=
  ∀ tx, p.blockchain.getTransaction op.initTxHash = some tx → DecodeSafe tx.data

/-- The checks of a sync operation before its initial transaction is looked at. -/
def ComparesTo (p : Processor) (op : SyncOp) (txHash : Hash) (saved : ValidatorSync) : Prop :=
  let isForkDelegate := p.blockchain.config.isForkSlotDelegate p.ctx.slot
  (¬ isForkDelegate → ¬ op.procEpoch < p.ctx.slot / p.blockchain.config.slotsPerEpoch) ∧
    compareValSync saved op isForkDelegate ∧
    ¬ (∃ t ∈ saved.txHash, t ≠ txHash ∧ (¬ isForkDelegate ∨
      (p.blockchain.getTransactionReceipt t).1 = some .successful))

/-- The initial transaction is decoded unless the operation was started by slashing. -/
def AdmissionSafe (p : Processor) (op : SyncOp) (txHash : Hash) : Prop :=
  ∀ saved, p.blockchain.getValidatorSyncData op.initTxHash = some saved →
    (¬ p.blockchain.config.isForkSlotDelegate p.ctx.slot →
      p.blockchain.config.slotsPerEpoch ≠ 0) ∧
    (p.ComparesTo op txHash saved → op.initTxHash.bytes.take 20 ≠ op.creator.bytes →
      p.InitTxSafe op)

theorem avoids_checkInitTx (hp : p.Coded) :
    Avoids .panic (checkInitTx p.opCodec p.blockchain op) ↔ p.InitTxSafe op := by
  rw [checkInitTx, InitTxSafe, hp.decodeBytes]
  cases p.blockchain.getTransaction op.initTxHash with
  | none => simp
  | some tx =>
    simp only [Option.some.injEq, forall_eq']
    rw [avoids_bind, avoids_decodeBytes]
    refine and_iff_left fun iop _ => ?_
    cases (p.blockchain.getTransactionReceipt op.initTxHash).1 <;> cases iop <;> simp

theorem avoids_validateValidatorSyncOp (hp : p.Coded) :
    Avoids .panic (validateValidatorSyncOp p.opCodec p.blockchain op p.ctx.slot txHash) ↔
      p.AdmissionSafe op txHash := by
  rw [validateValidatorSyncOp, AdmissionSafe]
  cases p.blockchain.getValidatorSyncData op.initTxHash with
  | none => simp
  | some saved =>
    simp only [Option.some.injEq, forall_eq']
    have hepoch : Avoids .panic (do
        let blockEpoch ← p.blockchain.config.slotToEpoch p.ctx.slot
        failIf (op.procEpoch < blockEpoch) .invalidOpEpoch : Except ValError Unit) ↔
        p.blockchain.config.slotsPerEpoch ≠ 0 := by
      simp
    have hepochOk : p.blockchain.config.slotsPerEpoch ≠ 0 → ((do
        let blockEpoch ← p.blockchain.config.slotToEpoch p.ctx.slot
        failIf (op.procEpoch < blockEpoch) .invalidOpEpoch : Except ValError Unit) = .ok () ↔
        ¬ op.procEpoch < p.ctx.slot / p.blockchain.config.slotsPerEpoch) := fun hslots => by
      rw [ChainConfig.slotToEpoch, if_neg hslots, ok_bind, failIf_eq_ok]
    rw [avoids_bind_unit, avoids_checkIf, checkIf_eq_ok, hepoch, avoids_failIf_bind (by decide),
      avoids_failIf_bind (by decide), not_not]
    refine and_congr_right fun hslots => ?_
    have hinit : Avoids .panic (if op.initTxHash.bytes.take 20 = op.creator.bytes then return ()
        else checkInitTx p.opCodec p.blockchain op : Except ValError Unit) ↔
        (op.initTxHash.bytes.take 20 ≠ op.creator.bytes → p.InitTxSafe op) := by
      simp [avoids_checkInitTx hp]
    rw [hinit]
    constructor
    · rintro h ⟨hproc, hcompare, htx⟩
      exact h (fun hfork => (hepochOk (hslots hfork)).2 (hproc hfork)) hcompare htx
    · intro h hproc hcompare htx
      exact h ⟨fun hfork => (hepochOk (hslots hfork)).1 (hproc hfork), hcompare, htx⟩

/-- An activation needs the era of its epoch and writes the validators' list, unless the
    validator is activated already. -/
def ActivateSafe (p : Processor) (s : StateDB) (op : SyncOp) : Prop :=
  RecordSafe s op.creator ∧ ∀ v, getValidator .binary s op.creator = .ok v →
    ¬ (p.blockchain.config.isForkSlotValOpTracking p.ctx.slot ∧ v.activationEra ≠ maxUint64) →
    ∃ era, epochToEra p.blockchain.eras p.node.curEra op.procEpoch = some era ∧
      ((∃ bin, (p.activatedRecord v op era).marshalBinary = .ok bin) →
        v.address ≠ p.validatorsStateAddress → CountSafe s p.validatorsStateAddress)

/-- A listed validator is behind the deposit count, so the list is only written where the
    count has to be readable. -/
theorem avoids_addValidatorToList {validator : Address} {index : UInt64} :
    Avoids .panic (addValidatorToList s valAddr index validator) ↔ CountSafe s valAddr := by
  unfold addValidatorToList
  simp only
  split_ifs with hmem
  · refine iff_of_true (avoids_ok _) fun _ => ?_
    by_contra hshort
    have hnil : (s.getCode valAddr).drop 8 = [] := drop_eq_nil_of_le (by omega)
    rw [getValidatorsList, hnil] at hmem
    cases (mem_filter.1 hmem).1
  · simp [setValidatorsList]

theorem avoids_validatorActivate (hp : p.Coded) :
    Avoids .panic (p.validatorActivate s op) ↔ p.ActivateSafe s op := by
  rw [validatorActivate, ActivateSafe, hp.codec, avoids_bind, avoids_getValidator]
  refine and_congr_right fun _ => forall_congr' fun v => imp_congr_right fun _ => ?_
  rw [avoids_failIf_bind (by decide), opEra]
  refine imp_congr_right fun _ => ?_
  cases epochToEra p.blockchain.eras p.node.curEra op.procEpoch with
  | none => simp
  | some era =>
    simp only [orPanic_some, ok_bind, Option.some.injEq, exists_eq_left']
    refine avoids_setValidator_bind fun s' => ?_
    simp [avoids_addValidatorToList]

/-- A deactivation needs the era of its epoch, unless the validator is out. -/
def DeactivateSafe (p : Processor) (s : StateDB) (op : SyncOp) : Prop :=
  RecordSafe s op.creator ∧ ∀ v, getValidator .binary s op.creator = .ok v →
    v.exitEra = maxUint64 → (epochToEra p.blockchain.eras p.node.curEra op.procEpoch).isSome

theorem avoids_validatorDeactivate (hp : p.Coded) :
    Avoids .panic (p.validatorDeactivate s op) ↔ p.DeactivateSafe s op := by
  simp [validatorDeactivate, DeactivateSafe, hp.codec, opEra]

/-- A balance update without a pending withdrawal looks up the block of its initial
    transaction, unless it is refused before. -/
def HeaderSafe (p : Processor) (v : Validator) (op : SyncOp) : Prop :=
  let expiration := p.blockchain.config.validatorOpExpireSlots
  let checkSlot := if expiration < p.ctx.slot then p.ctx.slot - expiration else 0
  let receipt := p.blockchain.getTransactionReceipt op.initTxHash
  v.getWithdrawalTx = none → ¬ p.blockchain.config.isForkSlotValOpTracking checkSlot →
    receipt.1 = some .successful → (p.blockchain.getHeaderByHash receipt.2).isSome

theorem avoids_updateBalanceCheck :
    Avoids .panic (p.updateBalanceCheck v op) ↔ p.HeaderSafe v op := by
  rw [updateBalanceCheck, HeaderSafe]
  cases v.getWithdrawalTx with
  | some prevOpTx => simp
  | none =>
    simp only [true_implies]
    rw [avoids_failIf_bind (by decide), avoids_failIf_bind (by decide),
      avoids_failIf_bind (by decide), avoids_bind, avoids_orPanic_iff, ne_eq, not_not]
    refine imp_congr_right fun _ => ?_
    constructor
    · intro h hreceipt
      exact (h (by simp [hreceipt]) hreceipt).1
    · intro h _ hreceipt
      exact ⟨h hreceipt, by simp⟩

/-- A refund decodes the initial transaction.  A delegated payout looks up the rules in force,
    and needs the balance that only the new format of the operation has. -/
def PaySafe (p : Processor) (op : SyncOp) (v : Validator) : Prop :=
  if p.isInsufficientDeposit v then p.InitTxSafe op
  else ∀ d, v.delegatingStake = some d → d.rules.withdrawal.isSome ∧
    (d.rules.withdrawal ≠ some [] → p.blockchain.config.isForkSlotDelegate p.ctx.slot →
      p.TrialSafe v d ∧ ∀ isTrial, p.isValidatorTrialPeriod v = .ok isTrial →
        op.balance.isSome ∧ Covered (if isTrial then d.trialRules else d.rules))

section
variable {op : SyncOp} (hamount : op.amount.isSome)
include hamount

theorem avoids_payWithdrawal {withdrawalTo : Address} :
    Avoids .panic (p.payWithdrawal s op v withdrawalTo) := by
  simp [payWithdrawal, hamount]

theorem avoids_refundInsufficientDeposit (hp : p.Coded) :
    Avoids .panic (p.refundInsufficientDeposit v op) ↔ p.InitTxSafe op := by
  rw [refundInsufficientDeposit, InitTxSafe, hp.decodeBytes]
  cases p.blockchain.getTransaction op.initTxHash with
  | none => simp
  | some tx => simp [avoids_decodeBytes, hamount]

theorem avoids_applyDelegatingStakeRules (hd : v.delegatingStake = some d) :
    Avoids .panic (p.applyDelegatingStakeRules s op v) ↔
      (p.blockchain.config.isForkSlotDelegate p.ctx.slot →
        p.TrialSafe v d ∧ ∀ isTrial, p.isValidatorTrialPeriod v = .ok isTrial →
          op.balance.isSome ∧ Covered (if isTrial then d.trialRules else d.rules)) := by
  rw [applyDelegatingStakeRules, avoids_failIf_bind (by decide), not_not,
    avoids_actualRules_bind hd]
  refine imp_congr_right fun _ => and_congr_right fun _ => forall_congr' fun isTrial =>
    imp_congr_right fun _ => ?_
  obtain ⟨amount, hsome⟩ := Option.isSome_iff_exists.1 hamount
  cases hbalance : op.balance with
  | none => simp
  | some balance =>
    rw [← isSome_shares]
    cases hprofit : (if isTrial then d.trialRules else d.rules).profitShare <;>
      simp [hsome, payoutEntries, hprofit]

theorem avoids_payBalance (hp : p.Coded) :
    Avoids .panic (p.payBalance s op v) ↔ p.PaySafe op v := by
  rw [payBalance, PaySafe]
  split_ifs with hsmall
  · simp [avoids_refundInsufficientDeposit hamount hp, avoids_payWithdrawal hamount]
  · rw [avoids_hasDelegatingStake_bind]
    cases hd : v.delegatingStake with
    | none =>
      refine iff_of_true ?_ (by simp)
      cases v.withdrawalAddress <;> simp [avoids_payWithdrawal hamount]
    | some d =>
      simp only [Option.some.injEq, forall_eq']
      refine and_congr_right fun _ => ?_
      by_cases hnil : d.rules.withdrawal = some []
      · rw [hnil]
        refine iff_of_true ?_ fun h => absurd rfl h
        cases v.withdrawalAddress <;> simp [avoids_payWithdrawal hamount]
      · simpa [hnil] using avoids_applyDelegatingStakeRules hamount hd

end

/-- A balance update checks the pending withdrawal and pays. -/
def UpdateSafe (p : Processor) (s : StateDB) (op : SyncOp) : Prop :=
  RecordSafe s op.creator ∧ ∀ v, getValidator .binary s op.creator = .ok v →
    (ver1 ≤ v.version → p.HeaderSafe v op) ∧
    ((ver1 ≤ v.version → p.updateBalanceCheck v op = .ok ()) → p.PaySafe op v)

theorem avoids_validatorUpdateBalance (hp : p.Coded) {op : SyncOp} (hamount : op.amount.isSome) :
    Avoids .panic (p.validatorUpdateBalance s op) ↔ p.UpdateSafe s op := by
  have hpay : ∀ v, p.PaySafe op ((p.updateValidatorVersionBySlot v).setWithdrawalTx none) ↔
      p.PaySafe op v := fun _ => Iff.rfl
  simp [validatorUpdateBalance, UpdateSafe, hp.codec, checkIf_eq_ok, avoids_updateBalanceCheck,
    avoids_payBalance hamount hp, hpay]

/-- A sync operation is admitted and carried out. -/
def SyncSafe (p : Processor) (s : StateDB) (op : SyncOp) (txHash : Hash) : Prop :=
  p.AdmissionSafe op txHash ∧
    (validateValidatorSyncOp p.opCodec p.blockchain op p.ctx.slot txHash = .ok () →
      match op.opType with
      | .activate => p.ActivateSafe s op
      | .deactivate => p.DeactivateSafe s op
      | .updateBalance => p.UpdateSafe s op
      | .other _ => True)

theorem avoids_syncOpProcessing (hp : p.Coded) {op : SyncOp} (hop : op.Complete) :
    Avoids .panic (p.syncOpProcessing s op txHash) ↔ p.SyncSafe s op txHash := by
  rw [syncOpProcessing, SyncSafe, avoids_bind_unit, avoids_validateValidatorSyncOp hp]
  refine and_congr_right fun _ => imp_congr_right fun _ => ?_
  cases htype : op.opType with
  | activate => exact avoids_validatorActivate hp
  | deactivate => exact avoids_validatorDeactivate hp
  | updateBalance =>
    obtain ⟨⟨n, hn⟩, -, -⟩ := hop.update htype
    refine avoids_validatorUpdateBalance hp ?_
    rw [SyncOp.amount_of_update htype, hn]
    rfl
  | other code => exact iff_of_true (avoids_ok _) trivial

/-! ## The entry point -/

/-- The handler of the operation finds all it reads. -/
def HandlerSafe (p : Processor) (s : StateDB) (caller toAddr : Address) (value : ℤ)
    (txHash : Hash) : ValOp → Prop
  | .deposit op => p.DepositSafe s caller toAddr value op txHash
  | .sync op => p.SyncSafe s op txHash
  | .exit op => p.ExitSafe s toAddr op
  | .withdrawal op => p.WithdrawalSafe s toAddr op

theorem avoids_handle (hp : p.Coded) {data : Bytes} {op : ValOp}
    (hop : ValOp.decodeBytes data = .ok op) :
    Avoids .panic (p.handle s caller toAddr value txHash op) ↔
      p.HandlerSafe s caller toAddr value txHash op := by
  have hquery := ValOp.queryable_of_decodeBytes hop
  cases op with
  | deposit op => exact avoids_validatorDeposit hp hquery
  | exit op => exact avoids_validatorExit hp
  | withdrawal op => exact avoids_validatorWithdrawal hp
  | sync op => exact avoids_syncOpProcessing hp (ValOp.complete_of_decodeBytes hop)

theorem handlerSafe_setNonce {a : Address} {n : UInt64} {op : ValOp} :
    p.HandlerSafe (s.setNonce a n) caller toAddr value txHash op ↔
      p.HandlerSafe s caller toAddr value txHash op := by
  have hcode : ∀ b, (s.setNonce a n).getCode b = s.getCode b := fun b => getCode_setNonce n
  have hrecord : ∀ b, getValidator .binary (s.setNonce a n) b = getValidator .binary s b :=
    fun b => getValidator_congr (hcode b)
  cases op with
  | deposit op =>
    have hdeposit : p.depositRecord (s.setNonce a n) op = p.depositRecord s op := by
      rw [depositRecord, depositRecord, getValidator_congr (hcode _)]
    simp only [HandlerSafe, DepositSafe, RecordSafe, CountSafe, hcode, hrecord, hdeposit,
      getBalance_setNonce]
  | exit op => simp [HandlerSafe, ExitSafe, RecordSafe, hrecord]
  | withdrawal op => simp [HandlerSafe, WithdrawalSafe, RecordSafe, hrecord]
  | sync op =>
    simp [HandlerSafe, SyncSafe, ActivateSafe, DeactivateSafe, UpdateSafe, RecordSafe, CountSafe,
      hrecord]

/-- The processor with the codecs of the code.  The check of a deposit signature returns an
    error of the BLS library or none. -/
def binary (verifyDepositSig : BlsSignature → BlsPubKey → Address → Address → Except ℕ Unit)
    (blockchain : Blockchain) (node : NodeLocal) (ctx : BlockContext) (order : PayoutOrder) :
    Processor where
  codec := .binary
  opCodec := ⟨ValOp.decodeBytes, fun signature pubKey creator withdrawal =>
    (verifyDepositSig signature pubKey creator withdrawal).mapError .depositSignature⟩
  blockchain := blockchain
  node := node
  ctx := ctx
  order := order

theorem coded_binary {verify : BlsSignature → BlsPubKey → Address → Address → Except ℕ Unit}
    {blockchain : Blockchain} {node : NodeLocal} {ctx : BlockContext} {order : PayoutOrder} :
    (binary verify blockchain node ctx order).Coded :=
  ⟨rfl, rfl, fun _ _ _ _ => by simp [binary]⟩

/-- `Call` returns a result or an error exactly if the data of the transaction can be decoded
    and the handler of the operation finds all it reads. -/
theorem call_safe_iff (verify : BlsSignature → BlsPubKey → Address → Address → Except ℕ Unit)
    (blockchain : Blockchain) (node : NodeLocal) (ctx : BlockContext) (order : PayoutOrder)
    (s : StateDB) (caller toAddr : Address) (value : ℤ) (data : Bytes) (txHash : Hash) :
    ((binary verify blockchain node ctx order).call s caller toAddr value data txHash).1 ≠
        .error .panic ↔
      DecodeSafe data ∧ ∀ op, ValOp.decodeBytes data = .ok op →
        (binary verify blockchain node ctx order).HandlerSafe s caller toAddr value txHash op := by
  have hp := @coded_binary verify blockchain node ctx order
  generalize binary verify blockchain node ctx order = p at hp
  rw [call, hp.decodeBytes, ← avoids_decodeBytes]
  cases hdecode : ValOp.decodeBytes data with
  | error e => simp
  | ok op =>
    simp only [avoids_ok, true_and, Except.ok.injEq, forall_eq']
    rw [← @handlerSafe_setNonce p s caller toAddr value txHash caller (s.getNonce caller + 1) op,
      ← avoids_handle hp hdecode]
    cases p.handle (s.setNonce caller (s.getNonce caller + 1)) caller toAddr value txHash op with
    | error e => simp
    | ok r => simp

/-- The data of an exit for the account 12. -/
def exitData : Bytes := opPrefix :: exitCode :: ExitOp.marshalBinary ⟨7, 12, none⟩

/-- The data of a balance update in the old format, for the account 12. -/
def legacyUpdate : Bytes :=
  opPrefix :: updateBalanceCode :: SyncOp.marshalBinaryLegacy
    ⟨noVer, .updateBalance, slashingHash, 3, 1, 12, some 5, some 9, none⟩

/-- A processor on a chain where the coordinator saved this update. -/
def updateProcessor : Processor :=
  let p := devnet
  let saved : ValidatorSync :=
    ⟨slashingHash, .updateBalance, 3, 1, 12, some 5, none, none⟩
  binary (fun _ _ _ _ => .ok ()) { p.blockchain with getValidatorSyncData := fun _ => some saved }
    p.node p.ctx p.order

/-- The record of an activated validator with delegating rules. -/
def delegatedRecord : Validator :=
  { newValidator 7 12 (some 9) with
    activationEra := 0
    delegatingStake := some ⟨twoShares 1 2, 0, {}⟩ }

/-- Transactions that panic: a withdrawal without an address, an exit for an account with one
    byte of contract code, and a balance update in the old format for a delegating validator,
    whose balance is `nil`. -/
theorem call_panics :
    (updateProcessor.call .empty 1 0xFFFF 0 [opPrefix, withdrawalCode] 5).1 = .error .panic ∧
    (updateProcessor.call (setCode .empty 12 [0]) 1 0xFFFF 0 exitData 5).1 = .error .panic ∧
    ∃ bin, delegatedRecord.marshalBinary = .ok bin ∧
      (updateProcessor.call (setCode .empty 12 bin) 1 0xFFFF 0 legacyUpdate 5).1 =
        .error .panic := by
  decide +kernel

end Processor

end Gwat
