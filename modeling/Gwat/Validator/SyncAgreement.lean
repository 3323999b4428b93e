/-
  What a sync operation has to do with the transaction that asked for it, with the code byte it
  is sent under and with the coordinator's record it is built from.
-/
import Gwat.Validator.Effect
import Gwat.Validator.OpRoundTrip
import Gwat.Validator.SyncCreate

namespace Gwat

open GoLib GoLib.Rlp DelegatingStakeRules SyncOp

/-! ## The initiating transaction -/

namespace ValOp

/-- The sync operation that an operation of a validator asks the coordinator for. -/
def asksFor : ValOp → Option SyncOpType
  | .deposit _ => some .activate
  | .exit _ => some .deactivate
  | .withdrawal _ => some .updateBalance
  | .sync _ => none

/-- The validator that an operation names. -/
def validator : ValOp → Address
  | .deposit op => op.creatorAddress
  | .exit op => op.creatorAddress
  | .withdrawal op => op.creatorAddress
  | .sync op => op.creator

end ValOp

/-- The operation of an initiating transaction. -/
def initOp (oc : OpCodec) (bc : Blockchain) (initTxHash : Hash) : Option ValOp :=
  (bc.getTransaction initTxHash).bind fun initTx => (oc.decodeBytes initTx.data).toOption

/-- The initiating transaction asked for an operation of this type for this validator, and was
    executed successfully. -/
def AsAsked (oc : OpCodec) (bc : Blockchain) (op : SyncOp) : Prop :=
  (∃ iop, initOp oc bc op.initTxHash = some iop ∧ iop.asksFor = some op.opType ∧
    iop.validator = op.creator) ∧
  (bc.getTransactionReceipt op.initTxHash).1 = some .successful

section

variable {oc : OpCodec} {bc : Blockchain} {op : SyncOp}

theorem successful_of_check {receipt : Option ReceiptStatus}
    (h : (match receipt with
      | none => throw .receiptNotFound
      | some status => failIf (status ≠ .successful) .invalidReceiptStatus :
      Except ValError Unit) = .ok ()) : receipt = some .successful := by
  cases receipt with
  | none => cases h
  | some status => rw [not_not.1 (failIf_eq_ok.1 h)]

theorem checkInitTx_eq_ok (h : checkInitTx oc bc op = .ok ()) :
    ∃ iop, initOp oc bc op.initTxHash = some iop ∧ iop.validator = op.creator ∧
      (bc.getTransactionReceipt op.initTxHash).1 = some .successful := by
  unfold checkInitTx at h
  split at h
  · cases h
  next initTx hinit =>
  obtain ⟨iop, hdecode, h⟩ := bind_eq_ok.1 h
  have hiop : initOp oc bc op.initTxHash = some iop := by
    rw [initOp, hinit, Option.bind_some, hdecode]
    rfl
  -- the comparison of the codes, which never fails, comes first in every case
  cases iop with
  | deposit iop =>
    simp only [bind_eq_ok, failIf_eq_ok, not_not] at h
    obtain ⟨-, -, -, hcreator, h⟩ := h
    exact ⟨_, hiop, hcreator, successful_of_check h⟩
  | exit iop | withdrawal iop =>
    simp only [bind_eq_ok, failIf_eq_ok, not_not] at h
    obtain ⟨-, -, -, hcreator, -, -, h⟩ := h
    exact ⟨_, hiop, hcreator, successful_of_check h⟩
  | sync iop => cases h

theorem checkInitTx_of_validate {slot : UInt64} {tx : Hash}
    (h : validateValidatorSyncOp oc bc op slot tx = .ok ())
    (hinit : op.initTxHash.bytes.take 20 ≠ op.creator.bytes) : checkInitTx oc bc op = .ok () := by
  unfold validateValidatorSyncOp at h
  split at h
  · cases h
  · simp only [bind_eq_ok, if_neg hinit] at h
    obtain ⟨-, -, -, -, -, -, h⟩ := h
    exact h

end

/-- An accepted operation that was not started by slashing is what its initiating transaction
    asked for exactly if the coordinator's record has the type that the transaction asks for.
    The validator and the receipt are checked in any case. -/
theorem accepted_as_asked_iff (oc : OpCodec) (bc : Blockchain) (op : SyncOp) (slot : UInt64)
    (tx : Hash) (h : validateValidatorSyncOp oc bc op slot tx = .ok ())
    (hinit : op.initTxHash.bytes.take 20 ≠ op.creator.bytes) :
    AsAsked oc bc op ↔ ∃ saved iop, bc.getValidatorSyncData op.initTxHash = some saved ∧
      initOp oc bc op.initTxHash = some iop ∧ iop.asksFor = some saved.opType := by
  obtain ⟨saved, hsaved, htype, -⟩ := accepted_agrees h
  obtain ⟨iop, hiop, hcreator, hreceipt⟩ := checkInitTx_eq_ok (checkInitTx_of_validate h hinit)
  constructor
  · rintro ⟨⟨iop', hiop', hasks, -⟩, -⟩
    exact ⟨saved, iop', hsaved, hiop', by rw [hasks, htype]⟩
  · rintro ⟨saved', iop', hsaved', hiop', hasks⟩
    cases hsaved'.symm.trans hsaved
    cases hiop'.symm.trans hiop
    exact ⟨⟨_, hiop, by rw [hasks, htype], hcreator⟩, hreceipt⟩

/-- A chain with a deposit of validator 12 as transaction 7, for which the coordinator saved an
    operation of the given type. -/
def depositChain (opType : SyncOpType) : Blockchain :=
  { Blockchain.empty Processor.devnet.blockchain.config [] with
    getValidatorSyncData := fun _ => some ⟨7, opType, 3, 1, 12, none, none, none⟩
    getTransaction := fun _ => some ⟨ValOp.data (.deposit validOp), 1⟩
    getTransactionReceipt := fun _ => (some .successful, 1) }

def askedOp (opType : SyncOpType) : SyncOp := ⟨0, opType, 7, 3, 1, 12, none, none, none⟩

theorem unmarshalBinary_validOp : DepositOp.unmarshalBinary validOp.marshalBinary = .ok validOp := by
  decide +kernel

theorem decodeBytes_validOp :
    OpCodec.binary.decodeBytes (ValOp.data (.deposit validOp)) = .ok (.deposit validOp) := by
  have hdata (op : DepositOp) : OpCodec.binary.decodeBytes (ValOp.data (.deposit op)) =
      ValOp.deposit <$> DepositOp.unmarshalBinary op.marshalBinary := rfl
  rw [hdata, unmarshalBinary_validOp]
  rfl

theorem initOp_depositChain (opType : SyncOpType) :
    initOp .binary (depositChain opType) 7 = some (.deposit validOp) := by
  have htx : (depositChain opType).getTransaction 7 = some ⟨ValOp.data (.deposit validOp), 1⟩ := rfl
  rw [initOp, htx, Option.bind_some, decodeBytes_validOp]
  rfl

theorem validate_depositChain (opType : SyncOpType) (h : opType.Known) :
    validateValidatorSyncOp .binary (depositChain opType) (askedOp opType) 0 5 = .ok () := by
  have hcheck : checkInitTx .binary (depositChain opType) (askedOp opType) = .ok () := by
    change (OpCodec.binary.decodeBytes (ValOp.data (.deposit validOp)) >>= _) = _
    rw [decodeBytes_validOp]
    cases opType <;> rfl
  unfold validateValidatorSyncOp
  rw [hcheck]
  cases opType <;> first | rfl | exact h.elim

theorem accepted_as_asked_deposit :
    validateValidatorSyncOp .binary (depositChain .activate) (askedOp .activate) 0 5 = .ok () ∧
      AsAsked .binary (depositChain .activate) (askedOp .activate) := by
  have h := validate_depositChain .activate trivial
  exact ⟨h, (accepted_as_asked_iff _ _ _ 0 5 h (by decide)).2
    ⟨_, _, rfl, initOp_depositChain _, rfl⟩⟩

/-- A deposit leads to the deactivation of the validator. -/
theorem deposit_deactivates :
    validateValidatorSyncOp .binary (depositChain .deactivate) (askedOp .deactivate) 0 5 =
      .ok () ∧ ¬ AsAsked .binary (depositChain .deactivate) (askedOp .deactivate) := by
  refine ⟨validate_depositChain _ trivial, ?_⟩
  rintro ⟨⟨iop, hiop, hasks, -⟩, -⟩
  cases (initOp_depositChain _).symm.trans hiop
  cases hasks

/-! ## The code byte -/

/-- The type of the sync operations that are sent under a code. -/
def SyncOpType.ofCode? (opCode : UInt8) : Option SyncOpType :=
  if opCode = activateCode then some .activate
  else if opCode = deactivateCode then some .deactivate
  else if opCode = updateBalanceCode then some .updateBalance
  else none

theorem SyncOpType.ofCode?_eq_some {opCode : UInt8} (h : IsSyncCode opCode) {op : SyncOp} :
    ofCode? opCode = some op.opType ↔ op.opCode = opCode := by
  unfold SyncOp.opCode
  rcases h with rfl | rfl | rfl <;> cases op.opType <;>
    simp [ofCode?, activateCode, deactivateCode, updateBalanceCode]

namespace ValOp

theorem known_of_isSyncCode {op : SyncOp} (h : IsSyncCode op.opCode) : op.opType.Known := by
  unfold SyncOp.opCode at h
  cases htype : op.opType with
  | other code =>
    rw [htype] at h
    exact absurd h (show ¬ IsSyncCode 0 by decide)
  | activate | deactivate | updateBalance => trivial

/-- The code of every other operation is the one it was read under. -/
theorem opCode_of_not_sync {b : Bytes} {op : ValOp} {opCode : UInt8}
    (h : unmarshalBinary opCode b = .ok op) (hsync : ¬ IsSyncCode opCode) :
    op.opCode = opCode ∧ ∃ b', encodeToBytes op = .ok (opPrefix :: opCode :: b') := by
  rw [unmarshalBinary] at h
  split_ifs at h with hdeposit hexit hwithdrawal
  all_goals obtain ⟨op', -, rfl⟩ := map_eq_ok.1 h
  all_goals subst opCode
  all_goals exact ⟨rfl, _, rfl⟩

/-- The code byte of an operation that is read is the code of the operation, and it is sent again
    under the same code, exactly if the payload of a sync operation has the type that the code
    stands for. -/
theorem opCode_agrees_iff (b : Bytes) (op : ValOp) (h : decodeBytes b = .ok op)
    (hlen : ∀ vs b', op = .sync vs → vs.marshalBinary = .ok b' → b'.length < 2 ^ 64) :
    (getOpCode b = .ok op.opCode ∧
      ∃ b', encodeToBytes op = .ok b' ∧ getOpCode b' = getOpCode b) ↔
    ∀ opCode, getOpCode b = .ok opCode → IsSyncCode opCode →
      payloadType (b.drop 2) = SyncOpType.ofCode? opCode := by
  obtain ⟨opCode, hcode, hread⟩ := bind_eq_ok.1 h
  simp only [hcode, Except.ok.injEq, forall_eq']
  by_cases hsync : IsSyncCode opCode
  · rw [unmarshalBinary, if_neg (ne_depositCode hsync), if_pos hsync] at hread
    obtain ⟨vs, hvs, rfl⟩ := map_eq_ok.1 hread
    obtain ⟨_, _, _, _, _, _, _, _, _, hnew, htype, hversion, hamount, hbalance⟩ :=
      SyncOp.unmarshalBinary_eq_ok hvs
    obtain ⟨hamount, hbalance⟩ := nonneg_of_new hnew hamount hbalance
    obtain ⟨-, -, -, hfields⟩ := newValidatorSyncOperation_eq_ok.1 hnew
    have hsame : payloadType (b.drop 2) = some vs.opType := by rw [htype, hfields]
    rw [hsame, eq_comm (a := some vs.opType), SyncOpType.ofCode?_eq_some hsync]
    refine ⟨fun hagree _ => hagree.1.symm, fun hagree => ?_⟩
    have hvscode : vs.opCode = opCode := hagree hsync
    obtain ⟨b', _, hencode, -⟩ := sync_read_back (complete_of_new hnew)
      (known_of_isSyncCode (hvscode ▸ hsync)) hamount
      (by rw [hfields]; exact hversion.imp_left And.left)
      (by
        rw [hfields]
        rintro rfl
        rcases hversion with ⟨-, rfl⟩ | hversion
        · exact ite_self _
        · exact absurd hversion (by decide))
      hbalance (fun b' => hlen vs b' rfl)
    exact ⟨hvscode.symm, _, hencode, congrArg Except.ok hvscode⟩
  · obtain ⟨hself, b', hencode⟩ := opCode_of_not_sync hread hsync
    exact iff_of_true ⟨hself.symm, _, hencode, rfl⟩ fun h => absurd h hsync

/-- A deactivation in the old format. -/
def deactivation : SyncOp := ⟨noVer, .deactivate, 7, 3, 1, 9, none, none, none⟩

theorem decodeBytes_deactivation {opCode : UInt8} (h : IsSyncCode opCode) :
    decodeBytes (opPrefix :: opCode :: deactivation.marshalBinaryLegacy) =
      .ok (.sync deactivation) := by
  have hread : SyncOp.unmarshalBinary deactivation.marshalBinaryLegacy = .ok deactivation := by
    decide +kernel
  rw [decodeBytes_cons, unmarshalBinary, if_neg (ne_depositCode h), if_pos h, hread]
  rfl

theorem opCode_agrees_deactivation :
    ∃ op, decodeBytes (opPrefix :: deactivateCode :: deactivation.marshalBinaryLegacy) = .ok op ∧
      getOpCode (opPrefix :: deactivateCode :: deactivation.marshalBinaryLegacy) =
        .ok op.opCode := by
  have hread := decodeBytes_deactivation (show IsSyncCode deactivateCode by decide)
  refine ⟨_, hread, ((opCode_agrees_iff _ _ hread ?_).2 ?_).1⟩
  · rintro vs b' heq hb'
    cases heq
    cases hb'
    decide
  · rintro _ hcode -
    cases hcode
    decide +kernel

/-- Sent under the code of an activation, the deactivation is read as a deactivation. -/
theorem activation_deactivates :
    decodeBytes (opPrefix :: activateCode :: deactivation.marshalBinaryLegacy) =
      .ok (.sync deactivation) ∧
    getOpCode (opPrefix :: activateCode :: deactivation.marshalBinaryLegacy) = .ok activateCode ∧
    deactivation.opCode = deactivateCode :=
  ⟨decodeBytes_deactivation (by decide), rfl, rfl⟩

end ValOp

/-! ## Building the transaction of a coordinator operation -/

def getValSyncVersionBySlot (config : ChainConfig) (slot : UInt64) : UInt16 :=
  if config.isForkSlotDelegate slot then ver1 else noVer

def getValSyncTxData (valSyncOp : ValidatorSync) (withdrawal : Option Address) (version : UInt16) :
    Except ValError Bytes := do
  let op ← valSyncOp.toSyncOp version withdrawal
  ValOp.encodeToBytes (.sync op)

/-- The data of the transaction that `CreateValidatorSyncTx` makes from the record of the
    validator. -/
def createValidatorSyncTxData (config : ChainConfig) (slot : UInt64) (v : Validator)
    (valSyncOp : ValidatorSync) : Except ValError Bytes :=
  getValSyncTxData valSyncOp
    (if valSyncOp.opType = .updateBalance then v.withdrawalAddress else none)
    (getValSyncVersionBySlot config slot)

theorem compareValSync_accessors (vs : ValidatorSync) (op : SyncOp) (fork : Bool) :
    compareValSync vs op.accessors fork = compareValSync vs op fork := by
  have hamount : op.accessors.amount = op.amount :=
    congrArg amountField op.accessors_accessors
  unfold compareValSync
  rw [hamount]
  rfl

section

variable {vs : ValidatorSync} {version : UInt16} {w : Address} {op : SyncOp}
  (hop : vs.toSyncOp version (some w) = .ok op) (htype : vs.opType = .updateBalance)
include hop htype

theorem compareValSync_toSyncOp (fork : Bool) : compareValSync vs op fork = true := by
  obtain ⟨-, -, -, hfields⟩ := newValidatorSyncOperation_eq_ok.1 hop
  have hup : op.opType = .updateBalance := by rw [hfields]; exact htype
  have hamount : vs.amount = op.amount := by rw [amount_of_update hup, hfields]
  have hepoch : vs.procEpoch ≤ op.procEpoch := by rw [hfields]; exact UInt64.le_refl _
  refine compareValSync_iff.2 ⟨?_, ?_, ?_, ?_, fun _ => hepoch, hamount⟩ <;> rw [hfields]

/-- A balance update that was built is sent, and is read as an operation that the comparison with
    the coordinator's record accepts. -/
theorem update_read_back (hversion : version = noVer ∨ version = ver1)
    (hamount : ∀ n ∈ vs.amount, 0 ≤ n) (hbalance : version = ver1 → ∀ n ∈ vs.balance, 0 ≤ n)
    (hlen : ∀ b, op.marshalBinary = .ok b → b.length < 2 ^ 64) :
    ∃ b op', ValOp.encodeToBytes (.sync op) = .ok b ∧ ValOp.decodeBytes b = .ok (.sync op') ∧
      ∀ fork, compareValSync vs op' fork = true := by
  obtain ⟨hhash, hcreator, hupdate, hfields⟩ := newValidatorSyncOperation_eq_ok.1 hop
  have hup : op.opType = .updateBalance := by rw [hfields]; exact htype
  have hv : op.version = version := by rw [hfields]
  -- the old format is that of the operation without its balance
  obtain ⟨op₀, balance, hnew, hb, hlegacy, hmarshal, hsame⟩ : ∃ op₀ balance,
      newValidatorSyncOperation version vs.opType vs.initTxHash vs.procEpoch vs.index vs.creator
        vs.amount (some w) balance = .ok op₀ ∧ (∀ n ∈ balance, 0 ≤ n) ∧
      (version = noVer → op₀.balance = none) ∧ op₀.marshalBinary = op.marshalBinary ∧
      ∀ fork, compareValSync vs op₀ fork = compareValSync vs op fork := by
    rcases hversion with rfl | rfl
    · refine ⟨{ op with balance := none }, none, ?_, by simp, fun _ => rfl, ?_, fun fork => rfl⟩
      · refine newValidatorSyncOperation_eq_ok.2 ⟨hhash, hcreator, fun h => ?_, ?_⟩
        · exact ⟨(hupdate h).1, (hupdate h).2.1, fun h => absurd h.1 (by decide)⟩
        · rw [hfields]
          simp
      · rw [SyncOp.marshalBinary, SyncOp.marshalBinary, if_pos hv, if_pos hv]
        rfl
    · exact ⟨op, vs.balance, hop, hbalance rfl, fun h => absurd h (by decide), rfl, fun fork => rfl⟩
  obtain ⟨-, -, -, hfields₀⟩ := newValidatorSyncOperation_eq_ok.1 hnew
  obtain ⟨ha₀, hb₀⟩ := nonneg_of_new hnew hamount hb
  have hknown : op₀.opType.Known := by rw [hfields₀, htype]; trivial
  have hv₀ : op₀.version = version := by rw [hfields₀]
  obtain ⟨b, op', hencode, -, hread, hacc, -⟩ := ValOp.sync_read_back (complete_of_new hnew)
    hknown ha₀ (hv₀ ▸ hversion) (hv₀ ▸ hlegacy) hb₀ (hmarshal ▸ hlen)
  refine ⟨_, op', ?_, hread, fun fork => ?_⟩
  · rw [ValOp.encodeToBytes, ValOp.marshalBinary, ← hmarshal]
    exact hencode
  · rw [← compareValSync_accessors, hacc, compareValSync_accessors, hsame,
      compareValSync_toSyncOp hop htype]

/-- RLP has no negative balances. -/
theorem balance_nonneg (hversion : version = ver1) {b : Bytes} (hb : op.marshalBinary = .ok b)
    {balance : ℤ} (hbalance : vs.balance = some balance) : 0 ≤ balance := by
  obtain ⟨-, -, hupdate, hfields⟩ := newValidatorSyncOperation_eq_ok.1 hop
  have hup : op.opType = .updateBalance := by rw [hfields]; exact htype
  have hv : op.version = ver1 := by rw [hfields]; exact hversion
  have hbal : op.balance = some balance := by rw [hfields]; exact (if_pos htype).trans hbalance
  rw [SyncOp.marshalBinary, if_neg (by rw [hv]; decide), if_pos hv] at hb
  obtain ⟨d, hd, hb⟩ := bind_eq_ok.1 hb
  obtain ⟨_, henc, -⟩ := bind_eq_ok.1 hb
  obtain ⟨_, hneg, -⟩ := bind_eq_ok.1 henc
  simp only [dataVer1, if_pos hup, hbal, bind_eq_ok, orPanic_eq_ok, Option.some.injEq] at hd
  obtain ⟨_, -, _, -, _, rfl, hd⟩ := hd
  cases hd
  exact (by simpa using hneg : _ ∧ 0 ≤ balance).2

end

/-- For a validator that made a deposit, the transaction of a balance update is built, and read as
    an operation that the comparison with the coordinator's record accepts, exactly if the record
    names its initiating transaction, the validator has a withdrawal address and, after the fork,
    the balance is not negative. -/
theorem createValidatorSyncTxData_iff (config : ChainConfig) (slot : UInt64) (data : Bytes)
    (deposit : DepositOp) (hdeposit : DepositOp.unmarshalBinary data = .ok deposit) (v : Validator)
    (vs : ValidatorSync) (hcreator : vs.creator = deposit.creatorAddress)
    (htype : vs.opType = .updateBalance) (amount balance : ℤ) (hamount : vs.amount = some amount)
    (hpos : 0 < amount) (hbalance : vs.balance = some balance)
    (hlen : ∀ op b, vs.toSyncOp (getValSyncVersionBySlot config slot) v.withdrawalAddress = .ok op →
      op.marshalBinary = .ok b → b.length < 2 ^ 64) :
    (∃ b op, createValidatorSyncTxData config slot v vs = .ok b ∧
      ValOp.decodeBytes b = .ok (.sync op) ∧ ∀ fork, compareValSync vs op fork = true) ↔
    vs.initTxHash ≠ 0 ∧ v.withdrawalAddress ≠ none ∧
      (config.isForkSlotDelegate slot = true → 0 ≤ balance) := by
  have hver : getValSyncVersionBySlot config slot = noVer ∨
      getValSyncVersionBySlot config slot = ver1 := by
    unfold getValSyncVersionBySlot
    split_ifs <;> simp
  rw [createValidatorSyncTxData, if_pos htype, getValSyncTxData]
  constructor
  · rintro ⟨b, -, hb, -⟩
    obtain ⟨op, hop, hencode⟩ := bind_eq_ok.1 hb
    obtain ⟨hhash, -, hupdate, -⟩ := newValidatorSyncOperation_eq_ok.1 hop
    obtain ⟨w, hw⟩ := Option.ne_none_iff_exists'.1 (hupdate htype).2.1
    rw [hw] at hop
    refine ⟨hhash, by rw [hw]; simp, fun hfork => ?_⟩
    obtain ⟨_, hmarshal, -⟩ := bind_eq_ok.1 hencode
    obtain ⟨b', hb', -⟩ := bind_eq_ok.1 hmarshal
    exact balance_nonneg hop htype (if_pos hfork) hb' hbalance
  · rintro ⟨hhash, hw, hnonneg⟩
    obtain ⟨w, hw⟩ := Option.ne_none_iff_exists'.1 hw
    have hne : vs.creator ≠ 0 := hcreator ▸ (DepositOp.unmarshalBinary_eq_ok hdeposit).1
    obtain ⟨op, hop⟩ : ∃ op, vs.toSyncOp (getValSyncVersionBySlot config slot)
        v.withdrawalAddress = .ok op := by
      refine ⟨_, newValidatorSyncOperation_eq_ok.2 ⟨hhash, hne, fun _ => ?_, rfl⟩⟩
      rw [hamount, hbalance, hw]
      simp
    obtain ⟨b, op', hencode, hread, hcmp⟩ := update_read_back (hw ▸ hop) htype hver
      (by rw [hamount]; simpa using hpos.le)
      (fun hv => by
        rw [hbalance]
        simpa using hnonneg (by
          by_contra hfork
          rw [getValSyncVersionBySlot, if_neg hfork] at hv
          exact absurd hv (by decide)))
      (hlen op · hop)
    exact ⟨b, op', by rw [hop, ok_bind, hencode], hread, hcmp⟩

/-- The coordinator's record of a withdrawal of validator 12. -/
def withdrawalRecord : ValidatorSync := ⟨7, .updateBalance, 3, 1, 12, some 5, none, some 4⟩

def withdrawalValidator : Validator := newValidator 1 12 (some 9)

theorem createValidatorSyncTxData_withdrawal :
    ∃ b op, createValidatorSyncTxData Processor.devnet.blockchain.config 0 withdrawalValidator
        withdrawalRecord = .ok b ∧
      ValOp.decodeBytes b = .ok (.sync op) ∧
        ∀ fork, compareValSync withdrawalRecord op fork = true := by
  have hsize : ∃ op, withdrawalRecord.toSyncOp
      (getValSyncVersionBySlot Processor.devnet.blockchain.config 0) (some 9) = .ok op ∧
      ∃ b, op.marshalBinary = .ok b ∧ b.length < 2 ^ 64 := by decide
  refine (createValidatorSyncTxData_iff _ 0 _ validOp unmarshalBinary_validOp withdrawalValidator _ rfl rfl 5 4 rfl
    (by decide) rfl ?_).2 ⟨by decide, by decide, fun _ => by decide⟩
  intro op b hop hb
  obtain ⟨op', hop', b', hb', hlen⟩ := hsize
  cases hop'.symm.trans hop
  cases hb'.symm.trans hb
  exact hlen

/-- Validator 12 makes a delegated deposit without a withdrawal address.  Its record is read back
    without one, and the transaction of its withdrawal is not built. -/
theorem delegated_withdrawal_not_built :
    ∃ r, delegatedRun { validOp with withdrawalAddress := 0 } = .ok r ∧
      ∃ v, getValidator .binary r.2 12 = .ok v ∧
        createValidatorSyncTxData Processor.devnet.blockchain.config 0 v withdrawalRecord =
          .error .noWithdrawalAddress := by
  decide +kernel

end Gwat
