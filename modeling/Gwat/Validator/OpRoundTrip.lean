/-
  Reading back an encoded validator operation.
-/
import Gwat.Validator.OpSafety

namespace Gwat

open GoLib GoLib.Rlp DelegatingStakeRules List Option

variable {b field rest : Bytes} {lo n : ℕ} {t opType : SyncOpType} {version : UInt16}
  {amount balance : Option ℤ} {delegate checkedData : Option DelegatingStakeData}

/-! ## Fields at offsets -/

theorem take_field (h : b.drop lo = field ++ rest) (hlen : field.length = n) :
    (b.drop lo).take n = field ∧ b.drop (lo + n) = rest := by
  rw [← drop_drop, h]
  exact ⟨take_left' hlen, drop_left' hlen⟩

theorem slice_field (hi : ℕ) (hlt : lo < hi) (h : b.drop lo = field ++ rest)
    (hlen : field.length = hi - lo) : slice b lo hi = .ok field ∧ b.drop hi = rest := by
  have hle : hi ≤ b.length := by
    have := congrArg List.length h
    rw [length_drop, length_append] at this
    omega
  obtain ⟨htake, hdrop⟩ := take_field h hlen
  rw [Nat.add_sub_cancel' hlt.le] at hdrop
  exact ⟨by rw [slice_of_le lo hle, htake], hdrop⟩

@[simp] theorem uint64OfBytes_uint64BytesBE (n : UInt64) : uint64OfBytes (uint64BytesBE n) = n := by
  simp [uint64OfBytes]

@[simp] theorem blsSignatureOfBytes_bytes (s : BlsSignature) : blsSignatureOfBytes s.bytes = s :=
  ofNat_natOfBytes_bytesBE le_rfl s

theorem BlsSignature.length_bytes (s : BlsSignature) : s.bytes.length = 96 := length_bytesBE _ _

theorem natOfBytes_beBytes {n : ℤ} (h : 0 ≤ n) : (natOfBytes (beBytes n.natAbs) : ℤ) = n := by
  have hnat : natOfBytes (beBytes n.natAbs) = n.natAbs := beNat_beBytes _
  rw [hnat, Int.natAbs_of_nonneg h]

/-! ## Sync operations -/

/-- One of the three types that have a code. -/
def SyncOpType.Known : SyncOpType → Prop
  | .other _ => False
  | _ => True

instance (t : SyncOpType) : Decidable t.Known := by
  cases t <;> unfold SyncOpType.Known <;> infer_instance

theorem SyncOpType.ofUint64_toUint64 (h : t.Known) : ofUint64 t.toUint64 = t := by
  cases t with
  | other code => exact h.elim
  | _ => rfl

theorem newValidatorSyncOperation_eq_ok {initTxHash : Hash} {procEpoch index : UInt64}
    {creator : Address} {withdrawalAddress : Option Address} {op : SyncOp} :
    newValidatorSyncOperation version opType initTxHash procEpoch index creator amount
        withdrawalAddress balance = .ok op ↔
      initTxHash ≠ 0 ∧ creator ≠ 0 ∧
      (opType = .updateBalance →
        amount ≠ none ∧ withdrawalAddress ≠ none ∧ ¬ (noVer < version ∧ balance = none)) ∧
      op = ⟨version, opType, initTxHash, procEpoch, index, creator, amount,
        if opType = .updateBalance then withdrawalAddress else none,
        if opType = .updateBalance then balance else none⟩ := by
  simp [newValidatorSyncOperation, bind_eq_ok, checkIf_eq_ok, @eq_comm _ op]

theorem rlpOk_eq_ok {α : Type} {x : Option α} {a : α} : rlpOk x = .ok a ↔ x = some a := by
  cases x <;> simp [rlpOk]

namespace RlpValSyncOpVer1

variable {d : RlpValSyncOpVer1}

theorem ofItem?_item (htype : d.opType.Known) (hamount : 0 ≤ d.amount) (hbalance : 0 ≤ d.balance) :
    ofItem? d.item = some d := by
  simp [item, ofItem?, SyncOpType.ofUint64_toUint64 htype, Int.toNat_of_nonneg hamount,
    Int.toNat_of_nonneg hbalance]

theorem nonneg_of_ofItem? {item : Item} (h : ofItem? item = some d) :
    0 ≤ d.amount ∧ 0 ≤ d.balance := by
  unfold ofItem? at h
  split at h
  · simp only [bind_eq_bind, bind_eq_some_iff] at h
    obtain ⟨_, -, _, -, _, -, _, -, _, -, _, -, amount, -, balance, -, h⟩ := h
    cases h
    exact ⟨Int.natCast_nonneg amount, Int.natCast_nonneg balance⟩
  · cases h

end RlpValSyncOpVer1

theorem unwrapVersionedData_wrapVersionedData (h : (wrapVersionedData version b).length < 2 ^ 64) :
    unwrapVersionedData (wrapVersionedData version b) = some (version, b) := by
  have hversion : (Item.ofNat version.toNat).toUint? 2 = some version.toNat :=
    Item.toUint?_ofNat (by simpa using version.toNat_lt)
  rw [unwrapVersionedData, wrapVersionedData, decodeBytes_encode _ h, bind_some]
  simp [versionedOfItem?, hversion, Item.toBytes?]

theorem length_le_wrapVersionedData (version : UInt16) (b : Bytes) :
    b.length ≤ (wrapVersionedData version b).length := by
  have hlist := length_encodeList_gt (encodeItems [.ofNat version.toNat, .str b])
  have hstr := (length_encodeString_gt b).2
  rw [wrapVersionedData]
  simp only [encodeItems, encode, length_append, length_nil] at hlist ⊢
  omega

namespace SyncOp

variable {op : SyncOp} {version : UInt16} {opType : SyncOpType} {initTxHash : Hash}
  {procEpoch index : UInt64} {creator : Address} {amount balance : Option ℤ}
  {withdrawalAddress : Option Address} {b : Bytes}

theorem unwrapVersionedData_legacy (h : op.opType.Known) :
    unwrapVersionedData op.marshalBinaryLegacy = none := by
  obtain ⟨rest, hrest⟩ : ∃ rest, op.marshalBinaryLegacy = 0 :: rest := by
    rw [marshalBinaryLegacy]
    cases htype : op.opType with
    | other code => rw [htype] at h; exact h.elim
    | _ => exact ⟨_, rfl⟩
  rw [unwrapVersionedData, bind_eq_none_iff]
  intro item hitem
  rw [hrest] at hitem
  rw [decodeBytes_of_lt (by decide) hitem]
  rfl

/-- What the accessors of a sync operation return. -/
def accessors (op : SyncOp) : SyncOp := { op with amountField := op.amount }

theorem accessors_accessors (op : SyncOp) : op.accessors.accessors = op.accessors := by
  by_cases h : op.opCode = updateBalanceCode
  · simp [accessors, amount, h]
  · simp [accessors, amount, h]

/-- The fields of an operation that `NewValidatorSyncOperation` returns. -/
structure Complete (op : SyncOp) : Prop where
  initTxHash : op.initTxHash ≠ 0
  creator : op.creator ≠ 0
  update : op.opType = .updateBalance → (∃ n, op.amountField = some n) ∧
    (∃ w, op.withdrawalAddress = some w) ∧ (noVer < op.version → ∃ n, op.balance = some n)
  other : op.opType ≠ .updateBalance → op.withdrawalAddress = none ∧ op.balance = none

theorem complete_of_new
    (h : newValidatorSyncOperation version opType initTxHash procEpoch index creator amount
      withdrawalAddress balance = .ok op) : op.Complete := by
  obtain ⟨hhash, hcreator, hupdate, rfl⟩ := newValidatorSyncOperation_eq_ok.1 h
  refine ⟨hhash, hcreator, fun htype => ?_, fun htype => ⟨if_neg htype, if_neg htype⟩⟩
  obtain ⟨hamount, hwithdrawal, hbalance⟩ := hupdate htype
  simp only [if_pos htype]
  refine ⟨Option.ne_none_iff_exists'.1 hamount, Option.ne_none_iff_exists'.1 hwithdrawal,
    fun hversion => Option.ne_none_iff_exists'.1 fun hnone => hbalance ⟨hversion, hnone⟩⟩

/-- The type that the payload of a sync operation carries: a field of the wrapped data, or the
    first eight bytes of the old format. -/
def payloadType (b : Bytes) : Option SyncOpType :=
  match unwrapVersionedData b with
  | none => some (.ofUint64 (uint64OfBytes (b.take 8)))
  | some (_, binData) =>
    ((decodeBytes binData).bind RlpValSyncOpVer1.ofItem?).map RlpValSyncOpVer1.opType

/-- An operation that is read comes from the constructor, in one of the two formats and without
    a negative amount or balance. -/
theorem unmarshalBinary_eq_ok (h : unmarshalBinary b = .ok op) :
    ∃ version opType initTxHash procEpoch index creator amount withdrawalAddress balance,
      newValidatorSyncOperation version opType initTxHash procEpoch index creator amount
        withdrawalAddress balance = .ok op ∧
      payloadType b = some opType ∧ (version = noVer ∧ balance = none ∨ version = ver1) ∧
      (∀ n ∈ amount, 0 ≤ n) ∧ ∀ n ∈ balance, 0 ≤ n := by
  rw [unmarshalBinary] at h
  rw [payloadType]
  cases hunwrap : unwrapVersionedData b with
  | none =>
    simp only [hunwrap, unmarshalBinaryLegacy, bind_eq_ok] at h
    obtain ⟨_, -, opType, htype, _, -, _, -, _, -, _, -, ⟨withdrawal, amount⟩, hpayment, h⟩ := h
    have hbytes : opType = b.take 8 := by
      rw [slice] at htype
      split_ifs at htype
      simpa using htype.symm
    subst hbytes
    refine ⟨_, _, _, _, _, _, _, _, _, h, rfl, .inl ⟨rfl, rfl⟩, ?_, by simp⟩
    rw [readPayment] at hpayment
    split_ifs at hpayment
    · obtain ⟨_, -, hpayment⟩ := bind_eq_ok.1 hpayment
      cases hpayment
      simp
    · cases hpayment
      simp
  | some w =>
    rw [hunwrap] at h
    dsimp only at h
    split_ifs at h with hversion
    obtain ⟨d, hd, h⟩ := bind_eq_ok.1 h
    have hitem := rlpOk_eq_ok.1 (mapError_eq_ok.1 hd)
    obtain ⟨item, -, hof⟩ := Option.bind_eq_some_iff.1 hitem
    obtain ⟨hamount, hbalance⟩ := RlpValSyncOpVer1.nonneg_of_ofItem? hof
    refine ⟨_, _, _, _, _, _, _, _, _, h, by simp [hitem], .inr hversion, ?_, ?_⟩
    · simpa using hamount
    · simpa using hbalance

theorem complete_of_unmarshalBinary (h : unmarshalBinary b = .ok op) : op.Complete := by
  obtain ⟨_, _, _, _, _, _, _, _, _, hnew, -⟩ := unmarshalBinary_eq_ok h
  exact complete_of_new hnew

theorem nonneg_of_new
    (h : newValidatorSyncOperation version opType initTxHash procEpoch index creator amount
      withdrawalAddress balance = .ok op)
    (hamount : ∀ n ∈ amount, 0 ≤ n) (hbalance : ∀ n ∈ balance, 0 ≤ n) :
    (∀ n ∈ op.amount, 0 ≤ n) ∧ ∀ n ∈ op.balance, 0 ≤ n := by
  obtain ⟨-, -, -, rfl⟩ := newValidatorSyncOperation_eq_ok.1 h
  constructor <;> intro n hn
  · simp only [SyncOp.amount, mem_def, ite_none_right_eq_some] at hn
    exact hamount n hn.2
  · simp only [mem_def, ite_none_right_eq_some] at hn
    exact hbalance n hn.2

theorem amount_of_update (h : op.opType = .updateBalance) : op.amount = op.amountField := by
  simp [amount, opCode, h]

theorem amount_of_other (h : op.opType ≠ .updateBalance) : op.amount = none := by
  refine if_neg ?_
  unfold opCode
  cases htype : op.opType with
  | updateBalance => exact absurd htype h
  | other code => exact (by decide : (0 : UInt8) ≠ updateBalanceCode)
  | _ => decide

section
variable {op : SyncOp} (hop : op.Complete) (htype : op.opType.Known)
  (hamount : ∀ n ∈ op.amount, 0 ≤ n)
include hop htype hamount

theorem unmarshalBinaryLegacy_marshalBinaryLegacy (hversion : op.version = noVer)
    (hbalance : op.balance = none) :
    unmarshalBinaryLegacy op.marshalBinaryLegacy = .ok op.accessors := by
  generalize hb : op.marshalBinaryLegacy = b
  obtain ⟨h₁, hb⟩ := slice_field 8 (by decide) (show b.drop 0 = _ from hb.symm)
    (length_uint64BytesBE _ : _ = 8 - 0)
  obtain ⟨h₂, hb⟩ := slice_field 40 (by decide) hb (op.initTxHash.length_bytes : _ = 40 - 8)
  obtain ⟨h₃, hb⟩ := slice_field 48 (by decide) hb (length_uint64BytesBE _ : _ = 48 - 40)
  obtain ⟨h₄, hb⟩ := slice_field 56 (by decide) hb (length_uint64BytesBE _ : _ = 56 - 48)
  have hlen : 76 ≤ b.length := by
    have := congrArg List.length hb
    rw [length_drop, length_append, op.creator.length_bytes] at this
    omega
  obtain ⟨h₅, hb⟩ := slice_field 76 (by decide) hb (op.creator.length_bytes : _ = 76 - 56)
  rw [unmarshalBinaryLegacy, failIf_of_not (by rw [valSyncOpDataMinLen]; omega)]
  simp only [ok_bind, h₁, h₂, h₃, h₄, h₅, uint64OfBytes_uint64BytesBE, hashOfBytes_bytes,
    addressOfBytes_bytes, SyncOpType.ofUint64_toUint64 htype]
  by_cases hup : op.opType = .updateBalance
  · obtain ⟨⟨n, hn⟩, ⟨w, hw⟩, -⟩ := hop.update hup
    have hn0 : 0 ≤ n := hamount n (by rw [amount_of_update hup, hn]; rfl)
    rw [hw, hn, map_some, getD_some] at hb
    obtain ⟨h₆, hb⟩ := slice_field 96 (by decide) hb (w.length_bytes : _ = 96 - 76)
    rw [readPayment, if_pos hup, h₆, hb]
    simp only [ok_bind, pure_eq_ok, addressOfBytes_bytes, map_some, getD_some,
      natOfBytes_beBytes hn0]
    refine newValidatorSyncOperation_eq_ok.2 ⟨hop.initTxHash, hop.creator, fun _ => ?_, ?_⟩
    · exact ⟨by simp, by simp, fun h => absurd h.1 (by decide)⟩
    · simp only [accessors, amount_of_update hup, hn, hw, hbalance, hversion, if_pos hup]
  · obtain ⟨hw, -⟩ := hop.other hup
    rw [readPayment, if_neg hup, ok_bind]
    refine newValidatorSyncOperation_eq_ok.2 ⟨hop.initTxHash, hop.creator, fun h => absurd h hup, ?_⟩
    simp only [accessors, amount_of_other hup, hw, hbalance, hversion, if_neg hup]

theorem dataVer1_eq_ok (hversion : op.version = ver1) (hbalance : ∀ n ∈ op.balance, 0 ≤ n) :
    ∃ d, op.dataVer1 = .ok d ∧ d.opType = op.opType ∧ 0 ≤ d.amount ∧ 0 ≤ d.balance ∧
      ∃ op', newValidatorSyncOperation ver1 d.opType d.initTxHash d.procEpoch d.index d.creator
        (some d.amount) (some d.withdrawalAddress) (some d.balance) = .ok op' ∧
        op'.accessors = op.accessors := by
  by_cases hup : op.opType = .updateBalance
  · obtain ⟨⟨n, hn⟩, ⟨w, hw⟩, hb⟩ := hop.update hup
    obtain ⟨m, hm⟩ := hb (by rw [hversion]; decide)
    refine ⟨⟨op.opType, op.initTxHash, op.procEpoch, op.index, op.creator, w, n, m⟩, ?_, rfl,
      hamount n (by rw [amount_of_update hup, hn]; rfl), hbalance m (by rw [hm]; rfl), op, ?_, rfl⟩
    · rw [dataVer1, if_pos hup, hw, hn, hm]
      rfl
    · refine newValidatorSyncOperation_eq_ok.2 ⟨hop.initTxHash, hop.creator, fun _ => ?_, ?_⟩
      · exact ⟨by simp, by simp, fun h => absurd h.2 (by simp)⟩
      · obtain ⟨⟩ := op
        simp only at hversion hup hn hw hm
        simp only [hversion, hn, hw, hm, if_pos hup]
  · obtain ⟨hw, hm⟩ := hop.other hup
    refine ⟨⟨op.opType, op.initTxHash, op.procEpoch, op.index, op.creator, 0, 0, 0⟩, ?_, rfl,
      le_rfl, le_rfl, { op with amountField := some 0 }, ?_, ?_⟩
    · rw [dataVer1, if_neg hup]
      rfl
    · refine newValidatorSyncOperation_eq_ok.2 ⟨hop.initTxHash, hop.creator,
        fun h => absurd h hup, ?_⟩
      simp only [hversion, hw, hm, if_neg hup]
    · have hzero : ({ op with amountField := some 0 } : SyncOp).amount = none := amount_of_other hup
      simp only [accessors, hzero, amount_of_other hup]

theorem unmarshalBinary_marshalBinary (hversion : op.version = noVer ∨ op.version = ver1)
    (hlegacy : op.version = noVer → op.balance = none) (hbalance : ∀ n ∈ op.balance, 0 ≤ n)
    (hlen : ∀ b, op.marshalBinary = .ok b → b.length < 2 ^ 64) :
    ∃ b op', op.marshalBinary = .ok b ∧ unmarshalBinary b = .ok op' ∧ op'.accessors = op.accessors ∧
      ((unwrapVersionedData b).isSome ↔ op.version = ver1) := by
  rcases hversion with hversion | hversion
  · have hunwrap := unwrapVersionedData_legacy htype
    refine ⟨_, _, if_pos hversion, ?_, op.accessors_accessors, ?_⟩
    · rw [unmarshalBinary, hunwrap]
      exact unmarshalBinaryLegacy_marshalBinaryLegacy hop htype hamount hversion (hlegacy hversion)
    · rw [hunwrap, hversion]
      decide
  · obtain ⟨d, hd, hdtype, hda, hdb, op', hnew, hsame⟩ :=
      dataVer1_eq_ok hop htype hamount hversion hbalance
    have hmarshal : op.marshalBinary = .ok (wrapVersionedData op.version (encode d.item)) := by
      rw [marshalBinary, if_neg (by rw [hversion]; decide), if_pos hversion, hd, ok_bind,
        RlpValSyncOpVer1.encodeToBytes, failIf_of_not (by omega)]
      rfl
    have hsize := hlen _ hmarshal
    have hunwrap := unwrapVersionedData_wrapVersionedData hsize
    have hitem : (decodeBytes (encode d.item)).bind RlpValSyncOpVer1.ofItem? = some d := by
      have hle := length_le_wrapVersionedData op.version (encode d.item)
      rw [decodeBytes_encode _ (by omega), bind_some,
        RlpValSyncOpVer1.ofItem?_item (by rwa [hdtype]) hda hdb]
    refine ⟨_, op', hmarshal, ?_, hsame, ?_⟩
    · rw [unmarshalBinary, hunwrap]
      simp only [hversion, if_pos, hitem, rlpOk_some]
      exact hnew
    · rw [hunwrap, hversion]
      simp

end

end SyncOp

/-! ## Deposits, exits and withdrawals -/

theorem DelegatingStakeData.checked_checked (h : checked delegate = .ok checkedData) :
    checked checkedData = .ok checkedData := by
  cases checkedData with
  | none => rfl
  | some c =>
    have hcopy := (queryable_of_checked h).copy
    obtain ⟨-, -, hwithdrawal, hexit⟩ := checked_eq_ok h
    cases delegate with
    | none => cases h
    | some raw =>
      simp only [checked, bind_eq_ok] at h
      obtain ⟨copied, -, _, hvalid, _, -, _, -, h⟩ := h
      cases h
      rw [checked, hcopy, orPanic_some, ok_bind, hvalid, hwithdrawal, hexit]
      rfl

namespace DepositOp

variable {creatorAddress withdrawalAddress : Address} {op : DepositOp}

theorem new_eq_ok {pubKey : BlsPubKey} {signature : BlsSignature}
    {delegate : Option DelegatingStakeData}
    (h : newDepositOperation pubKey creatorAddress withdrawalAddress signature delegate = .ok op) :
    newDepositOperation op.pubKey op.creatorAddress op.withdrawalAddress op.signature
      op.delegatingStake = .ok op := by
  simp only [newDepositOperation, bind_eq_ok] at h
  obtain ⟨_, hkey, _, hcreator, _, hwithdrawal, _, hsignature, data, hchecked, h⟩ := h
  cases h
  have hsome : data = none → delegate = none := by
    rintro rfl
    cases delegate with
    | none => rfl
    | some raw => simp [DelegatingStakeData.checked, bind_eq_ok] at hchecked
  have hwithdrawal' : ¬ (withdrawalAddress = 0 ∧ data = none) := fun h =>
    failIf_eq_ok.1 hwithdrawal ⟨h.1, hsome h.2⟩
  simp [newDepositOperation, hkey, hcreator, failIf_of_not hwithdrawal', hsignature, DelegatingStakeData.checked_checked hchecked]

theorem readDelegate_lengthPrefixed {d : DelegatingStakeData}
    (h : (DelegatingStakeData.marshalBinary (some d)).length < 2 ^ 32) :
    readDelegate (lengthPrefixed (DelegatingStakeData.marshalBinary (some d))) = .ok (some d) := by
  have hpart := takePart_lengthPrefixed [] h
  have hne : lengthPrefixed (DelegatingStakeData.marshalBinary (some d)) ≠ [] := by
    simp [lengthPrefixed, bytesBE]
  rw [append_nil, takePart] at hpart
  simp only at hpart
  split_ifs at hpart with hshort hlong
  obtain ⟨hdata, -⟩ := Prod.mk.inj (Except.ok.inj hpart)
  simp only [readDelegate, if_neg hne, if_neg hshort, if_neg hlong, hdata,
    DelegatingStakeData.unmarshalBinary_marshalBinary h, Except.mapError]

theorem unmarshalBinary_marshalBinary
    (hnew : newDepositOperation op.pubKey op.creatorAddress op.withdrawalAddress op.signature
      op.delegatingStake = .ok op)
    (hlen : (DelegatingStakeData.marshalBinary op.delegatingStake).length < 2 ^ 32) :
    unmarshalBinary op.marshalBinary = .ok op := by
  obtain ⟨ext, hbytes, hread⟩ : ∃ ext, op.marshalBinary = op.pubKey.bytes ++
      (op.creatorAddress.bytes ++ (op.withdrawalAddress.bytes ++ (op.signature.bytes ++ ext))) ∧
      readDelegate ext = .ok op.delegatingStake := by
    cases hd : op.delegatingStake with
    | none => exact ⟨[], by simp [marshalBinary, hd], rfl⟩
    | some d =>
      rw [hd] at hlen
      exact ⟨_, by simp [marshalBinary, hd], readDelegate_lengthPrefixed hlen⟩
  generalize op.marshalBinary = b at hbytes ⊢
  have hmin : ¬ b.length < minBinaryLen := by
    rw [hbytes, minBinaryLen]
    simp only [length_append, BlsPubKey.length_bytes, BlsSignature.length_bytes,
      Address.length_bytes]
    omega
  obtain ⟨hkey, hb⟩ := take_field (show b.drop 0 = _ from hbytes) op.pubKey.length_bytes
  obtain ⟨hcreator, hb⟩ := take_field hb op.creatorAddress.length_bytes
  obtain ⟨hwithdrawal, hb⟩ := take_field hb op.withdrawalAddress.length_bytes
  obtain ⟨hsignature, hb⟩ := take_field hb op.signature.length_bytes
  have hext : b.drop minBinaryLen = ext := hb
  rw [drop_zero] at hkey
  rw [unmarshalBinary, failIf_of_not hmin, ok_bind, hext, hread, ok_bind, hkey, hcreator,
    hwithdrawal, hsignature]
  simp [hnew]

end DepositOp

theorem ExitOp.unmarshalBinary_marshalBinary {op : ExitOp}
    (hnew : newExitOperation op.pubKey op.creatorAddress op.exitAfterEpoch = .ok op) :
    ExitOp.unmarshalBinary op.marshalBinary = .ok op := by
  generalize hbytes : op.marshalBinary = b
  rw [ExitOp.marshalBinary] at hbytes
  have hlen : b.length = minExitRequestLen + ((op.exitAfterEpoch.map uint64BytesBE).getD []).length := by
    rw [← hbytes, minExitRequestLen]
    simp only [length_append, BlsPubKey.length_bytes, Address.length_bytes]
    omega
  obtain ⟨hkey, hb⟩ := take_field (show b.drop 0 = _ from hbytes.symm) op.pubKey.length_bytes
  obtain ⟨hcreator, hb⟩ := take_field hb op.creatorAddress.length_bytes
  have hepoch : ExitOp.readEpoch b = .ok op.exitAfterEpoch := by
    rw [ExitOp.readEpoch]
    cases he : op.exitAfterEpoch with
    | none =>
      rw [he] at hlen
      exact if_neg (by simp [hlen])
    | some epoch =>
      rw [he, map_some, getD_some] at hlen hb
      obtain ⟨hslice, -⟩ := slice_field 76 (by decide)
        (show b.drop 68 = uint64BytesBE epoch ++ [] by rw [append_nil]; exact hb)
        (length_uint64BytesBE _ : _ = 76 - 68)
      rw [if_pos (by rw [hlen, length_uint64BytesBE]; omega), hslice]
      simp
  rw [drop_zero] at hkey
  rw [ExitOp.unmarshalBinary, failIf_of_not (by omega), ok_bind, hepoch, ok_bind, hkey, hcreator]
  simp [hnew]

theorem WithdrawalOp.unmarshalBinary_marshalBinary {op : WithdrawalOp}
    (hnew : newWithdrawalOperation op.creatorAddress (some op.amount) = .ok op)
    (hamount : 0 ≤ op.amount) : WithdrawalOp.unmarshalBinary op.marshalBinary = .ok op := by
  generalize hbytes : op.marshalBinary = b
  obtain ⟨hslice, hrest⟩ := slice_field 20 (by decide) (show b.drop 0 = _ from hbytes.symm)
    (op.creatorAddress.length_bytes : _ = 20 - 0)
  rw [WithdrawalOp.unmarshalBinary, hslice, ok_bind, hrest, natOfBytes_beBytes hamount,
    addressOfBytes_bytes, hnew]

/-! ## The round trip -/

namespace ValOp

variable {op : SyncOp}

/-- What the accessors of an operation return. -/
def accessors : ValOp → ValOp
  | .sync op => .sync op.accessors
  | op => op

/-- An operation that its constructor returns; sync operations are of a known type, in the old
    format or of version 1, and their amounts and balances are not negative. -/
inductive Constructed : ValOp → Prop where
  | deposit {pubKey : BlsPubKey} {creatorAddress withdrawalAddress : Address}
      {signature : BlsSignature} {delegate : Option DelegatingStakeData} {op : DepositOp} :
      newDepositOperation pubKey creatorAddress withdrawalAddress signature delegate = .ok op →
      Constructed (.deposit op)
  | exit {pubKey : BlsPubKey} {creatorAddress : Address} {exitAfterEpoch : Option UInt64}
      {op : ExitOp} : newExitOperation pubKey creatorAddress exitAfterEpoch = .ok op →
      Constructed (.exit op)
  | withdrawal {creatorAddress : Address} {amount : Option ℤ} {op : WithdrawalOp} :
      newWithdrawalOperation creatorAddress amount = .ok op → Constructed (.withdrawal op)
  | sync {version : UInt16} {opType : SyncOpType} {initTxHash : Hash} {procEpoch index : UInt64}
      {creator : Address} {amount : Option ℤ} {withdrawalAddress : Option Address}
      {balance : Option ℤ} {op : SyncOp} :
      newValidatorSyncOperation version opType initTxHash procEpoch index creator amount
        withdrawalAddress balance = .ok op →
      opType.Known → version = noVer ∨ version = ver1 →
      (∀ n ∈ amount, 0 ≤ n) → (∀ n ∈ balance, 0 ≤ n) → Constructed (.sync op)

/-- The format has room for the operation: the length of delegating data has four bytes, the
    amount of a withdrawal no sign, the old format of sync operations no balance, and RLP sizes
    have eight bytes. -/
def Fits : ValOp → Prop
  | .deposit op => (DelegatingStakeData.marshalBinary op.delegatingStake).length < 2 ^ 32
  | .exit _ => True
  | .withdrawal op => 0 ≤ op.amount
  | .sync op => (op.version = noVer → op.balance = none) ∧
      ∀ b, op.marshalBinary = .ok b → b.length < 2 ^ 64

theorem isSyncCode_opCode (h : op.opType.Known) : IsSyncCode op.opCode := by
  unfold SyncOp.opCode
  cases htype : op.opType with
  | other code => rw [htype] at h; exact h.elim
  | _ => decide

theorem decodeBytes_cons (opCode : UInt8) (b : Bytes) :
    decodeBytes (opPrefix :: opCode :: b) = unmarshalBinary opCode b := rfl

theorem ne_depositCode {opCode : UInt8} (h : IsSyncCode opCode) : opCode ≠ depositCode := by
  rcases h with h | h | h <;> rw [h] <;> decide

/-- A sync operation is sent under its code and read back. -/
theorem sync_read_back (hop : op.Complete) (htype : op.opType.Known)
    (hamount : ∀ n ∈ op.amount, 0 ≤ n) (hversion : op.version = noVer ∨ op.version = ver1)
    (hlegacy : op.version = noVer → op.balance = none) (hbalance : ∀ n ∈ op.balance, 0 ≤ n)
    (hlen : ∀ b, op.marshalBinary = .ok b → b.length < 2 ^ 64) :
    ∃ b op', encodeToBytes (.sync op) = .ok (opPrefix :: op.opCode :: b) ∧
      op.marshalBinary = .ok b ∧ decodeBytes (opPrefix :: op.opCode :: b) = .ok (.sync op') ∧
      op'.accessors = op.accessors ∧ ((unwrapVersionedData b).isSome ↔ op.version = ver1) := by
  obtain ⟨b, op', hmarshal, hread, hsame, hunwrap⟩ :=
    SyncOp.unmarshalBinary_marshalBinary hop htype hamount hversion hlegacy hbalance hlen
  have hcode : op'.opCode = op.opCode := by
    have := congrArg SyncOp.opType hsame
    simp only [SyncOp.accessors] at this
    rw [SyncOp.opCode, SyncOp.opCode, this]
  have hsync := isSyncCode_opCode htype
  refine ⟨b, op', ?_, hmarshal, ?_, hsame, hunwrap⟩
  · rw [encodeToBytes, marshalBinary, hmarshal, ok_bind, hread, ← hcode]
    rfl
  · rw [decodeBytes_cons, unmarshalBinary, if_neg (ne_depositCode hsync), if_pos hsync, hread]
    rfl

/-- Every operation that a constructor returns and its format has room for is encoded, and
    read back with the same accessors.  A sync operation is unwrapped as a versioned one
    exactly if it is one. -/
theorem decodeBytes_encodeToBytes (op : ValOp) (hnew : Constructed op) (hfits : op.Fits) :
    ∃ b op', encodeToBytes op = .ok b ∧ decodeBytes b = .ok op' ∧
      op'.accessors = op.accessors ∧
      ∀ vs, op = .sync vs → ((unwrapVersionedData (b.drop 2)).isSome ↔ vs.version = ver1) := by
  cases hnew with
  | deposit hnew =>
    refine ⟨_, .deposit _, rfl, ?_, rfl, by simp⟩
    rw [decodeBytes_cons, unmarshalBinary, if_pos rfl,
      DepositOp.unmarshalBinary_marshalBinary (DepositOp.new_eq_ok hnew) hfits]
    rfl
  | @exit _ _ _ op hnew =>
    refine ⟨_, .exit op, rfl, ?_, rfl, by simp⟩
    have hself : newExitOperation op.pubKey op.creatorAddress op.exitAfterEpoch = .ok op := by
      simp only [newExitOperation, bind_eq_ok, pure_eq_ok, Except.ok.injEq] at hnew ⊢
      grind
    rw [decodeBytes_cons, unmarshalBinary, if_neg (by decide), if_neg (by decide), if_pos rfl,
      ExitOp.unmarshalBinary_marshalBinary hself]
    rfl
  | @withdrawal _ amount op hnew =>
    refine ⟨_, .withdrawal op, rfl, ?_, rfl, by simp⟩
    have hself : newWithdrawalOperation op.creatorAddress (some op.amount) = .ok op := by
      simp only [newWithdrawalOperation, bind_eq_ok] at hnew ⊢
      cases amount with
      | none => simp at hnew
      | some n => grind [pure_eq_ok]
    rw [decodeBytes_cons, unmarshalBinary, if_neg (by decide), if_neg (by decide),
      if_neg (by decide), if_pos rfl, WithdrawalOp.unmarshalBinary_marshalBinary hself hfits]
    rfl
  | @sync _ opType _ _ _ _ amount _ balance op hnew htype hversion hamount hbalance =>
    have hop := SyncOp.complete_of_new hnew
    obtain ⟨hlegacy, hlen⟩ := hfits
    obtain ⟨hamount', hbalance'⟩ := SyncOp.nonneg_of_new hnew hamount hbalance
    obtain ⟨-, -, -, hfields⟩ := newValidatorSyncOperation_eq_ok.1 hnew
    obtain ⟨b, op', hencode, -, hread, hsame, hunwrap⟩ := sync_read_back hop
      (by rw [hfields]; exact htype) hamount' (by rw [hfields]; exact hversion) hlegacy hbalance'
      hlen
    refine ⟨_, .sync op', hencode, hread, congrArg ValOp.sync hsame, fun vs h => ?_⟩
    obtain rfl := ValOp.sync.inj h
    exact hunwrap

theorem complete_of_decodeBytes (h : decodeBytes b = .ok (.sync op)) : op.Complete := by
  obtain ⟨opCode, -, h⟩ := bind_eq_ok.1 h
  rw [unmarshalBinary] at h
  split_ifs at h
  all_goals obtain ⟨op', hop, heq⟩ := map_eq_ok.1 h
  all_goals cases heq
  exact SyncOp.complete_of_unmarshalBinary hop

/-- A balance update of version 1, and one in the old format, with a balance. -/
def balanceUpdate (version : UInt16) (balance : Option ℤ) : Except ValError SyncOp :=
  newValidatorSyncOperation version .updateBalance 7 3 1 9 (some 5) (some 12) balance

/-- A balance update of version 1 is read back. -/
theorem decodeBytes_encodeToBytes_update : ∃ op b op', balanceUpdate ver1 (some 4) = .ok op ∧
    encodeToBytes (.sync op) = .ok b ∧ decodeBytes b = .ok op' ∧
    op'.accessors = ValOp.accessors (.sync op) := by
  have hnew : ∃ op, balanceUpdate ver1 (some 4) = .ok op ∧ op.version ≠ noVer ∧
      ∀ b, op.marshalBinary = .ok b → b.length < 2 ^ 64 := by decide
  obtain ⟨op, hop, hversion, hlen⟩ := hnew
  obtain ⟨b, op', hencode, hdecode, hsame, -⟩ := decodeBytes_encodeToBytes (.sync op)
    (.sync hop trivial (.inr rfl) (by simp) (by simp)) ⟨fun h => absurd h hversion, hlen⟩
  exact ⟨op, b, op', hop, hencode, hdecode, hsame⟩

/-- The constructor accepts a balance for an operation in the old format, and the amount of a
    withdrawal may be negative; neither is read back. -/
theorem legacy_balance_lost :
    (∃ op, balanceUpdate noVer (some 4) = .ok op ∧ ∃ b, encodeToBytes (.sync op) = .ok b ∧
      ∃ vs, SyncOp.unmarshalBinary (b.drop 2) = .ok vs ∧ decodeBytes b = .ok (.sync vs) ∧
        op.balance = some 4 ∧ vs.balance = none) ∧
    (∃ op, newWithdrawalOperation 9 (some (-5)) = .ok op ∧
      ∃ b, encodeToBytes (.withdrawal op) = .ok b ∧
        decodeBytes b = .ok (.withdrawal ⟨9, 5⟩)) := by
  decide +kernel

end ValOp

end Gwat
