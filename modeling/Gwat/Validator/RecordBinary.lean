/-
  The binary format of the validator record (`MarshalBinary`, `UnmarshalBinary` of
  `validator/storage/validator.go` and `validator/operation/delegated_stake_data.go`).
-/
import Gwat.Validator.Record

namespace Gwat

open GoLib GoLib.Rlp List

/-! ## Fixed-width values -/

/-- `BytesToBlsPubKey`, for 48 bytes. -/
def blsPubKeyOfBytes (b : Bytes) : BlsPubKey := Fin.ofNat _ (natOfBytes b)

@[simp] theorem blsPubKeyOfBytes_bytes (k : BlsPubKey) : blsPubKeyOfBytes k.bytes = k :=
  ofNat_natOfBytes_bytesBE le_rfl k

theorem BlsPubKey.length_bytes (k : BlsPubKey) : k.bytes.length = 48 := length_bytesBE _ _

/-! ## Parts with their length in front -/

/-- The errors of the format. -/
def errBadBinaryData : ℕ := 1
def errBadDataLen : ℕ := 2
def errRlp : ℕ := 3
def errNegativeBigInt : ℕ := 4
def errInvalidVersion : ℕ := 5

/-- RLP that cannot be decoded into the type at hand. -/
def rlpOk {α : Type} (x : Option α) : Except ℕ α := x.elim (.error errRlp) .ok

@[simp] theorem rlpOk_some {α : Type} (a : α) : rlpOk (some a) = .ok a := rfl

/-- The length of a part in four bytes (`PutUint32`), and the part. -/
def lengthPrefixed (b : Bytes) : Bytes := bytesBE 4 b.length ++ b

/-- The part at the front, and what follows it.  Input without a length is a read beyond
    its end. -/
def takePart (data : Bytes) : Except ℕ (Bytes × Bytes) :=
  if data.length < 4 then .error panicCode
  else
    let n := natOfBytes (data.take 4)
    if (data.drop 4).length < n then .error errBadBinaryData
    else .ok ((data.drop 4).take n, (data.drop 4).drop n)

theorem natOfBytes_lengthPrefixed {b : Bytes} (rest : Bytes) (h : b.length < 2 ^ 32) :
    natOfBytes ((lengthPrefixed b ++ rest).take 4) = b.length := by
  rw [lengthPrefixed, append_assoc, take_left' (length_bytesBE _ _), natOfBytes_bytesBE,
    Nat.mod_eq_of_lt (by omega)]

theorem drop_lengthPrefixed (b rest : Bytes) : (lengthPrefixed b ++ rest).drop 4 = b ++ rest := by
  rw [lengthPrefixed, append_assoc, drop_left' (length_bytesBE _ _)]

theorem takePart_lengthPrefixed {b : Bytes} (rest : Bytes) (h : b.length < 2 ^ 32) :
    takePart (lengthPrefixed b ++ rest) = .ok (b, rest) := by
  have hlen : 4 ≤ (lengthPrefixed b).length := by simp [lengthPrefixed]
  simp [takePart, natOfBytes_lengthPrefixed rest h, drop_lengthPrefixed,
    Nat.le_add_right_of_le hlen]

/-! ## Delegating stake data -/

namespace DelegatingStakeRules

/-- `rlpDelegatingStakeRules` -/
def item (r : DelegatingStakeRules) : Item :=
  .list [.list (r.addrs.map addressItem), .str r.profitShares, .str r.stakeShares,
    .str r.exitBits, .str r.withdrawalBits]

def ofItem? : Item → Option DelegatingStakeRules
  | .list [a, p, s, e, w] => do
    let addrs ← a.toList? toAddress?
    let profitShares ← p.toBytes?
    let stakeShares ← s.toBytes?
    let exitBits ← e.toBytes?
    let withdrawalBits ← w.toBytes?
    return { addrs, profitShares, stakeShares, exitBits, withdrawalBits }
  | _ => none

/-- `DelegatingStakeRules.MarshalBinary` -/
def marshalBinary (r : DelegatingStakeRules) : Bytes := encode r.item

/-- `DelegatingStakeRules.UnmarshalBinary` -/
def unmarshalBinary (b : Bytes) : Option DelegatingStakeRules := (decodeBytes b).bind ofItem?

theorem ofItem?_item (r : DelegatingStakeRules) : ofItem? r.item = some r := by
  simp [item, ofItem?, Item.toBytes?, Item.toList?_list_map toAddress?_addressItem]

theorem unmarshalBinary_marshalBinary {r : DelegatingStakeRules}
    (h : r.marshalBinary.length < 2 ^ 64) : unmarshalBinary r.marshalBinary = some r := by
  rw [unmarshalBinary, marshalBinary, decodeBytes_encode _ h, Option.bind_some, ofItem?_item]

end DelegatingStakeRules

namespace DelegatingStakeData

/-- `rlpDelegatingStakeOperation` -/
def item (d : DelegatingStakeData) : Item :=
  .list [.str d.rules.marshalBinary, uint64Item d.trialPeriod, .str d.trialRules.marshalBinary]

def ofItem? : Item → Option DelegatingStakeData
  | .list [r, tp, tr] => do
    let rules ← r.toBytes?
    let trialPeriod ← toUint64? tp
    let trialRules ← tr.toBytes?
    let rules ← DelegatingStakeRules.unmarshalBinary rules
    let trialRules ← DelegatingStakeRules.unmarshalBinary trialRules
    return { rules, trialPeriod, trialRules }
  | _ => none

/-- The length of the data of empty rules (`minDelegatingStakeDataLen`). -/
def minDsdLen : ℕ := 20

/-- `DelegatingStakeData.MarshalBinary`; missing data is four zeros. -/
def marshalBinary : Option DelegatingStakeData → Bytes
  | none => bytesBE 4 0
  | some d => lengthPrefixed (encode d.item)

/-- `NewDelegatingStakeDataFromBinary` -/
def unmarshalBinary (b : Bytes) : Except ℕ (Option DelegatingStakeData) :=
  if b.length < minDsdLen then
    if b = bytesBE 4 0 then .ok none else .error errBadDataLen
  else
    let dataLen := natOfBytes (b.take 4)
    if b.length < 4 + dataLen then .error errBadDataLen
    else some <$> rlpOk ((decodeBytes ((b.drop 4).take dataLen)).bind ofItem?)

theorem length_le_encode_item (d : DelegatingStakeData) :
    d.rules.marshalBinary.length ≤ (encode d.item).length ∧
      d.trialRules.marshalBinary.length ≤ (encode d.item).length := by
  have hlist := length_encodeList_gt (encodeItems
    [.str d.rules.marshalBinary, uint64Item d.trialPeriod, .str d.trialRules.marshalBinary])
  have hr := (length_encodeString_gt d.rules.marshalBinary).2
  have ht := (length_encodeString_gt d.trialRules.marshalBinary).2
  simp only [encodeItems, encode, length_append, item] at hlist ⊢
  omega

theorem ofItem?_item {d : DelegatingStakeData} (h : (encode d.item).length < 2 ^ 64) :
    ofItem? d.item = some d := by
  obtain ⟨hr, ht⟩ := d.length_le_encode_item
  simp [item, ofItem?, Item.toBytes?,
    DelegatingStakeRules.unmarshalBinary_marshalBinary (lt_of_le_of_lt hr h),
    DelegatingStakeRules.unmarshalBinary_marshalBinary (lt_of_le_of_lt ht h)]

theorem minDsdLen_le (d : DelegatingStakeData) : minDsdLen ≤ (marshalBinary (some d)).length := by
  have hrules : ∀ r : DelegatingStakeRules, 7 ≤ (encodeString r.marshalBinary).length := by
    intro r
    have hitems := length_le_encodeItems [.list (r.addrs.map addressItem), .str r.profitShares,
      .str r.stakeShares, .str r.exitBits, .str r.withdrawalBits]
    have hlist : _ < r.marshalBinary.length := length_encodeList_gt _
    have hlen : 6 ≤ r.marshalBinary.length := by
      simp only [length_cons, length_nil] at hitems
      omega
    have := @length_lt_encodeString r.marshalBinary (by omega)
    omega
  have hr := hrules d.rules
  have ht := hrules d.trialRules
  have htp := length_le_encodeItems [uint64Item d.trialPeriod]
  have hlist := length_encodeList_gt (encodeItems
    [.str d.rules.marshalBinary, uint64Item d.trialPeriod, .str d.trialRules.marshalBinary])
  simp only [marshalBinary, lengthPrefixed, minDsdLen, item, encodeItems, encode,
    length_append, length_bytesBE, length_cons, length_nil] at htp hlist ⊢
  omega

/-- Delegating stake data is read back. -/
theorem unmarshalBinary_marshalBinary {d : Option DelegatingStakeData}
    (h : (marshalBinary d).length < 2 ^ 32) : unmarshalBinary (marshalBinary d) = .ok d := by
  cases d with
  | none => rfl
  | some d =>
    have hlen : 4 + (encode d.item).length < 2 ^ 32 := by
      simpa [marshalBinary, lengthPrefixed, Nat.add_comm] using h
    have htake := natOfBytes_lengthPrefixed (b := encode d.item) [] (by omega)
    have hdrop := drop_lengthPrefixed (encode d.item) []
    rw [append_nil] at htake hdrop
    simp only [unmarshalBinary]
    rw [if_neg (Nat.not_lt.2 d.minDsdLen_le), marshalBinary, htake, hdrop,
      if_neg (by simp [lengthPrefixed]), append_nil, take_length,
      decodeBytes_encode _ (by omega), Option.bind_some, ofItem?_item (by omega)]
    rfl

end DelegatingStakeData

/-! ## Base data -/

structure RlpBaseValidator where
  pubKey : BlsPubKey
  withdrawalAddress : Address
  index : UInt64
  activationEra : UInt64
  exitEra : UInt64
  stake : List StakeByAddress

namespace RlpBaseValidator

variable {b : RlpBaseValidator} {bin : Bytes}

/-- A stake; RLP has no negative numbers. -/
def stakeItem (s : StakeByAddress) : Except ℕ Item :=
  if s.sum < 0 then .error errNegativeBigInt
  else .ok (.list [addressItem s.address, .ofNat s.sum.toNat])

def toStake? : Item → Option StakeByAddress
  | .list [a, n] => do
    let address ← toAddress? a
    let sum ← n.toNat?
    return ⟨address, sum⟩
  | _ => none

def item (b : RlpBaseValidator) (stake : List Item) : Item :=
  .list [.str b.pubKey.bytes, addressItem b.withdrawalAddress, uint64Item b.index,
    uint64Item b.activationEra, uint64Item b.exitEra, .list stake]

def ofItem? : Item → Option RlpBaseValidator
  | .list [k, w, i, a, e, s] => do
    let pubKey ← k.toArray? 48
    let withdrawalAddress ← toAddress? w
    let index ← toUint64? i
    let activationEra ← toUint64? a
    let exitEra ← toUint64? e
    let stake ← s.toList? toStake?
    return ⟨blsPubKeyOfBytes pubKey, withdrawalAddress, index, activationEra, exitEra, stake⟩
  | _ => none

/-- `rlp.EncodeToBytes` of the base data. -/
def encodeToBytes (b : RlpBaseValidator) : Except ℕ Bytes := do
  let stake ← b.stake.mapM stakeItem
  return encode (b.item stake)

/-- `rlp.DecodeBytes` of the base data. -/
def decodeBytes (b : Bytes) : Except ℕ RlpBaseValidator := rlpOk ((Rlp.decodeBytes b).bind ofItem?)

theorem toStake?_of_stakeItem {s : StakeByAddress} {x : Item} (h : stakeItem s = .ok x) :
    toStake? x = some s := by
  rw [stakeItem] at h
  split_ifs at h with hneg
  cases h
  simp only [toStake?, toAddress?_addressItem, Item.toNat?_ofNat, Option.bind_eq_bind,
    Option.bind_some, Int.toNat_of_nonneg (not_lt.1 hneg)]
  rfl

theorem mapM_toStake? {stake : List StakeByAddress} {items : List Item}
    (h : stake.mapM stakeItem = .ok items) : items.mapM toStake? = some stake := by
  replace h := forall₂_of_mapM h
  induction h with
  | nil => rfl
  | cons hx _ ih => simp [mapM_cons, toStake?_of_stakeItem hx, ih]

theorem ofItem?_item {items : List Item} (h : b.stake.mapM stakeItem = .ok items) :
    ofItem? (b.item items) = some b := by
  simp [item, ofItem?, Item.toArray?_str b.pubKey.length_bytes, Item.toList?, mapM_toStake? h]

theorem encodeToBytes_eq_ok (h : b.encodeToBytes = .ok bin) :
    ∃ items, b.stake.mapM stakeItem = .ok items ∧ bin = encode (b.item items) := by
  obtain ⟨items, hitems, h⟩ := bind_eq_ok.1 h
  exact ⟨items, hitems, (Except.ok.inj h).symm⟩

theorem decodeBytes_of_encodeToBytes (h : b.encodeToBytes = .ok bin) (hlen : bin.length < 2 ^ 64) :
    decodeBytes bin = .ok b := by
  obtain ⟨items, hitems, hbin⟩ := encodeToBytes_eq_ok h
  rw [hbin] at hlen ⊢
  rw [decodeBytes, decodeBytes_encode _ hlen, Option.bind_some, ofItem?_item hitems, rlpOk_some]

end RlpBaseValidator

/-! ## Tracking data -/

structure RlpVer1 where
  depositTxs : List Hash
  withdrawalTx : Hash
  exitTx : Hash

namespace RlpVer1

def item (t : RlpVer1) : Item :=
  .list [.list (t.depositTxs.map hashItem), hashItem t.withdrawalTx, hashItem t.exitTx]

def ofItem? : Item → Option RlpVer1
  | .list [d, w, e] => do
    let depositTxs ← d.toList? toHash?
    let withdrawalTx ← toHash? w
    let exitTx ← toHash? e
    return ⟨depositTxs, withdrawalTx, exitTx⟩
  | _ => none

theorem ofItem?_item (t : RlpVer1) : ofItem? t.item = some t := by
  simp [item, ofItem?, Item.toList?_list_map toHash?_hashItem]

end RlpVer1

/-! ## The record -/

namespace Validator

def hasExtendedData (v : Validator) : Bool := v.delegatingStake.isSome || v.version ≠ noVer

/-- The base data of a record; a missing withdrawal address is the zero address. -/
def baseData (v : Validator) : RlpBaseValidator :=
  ⟨v.pubKey, v.withdrawalAddress.getD 0, v.index, v.activationEra, v.exitEra, v.stake⟩

/-- The tracking data of a record; a missing hash is the zero hash. -/
def dataVer1 (v : Validator) : RlpVer1 :=
  ⟨v.depositTxs, v.getWithdrawalTx.getD 0, v.getExitTx.getD 0⟩

/-- The version and the data that belongs to it. -/
def versionedData (v : Validator) : Except ℕ Bytes :=
  if v.version = noVer then .ok []
  else if v.version = ver1 then .ok (bytesBE 2 v.version.toNat ++ encode v.dataVer1.item)
  else .error errInvalidVersion

/-- The data after the base data. -/
def extendedData (v : Validator) : Except ℕ Bytes :=
  if v.hasExtendedData then do
    let versioned ← v.versionedData
    return lengthPrefixed (DelegatingStakeData.marshalBinary v.delegatingStake) ++ versioned
  else .ok []

def marshalBinary (v : Validator) : Except ℕ Bytes := do
  let baseData ← v.baseData.encodeToBytes
  let extended ← v.extendedData
  return v.address.bytes ++ (lengthPrefixed baseData ++ extended)

/-- The zero address stands for a missing one. -/
def addressOrNone (a : Address) : Option Address := if a = 0 then none else some a

/-- The record with the given base data. -/
def ofBaseData (address : Address) (b : RlpBaseValidator) : Validator where
  address := address
  pubKey := b.pubKey
  withdrawalAddress := addressOrNone b.withdrawalAddress
  index := b.index
  activationEra := b.activationEra
  exitEra := b.exitEra
  stake := b.stake

def setDepositTxs (v : Validator) (txs : List Hash) : Validator :=
  { v with depositTxs := if v.version = noVer then [] else txs.reverse.dedup.reverse }

/-- The version and its data, if there is any. -/
def readVersioned (v : Validator) (versionedData : Bytes) : Except ℕ Validator :=
  if versionedData = [] then .ok v
  else if versionedData.length < 2 then .error panicCode
  else
    let v := { v with version := UInt16.ofNat (natOfBytes (versionedData.take 2)) }
    if v.version = ver1 then do
      let t ← rlpOk ((decodeBytes (versionedData.drop 2)).bind RlpVer1.ofItem?)
      return ((v.setDepositTxs t.depositTxs).setWithdrawalTx (some t.withdrawalTx)).setExitTx
        (some t.exitTx)
    else .error errInvalidVersion

/-- The data after the base data, if there is any. -/
def readExtended (v : Validator) (extendedData : Bytes) : Except ℕ Validator :=
  if extendedData = [] then .ok v
  else do
    let (delegate, versionedData) ← takePart extendedData
    let delegatingStake ← DelegatingStakeData.unmarshalBinary delegate
    { v with delegatingStake }.readVersioned versionedData

def unmarshalBinary (data : Bytes) : Except ℕ Validator :=
  if data.length < 20 then .error panicCode
  else do
    let (base, extendedData) ← takePart (data.drop 20)
    let baseData ← RlpBaseValidator.decodeBytes base
    (ofBaseData (addressOfBytes (data.take 20)) baseData).readExtended extendedData

end Validator

/-- The codec of the storage. -/
def RecordCodec.binary : RecordCodec where
  marshal := Validator.marshalBinary
  unmarshal := Validator.unmarshalBinary
  marshalDelegate d := .ok (DelegatingStakeData.marshalBinary d)

/-- The code of an account that holds the record. -/
def Validator.code (v : Validator) : Bytes := v.marshalBinary.toOption.getD []

/-- The state with one record. -/
def stateOf (v : Validator) : StateDB := StateDB.empty.setCode v.address v.code

/-! ## Reading back what was written -/

namespace Validator

variable {v w : Validator} {b bin : Bytes}

/-- The record as it is read back: zeros are absent values, no deposit is repeated, and
    there is no tracking data without a version. -/
def normal (v : Validator) : Validator :=
  { v with
    withdrawalAddress := addressOrNone (v.withdrawalAddress.getD 0)
    depositTxs := if v.version = noVer then [] else v.depositTxs.reverse.dedup.reverse
    withdrawalTx := v.getWithdrawalTx
    exitTx := v.getExitTx }

/-- The encoded parts of the record are shorter than 2^32 bytes. -/
structure Fits (v : Validator) : Prop where
  base : ∀ b, v.baseData.encodeToBytes = .ok b → b.length < 2 ^ 32
  delegate : (DelegatingStakeData.marshalBinary v.delegatingStake).length < 2 ^ 32
  tracking : (encode v.dataVer1.item).length < 2 ^ 32

/-- Whether a hash is tracked depends on the version only. -/
theorem trackedTx_congr (h : v.version = w.version) (tx : Option Hash) :
    v.trackedTx tx = w.trackedTx tx := by simp only [trackedTx, h]

theorem trackedTx_getD (v : Validator) (tx : Option Hash) :
    v.trackedTx (some ((v.trackedTx tx).getD 0)) = v.trackedTx tx := by
  unfold trackedTx
  split_ifs <;> cases tx <;> simp_all

theorem readVersioned_versionedData (h : v.versionedData = .ok b)
    (hlen : (encode v.dataVer1.item).length < 2 ^ 32) (hw : w.version = noVer)
    (hd : w.depositTxs = []) (hwt : w.withdrawalTx = none) (he : w.exitTx = none) :
    w.readVersioned b = .ok { w with
      version := v.version
      depositTxs := v.normal.depositTxs
      withdrawalTx := v.getWithdrawalTx
      exitTx := v.getExitTx } := by
  rw [versionedData] at h
  split_ifs at h with hno hver
  · cases h
    rw [readVersioned, if_pos rfl]
    obtain ⟨⟩ := w
    simp_all [normal, getWithdrawalTx, getExitTx, trackedTx]
  · cases h
    have htake : (bytesBE 2 v.version.toNat ++ encode v.dataVer1.item).take 2 =
        bytesBE 2 v.version.toNat := take_left' (length_bytesBE _ _)
    have hdrop : (bytesBE 2 v.version.toNat ++ encode v.dataVer1.item).drop 2 =
        encode v.dataVer1.item := drop_left' (length_bytesBE _ _)
    have hversion : UInt16.ofNat (natOfBytes (bytesBE 2 v.version.toNat)) = v.version := by
      rw [natOfBytes_bytesBE, Nat.mod_eq_of_lt (by simpa using v.version.toNat_lt)]
      simp
    have hrlp : (decodeBytes (encode v.dataVer1.item)).bind RlpVer1.ofItem? = some v.dataVer1 := by
      rw [decodeBytes_encode _ (by omega), Option.bind_some, RlpVer1.ofItem?_item]
    rw [readVersioned, if_neg (by simp [bytesBE]),
      if_neg (by rw [length_append, length_bytesBE]; omega)]
    simp only [htake, hdrop, hversion, if_pos hver, hrlp, rlpOk_some, ok_bind, pure_eq_ok]
    have hset : ∀ (u : Validator) (tx : Option Hash), u.version = v.version →
        u.trackedTx (some ((v.trackedTx tx).getD 0)) = v.trackedTx tx := by
      intro u tx hu
      rw [trackedTx_congr hu, trackedTx_getD]
    simp [setDepositTxs, setWithdrawalTx, setExitTx, dataVer1, normal, getWithdrawalTx, getExitTx,
      hset]

theorem readExtended_extendedData {ext : Bytes} (h : v.extendedData = .ok ext) (hfits : v.Fits) :
    (ofBaseData v.address v.baseData).readExtended ext = .ok v.normal := by
  rw [extendedData] at h
  split_ifs at h with hext
  · obtain ⟨versioned, hver, h⟩ := bind_eq_ok.1 h
    cases h
    rw [readExtended, if_neg (by simp [lengthPrefixed, bytesBE]),
      takePart_lengthPrefixed _ hfits.delegate, ok_bind]
    simp only [DelegatingStakeData.unmarshalBinary_marshalBinary hfits.delegate, ok_bind]
    rw [readVersioned_versionedData hver hfits.tracking rfl rfl rfl rfl]
    rfl
  · cases h
    obtain ⟨hd, hv⟩ : v.delegatingStake = none ∧ v.version = noVer := by
      simpa [hasExtendedData] using hext
    rw [readExtended, if_pos rfl]
    simp [ofBaseData, baseData, normal, getWithdrawalTx, getExitTx, trackedTx, hd, hv]

theorem marshalBinary_eq_ok (h : v.marshalBinary = .ok bin) :
    ∃ base ext, v.baseData.encodeToBytes = .ok base ∧ v.extendedData = .ok ext ∧
      bin = v.address.bytes ++ (lengthPrefixed base ++ ext) := by
  obtain ⟨base, hbase, h⟩ := bind_eq_ok.1 h
  obtain ⟨ext, hext, h⟩ := bind_eq_ok.1 h
  exact ⟨base, ext, hbase, hext, (Except.ok.inj h).symm⟩

/-- A record that was written is read back in its normal form. -/
theorem unmarshalBinary_marshalBinary (h : v.marshalBinary = .ok bin) (hfits : v.Fits) :
    unmarshalBinary bin = .ok v.normal := by
  obtain ⟨base, ext, hbase, hext, hbin⟩ := marshalBinary_eq_ok h
  rw [hbin]
  have hlen := hfits.base base hbase
  rw [unmarshalBinary, if_neg (by simp), drop_left' v.address.length_bytes,
    take_left' v.address.length_bytes, takePart_lengthPrefixed _ hlen, ok_bind]
  simp only [RlpBaseValidator.decodeBytes_of_encodeToBytes hbase (by omega), ok_bind,
    addressOfBytes_bytes]
  exact readExtended_extendedData hext hfits

theorem take_of_marshalBinary (h : v.marshalBinary = .ok bin) :
    20 ≤ bin.length ∧ bin.take 20 = v.address.bytes := by
  obtain ⟨base, ext, -, -, hbin⟩ := marshalBinary_eq_ok h
  rw [hbin]
  exact ⟨by simp, take_left' v.address.length_bytes⟩

theorem address_of_readVersioned (h : v.readVersioned b = .ok w) : w.address = v.address := by
  simp only [readVersioned] at h
  split_ifs at h
  · cases h; rfl
  · obtain ⟨t, -, h⟩ := bind_eq_ok.1 h
    cases h; rfl

theorem address_of_readExtended (h : v.readExtended b = .ok w) : w.address = v.address := by
  rw [readExtended] at h
  split_ifs at h
  · cases h; rfl
  · obtain ⟨⟨delegate, versioned⟩, -, h⟩ := bind_eq_ok.1 h
    obtain ⟨d, -, h⟩ := bind_eq_ok.1 h
    exact (address_of_readVersioned h :)

theorem address_of_unmarshalBinary (h : unmarshalBinary bin = .ok v) :
    20 ≤ bin.length ∧ bin.take 20 = v.address.bytes := by
  rw [unmarshalBinary] at h
  split_ifs at h with hlen
  obtain ⟨⟨base, ext⟩, -, h⟩ := bind_eq_ok.1 h
  obtain ⟨b, -, h⟩ := bind_eq_ok.1 h
  have haddr : v.address = addressOfBytes (bin.take 20) := address_of_readExtended h
  refine ⟨not_lt.1 hlen, ?_⟩
  rw [haddr, bytes_addressOfBytes (by rw [length_take]; omega)]

theorem exists_marshalBinary (hstake : ∀ e ∈ v.stake, 0 ≤ e.sum)
    (hversion : v.version = noVer ∨ v.version = ver1) : ∃ bin, v.marshalBinary = .ok bin := by
  have hitem : ∀ e ∈ v.baseData.stake, ∃ x, RlpBaseValidator.stakeItem e = .ok x :=
    fun e he => ⟨_, if_neg (not_lt.2 (hstake e he))⟩
  obtain ⟨items, hitems⟩ := exists_mapM_eq_ok hitem
  obtain ⟨versioned, hver⟩ : ∃ b, v.versionedData = .ok b := by
    rw [versionedData]
    split_ifs <;> simp_all
  obtain ⟨ext, hext⟩ : ∃ b, v.extendedData = .ok b := by
    rw [extendedData, hver]
    split_ifs <;> exact ⟨_, rfl⟩
  refine ⟨v.address.bytes ++ (lengthPrefixed (encode (v.baseData.item items)) ++ ext), ?_⟩
  rw [marshalBinary, RlpBaseValidator.encodeToBytes, hitems, hext]
  rfl

/-- Stored records survive a write and a read: a record without a version or of version 1,
    whose stakes are not negative and whose parts are shorter than 2^32 bytes, is written with
    its address in front and read back in its normal form. -/
theorem record_survives (v : Validator) (hstake : ∀ e ∈ v.stake, 0 ≤ e.sum)
    (hversion : v.version = noVer ∨ v.version = ver1) (hfits : v.Fits) :
    ∃ bin, v.marshalBinary = .ok bin ∧ unmarshalBinary bin = .ok v.normal ∧
      bin.take 20 = v.address.bytes := by
  obtain ⟨bin, hbin⟩ := exists_marshalBinary hstake hversion
  exact ⟨bin, hbin, unmarshalBinary_marshalBinary hbin hfits, (take_of_marshalBinary hbin).2⟩

/-! ## Size -/

theorem length_encode_stakeItem {s : StakeByAddress} {x : Item} (hs : s.sum < 2 ^ 256)
    (h : RlpBaseValidator.stakeItem s = .ok x) : (encode x).length ≤ 79 := by
  rw [RlpBaseValidator.stakeItem] at h
  split_ifs at h with hneg
  obtain rfl := Except.ok.inj h
  have hsum : (beBytes s.sum.toNat).length ≤ 32 := length_beBytes_le (by omega)
  have haddr := @length_encodeString_le 20 s.address.bytes (by simp) (by norm_num)
  have hnum := length_encodeString_le hsum (by norm_num)
  refine length_encodeList_le (n := 70) ?_ (by norm_num)
  simp only [encodeItems, encode, addressItem, Item.ofNat, length_append, length_nil]
  omega

theorem length_encodeItems_stake {stake : List StakeByAddress} {items : List Item}
    (h : stake.mapM RlpBaseValidator.stakeItem = .ok items) (hsum : ∀ e ∈ stake, e.sum < 2 ^ 256) :
    (encodeItems items).length ≤ 79 * stake.length := by
  rw [(forall₂_of_mapM h).length_eq]
  refine length_encodeItems_le fun x hx => ?_
  obtain ⟨s, hs, hx⟩ := (mem_mapM_eq_ok h).1 hx
  exact length_encode_stakeItem (hsum s hs) hx

theorem length_encode_uint64Item (n : UInt64) : (encode (uint64Item n)).length ≤ 17 := by
  exact length_encodeString_le (length_beBytes_le (by simpa using n.toNat_lt)) (by norm_num)

theorem length_encode_hashItem (h : Hash) : (encode (hashItem h)).length ≤ 41 := by
  exact length_encodeString_le h.length_bytes.le (by norm_num)

theorem fits_of_le (hstake : v.stake.length ≤ 2 ^ 24) (hsum : ∀ e ∈ v.stake, e.sum < 2 ^ 256)
    (htxs : v.depositTxs.length ≤ 2 ^ 24)
    (hdelegate : (DelegatingStakeData.marshalBinary v.delegatingStake).length < 2 ^ 32) :
    v.Fits where
  delegate := hdelegate
  base b hb := by
    obtain ⟨items, hitems, hbin⟩ := RlpBaseValidator.encodeToBytes_eq_ok hb
    have hkey := @length_encodeString_le 48 v.pubKey.bytes v.pubKey.length_bytes.le (by norm_num)
    have haddr := @length_encodeString_le 20 (v.withdrawalAddress.getD 0).bytes (by simp)
      (by norm_num)
    have hindex := length_encode_uint64Item v.index
    have hact := length_encode_uint64Item v.activationEra
    have hexit := length_encode_uint64Item v.exitEra
    have hitems' := length_encodeItems_stake hitems hsum
    have hlist := length_encodeList_le hitems' (by simp only [baseData]; omega)
    rw [hbin, RlpBaseValidator.item, encode]
    refine lt_of_le_of_lt (length_encodeList_le (n := 2 ^ 31) ?_ (by norm_num)) (by norm_num)
    simp only [encodeItems, encode, addressItem, baseData, length_append, length_nil] at hlist ⊢
    omega
  tracking := by
    have htx := @length_encodeItems_le 41 (v.depositTxs.map hashItem) fun x hx => by
      obtain ⟨h, -, rfl⟩ := mem_map.1 hx
      exact length_encode_hashItem h
    rw [length_map] at htx
    have hlist := length_encodeList_le htx (by omega)
    have hw := length_encode_hashItem (v.getWithdrawalTx.getD 0)
    have he := length_encode_hashItem (v.getExitTx.getD 0)
    refine lt_of_le_of_lt (length_encodeList_le (n := 2 ^ 30) ?_ (by norm_num)) (by norm_num)
    simp only [encodeItems, encode, dataVer1, length_append, length_nil] at hlist ⊢
    omega

/-- A record of the given version with two deposits and a pending withdrawal. -/
def trackedRecord (version : UInt16) : Validator :=
  { newValidator 7 12 (some 9) with
    stake := [⟨3, 10 * bigWat⟩]
    version := version
    depositTxs := [5, 6, 5]
    withdrawalTx := some 4 }

/-- A record of version 1 with a repeated deposit is read back with one of each. -/
theorem record_survives_tracked : ∃ bin v, (trackedRecord ver1).marshalBinary = .ok bin ∧
    unmarshalBinary bin = .ok v ∧ v = { trackedRecord ver1 with depositTxs := [5, 6] } ∧
    bin.take 20 = (trackedRecord ver1).address.bytes := by
  have hfits : (trackedRecord ver1).Fits := fits_of_le (by decide) (by decide) (by decide)
    (by decide)
  obtain ⟨bin, hbin, hread, htake⟩ := record_survives (trackedRecord ver1) (by decide) (.inr rfl)
    hfits
  exact ⟨bin, _, hbin, hread, by decide, htake⟩

/-- Without a version the deposits and the pending withdrawal of a record are not written, and
    RLP has no negative stakes. -/
theorem unversioned_tracking_lost : (∃ bin, (trackedRecord noVer).marshalBinary = .ok bin ∧
      ∃ v, unmarshalBinary bin = .ok v ∧ v.depositTxs = [] ∧ v.withdrawalTx = none) ∧
    { trackedRecord ver1 with stake := [⟨3, -1⟩] }.marshalBinary = .error errNegativeBigInt := by
  decide +kernel

/-- A record with room for one more stake and one more deposit. -/
structure Small (v : Validator) : Prop where
  stake : v.stake.length < 2 ^ 24
  sums : ∀ e ∈ v.stake, e.sum < 2 ^ 255
  depositTxs : v.depositTxs.length < 2 ^ 24
  delegate : (DelegatingStakeData.marshalBinary v.delegatingStake).length < 2 ^ 32

instance (v : Validator) : Decidable v.Small :=
  decidable_of_iff (_ ∧ _ ∧ _ ∧ _)
    ⟨fun ⟨h1, h2, h3, h4⟩ => ⟨h1, h2, h3, h4⟩, fun h => ⟨h.1, h.2, h.3, h.4⟩⟩

theorem Small.fits {v' : Validator} (h : v.Small) (hstake : v'.stake.length ≤ v.stake.length + 1)
    (hsum : ∀ e ∈ v'.stake, e.sum < 2 ^ 256) (htxs : v'.depositTxs.length ≤ v.depositTxs.length + 1)
    (hdelegate : v'.delegatingStake = v.delegatingStake) : v'.Fits := by
  have h1 := h.stake
  have h2 := h.depositTxs
  exact fits_of_le (by omega) hsum (by omega) (hdelegate ▸ h.delegate)

end Validator

theorem getValidator_of_marshalBinary {s : StateDB} {a : Address} {v : Validator} {bin : Bytes}
    (h : v.marshalBinary = .ok bin) (hfits : v.Fits) (hcode : s.getCode a = bin) :
    getValidator .binary s a = .ok v.normal := by
  have hne : bin ≠ [] := by
    rintro rfl
    simpa using (Validator.take_of_marshalBinary h).1
  rw [getValidator, hcode, if_neg hne, mapError_eq_ok]
  exact Validator.unmarshalBinary_marshalBinary h hfits

end Gwat
