/-
  Recognising tokens (`Properties` and `IsToken` of `token/processor.go`).
-/
import Gwat.Token.NoCrash

namespace Gwat.Token

open GoLib ByteProg List Encoding Mem FieldDescriptor

/-! ## Properties -/

/-- The part of `WRC721PropertiesResult` about one token. -/
structure TokenProperties where
  tokenURI : Bytes
  ownerOf : Address
  getApproved : Address
  metadata : Bytes
  cost : ℕ
  deriving DecidableEq, Repr

/-- `WRC20PropertiesResult` and `WRC721PropertiesResult` -/
inductive PropertiesResult where
  | wrc20 (name symbol : Bytes) (decimals : UInt8) (totalSupply cost : ℕ)
  | wrc721 (name symbol baseURI : Bytes) (percentFee : UInt8) (ofToken : Option TokenProperties)
  deriving DecidableEq, Repr

def concatTokenURI (baseURI : Bytes) (tokenId : ℤ) : Bytes :=
  baseURI ++ textBytes "/" ++ textBytes (toString tokenId)

namespace Processor

variable (p : Processor)

/-- The properties of one token. -/
def tokenProperties (storage : Storage) (baseURI : Bytes) (id : ℤ) :
    StorageProg TokenProperties := do
  let ownerOf ← p.readAddressFromMap storage ownersField (.bytes (bigBytes id))
  ofExcept (failIf (ownerOf = 0) .notMinted)
  let metadata ← storage.readFromMap p.keccak256 decodeBytes metadataField
    (.bytes (bigBytes id))
  let getApproved ← p.readAddressFromMap storage tokenApprovalsField (.bytes (bigBytes id))
  let uint256Id ← ofExcept (fromBigChecked id)
  let cost ← p.readUint256 storage costMapField (.uint256 uint256Id)
  return ⟨concatTokenURI baseURI id, ownerOf, getApproved, metadata, cost⟩

/-- `Properties`, after the account was found to exist. -/
def properties (tokenId : Option ℤ) : StorageProg PropertiesResult := do
  let (storage, standard) ← newStorageWithoutStdCheck
  let name ← storage.readField decodeBytes nameField
  let symbol ← storage.readField decodeBytes symbolField
  if standard = stdWRC20 then do
    let decimals ← storage.readField decodeUint8 decimalsField
    let totalSupply ← storage.readField decodeUint256 totalSupplyField
    let cost ← storage.readField decodeUint256 costField
    return .wrc20 name symbol decimals totalSupply cost
  else if standard = stdWRC721 then do
    let baseURI ← storage.readField decodeBytes baseUriField
    let percentFee ← storage.readField decodeUint8 percentFeeField
    match tokenId with
    | none => return .wrc721 name symbol baseURI percentFee none
    | some id => do
      let props ← p.tokenProperties storage baseURI id
      return .wrc721 name symbol baseURI percentFee (some props)
  else .fail .standardNotValid

/-- `IsToken`; there is no properties operation for the zero address. -/
def isToken (s : StateDB) (token : Address) : Except TokenError Bool :=
  if s.exist token = false then .ok false
  else if token = 0 then .ok false
  else match (p.properties none).run stream (newStorageStream token s) with
    | .ok _ => .ok true
    | .error .panic => .error .panic
    | .error _ => .ok false

end Processor

/-- `IsToken` panics where reading the properties does. -/
theorem avoids_isToken {p : Processor} {s : StateDB} {token : Address} :
    Avoids .panic (p.isToken s token) ↔ (s.exist token = true → token ≠ 0 →
      Avoids .panic ((p.properties none).run storageArray (storageBytes s token))) := by
  have hview := run_refines stream_refines (p.properties none) (newStorageStream token s)
  rw [view_newStorageStream] at hview
  rw [← hview, Processor.isToken]
  split_ifs with hexist hzero
  · simp [hexist]
  · simp [hzero]
  · have hexist' : s.exist token = true := by simpa using hexist
    simp only [hexist', forall_const, hzero, ne_eq, not_false_eq_true]
    rcases (p.properties none).run stream (newStorageStream token s) with e | r
    · cases e <;> simp [Except.map]
    · simp [Except.map]

/-! ## Headers that do not parse -/

/-- The properties at `pos` break off: where a type is expected, the byte is none. -/
inductive Broken (m : Mem) : ℕ → Prop
  | type {pos} : pos < storageSize → mapId < m pos → Broken m pos
  | array {pos} : m pos = arrayId → Broken m (pos + 9) → Broken m pos
  | slice {pos} : m pos = sliceId → Broken m (pos + 1) → Broken m pos
  | key {pos} : m pos = mapId → Broken m (pos + 1) → Broken m pos
  | value {pos} {kp : ValueProperties} : m pos = mapId → kp.Typed → m.Holds (pos + 1) kp.marshalBinary →
      Broken m (pos + 1 + kp.propertiesSize) → Broken m pos

variable {m : Mem} {pos : ℕ}

theorem Broken.lt (h : Broken m pos) : pos < storageSize := by
  induction h with
  | type hlt _ => exact hlt
  | _ => omega

theorem run_calculatePropsEnd (fuel : ℕ) (h : pos < storageSize) :
    (calculatePropsEnd (fuel + 1) pos).run storageArray m =
      (if isScalar (m pos) then return (pos : ℤ) + 1 + 1
        else if isArray (m pos) then calculatePropsEnd fuel (((pos + 9 : ℕ) : ℤ))
        else if isSlice (m pos) then calculatePropsEnd fuel (((pos + 1 : ℕ) : ℤ))
        else if isMap (m pos) then
          calculatePropsEnd fuel (((pos + 1 : ℕ) : ℤ)) >>= calculatePropsEnd fuel
        else .fail .wrongType : StorageProg ℤ).run storageArray m := by
  have hread := @ValueProperties.run_readByte m (m pos) pos rfl h
  have hnine : ((pos + 1 : ℕ) : ℤ) + 8 = ((pos + 9 : ℕ) : ℤ) := by push_cast; ring
  have hone : (pos : ℤ) + 1 = ((pos + 1 : ℕ) : ℤ) := by push_cast; ring
  rw [calculatePropsEnd, run_bind, hread, ok_bind]
  simp only [headD_cons, hone, hnine]

theorem calculatePropsEnd_of_broken (h : Broken m pos) : ∀ fuel, storageSize ≤ pos + fuel →
      (calculatePropsEnd fuel pos).run storageArray m = .error .wrongType := by
  induction h with
  | @type pos hlt htype =>
    rintro (_ | fuel) hfuel
    · omega
    have hscalar : isScalar (m pos) = false :=
      decide_eq_false (UInt8.not_lt.2 (UInt8.le_trans (by decide : arrayId ≤ mapId)
        (UInt8.le_of_lt htype)))
    have hother : isArray (m pos) = false ∧ isSlice (m pos) = false ∧ isMap (m pos) = false := by
      and_intros <;> exact decide_eq_false fun heq => absurd (heq ▸ htype) (by decide)
    rw [run_calculatePropsEnd fuel hlt, hscalar, hother.1, hother.2.1, hother.2.2]
    rfl
  | @array pos hid hsub ih | @slice pos hid hsub ih =>
    rintro (_ | fuel) hfuel
    · exact absurd hsub.lt (by omega)
    have hlt := hsub.lt
    rw [run_calculatePropsEnd fuel (by omega), hid]
    exact ih fuel (by omega)
  | @key pos hid hsub ih =>
    rintro (_ | fuel) hfuel
    · exact absurd hsub.lt (by omega)
    have hlt := hsub.lt
    rw [run_calculatePropsEnd fuel (by omega), hid]
    change (calculatePropsEnd fuel (((pos + 1 : ℕ) : ℤ)) >>= calculatePropsEnd fuel).run
      storageArray m = _
    rw [run_bind, ih fuel (by omega)]
    rfl
  | @value pos kp hid htyped hkp hsub ih =>
    rintro (_ | fuel) hfuel
    · exact absurd hsub.lt (by omega)
    have hlt := hsub.lt
    rw [run_calculatePropsEnd fuel (by omega), hid]
    change (calculatePropsEnd fuel (((pos + 1 : ℕ) : ℤ)) >>= calculatePropsEnd fuel).run
      storageArray m = _
    rw [run_bind, kp.calculatePropsEnd_of_holds fuel (pos + 1) htyped (by omega) (by omega) hkp,
      ok_bind]
    exact ih fuel (by omega)

/-! ## Headers of sane size -/

/-- The `count` fields described from `pos` on, as far as they can be read: the properties of
    each end within 2^40 bytes, or break off. -/
def DescriptorsEnd (m : Mem) : ℕ → ℕ → Prop
  | 0, _ => True
  | count + 1, pos =>
    Broken m (pos + 1 + (m pos).toNat) ∨
      ∃ vp : ValueProperties, vp.Typed ∧ vp.propertiesSize ≤ 2 ^ 40 ∧
        m.Holds (pos + 1 + (m pos).toNat) vp.marshalBinary ∧
        DescriptorsEnd m count (pos + 1 + (m pos).toNat + vp.propertiesSize)

/-- The header is not larger than any storage that a node can hold. -/
structure HeaderEnds (m : Mem) : Prop where
  descriptors : DescriptorsEnd m (m 2).toNat 3

section
variable {m : Mem} {pos : ℕ}

theorem readDescriptor_of_broken (h : Broken m (pos + 1 + (m pos).toNat)) :
    (readDescriptor pos).run storageArray m = .error .wrongType := by
  have hlt := h.lt
  have hname : (read (m pos).toNat ((pos : ℤ) + 1)).run storageArray m =
      .ok (m.read (pos + 1) (m pos).toNat, m) := by
    rw [storageArray, show (pos : ℤ) + 1 = ((pos + 1 : ℕ) : ℤ) by push_cast; ring,
      run_read_of_le (by omega)]
  have hpos : (pos : ℤ) + 1 + (m pos).toNat = ((pos + 1 + (m pos).toNat : ℕ) : ℤ) := by
    push_cast; ring
  have hend := calculatePropsEnd_of_broken h (storageSize + 1) (by omega)
  rw [readDescriptor, run_bind, @ValueProperties.run_readByte m (m pos) pos rfl (by omega), ok_bind]
  simp only [headD_cons]
  rw [run_bind, hname, ok_bind, run_bind, hpos, hend]
  rfl

/-- The descriptor at `pos`, whose properties are known. -/
theorem holds_descriptor {vp : ValueProperties}
    (h : m.Holds (pos + 1 + (m pos).toNat) vp.marshalBinary) :
    m.Holds pos (marshalBinary ⟨m.read (pos + 1) (m pos).toNat, vp⟩) := by
  rw [marshalBinary, length_read, UInt8.ofNat_toNat]
  refine Mem.holds_cons.2 ⟨rfl, Mem.holds_append.2 ⟨?_, ?_⟩⟩
  · rw [Mem.Holds, length_read]
  · rwa [length_read]

theorem readDescriptors_of_end : ∀ {count pos : ℕ}, DescriptorsEnd m count pos →
    pos + count * (2 ^ 40 + 256) ≤ 2 ^ 48 →
    (readDescriptors count pos).run storageArray m = .error .wrongType ∨
      ∃ fds : List FieldDescriptor, fds.length = count ∧ (∀ fd ∈ fds, fd.WellFormed) ∧
        (fds.map size).sum ≤ count * (2 ^ 40 + 256) ∧
        m.Holds pos (fds.flatMap marshalBinary)
  | 0, pos, _, _ => .inr ⟨[], rfl, by simp, by simp, rfl⟩
  | count + 1, pos, .inl hbroken, _ => by
    refine .inl ?_
    rw [readDescriptors, run_bind, readDescriptor_of_broken hbroken]
    rfl
  | count + 1, pos, .inr ⟨vp, htyped, hsize, hvp, hend⟩, hpos => by
    have hbyte : (m pos).toNat < 256 := (m pos).toNat_lt
    have hfd := holds_descriptor hvp
    have hname : (m.read (pos + 1) (m pos).toNat).length ≤ 255 := by rw [length_read]; omega
    have hread := run_readDescriptor hname htyped
      (by simp only [size, length_read]; omega) hfd
    rw [unmarshalBinary_marshalBinary hname htyped] at hread
    by_cases hwf : vp.WellFormed
    · have hfdwf : FieldDescriptor.WellFormed ⟨m.read (pos + 1) (m pos).toNat, vp⟩ :=
        ⟨hname, hwf⟩
      have hnext : pos + size ⟨m.read (pos + 1) (m pos).toNat, vp⟩ =
          pos + 1 + (m pos).toNat + vp.propertiesSize := by
        simp only [size, length_read]
        omega
      rw [if_pos hwf, hnext] at hread
      rcases readDescriptors_of_end hend (by omega) with herr | ⟨fds, hlen, hfds, hsum, hholds⟩
      · refine .inl ?_
        rw [readDescriptors, run_bind, hread]
        change ((readDescriptors count _) >>= _).run storageArray m = _
        rw [run_bind, herr]
        rfl
      · refine .inr ⟨⟨m.read (pos + 1) (m pos).toNat, vp⟩ :: fds, by rw [length_cons, hlen],
          forall_mem_cons.2 ⟨hfdwf, hfds⟩, ?_, ?_⟩
        · simp only [map_cons, sum_cons, size, length_read]
          omega
        · rw [flatMap_cons, holds_append, length_marshalBinary, hnext]
          exact ⟨hfd, hholds⟩
    · refine .inl ?_
      rw [if_neg hwf] at hread
      rw [readDescriptors, run_bind, hread]
      rfl

end

/-! ## Opening the storage -/

variable {info info' : FieldInfo} {enc : Encoding}

theorem avoids_getDefaultEncoding (vp : ValueProperties) : Avoids .panic (getDefaultEncoding vp) := by
  cases vp <;> simp [getDefaultEncoding]

theorem avoids_newFieldEntry (info : FieldInfo) : Avoids .panic (newFieldEntry info) := by
  rcases info with ⟨⟨name, vp⟩, off, len⟩
  cases vp with
  | map kp vp =>
    refine (avoids_getDefaultEncoding kp).bind fun _ => ?_
    refine (avoids_getDefaultEncoding vp).bind fun _ => ?_
    unfold newByteMap
    split_ifs <;> simp
  | _ => exact (avoids_getDefaultEncoding _).bind fun _ => avoids_ok _

theorem info_of_newFieldEntry (h : newFieldEntry info = .ok (.field info' enc)) : info' = info := by
  rcases info with ⟨⟨name, vp⟩, off, len⟩
  cases vp with
  | map kp vp =>
    obtain ⟨key, -, h⟩ := bind_eq_ok.1 h
    obtain ⟨value, -, h⟩ := bind_eq_ok.1 h
    obtain ⟨byteMap, -, h⟩ := bind_eq_ok.1 h
    cases h
  | _ =>
    cases h
    rfl

theorem avoids_fillFields (infos : List FieldInfo) : Avoids .panic (fillFields infos) := by
  unfold fillFields
  generalize (∅ : Storage) = fields
  induction infos generalizing fields with
  | nil => exact avoids_ok _
  | cons info infos ih =>
    exact ((avoids_newFieldEntry info).bind fun _ => avoids_ok _).bind fun _ => ih _

theorem mem_of_fillFields {infos : List FieldInfo} {st : Storage} {name : Bytes}
    (h : fillFields infos = .ok st) (hlookup : st.lookup name = some (.field info enc)) :
    info ∈ infos := by
  have hloop : ∀ (infos : List FieldInfo) (fields : Storage), infos.foldlM (fun fields info => do
        let entry ← newFieldEntry info
        return fields.insert info.descriptor.name entry) fields = .ok st →
      info ∈ infos ∨ fields.lookup name = some (.field info enc) := by
    intro infos
    induction infos with
    | nil =>
      intro fields h
      cases h
      exact .inr hlookup
    | cons info' infos ih =>
      intro fields h
      obtain ⟨fields', hstep, h⟩ := bind_eq_ok.1 h
      obtain ⟨entry, hentry, hstep⟩ := bind_eq_ok.1 hstep
      cases hstep
      rcases ih _ h with hmem | hfound
      · exact .inl (mem_cons_of_mem _ hmem)
      by_cases hname : name = info'.descriptor.name
      · subst hname
        rw [AList.lookup_insert] at hfound
        cases hfound
        exact .inl (by simp [info_of_newFieldEntry hentry])
      · exact .inr (by rwa [AList.lookup_insert_ne hname] at hfound)
  rcases hloop infos ∅ h with hmem | hfound
  · exact hmem
  · cases hfound

theorem offset_lt_of_mem : ∀ {fds : List FieldDescriptor} {start : UInt64} {info : FieldInfo},
    info ∈ fieldsWithOffset start fds → info.offset < 2 ^ 63
  | fd :: fds, start, info, h => by
    rcases mem_cons.1 h with rfl | h
    · have := start.toNat_lt
      simp only [int64OfUint64]
      split_ifs <;> omega
    · exact offset_lt_of_mem h

/-- The storage that the header declares. -/
def Opened (m : Mem) (st : Storage) : Prop :=
  ∃ fds, Declares m fds ∧
    fillFields (fieldsWithOffset (UInt64.ofNat (headerSize fds)) fds) = .ok st

section
variable {m : Mem} {st : Storage}

theorem Opened.offset_lt {name : Bytes} (h : Opened m st)
    (hlookup : st.lookup name = some (.field info enc)) : info.offset < 2 ^ 63 := by
  obtain ⟨fds, -, hfill⟩ := h
  exact offset_lt_of_mem (mem_of_fillFields hfill hlookup)

theorem Opened.run_readStorage (h : Opened m st) :
    readStorage.run storageArray m = .ok (st, m) := by
  obtain ⟨fds, hfds, hfill⟩ := h
  rw [readStorage, run_bind, readFromStream_of_declares hfds, ok_bind, run_ofExcept, hfill]
  rfl

theorem readStorage_of_headerEnds (h : HeaderEnds m) :
    (∃ st, Opened m st) ∨ ∃ e, e ≠ .panic ∧ readStorage.run storageArray m = .error e := by
  have hbyte : (m 2).toNat < 256 := (m 2).toNat_lt
  rcases readDescriptors_of_end h.descriptors (by omega) with herr | ⟨fds, hlen, hwf, hsum, hholds⟩
  · refine .inr ⟨.wrongType, nofun, ?_⟩
    have hread := run_readFromStream m
    rw [show (3 : ℤ) = ((3 : ℕ) : ℤ) from rfl, herr] at hread
    rw [readStorage, run_bind, hread]
    rfl
  · have hfds : Declares m fds := ⟨hwf, by unfold headerSize; omega, hlen.symm, hholds⟩
    rcases hfill : fillFields (fieldsWithOffset (UInt64.ofNat (headerSize fds)) fds) with e | st
    · refine .inr ⟨e, fun he => avoids_fillFields _ (hfill.trans (congrArg _ he)), ?_⟩
      rw [readStorage, run_bind, readFromStream_of_declares hfds, ok_bind, run_ofExcept, hfill]
      rfl
    · exact .inl ⟨st, fds, hfds, hfill⟩

end

/-! ## Reading the fields -/

/-- What `Properties` decodes fields to. -/
inductive Target where
  | std
  | bytes
  | uint8
  | uint256
  deriving DecidableEq, Repr

namespace Target

/-- The decoder takes `n` bytes. -/
def Accepts : Target → Encoding → ℕ → Prop
  | std, e, n => e = .array ∧ 2 ≤ n
  | bytes, e, _ => e = .array
  | uint8, e, n => e = .scalar ∧ 0 < n
  | uint256, e, n => e = .array → n = 0

/-- The decoder indexes beyond `n` bytes, or appends to an array. -/
def Overruns : Target → Encoding → ℕ → Prop
  | std, e, n => e = .array ∧ n < 2
  | bytes, _, _ => False
  | uint8, e, n => e = .scalar ∧ n = 0
  | uint256, e, n => e = .array ∧ n % 8 = 0 ∧ n ≠ 0

/-- The decoder of a target succeeds and panics by the encoding and the length only. -/
structure Decoder {α : Type} (t : Target) (decode : Encoding → Bytes → Except TokenError α) :
    Prop where
  accepts : ∀ e b, t.Accepts e b.length ↔ ∃ a, decode e b = .ok a
  overruns : ∀ e b, t.Overruns e b.length ↔ decode e b = .error .panic

theorem decoder_bytes : Decoder bytes decodeBytes where
  accepts e b := by cases e <;> simp [Accepts, decodeBytes]
  overruns e b := by cases e <;> simp [Overruns, decodeBytes, mismatch]

theorem decoder_uint8 : Decoder uint8 decodeUint8 where
  accepts e b := by cases e <;> cases b <;> simp [Accepts, decodeUint8]
  overruns e b := by cases e <;> cases b <;> simp [Overruns, decodeUint8, mismatch]

theorem decoder_uint256 : Decoder uint256 decodeUint256 where
  accepts e b := by
    cases e with
    | uint256 | scalar => simp [Accepts, decodeUint256]
    | array =>
      rw [Accepts, decodeUint256]
      split_ifs with hmod hnil
      · simpa using fun hb => hmod (by rw [hb]; rfl)
      all_goals simp_all
  overruns e b := by
    cases e with
    | uint256 | scalar => simp [Overruns, decodeUint256]
    | array =>
      rw [Overruns, decodeUint256]
      split_ifs <;> simp_all

/-- The standard is decoded from the bytes of its field. -/
def decodeStd (e : Encoding) (b : Bytes) : Except TokenError Std := do
  let stdB ← e.decodeBytes b
  stdUnmarshal stdB

theorem decoder_std : Decoder std decodeStd where
  accepts e b := by
    cases e <;> rcases b with _ | ⟨x, _ | ⟨y, b⟩⟩ <;>
      simp [Accepts, decodeStd, decodeBytes, stdUnmarshal]
  overruns e b := by
    cases e <;> rcases b with _ | ⟨x, _ | ⟨y, b⟩⟩ <;>
      simp [Overruns, decodeStd, decodeBytes, mismatch, stdUnmarshal]

end Target

/-- The field is too large for memory, or too short for its decoder. -/
def Crashes (st : Storage) (f : Bytes × Target) : Prop :=
  ∃ info enc, st.lookup f.1 = some (.field info enc) ∧
    (2 ^ 48 < info.length.toNat ∨ 0 ≤ info.offset ∧ f.2.Overruns enc info.length.toNat)

/-- The field is read. -/
def Reads (st : Storage) (f : Bytes × Target) : Prop :=
  ∃ info enc, st.lookup f.1 = some (.field info enc) ∧
    info.length.toNat ≤ 2 ^ 48 ∧ 0 ≤ info.offset ∧ f.2.Accepts enc info.length.toNat

/-- The fields are read in their order until one is refused, and none crashes. -/
def SafeReads (st : Storage) : List (Bytes × Target) → Prop
  | [] => True
  | f :: fs => ¬ Crashes st f ∧ (Reads st f → SafeReads st fs)

section
variable {m : Mem} {st : Storage} {name : Bytes} {α β : Type} {t : Target}
  {decode : Encoding → Bytes → Except TokenError α} {key value : Encoding}

theorem run_readField_none (h : st.lookup name = none) :
    (st.readField decode name).run storageArray m = .error .fieldNotFound := by
  rw [Storage.readField, Storage.entry, h]
  rfl

theorem run_readField_map {byteMap : ByteMap} (h : st.lookup name = some (.map byteMap key value)) :
    (st.readField decode name).run storageArray m = .error .keyValuePairExpected := by
  rw [Storage.readField, Storage.entry, h]
  rfl

theorem Opened.run_readField (hst : Opened m st) (h : st.lookup name = some (.field info enc)) :
    (st.readField decode name).run storageArray m =
      if 2 ^ 48 < info.length.toNat then .error .panic
      else if info.offset < 0 then .error .invalidOff
      else (decode enc (m.read info.offset.toNat info.length.toNat)).map fun a => (a, m) := by
  have hlt := hst.offset_lt h
  have hstorage : 2 ^ 63 + 2 ^ 48 ≤ storageSize := by unfold storageSize; norm_num
  rw [Storage.readField, Storage.entry, h]
  change (info.readBytes >>= fun buf => ofExcept (decode enc buf)).run storageArray m = _
  rw [FieldInfo.readBytes, makeBytes]
  split_ifs with hlen hoff
  · rfl
  · rw [bind_assoc, run_bind, run_pure, ok_bind, run_bind, run_read, storageArray, device]
    simp only [if_pos hoff]
    rfl
  · rw [bind_assoc, run_bind, run_pure, ok_bind, run_bind, run_read, storageArray, device]
    simp only [if_neg hoff]
    rw [if_neg (by omega), ok_bind, run_ofExcept]

theorem Opened.avoids_readField_bind {k : α → StorageProg β} {Q : Prop} (hst : Opened m st)
    (ht : t.Decoder decode) (hk : ∀ info enc a, st.lookup name = some (.field info enc) →
      decode enc (m.read info.offset.toNat info.length.toNat) = .ok a →
      (Avoids .panic ((k a).run storageArray m) ↔ Q)) :
    Avoids .panic ((st.readField decode name >>= k).run storageArray m) ↔
      ¬ Crashes st (name, t) ∧ (Reads st (name, t) → Q) := by
  rw [run_bind]
  rcases hlookup : st.lookup name with _ | ⟨info, enc⟩ | ⟨byteMap, key, value⟩
  · rw [run_readField_none hlookup]
    simp [Crashes, Reads, hlookup]
  · have hlen := m.length_read info.offset.toNat info.length.toNat
    have haccepts := ht.accepts enc (m.read info.offset.toNat info.length.toNat)
    have hoverruns := ht.overruns enc (m.read info.offset.toNat info.length.toNat)
    have hcrash : Crashes st (name, t) ↔
        2 ^ 48 < info.length.toNat ∨ 0 ≤ info.offset ∧ t.Overruns enc info.length.toNat := by
      simp [Crashes, hlookup]
    have hreads : Reads st (name, t) ↔
        info.length.toNat ≤ 2 ^ 48 ∧ 0 ≤ info.offset ∧ t.Accepts enc info.length.toNat := by
      simp [Reads, hlookup]
    rw [hlen] at haccepts hoverruns
    rw [hst.run_readField hlookup, hcrash, hreads]
    split_ifs with hbig hoff
    · exact iff_of_false (fun h => h rfl) fun h => h.1 (.inl hbig)
    · exact iff_of_true (avoids_error.2 nofun) ⟨fun h => h.elim hbig fun h => not_le.2 hoff h.1,
        fun h => absurd h.2.1 (not_le.2 hoff)⟩
    · simp only [hbig, false_or, not_lt.1 hoff, not_lt.1 hbig, true_and, hoverruns, haccepts]
      rcases hdec : decode enc (m.read info.offset.toNat info.length.toNat) with e | a
      · simp [Except.map]
      · simpa [Except.map] using hk info enc a hlookup hdec
  · rw [run_readField_map hlookup]
    simp [Crashes, Reads, hlookup]

end

/-! ## Recognising tokens -/

/-- The standard that the storage declares. -/
def declaredStd (m : Mem) (st : Storage) : Std :=
  match st.lookup standardField with
  | some (.field info _) => UInt16.ofNat (natOfBytes (m.read info.offset.toNat 2))
  | _ => 0

/-- The fields that `Properties` reads for a standard, in their order. -/
def propertyFields (std : Std) : List (Bytes × Target) :=
  if std = 0 then []
  else [(nameField, .bytes), (symbolField, .bytes)] ++
    if std = stdWRC20 then
      [(decimalsField, .uint8), (totalSupplyField, .uint256), (costField, .uint256)]
    else if std = stdWRC721 then [(baseUriField, .bytes), (percentFeeField, .uint8)]
    else []

/-- The header declares no field that is too large for memory or too short for its decoder,
    among those that are read. -/
def DeclaresSafely (m : Mem) : Prop :=
  ∀ st, Opened m st → SafeReads st ((standardField, .std) :: propertyFields (declaredStd m st))

section
variable {p : Processor} {m : Mem} {st : Storage}

theorem readField_std (name : Bytes) :
    (st.readField decodeBytes name >>= fun stdB => ofExcept (stdUnmarshal stdB)) =
      st.readField Target.decodeStd name := by
  rw [Storage.readField, Storage.readField, Storage.entry]
  rcases st.lookup name with _ | ⟨info, enc⟩ | ⟨byteMap, key, value⟩
  · rfl
  · change (info.readBytes >>= fun buf => ofExcept (enc.decodeBytes buf)) >>= _ =
      info.readBytes >>= fun buf => ofExcept (Target.decodeStd enc buf)
    rw [bind_assoc]
    congr 1
    funext buf
    rw [Target.decodeStd]
    cases enc.decodeBytes buf <;> rfl
  · rfl

theorem stdUnmarshal_read (m : Mem) (off : ℕ) (rest : Bytes) :
    stdUnmarshal (m.read off 2 ++ rest) = .ok (UInt16.ofNat (natOfBytes (m.read off 2))) := by
  simp [Mem.read, range_succ, stdUnmarshal, natOfBytes]

theorem eq_declaredStd {std : Std} (hlookup : st.lookup standardField = some (.field info enc))
    (h : Target.decodeStd enc (m.read info.offset.toNat info.length.toNat) = .ok std) :
    std = declaredStd m st := by
  obtain ⟨stdB, hbytes, h⟩ := bind_eq_ok.1 h
  cases enc with
  | uint256 | scalar => cases hbytes
  | array =>
    cases hbytes
    have haccepts := (Target.decoder_std.accepts .array _).2 ⟨std, h⟩
    obtain ⟨n, hn⟩ := Nat.exists_eq_add_of_le haccepts.2
    rw [length_read] at hn
    rw [hn, read_add, stdUnmarshal_read] at h
    rw [declaredStd, hlookup]
    exact (Except.ok.inj h).symm

/-- The rest of `Properties` reads its fields one after the other. -/
theorem Opened.avoids_properties (hst : Opened m st) :
    Avoids .panic ((p.properties none).run storageArray m) ↔
      SafeReads st ((standardField, .std) :: propertyFields (declaredStd m st)) := by
  have hread : ∀ {α β : Type} {t : Target} {decode : Encoding → Bytes → Except TokenError α}
      {name : Bytes} {k : α → StorageProg β} {Q : Prop}, t.Decoder decode →
      (∀ a, Avoids .panic ((k a).run storageArray m) ↔ Q) →
      (Avoids .panic ((st.readField decode name >>= k).run storageArray m) ↔
        ¬ Crashes st (name, t) ∧ (Reads st (name, t) → Q)) :=
    fun ht hk => hst.avoids_readField_bind ht fun _ _ a _ _ => hk a
  have hend : ∀ {r : PropertiesResult},
      Avoids .panic ((pure r : StorageProg PropertiesResult).run storageArray m) ↔ True :=
    iff_of_true (avoids_ok _) trivial
  rw [Processor.properties, Processor.newStorageWithoutStdCheck]
  simp only [bind_assoc]
  rw [run_bind, hst.run_readStorage, ok_bind]
  rw [← bind_assoc, readField_std]
  refine hst.avoids_readField_bind Target.decoder_std fun info enc std hlookup hdec => ?_
  rw [← eq_declaredStd hlookup hdec, propertyFields]
  by_cases hzero : std = 0
  · rw [failIf_of hzero, if_pos hzero]
    exact iff_of_true (avoids_error.2 (by simp)) trivial
  rw [failIf_of_not hzero, if_neg hzero]
  refine hread Target.decoder_bytes fun name => hread Target.decoder_bytes fun symbol => ?_
  by_cases h20 : std = stdWRC20
  · rw [if_pos h20, if_pos h20]
    exact hread Target.decoder_uint8 fun decimals => hread Target.decoder_uint256 fun totalSupply =>
      hread Target.decoder_uint256 fun cost => hend
  rw [if_neg h20, if_neg h20]
  by_cases h721 : std = stdWRC721
  · rw [if_pos h721, if_pos h721]
    exact hread Target.decoder_bytes fun baseURI => hread Target.decoder_uint8 fun percentFee => hend
  · rw [if_neg h721, if_neg h721]
    exact iff_of_true (avoids_error.2 (by simp)) trivial

end

/-- **`IsToken` on any storage.**  It panics exactly if the account exists and its header
    declares a field that `Properties` reads as larger than memory or as too short. -/
theorem isToken_avoids_panic_iff {p : Processor} {s : StateDB} {token : Address}
    (hends : HeaderEnds (storageBytes s token)) :
    Avoids .panic (p.isToken s token) ↔
      (s.exist token = true → token ≠ 0 → DeclaresSafely (storageBytes s token)) := by
  rw [avoids_isToken]
  refine forall_congr' fun _ => forall_congr' fun _ => ⟨fun h st hst => ?_, fun h => ?_⟩
  · exact hst.avoids_properties.1 h
  · rcases readStorage_of_headerEnds hends with ⟨st, hst⟩ | ⟨e, he, hrun⟩
    · exact hst.avoids_properties.2 (h st hst)
    · rw [Processor.properties, Processor.newStorageWithoutStdCheck]
      simp only [bind_assoc]
      rw [run_bind, hrun]
      exact avoids_error.2 he

/-- An account whose storage starts with the header of one field, `Standard`, of 2^64 - 1
    bytes. -/
def oversized : StateDB :=
  (StateDB.empty.addBalance 7 1).setState 7 0 (hashOfBytes
    ([0, 1, 1, 8] ++ standardField ++ [3, 255, 255, 255, 255, 255, 255, 255, 255, 1, 1] ++
      List.replicate 9 0))

theorem oversized_panics : Processor.spaced.isToken oversized 7 = .error .panic := by
  decide +kernel

/-- An account whose header declares one field, `Standard`, of two bytes, which hold 20. -/
def onlyStandard : StateDB :=
  (StateDB.empty.addBalance 7 1).setState 7 0 (hashOfBytes
    ([0, 1, 1, 8] ++ standardField ++ [3, 0, 0, 0, 0, 0, 0, 0, 2, 1, 1] ++ [0, 20] ++
      List.replicate 7 0))

/-- The standard is read, and the name is not found. -/
theorem onlyStandard_avoids_panic :
    HeaderEnds (storageBytes onlyStandard 7) ∧ DeclaresSafely (storageBytes onlyStandard 7) ∧
      Avoids .panic (Processor.spaced.isToken onlyStandard 7) := by
  have hcount : (storageBytes onlyStandard 7 2).toNat = 1 := by decide +kernel
  have hlen : (storageBytes onlyStandard 7 3).toNat = 8 := by decide +kernel
  have hends : HeaderEnds (storageBytes onlyStandard 7) := by
    refine ⟨?_⟩
    rw [hcount]
    refine .inr ⟨byteArray 2, (by decide : isScalar uint8Type.id = true), by decide, ?_, trivial⟩
    rw [hlen]
    show _ = _
    decide +kernel
  have hsafe : DeclaresSafely (storageBytes onlyStandard 7) := by
    intro st hst
    have hfields : (readStorage.run storageArray (storageBytes onlyStandard 7)).map
        (fun r => (r.1.lookup standardField, r.1.lookup nameField)) =
          .ok (some (.field ⟨⟨standardField, byteArray 2⟩, 23, 2⟩ .array), none) := by
      decide +kernel
    rw [hst.run_readStorage] at hfields
    obtain ⟨hstandard, hname⟩ := Prod.mk.inj (Except.ok.inj hfields)
    have hstd : declaredStd (storageBytes onlyStandard 7) st = stdWRC20 := by
      rw [declaredStd, hstandard]
      decide +kernel
    rw [hstd]
    refine ⟨?_, fun _ => ⟨?_, ?_⟩⟩
    · rintro ⟨info, enc, hlookup, hbad⟩
      cases hstandard.symm.trans hlookup
      simp [Target.Overruns] at hbad
    · rintro ⟨info, enc, hlookup, -⟩
      cases hname.symm.trans hlookup
    · rintro ⟨info, enc, hlookup, -⟩
      cases hname.symm.trans hlookup
  exact ⟨hends, hsafe, (isToken_avoids_panic_iff hends).2 fun _ _ => hsafe⟩

end Gwat.Token
