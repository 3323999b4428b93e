/-
  The storage of the two kinds of tokens.
-/
import Gwat.Token.Header
import Gwat.Token.Processor

namespace Gwat.Token

open GoLib ByteProg List

variable {op : CreateOp} {info : FieldInfo} {fd : FieldDescriptor}

/-! ## The fields of a token -/

def byteArray (l : UInt64) : ValueProperties := .array (.scalar uint8Type) l

/-- The fields of the standard. -/
def kindDescriptors : CreateKind → List FieldDescriptor
  | .wrc20 _ _ =>
    [⟨creatorField, byteArray 20⟩, ⟨decimalsField, .scalar uint8Type⟩,
      ⟨totalSupplyField, .scalar uint256Type⟩,
      ⟨allowancesField, .map (byteArray 32) (.scalar uint256Type)⟩,
      ⟨costField, .scalar uint256Type⟩]
  | .wrc721 baseURI _ =>
    [⟨minterField, byteArray 20⟩, ⟨baseUriField, byteArray (UInt64.ofNat baseURI.length)⟩,
      ⟨ownersField, .map (byteArray 20) (byteArray 20)⟩,
      ⟨metadataField, .map (byteArray 20) (.slice (.scalar uint8Type))⟩,
      ⟨tokenApprovalsField, .map (byteArray 20) (byteArray 20)⟩,
      ⟨operatorApprovalsField, .map (byteArray 32) (.scalar uint8Type)⟩,
      ⟨percentFeeField, .scalar uint8Type⟩,
      ⟨costMapField, .map (.scalar uint256Type) (.scalar uint256Type)⟩]

/-- The fields of a token. -/
def descriptors (op : CreateOp) : List FieldDescriptor :=
  [⟨standardField, byteArray 2⟩, ⟨nameField, byteArray (UInt64.ofNat op.name.length)⟩,
    ⟨symbolField, byteArray (UInt64.ofNat op.symbol.length)⟩,
    ⟨balancesField, .map (byteArray 20) (.scalar uint256Type)⟩] ++ kindDescriptors op.kind

theorem newFieldsDescriptors_eq (op : CreateOp) : newFieldsDescriptors op = .ok (descriptors op) := by
  obtain ⟨name, symbol, kind, hsize⟩ := op
  cases kind <;> rfl

theorem wellFormed_descriptors (op : CreateOp) : ∀ fd ∈ descriptors op, fd.WellFormed := by
  have harray {name : Bytes} {l : UInt64} (h : name.length ≤ 255) :
      FieldDescriptor.WellFormed ⟨name, byteArray l⟩ := ⟨h, rfl⟩
  have hmap {name : Bytes} {l : UInt64} {vp : ValueProperties} (h : name.length ≤ 255)
      (hvp : vp.WellFormed) : FieldDescriptor.WellFormed ⟨name, .map (byteArray l) vp⟩ :=
    ⟨h, rfl, hvp, (by decide : some arrayId ≠ some mapId)⟩
  obtain ⟨name, symbol, kind, hsize⟩ := op
  cases kind <;>
    simp only [descriptors, kindDescriptors, forall_mem_append, forall_mem_cons] <;>
    and_intros <;>
    first
    | exact harray (by decide)
    | exact ⟨by decide, rfl⟩
    | exact hmap (by decide) rfl
    | exact ⟨by decide, rfl, rfl, (by decide : some uint256Type.id ≠ some mapId)⟩
    | exact nofun

theorem names_nodup (op : CreateOp) : ((descriptors op).map FieldDescriptor.name).Nodup := by
  obtain ⟨name, symbol, kind, hsize⟩ := op
  cases kind with
  | wrc20 _ _ =>
    change List.Nodup [standardField, nameField, symbolField, balancesField, creatorField,
      decimalsField, totalSupplyField, allowancesField, costField]
    decide
  | wrc721 _ _ =>
    change List.Nodup [standardField, nameField, symbolField, balancesField, minterField,
      baseUriField, ownersField, metadataField, tokenApprovalsField, operatorApprovalsField,
      percentFeeField, costMapField]
    decide

/-- The size of the header depends on the standard only. -/
theorem headerSize_le (op : CreateOp) : headerSize (descriptors op) ≤ 300 := by
  obtain ⟨name, symbol, kind, hsize⟩ := op
  cases kind <;> exact Nat.le_of_ble_eq_true rfl

@[simp] theorem fieldLength_byteArray (l : UInt64) : (byteArray l).fieldLength = l :=
  UInt64.mul_one l

theorem fieldsLength_le (op : CreateOp) : fieldsLength (descriptors op) < 2 ^ 48 + 100 := by
  obtain ⟨name, symbol, kind, hsize⟩ := op
  have hscalar : uint8Type.size.toNat = 1 ∧ uint256Type.size.toNat = 32 := ⟨rfl, rfl⟩
  cases kind <;>
    simp [fieldsLength, descriptors, kindDescriptors, ValueProperties.fieldLength, CreateKind.baseURI,
      hscalar] at hsize ⊢ <;>
    omega

/-- Where the fields of a token end, at most. -/
def fieldsEnd : ℕ := 2 ^ 48 + 400

/-- The fields of a token, where they lie. -/
def fieldInfos (op : CreateOp) : List FieldInfo :=
  fieldsAt (headerSize (descriptors op)) (descriptors op)

theorem fieldsWithOffset_descriptors (op : CreateOp) :
    fieldsWithOffset (UInt64.ofNat (headerSize (descriptors op))) (descriptors op) =
      fieldInfos op := by
  have hheader := headerSize_le op
  have hfields := fieldsLength_le op
  exact fieldsWithOffset_ofNat _ _ (by omega)

theorem bounds_of_mem_fieldInfos (h : info ∈ fieldInfos op) :
    ∃ off : ℕ, info.offset = off ∧ headerSize (descriptors op) ≤ off ∧
      off + info.length.toNat ≤ fieldsEnd := by
  have hheader := headerSize_le op
  have hfields := fieldsLength_le op
  obtain ⟨off, hoff, hlo, hhi, -⟩ := mem_fieldsAt h
  exact ⟨off, hoff, hlo, by unfold fieldsEnd; omega⟩

/-- The entry of a field. -/
def entryOf (info : FieldInfo) : FieldEntry :=
  match newFieldEntry info with
  | .ok e => e
  | .error _ => .field info .scalar

/-- The storage has the entries of the fields of the token, and no others. -/
structure Fields (op : CreateOp) (st : Storage) : Prop where
  entry : ∀ info ∈ fieldInfos op, st.lookup info.descriptor.name = some (entryOf info)
  absent : ∀ name, name ∉ (descriptors op).map FieldDescriptor.name → st.lookup name = none

theorem newFieldEntry_of_mem (h : info ∈ fieldInfos op) :
    newFieldEntry info = .ok (entryOf info) := by
  have hok : ∀ fd ∈ descriptors op, ∀ off len, newFieldEntry ⟨fd, off, len⟩ =
      .ok (entryOf ⟨fd, off, len⟩) := by
    obtain ⟨name, symbol, kind, hsize⟩ := op
    cases kind <;>
      simp only [descriptors, kindDescriptors, forall_mem_append, forall_mem_cons] <;>
      and_intros <;>
      first
      | exact fun _ _ => rfl
      | exact nofun
  have hmem : info.descriptor ∈ descriptors op := by
    rw [← map_descriptor_fieldsAt (descriptors op) (headerSize (descriptors op))]
    exact mem_map_of_mem h
  exact hok info.descriptor hmem info.offset info.length

theorem exists_info_of_mem (h : fd ∈ descriptors op) :
    ∃ info ∈ fieldInfos op, info.descriptor = fd := by
  rw [← map_descriptor_fieldsAt (descriptors op) (headerSize (descriptors op))] at h
  obtain ⟨info, hinfo, rfl⟩ := mem_map.1 h
  exact ⟨info, hinfo, rfl⟩

theorem map_name_fieldInfos (op : CreateOp) :
    (fieldInfos op).map (fun info => info.descriptor.name) =
      (descriptors op).map FieldDescriptor.name := by
  conv_rhs => rw [← map_descriptor_fieldsAt (descriptors op) (headerSize (descriptors op))]
  rw [map_map]
  rfl

theorem fillFields_fieldInfos (op : CreateOp) :
    ∃ st, fillFields (fieldInfos op) = .ok st ∧ Fields op st := by
  have hnames := map_name_fieldInfos op
  obtain ⟨st, hst, hin, hout⟩ := fillFields_of_entries (fun info => @newFieldEntry_of_mem op info)
    (hnames ▸ names_nodup op)
  exact ⟨st, hst, hin, fun name h => hout name (hnames ▸ h)⟩

/-- Where a field lies. -/
def fieldOffset (op : CreateOp) (name : Bytes) : ℕ :=
  (((fieldInfos op).find? fun info => info.descriptor.name = name).map
    fun info => info.offset.toNat).getD 0

theorem fieldOffset_of_mem (h : info ∈ fieldInfos op) (hne : info.descriptor.name ≠ standardField) :
    info = ⟨info.descriptor, fieldOffset op info.descriptor.name, info.descriptor.vp.fieldLength⟩ ∧
      headerSize (descriptors op) + 2 ≤ fieldOffset op info.descriptor.name ∧
      fieldOffset op info.descriptor.name + info.descriptor.vp.fieldLength.toNat ≤ fieldsEnd := by
  have hfirst : fieldInfos op = ⟨⟨standardField, byteArray 2⟩, headerSize (descriptors op), 2⟩ ::
      fieldsAt (headerSize (descriptors op) + 2) (descriptors op).tail := rfl
  have hfind := find?_of_nodup (map_name_fieldInfos op ▸ names_nodup op) h
  obtain ⟨off, hoff, -, hhi⟩ := bounds_of_mem_fieldInfos h
  have hplace : fieldOffset op info.descriptor.name = off := by
    rw [fieldOffset, hfind]
    simp [hoff]
  have htail : info ∈ fieldsAt (headerSize (descriptors op) + 2) (descriptors op).tail := by
    rcases mem_cons.1 h with rfl | h
    · exact absurd rfl hne
    · exact h
  obtain ⟨off', hoff', hlo, -, hlen⟩ := mem_fieldsAt htail
  obtain rfl : off' = off := by
    rw [hoff] at hoff'
    exact_mod_cast hoff'.symm
  rw [hplace, ← hlen]
  refine ⟨?_, hlo, hhi⟩
  rw [← hoff]

/-- The bytes of a field behind the standard. -/
def fieldBytes (op : CreateOp) (m : Mem) (fd : FieldDescriptor) : Bytes :=
  m.read (fieldOffset op fd.name) fd.vp.fieldLength.toNat

theorem fieldOffset_disjoint {fd' : FieldDescriptor} (h : fd ∈ descriptors op)
    (h' : fd' ∈ descriptors op) (hstd : fd.name ≠ standardField)
    (hstd' : fd'.name ≠ standardField) (hne : fd.name ≠ fd'.name) :
    fieldOffset op fd.name + fd.vp.fieldLength.toNat ≤ fieldOffset op fd'.name ∨
      fieldOffset op fd'.name + fd'.vp.fieldLength.toNat ≤ fieldOffset op fd.name := by
  obtain ⟨info, hinfo, rfl⟩ := exists_info_of_mem h
  obtain ⟨info', hinfo', rfl⟩ := exists_info_of_mem h'
  obtain ⟨heq, -⟩ := fieldOffset_of_mem hinfo hstd
  obtain ⟨heq', -⟩ := fieldOffset_of_mem hinfo' hstd'
  have hdisjoint := fieldsAt_disjoint hinfo hinfo' fun hd => hne (congrArg FieldDescriptor.name hd)
  rw [heq, heq'] at hdisjoint
  dsimp only at hdisjoint
  exact_mod_cast hdisjoint

/-! ## Opening the storage -/

/-- The storage starts with the header and the standard of the token. -/
def Laid (op : CreateOp) (m : Mem) : Prop :=
  m.Holds 0 (headerBytes (descriptors op) ++ stdMarshal op.kind.standard)

variable {op : CreateOp} {m m' : Mem} {st : Storage}

theorem Laid.write {off : ℕ} {b : Bytes} (h : Laid op m)
    (hoff : headerSize (descriptors op) + 2 ≤ off) : Laid op (m.write off b) := by
  refine Mem.Holds.write_of_disjoint h (.inl ?_)
  rw [length_append, length_headerBytes, stdMarshal, length_bytesBE]
  omega

theorem readStorage_of_laid (h : Laid op m) :
    ∃ st, readStorage.run storageArray m = .ok (st, m) ∧ Fields op st := by
  obtain ⟨st, hst, hfields⟩ := fillFields_fieldInfos op
  have hheader := headerSize_le op
  have hread := readFromStream_of_declares (declares_of_holds (wellFormed_descriptors op)
    (by obtain ⟨name, symbol, kind, hsize⟩ := op; cases kind <;> exact Nat.le_of_ble_eq_true rfl)
    (by omega) (Mem.holds_append.1 h).1)
  refine ⟨st, ?_, hfields⟩
  rw [readStorage, run_bind, hread, ok_bind, run_ofExcept, fieldsWithOffset_descriptors, hst]
  rfl

theorem Fields.standard (h : Fields op st) : st.lookup standardField =
    some (.field ⟨⟨standardField, byteArray 2⟩, headerSize (descriptors op), 2⟩ .array) :=
  h.entry ⟨⟨standardField, byteArray 2⟩, headerSize (descriptors op), 2⟩ mem_cons_self

theorem run_readField {α : Type} {decode : Encoding → Bytes → Except TokenError α} {name : Bytes}
    {info : FieldInfo} {encoding : Encoding} {off : ℕ}
    (he : st.lookup name = some (.field info encoding)) (hoff : info.offset = off)
    (hlen : off + info.length.toNat ≤ fieldsEnd) (hmake : info.length.toNat ≤ 2 ^ 48) :
    (st.readField decode name).run storageArray m =
      (decode encoding (m.read off info.length.toNat)).map fun a => (a, m) := by
  have hstorage : fieldsEnd ≤ storageSize := by unfold fieldsEnd storageSize; norm_num
  have hread : info.readBytes.run storageArray m = .ok (m.read off info.length.toNat, m) := by
    rw [FieldInfo.readBytes, makeBytes, if_neg (by omega), run_bind, run_pure, ok_bind, hoff,
      storageArray, Mem.run_read_of_le (by omega)]
  rw [Storage.readField, Storage.entry, he]
  change (info.readBytes >>= fun buf => ofExcept (decode encoding buf)).run storageArray m = _
  rw [run_bind, hread, ok_bind, run_ofExcept]

section
variable {fd : FieldDescriptor} {enc : Encoding}

theorem Fields.run_readField {α : Type} {decode : Encoding → Bytes → Except TokenError α}
    (h : Fields op st) (hfd : fd ∈ descriptors op) (hne : fd.name ≠ standardField)
    (henc : ∀ off len, entryOf ⟨fd, off, len⟩ = .field ⟨fd, off, len⟩ enc)
    (hmake : fd.vp.fieldLength.toNat ≤ 2 ^ 48) :
    (st.readField decode fd.name).run storageArray m =
      (decode enc (m.read (fieldOffset op fd.name) fd.vp.fieldLength.toNat)).map
        fun a => (a, m) := by
  obtain ⟨info, hinfo, rfl⟩ := exists_info_of_mem hfd
  obtain ⟨heq, -, hhi⟩ := fieldOffset_of_mem hinfo hne
  have hentry := h.entry info hinfo
  rw [heq, henc] at hentry
  exact Token.run_readField hentry rfl hhi hmake

theorem Fields.run_writeField {v : Value} {b : Bytes} (h : Fields op st)
    (hfd : fd ∈ descriptors op) (hne : fd.name ≠ standardField)
    (henc : ∀ off len, entryOf ⟨fd, off, len⟩ = .field ⟨fd, off, len⟩ enc)
    (hb : enc.encode v = .ok b) (hlen : b.length ≤ fd.vp.fieldLength.toNat) :
    (st.writeField fd.name v).run storageArray m =
      .ok ((), m.write (fieldOffset op fd.name) b) := by
  obtain ⟨info, hinfo, rfl⟩ := exists_info_of_mem hfd
  obtain ⟨heq, -, hhi⟩ := fieldOffset_of_mem hinfo hne
  have hstorage : fieldsEnd ≤ storageSize := by unfold fieldsEnd storageSize; norm_num
  have hentry := h.entry info hinfo
  rw [heq, henc] at hentry
  rw [Storage.writeField, Storage.entry, hentry]
  change (ByteProg.ofExcept (enc.encode v) >>= fun buf =>
    FieldInfo.writeBytes ⟨info.descriptor, fieldOffset op info.descriptor.name,
      info.descriptor.vp.fieldLength⟩ buf).run storageArray m = _
  rw [hb]
  change (FieldInfo.writeBytes ⟨info.descriptor, fieldOffset op info.descriptor.name,
      info.descriptor.vp.fieldLength⟩ b).run storageArray m = _
  rw [FieldInfo.writeBytes, failIf_of_not fun hlong => Nat.not_lt.2 hlen hlong.2]
  exact Mem.run_write_of_le (by omega)

end

/-- Every operation opens the storage of a token with the same fields. -/
theorem newStorageWithoutStdCheck_of_laid (h : Laid op m) :
    ∃ st, Processor.newStorageWithoutStdCheck.run storageArray m =
      .ok ((st, op.kind.standard), m) ∧ Fields op st := by
  obtain ⟨st, hst, hfields⟩ := readStorage_of_laid h
  refine ⟨st, ?_, hfields⟩
  have hheader := headerSize_le op
  have hread := @run_readField m st _ Encoding.decodeBytes _ _ _ _ hfields.standard rfl
    (show _ + 2 ≤ _ by unfold fieldsEnd; omega) (show 2 ≤ 2 ^ 48 by norm_num)
  obtain ⟨-, hstd⟩ := Mem.holds_append.1 h
  rw [length_headerBytes, Nat.zero_add] at hstd
  have hbytes : m.read (headerSize (descriptors op)) (UInt64.toNat 2) =
      stdMarshal op.kind.standard := hstd
  have hunmarshal : stdUnmarshal (stdMarshal op.kind.standard) = .ok op.kind.standard := by
    cases op.kind <;> simp only [CreateKind.standard] <;> decide
  have hzero : op.kind.standard ≠ 0 := by cases op.kind <;> simp +decide [CreateKind.standard]
  rw [Processor.newStorageWithoutStdCheck, run_bind, hst, ok_bind, run_bind, hread, hbytes]
  change (ByteProg.ofExcept (stdUnmarshal (stdMarshal op.kind.standard)) >>= _).run
    storageArray m = _
  rw [run_bind, run_ofExcept, hunmarshal]
  change (ByteProg.ofExcept (failIf (op.kind.standard = 0) .tokenNotExists) >>= _).run
    storageArray m = _
  rw [run_bind, run_ofExcept, failIf_of_not hzero]
  rfl

theorem run_newStorage (std : Std) (h : Laid op m) :
    ∃ st, Fields op st ∧ (Processor.newStorage std).run storageArray m =
      if std = op.kind.standard then .ok (st, m) else .error .tokenOpStandardNotValid := by
  obtain ⟨st, hst, hfields⟩ := newStorageWithoutStdCheck_of_laid h
  refine ⟨st, hfields, ?_⟩
  rw [Processor.newStorage, run_bind, hst, ok_bind]
  change (ByteProg.ofExcept (failIf (op.kind.standard ≠ std) .tokenOpStandardNotValid) >>= _).run
    storageArray m = _
  split_ifs with hstd
  · rw [failIf_of_not (not_not.2 hstd.symm)]
    rfl
  · rw [failIf_of (Ne.symm hstd)]
    rfl

end Gwat.Token
