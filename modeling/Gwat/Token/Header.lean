/-
  Reading the header of a token's storage.
-/
import Gwat.Token.Storage

namespace Gwat.Token

open GoLib ByteProg List Mem

variable {m : Mem}

/-! ## Properties -/

namespace ValueProperties

/-- Scalars have the id of a scalar, and the key of a map is no map. -/
def WellFormed : ValueProperties → Prop
  | scalar t => isScalar t.id
  | array vp _ => vp.WellFormed
  | slice vp => vp.WellFormed
  | map kp vp => kp.WellFormed ∧ vp.WellFormed ∧ kp.marshalBinary.head? ≠ some mapId

/-- Scalars have the id of a scalar. -/
def Typed : ValueProperties → Prop
  | scalar t => isScalar t.id
  | array vp _ => vp.Typed
  | slice vp => vp.Typed
  | map kp vp => kp.Typed ∧ vp.Typed

theorem WellFormed.typed : ∀ {vp : ValueProperties}, vp.WellFormed → vp.Typed
  | scalar _, h => h
  | array vp _, h => @typed vp h
  | slice vp, h => @typed vp h
  | map _ _, h => ⟨h.1.typed, h.2.1.typed⟩

@[simp] theorem length_marshalBinary (vp : ValueProperties) :
    vp.marshalBinary.length = vp.propertiesSize := by
  induction vp with
  | scalar t => rfl
  | _ =>
    simp only [marshalBinary, propertiesSize, length_cons, length_append, length_uint64BytesBE, *]
    omega

theorem two_le_propertiesSize (vp : ValueProperties) : 2 ≤ vp.propertiesSize := by
  induction vp <;> rw [propertiesSize] <;> omega

theorem unmarshalBinary_array (fuel : ℕ) (data : Bytes) :
    unmarshalBinary (fuel + 1) (arrayId :: data) = do
      failIf (data.length < 8) .panic
      let vp ← unmarshalBinary fuel (data.drop 8)
      return array vp (UInt64.ofNat (natOfBytes (data.take 8))) := by
  cases data <;> rfl

theorem unmarshalBinary_slice (fuel : ℕ) (data : Bytes) :
    unmarshalBinary (fuel + 1) (sliceId :: data) = do
      let vp ← unmarshalBinary fuel data
      return slice vp := by
  cases data <;> rfl

theorem unmarshalBinary_map (fuel : ℕ) (data : Bytes) :
    unmarshalBinary (fuel + 1) (mapId :: data) = do
      failIf (data = []) .panic
      failIf (data.head? = some mapId) .wrongType
      let kp ← unmarshalBinary fuel data
      failIf (data.length < kp.propertiesSize) .panic
      let vp ← unmarshalBinary fuel (data.drop kp.propertiesSize)
      return map kp vp := by
  cases data <;> rfl

open Classical in
/-- Properties are read back, whatever follows them, unless the key of a map is a map. -/
theorem unmarshalBinary_append : ∀ (vp : ValueProperties) (fuel : ℕ) (rest : Bytes),
    vp.Typed → vp.propertiesSize ≤ fuel →
    unmarshalBinary fuel (vp.marshalBinary ++ rest) =
      if vp.WellFormed then .ok vp else .error .wrongType
  | vp, 0, _, _, hfuel => absurd (two_le_propertiesSize vp) (by omega)
  | scalar t, fuel + 1, rest, htyped, _ => by
    have hscalar : isScalar t.id = true := htyped
    rw [if_pos (show (scalar t).WellFormed from htyped)]
    simp [marshalBinary, unmarshalBinary, hscalar]
  | array vp len, fuel + 1, rest, htyped, hfuel => by
    have hvp := unmarshalBinary_append vp fuel rest htyped (by rw [propertiesSize] at hfuel; omega)
    have hlen : UInt64.ofNat (natOfBytes (uint64BytesBE len)) = len := by simp
    have hdrop : (uint64BytesBE len ++ (vp.marshalBinary ++ rest)).drop 8 =
        vp.marshalBinary ++ rest := drop_left' (length_uint64BytesBE len)
    have htake : (uint64BytesBE len ++ (vp.marshalBinary ++ rest)).take 8 = uint64BytesBE len :=
      take_left' (length_uint64BytesBE len)
    rw [marshalBinary, cons_append, append_assoc, unmarshalBinary_array,
      failIf_of_not (by simp), ok_bind, hdrop, hvp, htake, hlen, WellFormed]
    split_ifs <;> rfl
  | slice vp, fuel + 1, rest, htyped, hfuel => by
    have hvp := unmarshalBinary_append vp fuel rest htyped (by rw [propertiesSize] at hfuel; omega)
    rw [marshalBinary, cons_append, unmarshalBinary_slice, hvp, WellFormed]
    split_ifs <;> rfl
  | map kp vp, fuel + 1, rest, ⟨hkey, hvalue⟩, hfuel => by
    rw [propertiesSize] at hfuel
    have hkp := unmarshalBinary_append kp fuel (vp.marshalBinary ++ rest) hkey (by omega)
    have hvp := unmarshalBinary_append vp fuel rest hvalue (by omega)
    have hpos := two_le_propertiesSize kp
    have hne : kp.marshalBinary ≠ [] := ne_nil_of_length_pos (by
      rw [length_marshalBinary]; omega)
    rw [marshalBinary, cons_append, append_assoc, unmarshalBinary_map,
      failIf_of_not (by simp [hne]), ok_bind, List.head?_append_of_ne_nil _ hne, hkp]
    by_cases hhead : kp.marshalBinary.head? = some mapId
    · have hnot : ¬ (map kp vp).WellFormed := fun h => h.2.2 hhead
      rw [failIf_of hhead, if_neg hnot]
      rfl
    rw [failIf_of_not hhead, ok_bind]
    by_cases hwf : kp.WellFormed
    · have hiff : (map kp vp).WellFormed ↔ vp.WellFormed := ⟨fun h => h.2.1, (⟨hwf, ·, hhead⟩)⟩
      rw [if_pos hwf, ok_bind, failIf_of_not (by simp), ok_bind,
        drop_left' (length_marshalBinary kp), hvp, hiff]
      split_ifs <;> rfl
    · have hnot : ¬ (map kp vp).WellFormed := fun h => hwf h.1
      rw [if_neg hwf, if_neg hnot]
      rfl

theorem run_readByte {x : UInt8} {pos : ℕ} (h : m.Holds pos [x]) (hsize : pos < storageSize) :
    (read 1 (pos : ℤ)).run storageArray m = .ok ([x], m) := by
  rw [storageArray, run_read_of_le (by omega)]
  exact congrArg (fun b => Except.ok (b, m)) h

theorem calculatePropsEnd_of_holds : ∀ (vp : ValueProperties) (fuel pos : ℕ),
    vp.Typed → vp.propertiesSize ≤ fuel → pos + vp.propertiesSize ≤ storageSize →
    m.Holds pos vp.marshalBinary →
    (calculatePropsEnd fuel pos).run storageArray m = .ok (((pos + vp.propertiesSize : ℕ) : ℤ), m)
  | vp, 0, _, _, hfuel, _, _ => absurd (two_le_propertiesSize vp) (by omega)
  | scalar t, fuel + 1, pos, hwf, _, hsize, hm => by
    have hscalar : isScalar t.id = true := hwf
    rw [propertiesSize] at hsize
    have hread := run_readByte (Mem.holds_cons.1 hm).1 (by omega)
    rw [calculatePropsEnd, run_bind, hread, ok_bind]
    simp [hscalar, propertiesSize]
    ring
  | array vp len, fuel + 1, pos, hwf, hfuel, hsize, hm => by
    rw [propertiesSize] at hfuel hsize
    obtain ⟨hid, hm⟩ := Mem.holds_cons.1 hm
    obtain ⟨-, hm⟩ := Mem.holds_append.1 hm
    have hvp := calculatePropsEnd_of_holds vp fuel (pos + 1 + 8) hwf (by omega) (by omega) hm
    rw [calculatePropsEnd, run_bind, run_readByte hid (by omega), ok_bind]
    rw [propertiesSize, show pos + (9 + vp.propertiesSize) = pos + 1 + 8 + vp.propertiesSize by ring]
    exact_mod_cast hvp
  | slice vp, fuel + 1, pos, hwf, hfuel, hsize, hm => by
    rw [propertiesSize] at hfuel hsize
    obtain ⟨hid, hm⟩ := Mem.holds_cons.1 hm
    have hvp := calculatePropsEnd_of_holds vp fuel (pos + 1) hwf (by omega) (by omega) hm
    rw [calculatePropsEnd, run_bind, run_readByte hid (by omega), ok_bind]
    rw [propertiesSize, show pos + (1 + vp.propertiesSize) = pos + 1 + vp.propertiesSize by ring]
    exact_mod_cast hvp
  | map kp vp, fuel + 1, pos, ⟨hkey, hvalue⟩, hfuel, hsize, hm => by
    rw [propertiesSize] at hfuel hsize
    obtain ⟨hid, hm⟩ := Mem.holds_cons.1 hm
    obtain ⟨hmk, hmv⟩ := Mem.holds_append.1 hm
    rw [length_marshalBinary] at hmv
    have hkp := calculatePropsEnd_of_holds kp fuel (pos + 1) hkey (by omega) (by omega) hmk
    have hvp := calculatePropsEnd_of_holds vp fuel (pos + 1 + kp.propertiesSize) hvalue (by omega)
      (by omega) hmv
    rw [calculatePropsEnd, run_bind, run_readByte hid (by omega), ok_bind]
    change (calculatePropsEnd fuel (((pos + 1 : ℕ) : ℤ)) >>= calculatePropsEnd fuel).run
      storageArray m = _
    rw [run_bind, hkp, ok_bind, hvp, propertiesSize,
      show pos + (1 + kp.propertiesSize + vp.propertiesSize) =
        pos + 1 + kp.propertiesSize + vp.propertiesSize by ring]

end ValueProperties

/-! ## Descriptors -/

namespace FieldDescriptor

variable {fd : FieldDescriptor}

/-- The length of the name has one byte. -/
structure WellFormed (fd : FieldDescriptor) : Prop where
  name : fd.name.length ≤ 255
  vp : fd.vp.WellFormed

theorem length_marshalBinary (fd : FieldDescriptor) : fd.marshalBinary.length = fd.size := by
  rw [marshalBinary, size, length_cons, length_append,
    ValueProperties.length_marshalBinary]
  omega

theorem toNat_nameLen (hname : fd.name.length ≤ 255) :
    (UInt8.ofNat fd.name.length).toNat = fd.name.length := by
  exact Nat.mod_eq_of_lt (Nat.lt_succ_of_le hname)

open Classical in
theorem unmarshalBinary_marshalBinary (hname : fd.name.length ≤ 255) (hvp : fd.vp.Typed) :
    unmarshalBinary fd.marshalBinary =
      if fd.vp.WellFormed then .ok fd else .error .wrongType := by
  have hun := ValueProperties.unmarshalBinary_append fd.vp
    (fd.name ++ fd.vp.marshalBinary).length [] hvp (by simp)
  rw [append_nil] at hun
  rw [marshalBinary, unmarshalBinary, toNat_nameLen hname, failIf_of_not (by simp), ok_bind,
    drop_left, hun, take_left]
  split_ifs <;> rfl

theorem run_readDescriptor {pos : ℕ} (hname : fd.name.length ≤ 255) (hvp : fd.vp.Typed)
    (hsize : pos + fd.size ≤ 2 ^ 48) (hm : m.Holds pos fd.marshalBinary) :
    (readDescriptor pos).run storageArray m =
      (unmarshalBinary fd.marshalBinary).map
        fun fd' => ((fd', ((pos + fd.size : ℕ) : ℤ)), m) := by
  have hstorage : 2 ^ 48 ≤ storageSize := by unfold storageSize; norm_num
  rw [size] at hsize
  obtain ⟨hlen, hm⟩ := Mem.holds_cons.1 hm
  obtain ⟨hnameBytes, hprops⟩ := Mem.holds_append.1 hm
  have hnameRead : (read fd.name.length ((pos : ℤ) + 1)).run storageArray m = .ok (fd.name, m) := by
    rw [storageArray, show (pos : ℤ) + 1 = ((pos + 1 : ℕ) : ℤ) by push_cast; ring,
      run_read_of_le (by omega), hnameBytes]
  have hend := fd.vp.calculatePropsEnd_of_holds (storageSize + 1) (pos + 1 + fd.name.length) hvp
    (by omega) (by omega) hprops
  have hpos : (pos : ℤ) + 1 + fd.name.length = ((pos + 1 + fd.name.length : ℕ) : ℤ) := by
    push_cast; ring
  have hfield : (((pos + 1 + fd.name.length + fd.vp.propertiesSize : ℕ) : ℤ) -
      ((pos + 1 + fd.name.length : ℕ) : ℤ)).toNat % 2 ^ 64 = fd.vp.propertiesSize := by
    rw [Nat.mod_eq_of_lt] <;> omega
  have hpropsRead : (read fd.vp.propertiesSize ((pos + 1 + fd.name.length : ℕ) : ℤ)).run
      storageArray m = .ok (fd.vp.marshalBinary, m) := by
    rw [storageArray, run_read_of_le (by omega), ← fd.vp.length_marshalBinary, hprops]
  rw [readDescriptor, run_bind, ValueProperties.run_readByte hlen (by omega), ok_bind]
  simp only [headD_cons, toNat_nameLen hname]
  rw [run_bind, hnameRead, ok_bind, run_bind, hpos, hend, ok_bind, hfield]
  simp only
  rw [run_bind, makeBytes, if_neg (by rw [Nat.mod_eq_of_lt] <;> omega), run_pure, ok_bind, run_bind,
    hpropsRead, ok_bind, run_bind, run_ofExcept, ← marshalBinary]
  have hnext : ((pos + 1 + fd.name.length : ℕ) : ℤ) + fd.vp.propertiesSize =
      ((pos + fd.size : ℕ) : ℤ) := by
    rw [size]
    push_cast
    ring
  rw [hnext]
  cases unmarshalBinary fd.marshalBinary <;> rfl

theorem readDescriptor_of_holds {pos : ℕ} (hwf : fd.WellFormed) (hsize : pos + fd.size ≤ 2 ^ 48)
    (hm : m.Holds pos fd.marshalBinary) :
    (readDescriptor pos).run storageArray m = .ok ((fd, ((pos + fd.size : ℕ) : ℤ)), m) := by
  rw [run_readDescriptor hwf.name hwf.vp.typed hsize hm,
    unmarshalBinary_marshalBinary hwf.name hwf.vp.typed, if_pos hwf.vp]
  rfl

end FieldDescriptor

variable {fds : List FieldDescriptor} {infos : List FieldInfo}

theorem readDescriptors_of_holds : ∀ (fds : List FieldDescriptor) (pos : ℕ),
    (∀ fd ∈ fds, fd.WellFormed) → pos + (fds.map FieldDescriptor.size).sum ≤ 2 ^ 48 →
    m.Holds pos (fds.flatMap FieldDescriptor.marshalBinary) →
    (readDescriptors fds.length pos).run storageArray m =
      .ok ((fds, ((pos + (fds.map FieldDescriptor.size).sum : ℕ) : ℤ)), m)
  | [], pos, _, _, _ => rfl
  | fd :: fds, pos, hwf, hsize, hm => by
    rw [map_cons, sum_cons] at hsize
    obtain ⟨hfd, hm⟩ := Mem.holds_append.1 hm
    rw [fd.length_marshalBinary] at hm
    have hfirst := fd.readDescriptor_of_holds (hwf fd (by simp)) (by omega) hfd
    have hrest := readDescriptors_of_holds fds (pos + fd.size) (fun fd' h => hwf fd' (by simp [h]))
      (by omega) hm
    rw [length_cons, readDescriptors, run_bind, hfirst, ok_bind]
    rw [run_bind, hrest, ok_bind, run_pure, map_cons, sum_cons, Nat.add_assoc]

theorem run_readFromStream (m : Mem) :
    readFromStream.run storageArray m = (readDescriptors (m 2).toNat 3).run storageArray m >>=
      fun r => .ok (fieldsWithOffset (UInt64.ofNat r.1.2.toNat) r.1.1, r.2) := by
  have hstorage : 2 ^ 48 ≤ storageSize := by unfold storageSize; norm_num
  have htwo : (read 2 ((0 : ℕ) : ℤ)).run storageArray m = .ok (m.read 0 2, m) := by
    rw [storageArray, run_read_of_le (by omega)]
  have hone := @ValueProperties.run_readByte m (m 2) 2 rfl (by omega)
  rw [readFromStream, run_bind, show (0 : ℤ) = ((0 : ℕ) : ℤ) from rfl, htwo, ok_bind, run_bind,
    show (2 : ℤ) = ((2 : ℕ) : ℤ) from rfl, hone, ok_bind, run_bind]
  rfl

/-- The header starts with a version and holds the descriptors. -/
structure Declares (m : Mem) (fds : List FieldDescriptor) : Prop where
  wellFormed : ∀ fd ∈ fds, fd.WellFormed
  size : headerSize fds ≤ 2 ^ 48
  count : (m 2).toNat = fds.length
  holds : m.Holds 3 (fds.flatMap FieldDescriptor.marshalBinary)

/-- A stored header is read back, with the same lengths and offsets. -/
theorem readFromStream_of_declares (h : Declares m fds) : readFromStream.run storageArray m =
      .ok (fieldsWithOffset (UInt64.ofNat (headerSize fds)) fds, m) := by
  have hread := readDescriptors_of_holds fds 3 h.wellFormed h.size h.holds
  rw [run_readFromStream, h.count, show (3 : ℤ) = ((3 : ℕ) : ℤ) from rfl, hread]
  rfl

theorem declares_of_holds (hwf : ∀ fd ∈ fds, fd.WellFormed) (hcount : fds.length ≤ 255)
    (hsize : headerSize fds ≤ 2 ^ 48) (hm : m.Holds 0 (headerBytes fds)) : Declares m fds := by
  obtain ⟨hversion, hm⟩ := Mem.holds_append.1 hm
  obtain ⟨-, hlen⟩ := (holds_append (b := [0x00, 0x01])).1 hversion
  have hbyte : m 2 = UInt8.ofNat fds.length := head_eq_of_cons_eq hlen
  refine ⟨hwf, hsize, ?_, hm⟩
  rw [hbyte, UInt8.toNat_ofNat']
  exact Nat.mod_eq_of_lt (Nat.lt_succ_of_le hcount)

/-! ## Fields -/

/-- The bytes that the values of the fields take. -/
def fieldsLength (fds : List FieldDescriptor) : ℕ :=
  (fds.map fun fd => fd.vp.fieldLength.toNat).sum

/-- The fields one after the other from `start` on. -/
def fieldsAt : ℕ → List FieldDescriptor → List FieldInfo
  | _, [] => []
  | start, fd :: fds =>
    ⟨fd, start, fd.vp.fieldLength⟩ :: fieldsAt (start + fd.vp.fieldLength.toNat) fds

/-- The 64-bit offsets are the sums of the lengths. -/
theorem fieldsWithOffset_ofNat : ∀ (fds : List FieldDescriptor) (start : ℕ),
    start + fieldsLength fds < 2 ^ 63 →
    fieldsWithOffset (UInt64.ofNat start) fds = fieldsAt start fds
  | [], _, _ => rfl
  | fd :: fds, start, h => by
    rw [fieldsLength, map_cons, sum_cons] at h
    have hstart : (UInt64.ofNat start).toNat = start := UInt64.toNat_ofNat_of_lt' (by
      simp only [UInt64.size]; omega)
    have hnext : UInt64.ofNat start + fd.vp.fieldLength =
        UInt64.ofNat (start + fd.vp.fieldLength.toNat) := by
      rw [UInt64.ofNat_add, UInt64.ofNat_toNat]
    have hoff : int64OfUint64 (UInt64.ofNat start) = start := by
      rw [int64OfUint64, hstart, if_pos (by omega)]
    rw [fieldsWithOffset, fieldsAt, hoff, hnext,
      fieldsWithOffset_ofNat fds _ (by rw [fieldsLength]; omega)]

theorem map_descriptor_fieldsAt : ∀ (fds : List FieldDescriptor) (start : ℕ),
    (fieldsAt start fds).map FieldInfo.descriptor = fds
  | [], _ => rfl
  | fd :: fds, start => by rw [fieldsAt, map_cons, map_descriptor_fieldsAt fds]

theorem mem_fieldsAt : ∀ {fds : List FieldDescriptor} {start : ℕ} {info : FieldInfo},
    info ∈ fieldsAt start fds → ∃ off : ℕ, info.offset = off ∧ start ≤ off ∧
      off + info.length.toNat ≤ start + fieldsLength fds ∧
      info.length = info.descriptor.vp.fieldLength
  | fd :: fds, start, info, h => by
    rw [fieldsLength, map_cons, sum_cons]
    rcases mem_cons.1 h with rfl | h
    · exact ⟨start, rfl, le_rfl, by simp only; omega, rfl⟩
    · obtain ⟨off, hoff, hlo, hhi, hlen⟩ := mem_fieldsAt h
      rw [fieldsLength] at hhi
      exact ⟨off, hoff, by omega, by omega, hlen⟩

theorem fieldsAt_pairwise : ∀ (fds : List FieldDescriptor) (start : ℕ),
    (fieldsAt start fds).Pairwise fun info info' : FieldInfo =>
      info.offset + info.length.toNat ≤ info'.offset
  | [], _ => .nil
  | fd :: fds, start => by
    refine .cons (fun info h => ?_) (fieldsAt_pairwise fds _)
    obtain ⟨off, hoff, hlo, -⟩ := mem_fieldsAt h
    rw [hoff]
    exact Int.ofNat_le.2 hlo

theorem fieldsAt_disjoint {start : ℕ} {info info' : FieldInfo} (h : info ∈ fieldsAt start fds)
    (h' : info' ∈ fieldsAt start fds) (hne : info.descriptor ≠ info'.descriptor) :
    info.offset + info.length.toNat ≤ info'.offset ∨
      info'.offset + info'.length.toNat ≤ info.offset := by
  let apart (i i' : FieldInfo) : Prop :=
    i.offset + i.length.toNat ≤ i'.offset ∨ i'.offset + i'.length.toNat ≤ i.offset
  have hsymm : Std.Symm apart := ⟨fun _ _ => Or.symm⟩
  have hpair : (fieldsAt start fds).Pairwise apart := (fieldsAt_pairwise fds start).imp Or.inl
  exact hpair.forall h h' fun heq => hne (congrArg FieldInfo.descriptor heq)

theorem find?_of_nodup {info : FieldInfo}
    (hnames : (infos.map fun info => info.descriptor.name).Nodup) (h : info ∈ infos) :
    (infos.find? fun i => i.descriptor.name = info.descriptor.name) = some info := by
  induction infos with
  | nil => cases h
  | cons i infos ih =>
    rw [map_cons, nodup_cons] at hnames
    rcases mem_cons.1 h with rfl | h
    · exact List.find?_cons_of_pos (by simp)
    · have hne : i.descriptor.name ≠ info.descriptor.name := fun heq =>
        hnames.1 (heq ▸ mem_map_of_mem h)
      rw [List.find?_cons_of_neg (by simpa using hne), ih hnames.2 h]

/-- The entries of fields with different names are found under their names. -/
theorem fillFields_of_entries {entry : FieldInfo → FieldEntry}
    (hentry : ∀ info ∈ infos, newFieldEntry info = .ok (entry info))
    (hnames : (infos.map fun info => info.descriptor.name).Nodup) :
    ∃ st, fillFields infos = .ok st ∧
      (∀ info ∈ infos, st.lookup info.descriptor.name = some (entry info)) ∧
      ∀ name, name ∉ infos.map (fun info => info.descriptor.name) → st.lookup name = none := by
  have hloop : ∀ (infos : List FieldInfo) (fields : Storage),
      (∀ info ∈ infos, newFieldEntry info = .ok (entry info)) →
      (infos.map fun info => info.descriptor.name).Nodup →
      ∃ st : Storage, infos.foldlM (fun fields info => do
          let entry ← newFieldEntry info
          return fields.insert info.descriptor.name entry) fields = .ok st ∧
        (∀ info ∈ infos, st.lookup info.descriptor.name = some (entry info)) ∧
        ∀ name, name ∉ infos.map (fun info => info.descriptor.name) →
          st.lookup name = fields.lookup name := by
    intro infos
    induction infos with
    | nil => exact fun fields _ _ => ⟨fields, rfl, by simp, by simp⟩
    | cons info infos ih =>
      intro fields hentry hnames
      rw [map_cons, nodup_cons] at hnames
      obtain ⟨st, hst, hin, hout⟩ := ih (fields.insert info.descriptor.name (entry info))
        (fun i hi => hentry i (by simp [hi])) hnames.2
      refine ⟨st, ?_, ?_, ?_⟩
      · rw [foldlM_cons, hentry info (by simp), ok_bind, pure_eq_ok, ok_bind, hst]
      · intro i hi
        rcases mem_cons.1 hi with rfl | hi
        · rw [hout _ hnames.1, AList.lookup_insert]
        · exact hin i hi
      · intro name hname
        rw [map_cons, mem_cons, not_or] at hname
        rw [hout name hname.2, AList.lookup_insert_ne hname.1]
  obtain ⟨st, hst, hin, hout⟩ := hloop infos ∅ hentry hnames
  exact ⟨st, hst, hin, fun name hname => (hout name hname).trans (AList.lookup_empty name)⟩

theorem length_headerBytes (fds : List FieldDescriptor) :
    (headerBytes fds).length = headerSize fds := by
  rw [headerBytes, headerSize, length_append, length_flatMap]
  simp [FieldDescriptor.length_marshalBinary]

/-! ## What the constructors build -/

namespace ValueProperties

/-- The properties that the constructors build: arrays and slices are of scalars. -/
inductive Built : ValueProperties → Prop
  | scalar {t vp} (h : newScalarProperties t = .ok vp) : Built vp
  | array {t vp l} (h : newScalarProperties t = .ok vp) : Built (.array vp l)
  | slice {t vp} (h : newScalarProperties t = .ok vp) : Built (.slice vp)
  | map {kp vp mp} (hk : Built kp) (hv : Built vp) (h : newMapProperties kp vp = .ok mp) : Built mp

/-- The bytes that a value takes among the fields; slices and maps lie elsewhere. -/
def occupies : ValueProperties → ℕ
  | scalar t => t.size.toNat
  | array vp len => len.toNat * vp.occupies
  | slice _ => 0
  | map _ _ => 0

theorem wellFormed_newScalar {t : FieldType} {vp : ValueProperties}
    (h : newScalarProperties t = .ok vp) : vp.WellFormed ∧ vp.marshalBinary.head? ≠ some mapId := by
  unfold newScalarProperties at h
  split_ifs at h with hid
  obtain rfl := Except.ok.inj h
  refine ⟨hid, fun heq => ?_⟩
  rw [Option.some.inj heq] at hid
  cases hid

theorem Built.wellFormed {vp : ValueProperties} (h : vp.Built) : vp.WellFormed := by
  induction h with
  | scalar h => exact (wellFormed_newScalar h).1
  | array h => exact (wellFormed_newScalar h).1
  | slice h => exact (wellFormed_newScalar h).1
  | @map kp vp mp hkb _ h hk hv =>
    unfold newMapProperties at h
    split at h
    · cases h
    · cases h
    · next hmap hslice =>
      obtain rfl := Except.ok.inj h
      refine ⟨hk, hv, ?_⟩
      -- a key that is neither a map nor a slice is a scalar or an array
      cases hkb with
      | scalar h => exact (wellFormed_newScalar h).2
      | array _ => exact (by decide : some arrayId ≠ some mapId)
      | slice _ => exact absurd rfl (hslice _)
      | map _ _ h =>
        unfold newMapProperties at h
        split at h
        · cases h
        · cases h
        · exact absurd (Except.ok.inj h).symm (hmap _ _)

/-- The product of the lengths is taken in 64 bits. -/
theorem toNat_fieldLength : ∀ vp : ValueProperties, vp.fieldLength.toNat = vp.occupies % 2 ^ 64
  | scalar t => by
    have := t.size.toNat_lt
    rw [fieldLength, occupies, UInt8.toNat_toUInt64]
    omega
  | array vp len => by
    rw [fieldLength, occupies, UInt64.toNat_mul, toNat_fieldLength vp, Nat.mul_mod_mod]
  | slice _ => rfl
  | map _ _ => rfl

end ValueProperties

/-- The descriptors that the constructor builds. -/
def FieldDescriptor.Built (fd : FieldDescriptor) : Prop :=
  ∃ name vp, vp.Built ∧ newFieldDescriptor name vp = .ok fd

theorem FieldDescriptor.Built.wellFormed {fd : FieldDescriptor} (h : fd.Built) : fd.WellFormed := by
  obtain ⟨name, vp, hvp, hfd⟩ := h
  unfold newFieldDescriptor at hfd
  split at hfd
  · cases hfd
  · split_ifs at hfd with hname
    obtain rfl := Except.ok.inj hfd
    exact ⟨not_lt.1 hname, hvp.wellFormed⟩

/-- The layout of a token is read back as it was written, with the same lengths and offsets.  The
    header takes the size that the constructor computes, and the values follow it one after the
    other. -/
theorem signature_reads_back (st : StorageStream) (hcount : fds.length ≤ 255)
    (hbuilt : ∀ fd ∈ fds, fd.Built) (hvalues : (fds.map fun fd => fd.vp.occupies).sum < 2 ^ 62)
    (hheader : headerSize fds ≤ 2 ^ 48) :
    ∃ infos st', newSignatureV1 fds = .ok infos ∧
      (writeToStream infos).run stream st = .ok ((), st') ∧
      (∃ st'', readFromStream.run stream st' = .ok (infos, st'')) ∧
      infos.map FieldInfo.descriptor = fds ∧ (headerBytes fds).length = headerSize fds ∧
      (∀ info ∈ infos, info.length.toNat = info.descriptor.vp.occupies ∧
        headerSize fds ≤ info.offset) ∧
      infos.Pairwise fun info info' : FieldInfo =>
        info.offset + info.length.toNat ≤ info'.offset := by
  have hstorage : 2 ^ 48 ≤ storageSize := by unfold storageSize; norm_num
  have hlength : fieldsLength fds ≤ (fds.map fun fd => fd.vp.occupies).sum :=
    List.sum_le_sum fun fd _ => (fd.vp.toNat_fieldLength).trans_le (Nat.mod_le _ _)
  have hinfos : newSignatureV1 fds = .ok (fieldsAt (headerSize fds) fds) := by
    rw [newSignatureV1, if_neg (not_lt.2 hcount), fieldsWithOffset_ofNat _ _ (by omega)]
  have hwrite : (writeToStream (fieldsAt (headerSize fds) fds)).run storageArray st.view =
      .ok ((), st.view.write 0 (headerBytes fds)) := by
    rw [writeToStream, map_descriptor_fieldsAt]
    have hroom : 0 + (headerBytes fds).length ≤ storageSize := by
      rw [length_headerBytes, Nat.zero_add]
      exact hheader.trans hstorage
    exact run_write_of_le hroom
  have hread := readFromStream_of_declares (declares_of_holds (fun fd h => (hbuilt fd h).wellFormed)
    hcount hheader (holds_write st.view 0 (headerBytes fds)))
  rw [fieldsWithOffset_ofNat _ _ (by omega)] at hread
  obtain ⟨st', hrun, hview, -⟩ := run_stream_of_array st hwrite
  rw [← hview] at hread
  obtain ⟨st'', hrun', -⟩ := run_stream_of_array st' hread
  refine ⟨_, st', hinfos, hrun, ⟨st'', hrun'⟩, map_descriptor_fieldsAt fds _, length_headerBytes fds,
    fun info hmem => ?_, fieldsAt_pairwise fds _⟩
  obtain ⟨off, hoff, hlo, -, hlen⟩ := mem_fieldsAt hmem
  refine ⟨?_, by rw [hoff]; exact_mod_cast hlo⟩
  have hfd : info.descriptor ∈ fds := by
    rw [← map_descriptor_fieldsAt fds (headerSize fds)]
    exact mem_map_of_mem hmem
  have hle := le_sum_of_mem (mem_map_of_mem (f := fun fd => fd.vp.occupies) hfd)
  rw [hlen, ValueProperties.toNat_fieldLength, Nat.mod_eq_of_lt (by omega)]

/-- An array of three bytes, and a map of slices. -/
def sampleFields : List FieldDescriptor :=
  [⟨[1], .array (.scalar uint8Type) 3⟩, ⟨[2], .map (.scalar uint8Type) (.slice (.scalar uint8Type))⟩]

theorem signature_reads_back_sample : (∀ fd ∈ sampleFields, fd.Built) ∧
    ∃ infos st', newSignatureV1 sampleFields = .ok infos ∧
      (writeToStream infos).run stream (newStorageStream 7 .empty) = .ok ((), st') ∧
      ∃ st'', readFromStream.run stream st' = .ok (infos, st'') := by
  have hscalar : newScalarProperties uint8Type = .ok (.scalar uint8Type) := rfl
  have hbuilt : ∀ fd ∈ sampleFields, fd.Built := by
    rintro fd (_ | ⟨_, _ | ⟨_, h⟩⟩)
    · exact ⟨[1], .array (.scalar uint8Type) 3, .array hscalar, rfl⟩
    · exact ⟨[2], _, .map (.scalar hscalar) (.slice hscalar) rfl, rfl⟩
    · cases h
  obtain ⟨infos, st', hnew, hwrite, hread, -⟩ := signature_reads_back (newStorageStream 7 .empty)
    (by decide) hbuilt (by decide) (by decide)
  exact ⟨hbuilt, infos, st', hnew, hwrite, hread⟩

end Gwat.Token
