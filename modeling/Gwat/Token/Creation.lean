/-
  The creation of a token: what `tokenCreate` leaves in the storage of the new account.
-/
import Gwat.Token.Nfts

namespace Gwat.Token

open GoLib ByteProg Function List Processor

variable {op : CreateOp} {m m' : Mem} {st : Storage} {p : Processor} {β : Type}

/-! ## Fields -/

theorem le_toNat_byteArray {n : ℕ} (h : n < 2 ^ 48) :
    n ≤ (byteArray (UInt64.ofNat n)).fieldLength.toNat := by
  rw [fieldLength_byteArray, UInt64.toNat_ofNat_of_lt' (h.trans (by norm_num))]

theorem run_newStorage_descriptors (op : CreateOp) (m : Mem) :
    ∃ st, Fields op st ∧ (newStorage (descriptors op)).run storageArray m =
      .ok (st, m.write 0 (headerBytes (descriptors op))) := by
  obtain ⟨st, hst, hfields⟩ := fillFields_fieldInfos op
  have hheader := headerSize_le op
  have hcount : ¬ 255 < (descriptors op).length := by
    obtain ⟨name, symbol, kind, hsize⟩ := op
    cases kind <;> exact Nat.not_lt.2 (Nat.le_of_ble_eq_true rfl)
  have hlen : 0 + (headerBytes (descriptors op)).length ≤ storageSize := by
    rw [length_headerBytes]
    unfold storageSize
    omega
  refine ⟨st, hfields, ?_⟩
  rw [newStorage, run_bind, run_ofExcept, newSignatureV1, if_neg hcount,
    fieldsWithOffset_descriptors]
  change (writeToStream (fieldInfos op) >>= fun _ => ofExcept (fillFields (fieldInfos op))).run
    storageArray m = _
  have hwrite : (writeToStream (fieldInfos op)).run storageArray m =
      .ok ((), m.write 0 (headerBytes (descriptors op))) := by
    rw [writeToStream, fieldInfos, map_descriptor_fieldsAt]
    exact Mem.run_write_of_le hlen
  rw [run_bind, hwrite, ok_bind, run_ofExcept, hst]
  rfl

theorem run_writeStandard (hst : Fields op st) :
    (st.writeField standardField (.bytes (stdMarshal op.kind.standard))).run storageArray m =
      .ok ((), m.write (headerSize (descriptors op)) (stdMarshal op.kind.standard)) := by
  have hheader := headerSize_le op
  have hlen : (stdMarshal op.kind.standard).length = 2 := length_bytesBE _ _
  rw [Storage.writeField, Storage.entry, hst.standard]
  change (FieldInfo.writeBytes ⟨⟨standardField, byteArray 2⟩, headerSize (descriptors op), 2⟩
    (stdMarshal op.kind.standard)).run storageArray m = _
  exact Mem.run_write_of_le (by unfold storageSize; omega)

/-! ## The storage of a new token -/

section
variable (hp : p.NoCollision)
include hp

theorem createStorage_bind {prog : StorageProg β} {f : Storage → StorageProg β} (m : Mem)
    (hprog : prog = do
      let fieldsDescriptors ← ByteProg.ofExcept (newFieldsDescriptors op)
      let storage ← newStorage fieldsDescriptors
      storage.writeField standardField (.bytes (stdMarshal op.kind.standard))
      storage.writeField nameField (.bytes op.name)
      storage.writeField symbolField (.bytes op.symbol)
      f storage) :
    ∃ st m₁, Fields op st ∧ Laid op m₁ ∧ p.cell m₁ = p.cell m ∧
      prog.run storageArray m = (f st).run storageArray m₁ := by
  obtain ⟨st, hst, hnew⟩ := run_newStorage_descriptors op m
  have hheader := headerSize_le op
  have hsize := op.size
  have hlaid : Laid op (m.write 0 (headerBytes (descriptors op) ++ stdMarshal op.kind.standard)) :=
    Mem.holds_write _ _ _
  have hcell : p.cell (m.write 0 (headerBytes (descriptors op) ++ stdMarshal op.kind.standard)) =
      p.cell m := by
    refine cell_write_field hp ?_
    rw [length_append, length_headerBytes, stdMarshal, length_bytesBE]
    unfold fieldsEnd
    omega
  obtain ⟨m₁, hname, hnameRun⟩ := run_setField
    ⟨nameField, byteArray (UInt64.ofNat op.name.length)⟩ (.bytes op.name) hp hst hlaid
    (by simp [descriptors]) (by decide : nameField ≠ standardField) (fun _ _ => rfl) rfl
    (le_toNat_byteArray (by omega))
  obtain ⟨m₂, hsymbol, hsymbolRun⟩ := run_setField
    ⟨symbolField, byteArray (UInt64.ofNat op.symbol.length)⟩ (.bytes op.symbol) hp hst hname.laid
    (by simp [descriptors]) (by decide : symbolField ≠ standardField) (fun _ _ => rfl) rfl
    (le_toNat_byteArray (by omega))
  refine ⟨st, m₂, hst, hsymbol.laid, (hsymbol.cells.trans hname.cells).trans hcell, ?_⟩
  rw [Mem.write_append, length_headerBytes, Nat.zero_add] at hnameRun
  rw [hprog, run_bind, run_ofExcept, newFieldsDescriptors_eq]
  change (newStorage (descriptors op) >>= _).run storageArray m = _
  rw [run_bind, hnew, ok_bind, run_bind, run_writeStandard hst, ok_bind, run_bind, hnameRun,
    ok_bind, run_bind, hsymbolRun, ok_bind]

theorem run_createStorage_wrc20 (caller : Address) {decimals : UInt8} {totalSupply : ℤ}
    (hkind : op.kind = .wrc20 decimals totalSupply) (m : Mem) :
    ∃ m', Laid op m' ∧
      p.balanceOf m' = update (p.balanceOf m) caller (fromBig totalSupply).1 ∧
      (p.createStorage caller op).run storageArray m =
        (fromBigChecked totalSupply).map fun _ => ((), m') := by
  have hmem : ∀ {fd : FieldDescriptor}, fd ∈ kindDescriptors (.wrc20 decimals totalSupply) →
      fd ∈ descriptors op := mem_descriptors_wrc20 hkind
  obtain ⟨st, m₁, hst, hlaid, hcell, hrun⟩ := createStorage_bind hp m
    (rfl : p.createStorage caller op = _)
  obtain ⟨m₂, hcreator, hcreatorRun⟩ := run_setField ⟨creatorField, byteArray 20⟩
    (.address caller) hp hst hlaid (hmem (by simp [kindDescriptors]))
    (by decide : creatorField ≠ standardField) (fun _ _ => rfl) rfl caller.length_bytes.le
  obtain ⟨m₃, hdec, hdecRun⟩ := run_setField ⟨decimalsField, .scalar uint8Type⟩
    (.uint8 decimals) hp hst hcreator.laid (hmem (by simp [kindDescriptors]))
    (by decide : decimalsField ≠ standardField) (fun _ _ => rfl) rfl le_rfl
  obtain ⟨m₄, hsupply, hsupplyRun⟩ := run_setField ⟨totalSupplyField, .scalar uint256Type⟩
    (.uint256 (fromBig totalSupply).1) hp hst hdec.laid (hmem (by simp [kindDescriptors]))
    (by decide : totalSupplyField ≠ standardField) (fun _ _ => rfl) rfl (length_bytesBE 32 _).le
  refine ⟨p.put m₄ (.balance caller) (bytesBE 32 (fromBig totalSupply).1),
    laid_put hp hsupply.laid, ?_, ?_⟩
  · rw [balanceOf_put hp (fromBig_lt totalSupply), balanceOf_congr fun a =>
      congrFun (((hsupply.cells.trans hdec.cells).trans hcreator.cells).trans hcell) _]
  · rw [hrun, hkind, run_bind, hcreatorRun, ok_bind, run_bind, hdecRun, ok_bind]
    cases hval : fromBigChecked totalSupply with
    | error e => rfl
    | ok val =>
      obtain ⟨rfl, -⟩ := eq_fromBig_of_checked hval
      change (st.writeField totalSupplyField (.uint256 (fromBig totalSupply).1) >>= fun _ =>
        p.writeToMap st balancesField (.bytes caller.bytes) _).run storageArray m₃ = _
      rw [run_bind, hsupplyRun, ok_bind, ← bind_pure (p.writeToMap _ _ _ _),
        writeBalance_bind hp hst]
      rfl

theorem run_createStorage_wrc721 (caller : Address) {baseURI : Bytes} {percentFee : UInt8}
    (hkind : op.kind = .wrc721 baseURI percentFee) (m : Mem) :
    ∃ m', Laid op m' ∧ p.nfts m' = p.nfts m ∧ minterOf op m' = caller ∧
      percentFeeOf op m' = percentFee ∧
      (p.createStorage caller op).run storageArray m = .ok ((), m') := by
  have hmem : ∀ {fd : FieldDescriptor}, fd ∈ kindDescriptors (.wrc721 baseURI percentFee) →
      fd ∈ descriptors op := mem_descriptors_wrc721 hkind
  have hsize := op.size
  rw [hkind] at hsize
  obtain ⟨st, m₁, hst, hlaid, hcell, hrun⟩ := createStorage_bind hp m
    (rfl : p.createStorage caller op = _)
  obtain ⟨m₂, hminter, hminterRun⟩ := run_setField ⟨minterField, byteArray 20⟩
    (.address caller) hp hst hlaid (hmem (by simp [kindDescriptors]))
    (by decide : minterField ≠ standardField) (fun _ _ => rfl) rfl caller.length_bytes.le
  obtain ⟨m₃, huri, huriRun⟩ := run_setField
    ⟨baseUriField, byteArray (UInt64.ofNat baseURI.length)⟩ (.bytes baseURI) hp hst hminter.laid
    (hmem (by simp [kindDescriptors])) (by decide : baseUriField ≠ standardField)
    (fun _ _ => rfl) rfl (le_toNat_byteArray (Nat.lt_of_le_of_lt (Nat.le_add_left _ _) hsize))
  obtain ⟨m₄, hfee, hfeeRun⟩ := run_setField ⟨percentFeeField, .scalar uint8Type⟩
    (.uint8 percentFee) hp hst huri.laid (hmem (by simp [kindDescriptors]))
    (by decide : percentFeeField ≠ standardField) (fun _ _ => rfl) rfl le_rfl
  refine ⟨m₄, hfee.laid, ?_, ?_, ?_, ?_⟩
  · unfold nfts balanceOf
    rw [((hfee.cells.trans huri.cells).trans hminter.cells).trans hcell]
  · have hsame : fieldBytes op m₄ ⟨minterField, byteArray 20⟩ = caller.bytes :=
      ((hfee.same _ (hmem (by simp [kindDescriptors])) (by decide : minterField ≠ standardField)
        (by decide : minterField ≠ percentFeeField)).trans
        (huri.same _ (hmem (by simp [kindDescriptors])) (by decide : minterField ≠ standardField)
          (by decide : minterField ≠ baseUriField))).trans (hminter.value caller.length_bytes)
    exact (congrArg addressOfBytes hsame).trans (addressOfBytes_bytes caller)
  · exact congrArg (headD · 0) (hfee.value rfl)
  · rw [hrun, hkind, run_bind, hminterRun, ok_bind, run_bind, huriRun, ok_bind, hfeeRun]

end

/-! ## Empty storage -/

def emptyStorage : Mem := fun _ => 0

theorem read_emptyStorage (off n : ℕ) : emptyStorage.read off n = List.replicate n 0 := by
  rw [Mem.read, eq_replicate_iff]
  refine ⟨by simp, fun b hb => ?_⟩
  obtain ⟨i, -, rfl⟩ := mem_map.1 hb
  rfl

theorem natOfBytes_replicate_zero : ∀ n : ℕ, natOfBytes (List.replicate n 0) = 0
  | 0 => rfl
  | n + 1 => by
    rw [replicate_succ', natOfBytes_snoc, natOfBytes_replicate_zero n]
    rfl

theorem balanceOf_emptyStorage : p.balanceOf emptyStorage = fun _ => 0 := by
  funext a
  rw [balanceOf, cell, read_emptyStorage, natOfBytes_replicate_zero]

theorem nfts_emptyStorage : p.nfts emptyStorage =
    ⟨fun _ => 0, fun _ => 0, fun _ => 0, fun _ => 0⟩ := by
  refine Nfts.ext (funext fun id => ?_) balanceOf_emptyStorage (funext fun id => ?_)
    (funext fun id => ?_)
  · simp only [nfts, cell, read_emptyStorage]
    exact congrArg (Fin.ofNat _) (natOfBytes_replicate_zero _)
  · simp only [nfts, cell, read_emptyStorage]
    exact congrArg (Fin.ofNat _) (natOfBytes_replicate_zero _)
  · simp only [nfts, cell, read_emptyStorage]
    exact natOfBytes_replicate_zero _

theorem storageBytes_of_zero {s : StateDB} {a : Address} (h : s.getState a = fun _ => 0) :
    storageBytes s a = emptyStorage := by
  funext i
  rw [storageBytes, slotBytes, h]
  split_ifs
  · have hbytes : (0 : Hash).bytes = List.replicate 32 0 := by decide
    rw [hbytes, getElem?_replicate]
    split_ifs <;> rfl
  · rfl

end Gwat.Token
