/-
  The accesses of the handlers to the storage of a token.
-/
import Gwat.Lib.Ledger
import Gwat.Token.Entries

namespace Gwat.Token

open GoLib ByteProg Processor

variable {op : CreateOp} {m m' : Mem} {st : Storage} {p : Processor}
variable {x : ℤ} {n : ℕ}

/-! ## Fields -/

/-- The recorded creator of a WRC-20 token. -/
def creatorOf (op : CreateOp) (m : Mem) : Address :=
  addressOfBytes (m.read (fieldOffset op creatorField) 20)

/-- The recorded price of a unit of a WRC-20 token. -/
def unitPriceOf (op : CreateOp) (m : Mem) : ℕ :=
  natOfBytes (m.read (fieldOffset op costField) 32)

/-- The recorded minter of a WRC-721 token. -/
def minterOf (op : CreateOp) (m : Mem) : Address :=
  addressOfBytes (m.read (fieldOffset op minterField) 20)

/-- The recorded fee of a WRC-721 token, in percent. -/
def percentFeeOf (op : CreateOp) (m : Mem) : UInt8 :=
  (m.read (fieldOffset op percentFeeField) 1).headD 0

/-! ## Numbers -/

theorem fromBig_lt (x : ℤ) : (fromBig x).1 < 2 ^ 256 := by
  unfold fromBig
  omega

theorem eq_fromBig_of_checked (h : fromBigChecked x = .ok n) : n = (fromBig x).1 ∧ n < 2 ^ 256 := by
  unfold fromBigChecked at h
  split_ifs at h
  obtain rfl := Except.ok.inj h
  exact ⟨rfl, fromBig_lt x⟩

theorem fromBigChecked_eq_ok (h : fromBigChecked x = .ok n) (hx : 0 ≤ x) :
    (n : ℤ) = x ∧ n < 2 ^ 256 := by
  obtain ⟨rfl, hlt⟩ := eq_fromBig_of_checked h
  unfold fromBigChecked fromBig at h
  split_ifs at h with hbig
  have hx' : x < 2 ^ 256 := by
    have := of_decide_eq_false (Bool.not_eq_true _ ▸ hbig)
    omega
  rw [fromBig, Int.emod_eq_of_lt hx hx']
  omega

theorem fromBigChecked_natCast (n : ℕ) :
    fromBigChecked n = if 2 ^ 256 ≤ n then .error .uint256Overflow else .ok n := by
  unfold fromBigChecked fromBig
  simp only [Int.natAbs_natCast, decide_eq_true_eq]
  split_ifs with h
  · rfl
  · have hmod : ((n : ℤ) % 2 ^ 256).toNat = n := by omega
    rw [hmod]

theorem avoids_fromBigChecked (x : ℤ) : Avoids .panic (fromBigChecked x) := by
  unfold fromBigChecked
  split_ifs
  · exact nofun
  · exact avoids_ok _

/-! ## Results -/

section
variable {α β : Type} {Q Q' : α → Mem → Prop} {R : β → Mem → Prop} {f : α → StorageProg β} {a : α}
  {e : TokenError}

/-- The code does not panic, and `Q` holds of what it returns. -/
def Ends (Q : α → Mem → Prop) (x : Except TokenError (α × Mem)) : Prop :=
  Avoids .panic x ∧ ∀ a m', x = .ok (a, m') → Q a m'

theorem ends_ok (h : Q a m) : Ends Q (.ok (a, m)) := by
  refine ⟨avoids_ok _, fun a' m' heq => ?_⟩
  cases heq
  exact h

theorem ends_error (h : e ≠ .panic) : Ends Q (.error e) :=
  ⟨avoids_error.2 h, nofun⟩

theorem Ends.mono {x : Except TokenError (α × Mem)} (h : Ends Q x)
    (hQ : ∀ a m', Q a m' → Q' a m') : Ends Q' x :=
  ⟨h.1, fun a m' hx => hQ a m' (h.2 a m' hx)⟩

/-- `Ends`, and when `C` holds the code returns. -/
def Meets (C : Prop) (Q : α → Mem → Prop) (x : Except TokenError (α × Mem)) : Prop :=
  Ends Q x ∧ (C → ∃ a m', x = .ok (a, m'))

variable {C c : Prop}

theorem Meets.ends {x : Except TokenError (α × Mem)} (h : Meets C Q x) : Ends Q x := h.1

theorem Meets.mono {x : Except TokenError (α × Mem)} (h : Meets C Q x)
    (hQ : ∀ a m', Q a m' → Q' a m') : Meets C Q' x := ⟨h.1.mono hQ, h.2⟩

theorem meets_ok (h : Q a m) : Meets C Q (.ok (a, m)) :=
  ⟨ends_ok h, fun _ => ⟨a, m, rfl⟩⟩

theorem meets_error (h : e ≠ .panic) (hC : ¬ C) : Meets C Q (.error e) :=
  ⟨ends_error h, fun hc => absurd hc hC⟩

theorem meets_ofExcept_bind {x : Except TokenError α} (hx : Avoids .panic x)
    (hC : C → ∃ a, x = .ok a) (h : ∀ a, x = .ok a → Meets C R ((f a).run storageArray m)) :
    Meets C R ((ByteProg.ofExcept x >>= f).run storageArray m) := by
  cases x with
  | error e => exact meets_error (avoids_error.1 hx) fun hc => nomatch hC hc
  | ok a => exact h a rfl

theorem meets_check_bind [Decidable c] {g : Unit → StorageProg β} (he : e ≠ .panic) (hC : C → ¬ c)
    (h : ¬ c → Meets C R ((g ()).run storageArray m)) :
    Meets C R ((ByteProg.ofExcept (failIf c e) >>= g).run storageArray m) :=
  meets_ofExcept_bind (avoids_failIf.2 fun _ => he) (fun hc => ⟨(), failIf_of_not (hC hc)⟩)
    fun _ hok => h (failIf_eq_ok.1 hok)

theorem meets_fromBigChecked_bind {g : ℕ → StorageProg β} (hC : C → n < 2 ^ 256)
    (h : n < 2 ^ 256 → Meets C R ((g n).run storageArray m)) :
    Meets C R ((ByteProg.ofExcept (fromBigChecked n) >>= g).run storageArray m) := by
  rw [fromBigChecked_natCast]
  split_ifs with hn
  · exact meets_error nofun fun hc => Nat.not_lt.2 hn (hC hc)
  · exact h (Nat.not_le.1 hn)

theorem meets_run_bind {prog : StorageProg α} (hprog : Meets C Q (prog.run storageArray m))
    (h : ∀ a m', Q a m' → Meets C R ((f a).run storageArray m')) :
    Meets C R ((prog >>= f).run storageArray m) := by
  rw [run_bind]
  rcases hrun : prog.run storageArray m with e | ⟨a, m'⟩
  · rw [hrun] at hprog
    exact meets_error (avoids_error.1 hprog.1.1) fun hc => nomatch hprog.2 hc
  · exact h a m' (hprog.1.2 _ _ hrun)

theorem meets_newStorage_bind {f : Storage → StorageProg β} {std : Std} (h : Laid op m)
    (hC : C → std = op.kind.standard)
    (hf : ∀ st, Fields op st → std = op.kind.standard → Meets C R ((f st).run storageArray m)) :
    Meets C R ((Processor.newStorage std >>= f).run storageArray m) := by
  obtain ⟨st, hst, hopen⟩ := run_newStorage std h
  rw [run_bind, hopen]
  split_ifs with hstd
  · exact hf st hst hstd
  · exact meets_error nofun fun hc => hstd (hC hc)

theorem meets_newStorageWithoutStdCheck_bind {f : Storage × Std → StorageProg β} (h : Laid op m)
    (hf : ∀ st, Fields op st → Meets C R ((f (st, op.kind.standard)).run storageArray m)) :
    Meets C R ((newStorageWithoutStdCheck >>= f).run storageArray m) := by
  obtain ⟨st, hopen, hst⟩ := newStorageWithoutStdCheck_of_laid h
  rw [run_bind, hopen]
  exact hf st hst

end

/-! ## Accesses -/

/-- A field was set to `b`; the other fields and the maps are as before. -/
structure FieldSet (p : Processor) (op : CreateOp) (fd : FieldDescriptor) (b : Bytes)
    (m m' : Mem) : Prop where
  laid : Laid op m'
  cells : p.cell m' = p.cell m
  same : ∀ fd' ∈ descriptors op, fd'.name ≠ standardField → fd'.name ≠ fd.name →
    fieldBytes op m' fd' = fieldBytes op m fd'
  value : b.length = fd.vp.fieldLength.toNat → fieldBytes op m' fd = b

section
variable {β : Type}
variable {α : Type} {decode : Encoding → Bytes → Except TokenError α} {f : ℕ → StorageProg β}
  {a : Address} {enc : Encoding} {name b : Bytes} {v key : Value}

/-- A field is read where the layout has it. -/
theorem readField_bind {f : α → StorageProg β} {a : α} (fd : FieldDescriptor) (hst : Fields op st)
    (hfd : fd ∈ descriptors op) (hne : fd.name ≠ standardField)
    (henc : ∀ off len, entryOf ⟨fd, off, len⟩ = .field ⟨fd, off, len⟩ enc)
    (hmake : fd.vp.fieldLength.toNat ≤ 2 ^ 48)
    (hdecode : decode enc (m.read (fieldOffset op fd.name) fd.vp.fieldLength.toNat) = .ok a) :
    (st.readField decode fd.name >>= f).run storageArray m = (f a).run storageArray m := by
  rw [run_bind, hst.run_readField hfd hne henc hmake, hdecode]
  rfl

theorem readAddress_bind {f : Address → StorageProg β} (hst : Fields op st)
    (hfd : ⟨name, byteArray 20⟩ ∈ descriptors op) (hne : name ≠ standardField) :
    (readAddress st name >>= f).run storageArray m =
      (f (addressOfBytes (m.read (fieldOffset op name) 20))).run storageArray m := by
  rw [readAddress, bind_assoc]
  refine readField_bind ⟨name, byteArray 20⟩ hst hfd hne (fun _ _ => rfl) ?_ ?_
  · rw [fieldLength_byteArray]
    decide
  · rfl

theorem run_setField (fd : FieldDescriptor) (v : Value) (hp : p.NoCollision) (hst : Fields op st)
    (hlaid : Laid op m) (hfd : fd ∈ descriptors op) (hne : fd.name ≠ standardField)
    (henc : ∀ off len, entryOf ⟨fd, off, len⟩ = .field ⟨fd, off, len⟩ enc)
    (hb : enc.encode v = .ok b) (hlen : b.length ≤ fd.vp.fieldLength.toNat) :
    ∃ m₁, FieldSet p op fd b m m₁ ∧
      (st.writeField fd.name v).run storageArray m = .ok ((), m₁) := by
  refine ⟨m.write (fieldOffset op fd.name) b, ⟨?_, ?_, ?_, ?_⟩, ?_⟩
  · obtain ⟨info, hinfo, rfl⟩ := exists_info_of_mem hfd
    exact hlaid.write (fieldOffset_of_mem hinfo hne).2.1
  · obtain ⟨info, hinfo, rfl⟩ := exists_info_of_mem hfd
    have hhi := (fieldOffset_of_mem hinfo hne).2.2
    exact cell_write_field hp (by omega)
  · intro fd' hfd' hne' hname
    have hdisjoint := fieldOffset_disjoint hfd' hfd hne' hne hname
    exact Mem.read_write_of_disjoint (by omega)
  · intro hfull
    rw [fieldBytes, ← hfull, Mem.read_write]
  · exact hst.run_writeField hfd hne henc hb hlen

theorem readField_absent {f : α → StorageProg β} (hst : Fields op st)
    (hname : name ∉ (descriptors op).map FieldDescriptor.name) :
    (st.readField decode name >>= f).run storageArray m = .error .fieldNotFound := by
  rw [Storage.readField, Storage.entry, hst.absent name hname]
  rfl

theorem writeToMap_absent (hst : Fields op st)
    (hname : name ∉ (descriptors op).map FieldDescriptor.name) :
    (p.writeToMap st name key v).run storageArray m = .error .fieldNotFound := by
  rw [writeToMap, Storage.writeToMap, Storage.entry, hst.absent name hname]
  rfl

/-- A number of 256 bits in a map. -/
theorem readUint256_bind (k : MapKey) (hst : Fields op st) (hk : k.OfKind op.kind)
    (henc : k.valueEncoding = .uint256) (hcell : k.size = 32) (hfixed : ∀ id, k ≠ .metadata id) :
    (p.readUint256 st k.name k.key >>= f).run storageArray m =
      (f (natOfBytes (p.cell m k))).run storageArray m := by
  have hlt := natOfBytes_lt (p.cell m k)
  rw [length_cell, hcell] at hlt
  rw [run_bind, readUint256, run_readFromMap (hst.lookup_map hk) (valueSize_ne_zero hfixed), henc]
  change (f (natOfBytes (p.cell m k) % 2 ^ 256)).run storageArray m = _
  rw [Nat.mod_eq_of_lt (lt_of_lt_of_eq hlt (by norm_num))]

theorem readBalance_bind (hst : Fields op st) :
    (p.readUint256 st balancesField (.bytes a.bytes) >>= f).run storageArray m =
      (f (p.balanceOf m a)).run storageArray m :=
  readUint256_bind (.balance a) hst trivial rfl rfl nofun

/-- An address in a map. -/
theorem readAddressFromMap_bind {f : Address → StorageProg β} (k : MapKey) (hst : Fields op st)
    (hk : k.OfKind op.kind) (henc : k.valueEncoding = .array) (hfixed : ∀ id, k ≠ .metadata id) :
    (p.readAddressFromMap st k.name k.key >>= f).run storageArray m =
      (f (addressOfBytes (p.cell m k))).run storageArray m := by
  rw [readAddressFromMap, bind_assoc, run_bind,
    run_readFromMap (hst.lookup_map hk) (valueSize_ne_zero hfixed), henc]
  rfl

theorem putToMap_bind {f : Unit → StorageProg β} (k : MapKey) (hp : p.NoCollision)
    (hst : Fields op st) (hk : k.OfKind op.kind) (henc : k.valueEncoding.encode v = .ok b)
    (hfixed : ∀ id, k ≠ .metadata id) (hlen : b.length ≤ k.size) :
    (p.writeToMap st k.name k.key v >>= f).run storageArray m =
      (f ()).run storageArray (p.put m k b) := by
  have hentry : k.byteMap.entryBytes b = b := if_neg (valueSize_ne_zero hfixed)
  rw [run_bind, writeToMap,
    run_writeToMap hp (hst.lookup_map hk) henc (by rwa [hentry]), ok_bind, hentry]

theorem writeBalance_bind {f : Unit → StorageProg β} (hp : p.NoCollision) (hst : Fields op st) :
    (p.writeToMap st balancesField (.bytes a.bytes) (.uint256 n) >>= f).run storageArray m =
      (f ()).run storageArray (p.put m (.balance a) (bytesBE 32 n)) :=
  putToMap_bind (.balance a) hp hst trivial rfl nofun (length_bytesBE 32 n).le

end

/-! ## Units -/

variable {src dst : Address} {v : ℕ}

/-- The storage after `v` units moved from `src` to `dst`. -/
def Processor.moveBalance (p : Processor) (m : Mem) (src dst : Address) (v : ℕ) : Mem :=
  let taken := p.put m (.balance src) (bytesBE 32 (p.balanceOf m src - v))
  p.put taken (.balance dst) (bytesBE 32 (p.balanceOf taken dst + v))

theorem run_transferBalance (hp : p.NoCollision) (hst : Fields op st) :
    (p.transferBalance st src dst v).run storageArray m =
      if p.balanceOf m src < v then .error .notEnoughBalance
      else if 2 ^ 256 ≤ p.balanceOf (p.put m (.balance src) (bytesBE 32 (p.balanceOf m src - v))) dst
        + v then .error .uint256Overflow
      else .ok ((), p.moveBalance m src dst v) := by
  rw [transferBalance, readBalance_bind hst]
  by_cases hle : p.balanceOf m src < v
  · rw [if_pos hle, failIf_of (by exact_mod_cast hle)]
    rfl
  have hsub : ((p.balanceOf m src : ℕ) : ℤ) - v = ((p.balanceOf m src - v : ℕ) : ℤ) := by omega
  have hsrc := p.balanceOf_lt m src
  rw [if_neg hle, failIf_of_not (by omega), hsub, fromBigChecked_natCast, if_neg (by omega)]
  change (p.writeToMap st balancesField (.bytes src.bytes) _ >>= _).run storageArray m = _
  rw [writeBalance_bind hp hst, readBalance_bind hst, ← Nat.cast_add, fromBigChecked_natCast]
  split_ifs
  · rfl
  · change (p.writeToMap st balancesField (.bytes dst.bytes) _).run storageArray _ = _
    rw [← bind_pure (p.writeToMap _ _ _ _), writeBalance_bind hp hst]
    rfl

theorem meets_transferBalance {C : Prop} (hp : p.NoCollision) (hst : Fields op st)
    (hC : C → v ≤ p.balanceOf m src ∧ p.balanceOf m dst + v < 2 ^ 256) :
    Meets C (fun _ m' => v ≤ p.balanceOf m src ∧
      p.balanceOf (p.put m (.balance src) (bytesBE 32 (p.balanceOf m src - v))) dst + v < 2 ^ 256 ∧
      m' = p.moveBalance m src dst v) ((p.transferBalance st src dst v).run storageArray m) := by
  have hsrc := p.balanceOf_lt m src
  have htaken : p.balanceOf (p.put m (.balance src) (bytesBE 32 (p.balanceOf m src - v))) dst ≤
      p.balanceOf m dst := by
    rw [balanceOf_put hp (by omega)]
    rcases eq_or_ne dst src with rfl | hne
    · rw [Function.update_self]
      omega
    · rw [Function.update_of_ne hne]
  rw [run_transferBalance hp hst]
  split_ifs with hle hlt
  · exact meets_error nofun fun hc => Nat.not_lt.2 (hC hc).1 hle
  · exact meets_error nofun fun hc => by have := (hC hc).2; omega
  · exact meets_ok ⟨Nat.not_lt.1 hle, Nat.not_le.1 hlt, rfl⟩

section
variable (hp : p.NoCollision) {src dst : Address} {v : ℕ}
include hp

theorem balanceOf_moveBalance
    (hlt : p.balanceOf (p.put m (.balance src) (bytesBE 32 (p.balanceOf m src - v))) dst + v <
      2 ^ 256) : p.balanceOf (p.moveBalance m src dst v) = move (p.balanceOf m) src dst v := by
  have hsrc : p.balanceOf m src - v < 2 ^ 256 := lt_of_le_of_lt (Nat.sub_le _ _) (p.balanceOf_lt m src)
  rw [moveBalance, balanceOf_put hp hlt, balanceOf_put hp hsrc]
  rfl

theorem nfts_moveBalance
    (hlt : p.balanceOf (p.put m (.balance src) (bytesBE 32 (p.balanceOf m src - v))) dst + v <
      2 ^ 256) : p.nfts (p.moveBalance m src dst v) =
      { p.nfts m with balance := move (p.nfts m).balance src dst v } := by
  have hsrc : p.balanceOf m src - v < 2 ^ 256 := lt_of_le_of_lt (Nat.sub_le _ _) (p.balanceOf_lt m src)
  rw [moveBalance, nfts_put_balance hp hlt, nfts_put_balance hp hsrc, balanceOf_put hp hsrc]
  rfl

theorem laid_moveBalance (h : Laid op m) : Laid op (p.moveBalance m src dst v) :=
  laid_put hp (laid_put hp h)

end

end Gwat.Token
