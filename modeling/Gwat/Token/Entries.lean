/-
  The entries of a token's maps.

  An entry lies at the slot that the hash of the map's name and the key gives.  Hashes are
  taken not to collide: the ranges of different entries are disjoint, and lie behind the
  fields of the token.
-/
import Gwat.Token.Layout

namespace Gwat.Token

open GoLib ByteProg Mem Function

/-- The ids of tokens: those that fit in a key of the owners' map. -/
def TokenId := Fin (2 ^ 160)
  deriving DecidableEq, Fintype

instance : Fintype Address := inferInstanceAs (Fintype (Fin (2 ^ 160)))

def TokenId.toNat (id : TokenId) : ℕ := Fin.val id

/-! ## Keys -/

/-- The keys of the maps of a token. -/
inductive MapKey where
  | balance (a : Address)
  | owner (id : TokenId)
  | metadata (id : TokenId)
  | tokenApproval (id : TokenId)
  | cost (id : TokenId)
  | allowance (pair : Hash)
  | operatorApproval (pair : Hash)
  deriving DecidableEq

namespace MapKey

/-- The map and the encodings of its keys and values. -/
def byteMap : MapKey → ByteMap
  | balance _ => ⟨balancesField, 20, 32⟩
  | owner _ => ⟨ownersField, 20, 20⟩
  | metadata _ => ⟨metadataField, 20, 0⟩
  | tokenApproval _ => ⟨tokenApprovalsField, 20, 20⟩
  | cost _ => ⟨costMapField, 32, 32⟩
  | allowance _ => ⟨allowancesField, 32, 32⟩
  | operatorApproval _ => ⟨operatorApprovalsField, 32, 1⟩

def keyEncoding : MapKey → Encoding
  | cost _ => .uint256
  | _ => .array

def valueEncoding : MapKey → Encoding
  | balance _ | cost _ | allowance _ => .uint256
  | owner _ | metadata _ | tokenApproval _ => .array
  | operatorApproval _ => .scalar

/-- The field that holds the map. -/
def name (k : MapKey) : Bytes := k.byteMap.uniqPrefix

def entry (k : MapKey) : FieldEntry := .map k.byteMap k.keyEncoding k.valueEncoding

/-- The key as handlers write it. -/
def key : MapKey → Value
  | balance a => .bytes a.bytes
  | owner id | metadata id | tokenApproval id => .bytes (Rlp.beBytes id.toNat)
  | cost id => .uint256 id.toNat
  | allowance pair | operatorApproval pair => .bytes pair.bytes

def keyBytes : MapKey → Bytes
  | balance a => a.bytes
  | owner id | metadata id | tokenApproval id => Rlp.beBytes id.toNat
  | cost id => bytesBE 32 id.toNat
  | allowance pair | operatorApproval pair => pair.bytes

/-- The bytes that an entry takes, at most. -/
def size : MapKey → ℕ
  | metadata _ => 8 + metadataMaxSize
  | k => k.byteMap.valueSize.toNat

/-- The key is the hash of a pair of accounts. -/
def IsPair : MapKey → Prop
  | allowance _ | operatorApproval _ => True
  | _ => False

/-- The map belongs to tokens of the standard. -/
def OfKind : MapKey → CreateKind → Prop
  | balance _, _ => True
  | allowance _, .wrc20 _ _ => True
  | allowance _, .wrc721 _ _ => False
  | _, .wrc20 _ _ => False
  | _, .wrc721 _ _ => True

variable {k : MapKey}

theorem encode_key : k.keyEncoding.encode k.key = .ok k.keyBytes := by cases k <;> rfl

theorem length_keyBytes_le : k.keyBytes.length ≤ k.byteMap.keySize.toNat := by
  have hid : ∀ id : TokenId, (Rlp.beBytes id.toNat).length ≤ 20 := fun id =>
    Rlp.length_beBytes_le (lt_of_lt_of_eq id.isLt (by norm_num))
  cases k with
  | balance a => exact a.length_bytes.le
  | owner id | metadata id | tokenApproval id => exact hid id
  | cost id => exact (length_bytesBE _ _).le
  | allowance pair | operatorApproval pair => exact pair.length_bytes.le

end MapKey

/-- The field that holds the map, as the header describes it. -/
def MapKey.descriptor : MapKey → FieldDescriptor
  | balance _ => ⟨balancesField, .map (byteArray 20) (.scalar uint256Type)⟩
  | owner _ => ⟨ownersField, .map (byteArray 20) (byteArray 20)⟩
  | metadata _ => ⟨metadataField, .map (byteArray 20) (.slice (.scalar uint8Type))⟩
  | tokenApproval _ => ⟨tokenApprovalsField, .map (byteArray 20) (byteArray 20)⟩
  | cost _ => ⟨costMapField, .map (.scalar uint256Type) (.scalar uint256Type)⟩
  | allowance _ => ⟨allowancesField, .map (byteArray 32) (.scalar uint256Type)⟩
  | operatorApproval _ => ⟨operatorApprovalsField, .map (byteArray 32) (.scalar uint8Type)⟩

variable {op : CreateOp} {m m' : Mem} {st : Storage} {k : MapKey}

theorem MapKey.descriptor_mem (hk : k.OfKind op.kind) : k.descriptor ∈ descriptors op := by
  refine List.mem_append.2 ?_
  cases hkind : op.kind with
  | wrc20 _ _ =>
    rw [hkind] at hk
    cases k with
    | balance a => exact .inl (by simp [MapKey.descriptor])
    | allowance pair => exact .inr (by simp [MapKey.descriptor, kindDescriptors])
    | _ => exact hk.elim
  | wrc721 _ _ =>
    rw [hkind] at hk
    cases k with
    | balance a => exact .inl (by simp [MapKey.descriptor])
    | allowance pair => exact hk.elim
    | _ => exact .inr (by simp [MapKey.descriptor, kindDescriptors])

theorem MapKey.ofKind_wrc721 {kind : CreateKind} {baseURI : Bytes} {percentFee : UInt8}
    (h : kind = .wrc721 baseURI percentFee) (hk : ∀ pair, k ≠ .allowance pair) : k.OfKind kind := by
  subst h
  cases k with
  | allowance pair => exact absurd rfl (hk pair)
  | _ => trivial

theorem Fields.lookup_map (h : Fields op st) (hk : k.OfKind op.kind) :
    st.lookup k.name = some k.entry := by
  obtain ⟨⟨fd, off, len⟩, hinfo, hfd⟩ := exists_info_of_mem (MapKey.descriptor_mem hk)
  obtain rfl : fd = k.descriptor := hfd
  have hentry := h.entry _ hinfo
  cases k <;> exact hentry

/-! ## Accesses -/

section
variable (p : Processor)

/-- Where the entry of a key lies. -/
def Processor.offset (k : MapKey) : ℕ := Fin.val (p.keccak256 (k.name ++ k.keyBytes)) * 32

variable {p}

theorem calculateOffset_eq : calculateOffset p.keccak256 k.byteMap.uniqPrefix k.keyBytes =
    ((p.offset k : ℕ) : ℤ) := by
  rfl

end

/-! ## Cells -/

/-- The maps of a WRC-721 token. -/
@[ext] structure Nfts where
  owner : TokenId → Address
  balance : Address → ℕ
  approved : TokenId → Address
  price : TokenId → ℕ

namespace Processor

variable (p : Processor)

/-- Hashes do not collide: the entries of maps do not overlap, and lie behind the fields and
    within the storage.  The keys of pairs of accounts are hashes, too, and more pairs than hashes
    exist; nothing is said about them among each other. -/
structure NoCollision : Prop where
  apart : ∀ k k' : MapKey, k ≠ k' → ¬ (k.IsPair ∧ k'.IsPair) →
    p.offset k + k.size ≤ p.offset k' ∨ p.offset k' + k'.size ≤ p.offset k
  beyond : ∀ k, fieldsEnd ≤ p.offset k
  within : ∀ k, p.offset k + k.size ≤ storageSize

def cell (m : Mem) (k : MapKey) : Bytes := m.read (p.offset k) k.size

@[simp] theorem length_cell (m : Mem) (k : MapKey) : (p.cell m k).length = k.size :=
  length_read _ _ _

/-- The storage with other bytes in an entry. -/
def put (m : Mem) (k : MapKey) (b : Bytes) : Mem := m.write (p.offset k) b

variable {p} {b : Bytes} {k' : MapKey} {off n : ℕ}

@[simp] theorem put_nil : p.put m k [] = m := write_nil m _

/-- A write to an entry leaves the others. -/
theorem cell_put_of_ne (hp : p.NoCollision) (hne : k ≠ k') (hpair : ¬ (k.IsPair ∧ k'.IsPair))
    (hb : b.length ≤ k.size) : p.cell (p.put m k b) k' = p.cell m k' := by
  refine read_write_of_disjoint ?_
  rcases hp.apart k k' hne hpair with h | h
  · exact .inr (by omega)
  · exact .inl h

theorem cell_put (hp : p.NoCollision) (hk : ¬ k.IsPair) (hb : b.length = k.size) :
    p.cell (p.put m k b) = update (p.cell m) k b := by
  funext k'
  by_cases hne : k' = k
  · subst hne
    rw [update_self, cell, put, ← hb, read_write]
  · rw [update_of_ne hne]
    exact cell_put_of_ne hp (Ne.symm hne) (fun h => hk h.1) hb.le

theorem cell_write_field (hp : p.NoCollision) (hb : off + b.length ≤ fieldsEnd) :
    p.cell (m.write off b) = p.cell m := by
  funext k
  exact read_write_of_disjoint (.inr (hb.trans (hp.beyond k)))

theorem read_put (hp : p.NoCollision) (hn : off + n ≤ fieldsEnd) :
    (p.put m k b).read off n = m.read off n :=
  read_write_of_disjoint (.inl (hn.trans (hp.beyond k)))

theorem laid_put (hp : p.NoCollision) (h : Laid op m) : Laid op (p.put m k b) := by
  have hheader := headerSize_le op
  refine h.write (le_trans ?_ (hp.beyond k))
  unfold fieldsEnd
  omega

/-! ## Accesses -/

section
variable {α : Type} {decode : Encoding → Bytes → Except TokenError α}

theorem valueSize_ne_zero (h : ∀ id, k ≠ .metadata id) : k.byteMap.valueSize ≠ 0 := by
  cases k with
  | metadata id => exact absurd rfl (h id)
  | balance a | cost id | allowance pair => exact (by decide : (32 : UInt64) ≠ 0)
  | owner id | tokenApproval id => exact (by decide : (20 : UInt64) ≠ 0)
  | operatorApproval pair => exact (by decide : (1 : UInt64) ≠ 0)

theorem size_of_fixed (hk : k.byteMap.valueSize ≠ 0) :
    k.byteMap.valueSize.toNat = k.size ∧ k.size ≤ 32 := by
  cases k with
  | metadata id => exact absurd rfl hk
  | _ => exact ⟨rfl, Nat.le_of_ble_eq_true rfl⟩

theorem offset_add_le {n : ℕ} (hn : n ≤ 32) : p.offset k + n ≤ storageSize := by
  unfold offset storageSize
  omega

theorem run_get (hk : k.byteMap.valueSize ≠ 0) :
    (k.byteMap.get p.keccak256 k.keyBytes).run storageArray m = .ok (p.cell m k, m) := by
  obtain ⟨hsize, hle⟩ := size_of_fixed hk
  have hmake : ¬ 2 ^ 48 < k.size := by omega
  rw [ByteMap.get, failIf_of_not (Nat.not_lt.2 MapKey.length_keyBytes_le), ByteMap.entryRange,
    if_neg hk, calculateOffset_eq, hsize]
  change (makeBytes k.size >>= fun _ => read k.size ((p.offset k : ℕ) : ℤ)).run storageArray m = _
  rw [makeBytes, if_neg hmake]
  exact run_read_of_le (offset_add_le hle)

theorem readFromMap_eq {key : Value} {keyB : Bytes} (he : st.lookup k.name = some k.entry)
    (hkey : k.keyEncoding.encode key = .ok keyB) :
    st.readFromMap p.keccak256 decode k.name key = (do
      let res ← k.byteMap.get p.keccak256 keyB
      ByteProg.ofExcept (decode k.valueEncoding res)) := by
  rw [Storage.readFromMap, Storage.entry, he]
  change (ByteProg.ofExcept (k.keyEncoding.encode key) >>= _) = _
  rw [hkey]
  rfl

theorem run_readFromMap (he : st.lookup k.name = some k.entry) (hk : k.byteMap.valueSize ≠ 0) :
    (st.readFromMap p.keccak256 decode k.name k.key).run storageArray m =
      (decode k.valueEncoding (p.cell m k)).map fun a => (a, m) := by
  rw [readFromMap_eq he MapKey.encode_key, run_bind, run_get hk, ok_bind, run_ofExcept]

theorem run_readFromMap_long {key : Bytes} (he : st.lookup k.name = some k.entry)
    (henc : k.keyEncoding = .array) (hlen : k.byteMap.keySize.toNat < key.length) :
    (st.readFromMap p.keccak256 decode k.name (.bytes key)).run storageArray m =
      .error .badKeySize := by
  rw [readFromMap_eq he (by rw [henc]; rfl), ByteMap.get, failIf_of hlen]
  rfl

/-- A value is written where the key says. -/
theorem run_writeToMap {v : Value} (hp : p.NoCollision) (he : st.lookup k.name = some k.entry)
    (henc : k.valueEncoding.encode v = .ok b) (hlen : (k.byteMap.entryBytes b).length ≤ k.size) :
    (st.writeToMap p.keccak256 k.name k.key v).run storageArray m =
      .ok ((), p.put m k (k.byteMap.entryBytes b)) := by
  have hvalue : ¬ (k.byteMap.valueSize ≠ 0 ∧ k.byteMap.valueSize.toNat < b.length) := by
    rintro ⟨hk, hlt⟩
    obtain ⟨hsize, -⟩ := size_of_fixed hk
    rw [ByteMap.entryBytes, if_neg hk] at hlen
    omega
  have hin := hp.within k
  rw [Storage.writeToMap, Storage.entry, he]
  change (ByteProg.ofExcept (k.keyEncoding.encode k.key) >>= fun keyB =>
    ByteProg.ofExcept (k.valueEncoding.encode v) >>= fun valueB =>
      k.byteMap.put p.keccak256 keyB valueB).run storageArray m = _
  rw [MapKey.encode_key, henc]
  change (k.byteMap.put p.keccak256 k.keyBytes b).run storageArray m = _
  rw [ByteMap.put, failIf_of_not (Nat.not_lt.2 MapKey.length_keyBytes_le), failIf_of_not hvalue,
    calculateOffset_eq]
  exact run_write_of_le (by omega)

end

/-! ## What the maps record -/

variable (p)

/-- The recorded balance of an account. -/
def balanceOf (m : Mem) (a : Address) : ℕ := natOfBytes (p.cell m (.balance a))

/-- What the maps of a WRC-721 token record. -/
def nfts (m : Mem) : Nfts where
  owner id := addressOfBytes (p.cell m (.owner id))
  balance := p.balanceOf m
  approved id := addressOfBytes (p.cell m (.tokenApproval id))
  price id := natOfBytes (p.cell m (.cost id))

/-- The recorded approval of an operator for all tokens of an owner. -/
def isOperator (m : Mem) (owner caller : Address) : Bool :=
  p.cell m (.operatorApproval (p.keccak256 (owner.bytes ++ caller.bytes))) = [1]

variable {p}

theorem natOfBytes_uint256 (h : n < 2 ^ 256) : natOfBytes (bytesBE 32 n) = n := by
  rw [natOfBytes_bytesBE, Nat.mod_eq_of_lt (lt_of_lt_of_eq h (by norm_num))]

theorem balanceOf_lt (m : Mem) (a : Address) : p.balanceOf m a < 2 ^ 256 := by
  have h := natOfBytes_lt (p.cell m (.balance a))
  rw [cell, length_read] at h
  exact h

theorem balanceOf_congr (h : ∀ a, p.cell m' (.balance a) = p.cell m (.balance a)) :
    p.balanceOf m' = p.balanceOf m :=
  funext fun a => congrArg natOfBytes (h a)

section
variable (hp : p.NoCollision) {a : Address} {id : TokenId} {n : ℕ}
include hp

theorem cell_put_balance : p.cell (p.put m (.balance a) (bytesBE 32 n)) =
    update (p.cell m) (.balance a) (bytesBE 32 n) :=
  cell_put hp (fun h => h) (length_bytesBE 32 n)

theorem cell_put_owner : p.cell (p.put m (.owner id) a.bytes) =
    update (p.cell m) (.owner id) a.bytes :=
  cell_put hp (fun h => h) a.length_bytes

theorem cell_put_tokenApproval : p.cell (p.put m (.tokenApproval id) a.bytes) =
    update (p.cell m) (.tokenApproval id) a.bytes :=
  cell_put hp (fun h => h) a.length_bytes

theorem cell_put_cost : p.cell (p.put m (.cost id) (bytesBE 32 n)) =
    update (p.cell m) (.cost id) (bytesBE 32 n) :=
  cell_put hp (fun h => h) (length_bytesBE 32 n)

theorem balanceOf_put (hn : n < 2 ^ 256) :
    p.balanceOf (p.put m (.balance a) (bytesBE 32 n)) = update (p.balanceOf m) a n := by
  funext a'
  simp [balanceOf, cell_put_balance hp, update_apply, apply_ite natOfBytes, natOfBytes_uint256 hn]

theorem nfts_put_balance (hn : n < 2 ^ 256) : p.nfts (p.put m (.balance a) (bytesBE 32 n)) =
    { p.nfts m with balance := update (p.nfts m).balance a n } := by
  refine Nfts.ext ?_ (balanceOf_put hp hn) ?_ ?_ <;> simp [nfts, cell_put_balance hp]

theorem nfts_put_owner : p.nfts (p.put m (.owner id) a.bytes) =
    { p.nfts m with owner := update (p.nfts m).owner id a } := by
  ext x <;>
    simp [nfts, balanceOf, cell_put_owner hp, update_apply, apply_ite addressOfBytes]

theorem nfts_put_approved : p.nfts (p.put m (.tokenApproval id) a.bytes) =
    { p.nfts m with approved := update (p.nfts m).approved id a } := by
  ext x <;>
    simp [nfts, balanceOf, cell_put_tokenApproval hp, update_apply, apply_ite addressOfBytes]

theorem nfts_put_price (hn : n < 2 ^ 256) : p.nfts (p.put m (.cost id) (bytesBE 32 n)) =
    { p.nfts m with price := update (p.nfts m).price id n } := by
  ext x <;>
    simp [nfts, balanceOf, cell_put_cost hp, update_apply, apply_ite natOfBytes,
      natOfBytes_uint256 hn]

theorem nfts_put_of_beside (hk : k.IsPair ∨ ∃ id, k = .metadata id) (hb : b.length ≤ k.size) :
    p.nfts (p.put m k b) = p.nfts m := by
  have hcell : ∀ k', (∀ pair, k' ≠ .allowance pair) → (∀ pair, k' ≠ .operatorApproval pair) →
      (∀ id, k' ≠ .metadata id) → p.cell (p.put m k b) k' = p.cell m k' := by
    intro k' hallow hoper hmeta
    have hk' : ¬ k'.IsPair := by
      cases k' with
      | allowance pair => exact absurd rfl (hallow pair)
      | operatorApproval pair => exact absurd rfl (hoper pair)
      | _ => exact fun h => h
    refine cell_put_of_ne hp ?_ (fun h => hk' h.2) hb
    rintro rfl
    rcases hk with hk | ⟨id, rfl⟩
    · exact hk' hk
    · exact hmeta id rfl
  ext <;> simp [nfts, balanceOf, hcell]

end

/-! ## Hashes that do not collide -/

/-- The number of an entry, from the hashed bytes: the first two letters tell the maps apart,
    and the pairs of accounts share one number. -/
def entryNumber (b : Bytes) : ℕ :=
  if b.take 2 = textBytes "Ba" then 8 * natOfBytes (b.drop 8)
  else if b.take 2 = textBytes "Ow" then 8 * natOfBytes (b.drop 6) + 1
  else if b.take 2 = textBytes "Me" then 8 * natOfBytes (b.drop 8) + 2
  else if b.take 2 = textBytes "To" then 8 * natOfBytes (b.drop 14) + 3
  else if b.take 2 = textBytes "Co" then 8 * natOfBytes (b.drop 7) + 4
  else if b.take 2 = textBytes "Al" ∨ b.take 2 = textBytes "Op" then 5
  else 8 * natOfBytes (b.take 10) + 6

/-- A processor whose hashes place the entries one after the other. -/
def spaced : Processor where
  keccak256 b := hashOfNat (2 ^ 60 + 40 * entryNumber b)
  createAddress a nonce := Fin.ofNat _ (Fin.val a + nonce.toNat + 1000)

/-- The numbers of the maps; the maps of pairs share one. -/
def mapNumber : MapKey → ℕ
  | .balance _ => 0
  | .owner _ => 1
  | .metadata _ => 2
  | .tokenApproval _ => 3
  | .cost _ => 4
  | .allowance _ | .operatorApproval _ => 5

/-- The number that a key spells. -/
def keyNumber : MapKey → ℕ
  | .balance a => Fin.val a
  | .owner id | .metadata id | .tokenApproval id | .cost id => id.toNat
  | .allowance _ | .operatorApproval _ => 0

/-- The key with the given numbers. -/
def keyOf (map n : ℕ) : MapKey :=
  match map with
  | 0 => .balance (Fin.ofNat _ n)
  | 1 => .owner (Fin.ofNat _ n)
  | 2 => .metadata (Fin.ofNat _ n)
  | 3 => .tokenApproval (Fin.ofNat _ n)
  | 4 => .cost (Fin.ofNat _ n)
  | _ => .allowance 0

theorem mapNumber_lt (k : MapKey) : mapNumber k < 8 := by
  cases k <;> exact Nat.le_of_ble_eq_true rfl

theorem keyNumber_lt (k : MapKey) : keyNumber k < 2 ^ 160 := by
  cases k with
  | balance a => exact a.isLt
  | owner id | metadata id | tokenApproval id | cost id => exact id.isLt
  | allowance pair | operatorApproval pair => exact Nat.pow_pos (by norm_num)

theorem isPair_iff : k.IsPair ↔ mapNumber k = 5 := by
  cases k <;> simp [MapKey.IsPair, mapNumber]

theorem keyOf_numbers (h : ¬ k.IsPair) : keyOf (mapNumber k) (keyNumber k) = k := by
  cases k with
  | balance a => exact congrArg MapKey.balance (Fin.ofNat_val_eq_self a)
  | allowance pair | operatorApproval pair => exact absurd trivial h
  | _ id => exact congrArg _ (Fin.ofNat_val_eq_self id)

theorem eq_of_numbers (hpair : ¬ (k.IsPair ∧ k'.IsPair)) (hmap : mapNumber k = mapNumber k')
    (hkey : keyNumber k = keyNumber k') : k = k' := by
  have hk : ¬ k.IsPair := fun h => hpair ⟨h, isPair_iff.2 (hmap ▸ isPair_iff.1 h)⟩
  have hk' : ¬ k'.IsPair := fun h => hpair ⟨isPair_iff.2 (hmap.symm ▸ isPair_iff.1 h), h⟩
  rw [← keyOf_numbers hk, ← keyOf_numbers hk', hmap, hkey]

theorem natOfBytes_beBytes (n : ℕ) : natOfBytes (Rlp.beBytes n) = n := Rlp.beNat_beBytes n

theorem entryNumber_eq (k : MapKey) : entryNumber (k.name ++ k.keyBytes) =
    8 * keyNumber k + mapNumber k := by
  have haddress (a : Address) : natOfBytes a.bytes = Fin.val a := by
    rw [Address.bytes, natOfBytes_bytesBE, Nat.mod_eq_of_lt (lt_of_lt_of_eq a.isLt (by norm_num))]
  have hcost (id : TokenId) : natOfBytes (bytesBE 32 id.toNat) = id.toNat := by
    have hlt : id.toNat < 256 ^ 32 := lt_of_lt_of_le id.isLt (by norm_num)
    rw [natOfBytes_bytesBE, Nat.mod_eq_of_lt hlt]
  -- the letters of the names are evaluated
  cases k <;> simp (disch := decide) only [entryNumber, MapKey.name, MapKey.byteMap, MapKey.keyBytes,
    keyNumber, mapNumber, List.take_append_of_le_length, List.drop_left', if_pos, if_neg, haddress,
    hcost, natOfBytes_beBytes, Nat.add_zero]

theorem offset_spaced (k : MapKey) :
    spaced.offset k = (2 ^ 60 + 40 * (8 * keyNumber k + mapNumber k)) * 32 := by
  have hmap := mapNumber_lt k
  have hkey := keyNumber_lt k
  change Fin.val (hashOfNat (2 ^ 60 + 40 * entryNumber (k.name ++ k.keyBytes))) * 32 = _
  rw [entryNumber_eq, hashOfNat, Fin.val_ofNat, Nat.mod_eq_of_lt (by omega)]

theorem size_le (k : MapKey) : k.size ≤ 1032 := by cases k <;> exact Nat.le_of_ble_eq_true rfl

/-- Hashes without collisions exist. -/
theorem noCollision_spaced : spaced.NoCollision where
  apart k k' hne hpair := by
    have hk := size_le k
    have hk' := size_le k'
    have hmap := mapNumber_lt k
    have hmap' := mapNumber_lt k'
    have hnumbers : ¬ (mapNumber k = mapNumber k' ∧ keyNumber k = keyNumber k') := fun h =>
      hne (eq_of_numbers hpair h.1 h.2)
    rw [offset_spaced, offset_spaced]
    omega
  beyond k := by
    rw [offset_spaced]
    unfold fieldsEnd
    omega
  within k := by
    have hsize := size_le k
    have hmap := mapNumber_lt k
    have hkey := keyNumber_lt k
    rw [offset_spaced]
    unfold storageSize
    omega

end Processor

end Gwat.Token
