/-
  The fixed-width values every part of gwat shares (`common/types.go`,
  `common/big.go`) and their big-endian bytes.

  A hash is its 32 bytes read big-endian, an address its 20 bytes; the order on
  hashes is then the byte order that `HashArray.Sort` sorts the hex strings by.  In RLP they
  are byte arrays.
-/
import Gwat.Lib.Rlp

namespace Gwat

open List

variable {k N : ℕ} {b : Bytes}

/-- `common.Hash` -/
def Hash := Fin (2 ^ 256)
  deriving DecidableEq, LinearOrder, Repr, Inhabited

/-- `common.Address` -/
def Address := Fin (2 ^ 160)
  deriving DecidableEq, LinearOrder, Repr, Inhabited

/-- `common.BlsPubKey` -/
def BlsPubKey := Fin (256 ^ 48)
  deriving DecidableEq, Repr, Inhabited

/-- `common.BlsSignature` -/
def BlsSignature := Fin (256 ^ 96)
  deriving DecidableEq, Repr, Inhabited

instance neZero_hash : NeZero (2 ^ 256) := ⟨by norm_num⟩

instance neZero_address : NeZero (2 ^ 160) := ⟨by norm_num⟩

instance neZero_pubKey : NeZero (256 ^ 48) := ⟨by norm_num⟩

instance neZero_signature : NeZero (256 ^ 96) := ⟨by norm_num⟩

instance (n : ℕ) : OfNat Hash n := ⟨Fin.ofNat _ n⟩

instance (n : ℕ) : OfNat Address n := ⟨Fin.ofNat _ n⟩

instance (n : ℕ) : OfNat BlsPubKey n := ⟨Fin.ofNat _ n⟩

instance (n : ℕ) : OfNat BlsSignature n := ⟨Fin.ofNat _ n⟩

abbrev Bytes := List UInt8

/-- `math.MaxUint64` -/
def maxUint64 : UInt64 := 0xFFFFFFFFFFFFFFFF

/-- `common.BigGwei` -/
def bigGwei : ℤ := 10 ^ 9

/-- `common.BigWat` -/
def bigWat : ℤ := 10 ^ 18

/-! ## Big-endian bytes -/

/-- The last `k` bytes of `n`, most significant first. -/
def bytesBE : ℕ → ℕ → Bytes
  | 0, _ => []
  | k + 1, n => bytesBE k (n / 256) ++ [UInt8.ofNat n]

@[simp] theorem length_bytesBE (k n : ℕ) : (bytesBE k n).length = k := by
  induction k generalizing n with
  | zero => rfl
  | succ k ih => simp [bytesBE, ih]

/-- A big-endian number. -/
def natOfBytes (b : Bytes) : ℕ := b.foldl (fun n x => n * 256 + x.toNat) 0

theorem natOfBytes_snoc (b : Bytes) (x : UInt8) :
    natOfBytes (b ++ [x]) = natOfBytes b * 256 + x.toNat := by
  simp [natOfBytes, foldl_append]

theorem natOfBytes_bytesBE (k n : ℕ) : natOfBytes (bytesBE k n) = n % 256 ^ k := by
  induction k generalizing n with
  | zero => simp [bytesBE, natOfBytes, Nat.mod_one]
  | succ k ih =>
    rw [bytesBE, natOfBytes_snoc, ih, Nat.pow_succ', Nat.mod_mul]
    simp only [UInt8.toNat_ofNat']
    ring

theorem bytesBE_natOfBytes (b : Bytes) : bytesBE b.length (natOfBytes b) = b := by
  induction b using List.reverseRecOn with
  | nil => rfl
  | append_singleton b x ih =>
    have hx := x.toNat_lt
    have hdiv : (natOfBytes b * 256 + x.toNat) / 256 = natOfBytes b := by omega
    have hmod : UInt8.ofNat (natOfBytes b * 256 + x.toNat) = x := by
      apply UInt8.toNat_inj.1
      rw [UInt8.toNat_ofNat']
      omega
    rw [length_append, length_singleton, bytesBE, natOfBytes_snoc, hdiv, hmod, ih]

theorem natOfBytes_lt (b : Bytes) : natOfBytes b < 256 ^ b.length := by
  have hmod := natOfBytes_bytesBE b.length (natOfBytes b)
  rw [bytesBE_natOfBytes] at hmod
  rw [hmod]
  exact Nat.mod_lt _ (by positivity)

theorem ofNat_natOfBytes_bytesBE [NeZero N] (hN : N ≤ 256 ^ k) (a : Fin N) :
    Fin.ofNat N (natOfBytes (bytesBE k a.val)) = a := by
  apply Fin.ext
  rw [natOfBytes_bytesBE, Nat.mod_eq_of_lt (lt_of_lt_of_le a.isLt hN)]
  exact Nat.mod_eq_of_lt a.isLt

/-- `k` bytes are those of the value they spell. -/
theorem bytesBE_ofNat_natOfBytes [NeZero N] (hN : 256 ^ k ≤ N) (h : b.length = k) :
    bytesBE k (Fin.ofNat N (natOfBytes b)).val = b := by
  subst h
  have hval : (Fin.ofNat N (natOfBytes b)).val = natOfBytes b :=
    Nat.mod_eq_of_lt (lt_of_lt_of_le (natOfBytes_lt b) hN)
  rw [hval, bytesBE_natOfBytes]

/-- `Hash.Bytes()` -/
def Hash.bytes (h : Hash) : Bytes := bytesBE 32 (Fin.val h)

/-- `Address.Bytes()` -/
def Address.bytes (a : Address) : Bytes := bytesBE 20 (Fin.val a)

/-- `Address.Hash()` -/
def Address.hash (a : Address) : Hash := Fin.castLE (by norm_num) a

/-- `BlsPubKey.Bytes()` -/
def BlsPubKey.bytes (k : BlsPubKey) : Bytes := bytesBE 48 (Fin.val k)

/-- `BlsSignature.Bytes()` -/
def BlsSignature.bytes (s : BlsSignature) : Bytes := bytesBE 96 (Fin.val s)

/-- The hash that spells a number. -/
def hashOfNat (n : ℕ) : Hash := Fin.ofNat _ n

theorem hashOfNat_inj (hm : m < 2 ^ 256) (hn : n < 2 ^ 256) (h : hashOfNat m = hashOfNat n) :
    m = n := by
  have hval := congrArg Fin.val h
  rwa [hashOfNat, hashOfNat, Fin.val_ofNat, Fin.val_ofNat, Nat.mod_eq_of_lt hm,
    Nat.mod_eq_of_lt hn] at hval

/-- `BytesToAddress`, for twenty bytes. -/
def addressOfBytes (b : Bytes) : Address := Fin.ofNat _ (natOfBytes b)

/-- `BytesToHash`, for 32 bytes. -/
def hashOfBytes (b : Bytes) : Hash := Fin.ofNat _ (natOfBytes b)

@[simp] theorem addressOfBytes_bytes (a : Address) : addressOfBytes a.bytes = a :=
  ofNat_natOfBytes_bytesBE (by norm_num) a

@[simp] theorem hashOfBytes_bytes (h : Hash) : hashOfBytes h.bytes = h :=
  ofNat_natOfBytes_bytesBE (by norm_num) h

theorem bytes_addressOfBytes (h : b.length = 20) : (addressOfBytes b).bytes = b :=
  bytesBE_ofNat_natOfBytes (by norm_num) h

theorem bytes_hashOfBytes (h : b.length = 32) : (hashOfBytes b).bytes = b :=
  bytesBE_ofNat_natOfBytes (by norm_num) h

@[simp] theorem Address.length_bytes (a : Address) : a.bytes.length = 20 := length_bytesBE _ _

@[simp] theorem Hash.length_bytes (h : Hash) : h.bytes.length = 32 := length_bytesBE _ _

/-- The bytes that `binary.BigEndian.PutUint64` writes. -/
def uint64BytesBE (n : UInt64) : Bytes := bytesBE 8 n.toNat

@[simp] theorem length_uint64BytesBE (n : UInt64) : (uint64BytesBE n).length = 8 :=
  length_bytesBE _ _

@[simp] theorem natOfBytes_uint64BytesBE (n : UInt64) : natOfBytes (uint64BytesBE n) = n.toNat := by
  rw [uint64BytesBE, natOfBytes_bytesBE, Nat.mod_eq_of_lt (by simpa using n.toNat_lt)]

theorem uint64BytesBE_inj {m n : UInt64} (h : uint64BytesBE m = uint64BytesBE n) : m = n :=
  UInt64.toNat_inj.1 (by simpa using congrArg natOfBytes h)

/-- The last `k` bytes of `n`, least significant first (`binary.LittleEndian`). -/
def bytesLE (k n : ℕ) : Bytes := (bytesBE k n).reverse

/-- `common.Uint64ToBytes` -/
def uint64ToBytes (n : UInt64) : Bytes := bytesLE 8 n.toNat

theorem uint64ToBytes_inj {m n : UInt64} (h : uint64ToBytes m = uint64ToBytes n) : m = n :=
  uint64BytesBE_inj (List.reverse_injective h)

/-! ## RLP items -/

open GoLib.Rlp

def addressItem (a : Address) : Item := .str a.bytes
def hashItem (h : Hash) : Item := .str h.bytes
def uint64Item (n : UInt64) : Item := .ofNat n.toNat

def toAddress? (x : Item) : Option Address := (x.toArray? 20).map addressOfBytes
def toHash? (x : Item) : Option Hash := (x.toArray? 32).map hashOfBytes
def toUint64? (x : Item) : Option UInt64 := (x.toUint? 8).map UInt64.ofNat

@[simp] theorem toAddress?_addressItem (a : Address) : toAddress? (addressItem a) = some a := by
  rw [toAddress?, addressItem, Item.toArray?_str a.length_bytes]
  simp

@[simp] theorem toHash?_hashItem (h : Hash) : toHash? (hashItem h) = some h := by
  rw [toHash?, hashItem, Item.toArray?_str h.length_bytes]
  simp

@[simp] theorem toUint64?_uint64Item (n : UInt64) : toUint64? (uint64Item n) = some n := by
  rw [toUint64?, uint64Item, Item.toUint?_ofNat (by simpa using n.toNat_lt)]
  simp

end Gwat
