/-
  The RLP serialization: byte strings and nested lists of them.

  A short value carries its length in the first byte, a long one (56 bytes and
  more) the length of its length; a single byte below 128 is its own encoding.
  The decoder accepts only what the encoder writes: sizes without leading zeros, no
  long form for a short value, no header for a byte that needs none.
-/
import Gwat.Lib.Result

namespace GoLib.Rlp

open List

variable {fuel n k smallTag largeTag size : ℕ}

/-! ## Big-endian numbers without leading zeros -/

/-- The number that bytes spell, most significant first. -/
def beNat (b : List UInt8) : ℕ := b.foldl (fun n x => n * 256 + x.toNat) 0

/-- The bytes of a number without leading zeros; the fuel only has to reach the number. -/
def beBytesAux : ℕ → ℕ → List UInt8
  | 0, _ => []
  | fuel + 1, n => if n = 0 then [] else beBytesAux fuel (n / 256) ++ [UInt8.ofNat n]

def beBytes (n : ℕ) : List UInt8 := beBytesAux n n

theorem beNat_snoc (b : List UInt8) (x : UInt8) : beNat (b ++ [x]) = beNat b * 256 + x.toNat := by
  simp [beNat, foldl_append]

theorem beNat_beBytesAux (h : n ≤ fuel) : beNat (beBytesAux fuel n) = n := by
  induction fuel generalizing n with
  | zero => simp [beBytesAux, beNat]; omega
  | succ fuel ih =>
    rw [beBytesAux]
    split_ifs with hn
    · simp [beNat, hn]
    · rw [beNat_snoc, ih (by omega), UInt8.toNat_ofNat']
      omega

@[simp] theorem beNat_beBytes (n : ℕ) : beNat (beBytes n) = n := beNat_beBytesAux le_rfl

theorem length_beBytesAux_le (h : n < 256 ^ k) : (beBytesAux fuel n).length ≤ k := by
  induction fuel generalizing n k with
  | zero => simp [beBytesAux]
  | succ fuel ih =>
    rw [beBytesAux]
    split_ifs with hn
    · simp
    · cases k with
      | zero => omega
      | succ k =>
        have hdiv : n / 256 < 256 ^ k := Nat.div_lt_of_lt_mul (by rwa [← Nat.pow_succ'])
        simpa using ih hdiv

theorem length_beBytes_le (h : n < 256 ^ k) : (beBytes n).length ≤ k :=
  length_beBytesAux_le h

theorem head?_beBytesAux (h : n ≤ fuel) : (beBytesAux fuel n).head? ≠ some 0 := by
  induction fuel generalizing n with
  | zero => simp [beBytesAux]
  | succ fuel ih =>
    rw [beBytesAux]
    split_ifs with hn
    · simp
    · cases hd : beBytesAux fuel (n / 256) with
      | cons x xs =>
        have hx := @ih (n / 256) (by omega)
        rw [hd] at hx
        simpa using hx
      | nil =>
        -- nothing above the last byte, which is then the number itself
        have hz : n / 256 = 0 := by
          have hnat := @beNat_beBytesAux fuel (n / 256) (by omega)
          rw [hd] at hnat
          exact hnat.symm
        intro h0
        have hb : UInt8.ofNat n = 0 := by simpa using h0
        have := congrArg UInt8.toNat hb
        simp at this
        omega

theorem head?_beBytes (n : ℕ) : (beBytes n).head? ≠ some 0 := head?_beBytesAux le_rfl

/-! ## Items -/

/-- An RLP value. -/
inductive Item where
  | str (b : List UInt8)
  | list (xs : List Item)

def putHead (smallTag largeTag size : ℕ) : List UInt8 :=
  if size < 56 then [UInt8.ofNat (smallTag + size)]
  else UInt8.ofNat (largeTag + (beBytes size).length) :: beBytes size

def encodeString (b : List UInt8) : List UInt8 :=
  if b.length = 1 ∧ beNat b < 128 then b else putHead 0x80 0xB7 b.length ++ b

/-- The encoding of a list with the given contents. -/
def encodeList (payload : List UInt8) : List UInt8 := putHead 0xC0 0xF7 payload.length ++ payload

mutual

/-- `EncodeToBytes` -/
def encode : Item → List UInt8
  | .str b => encodeString b
  | .list xs => encodeList (encodeItems xs)

def encodeItems : List Item → List UInt8
  | [] => []
  | x :: xs => encode x ++ encodeItems xs

end

variable {n : ℕ} {kind : Kind} {b : List UInt8}

/-- `Kind`; a single byte is a string whose header is its contents. -/
inductive Kind where
  | string
  | list
  deriving DecidableEq

/-- The contents of a value of `size` bytes, and what follows it. -/
def takePayload (kind : Kind) (size : ℕ) (b : List UInt8) :
    Option (Kind × List UInt8 × List UInt8) :=
  if b.length < size then none
  else if kind = .string ∧ size = 1 ∧ beNat (b.take 1) < 128 then none
  else some (kind, b.take size, b.drop size)

/-- A value whose size takes `n` bytes (`readUint`). -/
def takeLong (kind : Kind) (n : ℕ) (b : List UInt8) : Option (Kind × List UInt8 × List UInt8) :=
  if b.length < n ∨ b.head? = some 0 ∨ beNat (b.take n) < 56 then none
  else takePayload kind (beNat (b.take n)) (b.drop n)

/-- `readKind`, with the contents of the value and what follows it. -/
def splitItem : List UInt8 → Option (Kind × List UInt8 × List UInt8)
  | [] => none
  | x :: b =>
    if x.toNat < 0x80 then some (.string, [x], b)
    else if x.toNat < 0xB8 then takePayload .string (x.toNat - 0x80) b
    else if x.toNat < 0xC0 then takeLong .string (x.toNat - 0xB7) b
    else if x.toNat < 0xF8 then takePayload .list (x.toNat - 0xC0) b
    else takeLong .list (x.toNat - 0xF7) b

/-- The items of a byte string.  Each step consumes a byte, so fuel for its length is
    enough. -/
def decodeItems : ℕ → List UInt8 → Option (List Item)
  | _, [] => some []
  | 0, _ :: _ => none
  | fuel + 1, x :: b => do
    let (kind, payload, rest) ← splitItem (x :: b)
    let item ← match kind with
      | .string => pure (Item.str payload)
      | .list => Item.list <$> decodeItems fuel payload
    let items ← decodeItems fuel rest
    return item :: items

/-- `DecodeBytes`: exactly one value. -/
def decodeBytes (b : List UInt8) : Option Item :=
  match decodeItems b.length b with
  | some [x] => some x
  | _ => none

/-! ## Headers -/

theorem toNat_tag (h : n < 256) : (UInt8.ofNat n).toNat = n := by
  rw [UInt8.toNat_ofNat', Nat.mod_eq_of_lt h]

/-- The contents come back, unless a single byte has a header it does not need. -/
theorem takePayload_append (b rest : List UInt8)
    (h : kind = .string → b.length = 1 → 128 ≤ beNat b) :
    takePayload kind b.length (b ++ rest) = some (kind, b, rest) := by
  have hbyte : ¬ (kind = .string ∧ b.length = 1 ∧ beNat ((b ++ rest).take 1) < 128) := by
    rintro ⟨hk, hlen, hlt⟩
    rw [take_left' hlen] at hlt
    exact absurd (h hk hlen) (by omega)
  rw [takePayload, if_neg (by simp), if_neg hbyte]
  simp

theorem length_beBytes_size (h : n < 2 ^ 64) : (beBytes n).length ≤ 8 :=
  length_beBytes_le (by simpa using h)

theorem length_beBytes_pos (h : 56 ≤ n) : 0 < (beBytes n).length := by
  rw [length_pos_iff]
  intro hnil
  have := beNat_beBytes n
  rw [hnil] at this
  simp [beNat] at this
  omega

theorem takeLong_append (b rest : List UInt8) (h : 56 ≤ b.length) :
    takeLong kind (beBytes b.length).length (beBytes b.length ++ (b ++ rest)) =
      some (kind, b, rest) := by
  have hhead : (beBytes b.length ++ (b ++ rest)).head? ≠ some 0 := by
    have hpos := length_beBytes_pos h
    cases hb : beBytes b.length with
    | nil => simp [hb] at hpos
    | cons x xs =>
      have := head?_beBytes b.length
      rw [hb] at this
      simpa using this
  rw [takeLong, take_left, drop_left, beNat_beBytes, if_neg]
  · exact takePayload_append b rest (by omega)
  · rintro (hlt | h0 | hlt)
    · simp at hlt
    · exact hhead h0
    · omega

theorem splitItem_putHead (b rest : List UInt8) (h : b.length < 2 ^ 64)
    (htags : kind = .string ∧ smallTag = 0x80 ∧ largeTag = 0xB7 ∨
      kind = .list ∧ smallTag = 0xC0 ∧ largeTag = 0xF7)
    (hbyte : kind = .string → b.length = 1 → 128 ≤ beNat b) :
    splitItem (putHead smallTag largeTag b.length ++ b ++ rest) = some (kind, b, rest) := by
  rw [putHead]
  split_ifs with hs
  · have hpay := takePayload_append b rest hbyte
    rw [append_assoc, singleton_append, splitItem, toNat_tag (by omega)]
    rcases htags with ⟨rfl, rfl, rfl⟩ | ⟨rfl, rfl, rfl⟩ <;> split_ifs <;>
      first | omega | simpa using hpay
  · have hlen := length_beBytes_size h
    have hpos := length_beBytes_pos (n := b.length) (by omega)
    have hlong := @takeLong_append kind b rest (by omega)
    rw [append_assoc, cons_append, splitItem, toNat_tag (by omega)]
    rcases htags with ⟨rfl, rfl, rfl⟩ | ⟨rfl, rfl, rfl⟩ <;> split_ifs <;>
      first | omega | simpa using hlong

theorem splitItem_encodeString (b rest : List UInt8) (h : b.length < 2 ^ 64) :
    splitItem (encodeString b ++ rest) = some (.string, b, rest) := by
  rw [encodeString]
  split_ifs with hb
  · -- a byte that is its own encoding
    obtain ⟨x, rfl⟩ := length_eq_one_iff.1 hb.1
    have hx : x.toNat < 128 := by simpa [beNat] using hb.2
    simp [splitItem, hx]
  · exact splitItem_putHead b rest h (.inl ⟨rfl, rfl, rfl⟩) fun _ hone =>
      Nat.not_lt.1 fun hlt => hb ⟨hone, hlt⟩

theorem splitItem_encodeList (b rest : List UInt8) (h : b.length < 2 ^ 64) :
    splitItem (encodeList b ++ rest) = some (.list, b, rest) :=
  splitItem_putHead b rest h (.inr ⟨rfl, rfl, rfl⟩) nofun

/-! ## Lengths -/

theorem length_putHead_pos (smallTag largeTag size : ℕ) :
    0 < (putHead smallTag largeTag size).length := by
  rw [putHead]
  split_ifs <;> simp

theorem length_encodeString_gt (b : List UInt8) :
    0 < (encodeString b).length ∧ b.length ≤ (encodeString b).length := by
  have hpos := length_putHead_pos 0x80 0xB7 b.length
  rw [encodeString]
  split_ifs with hb
  · omega
  · rw [length_append]
    omega

theorem length_lt_encodeString (h : b.length ≠ 1) : b.length < (encodeString b).length := by
  have hpos := length_putHead_pos 0x80 0xB7 b.length
  rw [encodeString, if_neg (fun hb => h hb.1), length_append]
  omega

theorem length_encodeList_gt (b : List UInt8) : b.length < (encodeList b).length := by
  have hpos := length_putHead_pos 0xC0 0xF7 b.length
  rw [encodeList, length_append]
  omega

theorem length_le_encodeItems (xs : List Item) : xs.length ≤ (encodeItems xs).length := by
  induction xs with
  | nil => simp
  | cons x xs ih =>
    have hpos : 0 < (encode x).length := by
      cases x with
      | str b => exact (length_encodeString_gt b).1
      | list ys =>
        have := length_encodeList_gt (encodeItems ys)
        rw [encode]
        omega
    rw [encodeItems, length_append, length_cons]
    omega

theorem length_putHead_le (h : size < 2 ^ 64) : (putHead smallTag largeTag size).length ≤ 9 := by
  have hlen := length_beBytes_size h
  rw [putHead]
  split_ifs
  · simp
  · rw [length_cons]
    omega

theorem length_encodeString_le (hb : b.length ≤ n) (hn : n < 2 ^ 64) :
    (encodeString b).length ≤ n + 9 := by
  have hhead := @length_putHead_le 0x80 0xB7 b.length (by omega)
  rw [encodeString]
  split_ifs
  · omega
  · rw [length_append]
    omega

theorem length_encodeList_le (hb : b.length ≤ n) (hn : n < 2 ^ 64) :
    (encodeList b).length ≤ n + 9 := by
  have hhead := @length_putHead_le 0xC0 0xF7 b.length (by omega)
  rw [encodeList, length_append]
  omega

theorem length_encodeItems_le {xs : List Item} (h : ∀ x ∈ xs, (encode x).length ≤ k) :
    (encodeItems xs).length ≤ k * xs.length := by
  induction xs with
  | nil => simp [encodeItems]
  | cons x xs ih =>
    have hx := h x (by simp)
    have hxs := ih fun y hy => h y (by simp [hy])
    rw [encodeItems, length_append, length_cons, Nat.mul_succ]
    omega

/-! ## The round trip -/

theorem decodeItems_succ (h : b ≠ []) :
    decodeItems (fuel + 1) b = (do
      let (kind, payload, rest) ← splitItem b
      let item ← match kind with
        | .string => pure (Item.str payload)
        | .list => Item.list <$> decodeItems fuel payload
      let items ← decodeItems fuel rest
      return item :: items) := by
  cases b with
  | nil => exact absurd rfl h
  | cons x b => rw [decodeItems]

/-- A sequence of items is read back.  The recursion is that of the encoder: into the
    first item when it is a list, and on to the items after it. -/
theorem decodeItems_encodeItems : ∀ (xs : List Item) {fuel : ℕ},
    (encodeItems xs).length ≤ fuel → (encodeItems xs).length < 2 ^ 64 →
    decodeItems fuel (encodeItems xs) = some xs
  | [], fuel, _, _ => by rw [encodeItems, decodeItems]
  | .str b :: xs, fuel, hfuel, hsize => by
    rw [encodeItems, encode, length_append] at hfuel hsize
    obtain ⟨hpos, hle⟩ := length_encodeString_gt b
    obtain ⟨fuel, rfl⟩ : ∃ n, fuel = n + 1 := ⟨fuel - 1, by omega⟩
    have hrest := @decodeItems_encodeItems xs fuel (by omega) (by omega)
    rw [encodeItems, encode, decodeItems_succ (by simpa using fun h => by simp [h] at hpos),
      splitItem_encodeString b _ (by omega)]
    simp [hrest]
  | .list ys :: xs, fuel, hfuel, hsize => by
    rw [encodeItems, encode, length_append] at hfuel hsize
    have hlt := length_encodeList_gt (encodeItems ys)
    obtain ⟨fuel, rfl⟩ : ∃ n, fuel = n + 1 := ⟨fuel - 1, by omega⟩
    have hys := @decodeItems_encodeItems ys fuel (by omega) (by omega)
    have hrest := @decodeItems_encodeItems xs fuel (by omega) (by omega)
    rw [encodeItems, encode, decodeItems_succ (by simpa using fun h => by simp [h] at hlt),
      splitItem_encodeList _ _ (by omega)]
    simp [hys, hrest]

theorem decodeBytes_encode (x : Item) (h : (encode x).length < 2 ^ 64) :
    decodeBytes (encode x) = some x := by
  have hone : encodeItems [x] = encode x := by simp [encodeItems]
  have hdec := @decodeItems_encodeItems [x] (encode x).length (by rw [hone]) (by rwa [hone])
  rw [hone] at hdec
  rw [decodeBytes, hdec]

theorem decodeBytes_of_lt {x : UInt8} {y : Item} (hx : x.toNat < 0x80)
    (h : decodeBytes (x :: b) = some y) : y = .str [x] := by
  have hsplit : splitItem (x :: b) = some (.string, [x], b) := by simp [splitItem, hx]
  rw [decodeBytes, length_cons, decodeItems_succ (by simp), hsplit] at h
  cases hrest : decodeItems b.length b with
  | none => simp [hrest] at h
  | some items =>
    cases items with
    | nil => simpa [hrest] using h.symm
    | cons z zs => simp [hrest] at h

/-! ## Numbers and byte arrays -/

namespace Item

/-- A number (`encodeUint`, `writeBigInt`). -/
def ofNat (n : ℕ) : Item := .str (beBytes n)

/-- A number without a bound on its size (`decodeBigInt`). -/
def toNat? : Item → Option ℕ
  | .str b => if b.head? = some 0 then none else some (beNat b)
  | .list _ => none

/-- A number of at most `k` bytes (`decodeUint`). -/
def toUint? (k : ℕ) : Item → Option ℕ
  | .str b => if k < b.length then none else toNat? (.str b)
  | .list _ => none

/-- A byte string (`decodeByteSlice`). -/
def toBytes? : Item → Option (List UInt8)
  | .str b => some b
  | .list _ => none

/-- A list whose elements `f` reads (`decodeListSlice`). -/
def toList? {α : Type} (f : Item → Option α) : Item → Option (List α)
  | .list xs => xs.mapM f
  | .str _ => none

/-- A byte array of `k` bytes (`decodeByteArray`). -/
def toArray? (k : ℕ) : Item → Option (List UInt8)
  | .str b => if b.length = k then some b else none
  | .list _ => none

@[simp] theorem toNat?_ofNat (n : ℕ) : (ofNat n).toNat? = some n := by
  simp [ofNat, toNat?, head?_beBytes]

theorem toUint?_ofNat (h : n < 256 ^ k) : (ofNat n).toUint? k = some n := by
  have hlen := length_beBytes_le h
  rw [ofNat, toUint?, if_neg (by omega)]
  exact toNat?_ofNat n

theorem toList?_list_map {α : Type} {f : Item → Option α} {g : α → Item}
    (h : ∀ a, f (g a) = some a) (xs : List α) : (Item.list (xs.map g)).toList? f = some xs := by
  rw [toList?]
  induction xs with
  | nil => rfl
  | cons x xs ih => simp [mapM_cons, h, ih]

theorem toArray?_str (h : b.length = k) : (str b).toArray? k = some b :=
  if_pos h

end Item

end GoLib.Rlp
