/-
  Bitlists that are built bit by bit (`NewBitlist`, `SetBitAt`).
-/
import Gwat.Lib.Bitlist

namespace GoLib

open List

variable {b : List UInt8} {n i k : ℕ} {p : ℕ → Prop} {l l' : List ℕ}

/-- The bit at a position; there is none beyond the end. -/
def bitAt (b : List UInt8) (k : ℕ) : Bool := ((b[k / 8]?).getD 0).toNat.testBit (k % 8)

theorem mem_setBits : k ∈ setBits b ↔ bitAt b k = true := by
  simp only [setBits, mem_flatMap, mem_map, mem_filter, mem_range, Prod.exists,
    mem_zipIdx_iff_getElem?, bitAt]
  constructor
  · rintro ⟨x, i, hx, j, ⟨hj, hbit⟩, rfl⟩
    have hdiv : (8 * i + j) / 8 = i := by omega
    have hmod : (8 * i + j) % 8 = j := by omega
    rw [hdiv, hmod, hx]
    exact hbit
  · intro h
    cases hx : b[k / 8]? with
    | none => simp [hx] at h
    | some x =>
      rw [hx, Option.getD_some] at h
      exact ⟨x, k / 8, hx, k % 8, ⟨Nat.mod_lt _ (by omega), h⟩, by omega⟩

theorem setBits_pairwise (b : List UInt8) : (setBits b).Pairwise (· < ·) := by
  simp only [setBits, pairwise_flatMap, pairwise_map, mem_map, mem_filter,
    mem_range]
  refine ⟨fun x _ => ?_, ?_⟩
  · refine (pairwise_lt_range.filter _).imp fun h => ?_
    omega
  · have hidx : b.zipIdx.Pairwise fun x y => x.2 < y.2 := by
      rw [← pairwise_map (f := Prod.snd), zipIdx_map_snd]
      exact pairwise_lt_range'
    refine hidx.imp fun {x y} hlt => ?_
    omega

/-- `Bitlist.Len` -/
def bitlistLen (b : List UInt8) : ℕ :=
  match b.getLast? with
  | none => 0
  | some last => if last.toNat.size = 0 then 0 else 8 * (b.length - 1) + last.toNat.size - 1

/-- `b.SetBitAt(i, true)` -/
def setBitAt (b : List UInt8) (i : ℕ) : List UInt8 :=
  if bitlistLen b ≤ i then b
  else b.set (i / 8) ((b[i / 8]?).getD 0 ||| UInt8.ofNat (2 ^ (i % 8)))

/-- A bitlist of `n` bits, of which those in `p` are set. -/
structure HasBits (n : ℕ) (p : ℕ → Prop) (b : List UInt8) : Prop where
  length : b.length = n / 8 + 1
  bits : ∀ k, bitAt b k = true ↔ k = n ∨ k < n ∧ p k

theorem toNat_pow_mod (i : ℕ) : (UInt8.ofNat (2 ^ (i % 8))).toNat = 2 ^ (i % 8) := by
  rw [UInt8.toNat_ofNat', Nat.mod_eq_of_lt]
  calc 2 ^ (i % 8) < 2 ^ 8 := Nat.pow_lt_pow_right (by omega) (Nat.mod_lt _ (by omega))
    _ = 256 := by norm_num

theorem hasBits_newBitlist (n : ℕ) : HasBits n (fun _ => False) (newBitlist n) where
  length := by simp [newBitlist]
  bits k := by
    rw [bitAt, newBitlist]
    rcases lt_trichotomy (k / 8) (n / 8) with hlt | heq | hgt
    · rw [getElem?_append_left (by simpa using hlt), getElem?_replicate_of_lt hlt]
      simp
      omega
    · rw [heq, getElem?_append_right (by simp), length_replicate, Nat.sub_self]
      simp only [getElem?_cons_zero, Option.getD_some, toNat_pow_mod, Nat.testBit_two_pow,
        and_false, or_false, decide_eq_true_eq]
      omega
    · rw [getElem?_eq_none (by simp; omega)]
      simp
      omega

theorem HasBits.last (h : HasBits n p b) :
    ∃ last, b.getLast? = some last ∧ last.toNat.size = n % 8 + 1 := by
  have hlt : n / 8 < b.length := by rw [h.length]; omega
  refine ⟨b[n / 8], ?_, ?_⟩
  · rw [getLast?_eq_getElem?, h.length, Nat.add_sub_cancel, getElem?_eq_getElem hlt]
  have hbit : ∀ j < 8, b[n / 8].toNat.testBit j = true ↔
      8 * (n / 8) + j = n ∨ 8 * (n / 8) + j < n ∧ p (8 * (n / 8) + j) := by
    intro j hj
    have hb := h.bits (8 * (n / 8) + j)
    rw [bitAt, show (8 * (n / 8) + j) / 8 = n / 8 by omega,
      show (8 * (n / 8) + j) % 8 = j by omega, getElem?_eq_getElem hlt,
      Option.getD_some] at hb
    exact hb
  refine le_antisymm ?_ ?_
  · rw [Nat.size_le]
    refine Nat.lt_pow_two_of_testBit _ fun j hj => ?_
    by_contra hset
    rw [Bool.not_eq_false] at hset
    by_cases hj8 : j < 8
    · have := (hbit j hj8).1 hset
      omega
    · have hle := Nat.ge_two_pow_of_testBit hset
      have hpow : 2 ^ 8 ≤ 2 ^ j := Nat.pow_le_pow_right (by omega) (not_lt.1 hj8)
      have := b[n / 8].toNat_lt
      omega
  · rw [Nat.succ_le_iff, Nat.lt_size]
    exact Nat.ge_two_pow_of_testBit ((hbit (n % 8) (Nat.mod_lt _ (by omega))).2 (.inl (by omega)))

theorem HasBits.bitlistLen_eq (h : HasBits n p b) : bitlistLen b = n := by
  obtain ⟨last, hlast, hsize⟩ := h.last
  simp only [bitlistLen, hlast, hsize, h.length]
  rw [if_neg (by omega)]
  omega

theorem HasBits.setBitAt (h : HasBits n p b) (hi : i < n) :
    HasBits n (fun k => p k ∨ k = i) (setBitAt b i) := by
  rw [GoLib.setBitAt, h.bitlistLen_eq, if_neg (by omega)]
  refine ⟨by rw [length_set, h.length], fun k => ?_⟩
  have hold := h.bits k
  have hlt : i / 8 < b.length := by rw [h.length]; omega
  by_cases hk : k / 8 = i / 8
  · have hbyte : bitAt (b.set (i / 8) ((b[i / 8]?).getD 0 ||| UInt8.ofNat (2 ^ (i % 8)))) k =
        (bitAt b k || decide (i % 8 = k % 8)) := by
      rw [bitAt, bitAt, hk, getElem?_set_self hlt, Option.getD_some, UInt8.toNat_or,
        toNat_pow_mod, Nat.testBit_or, Nat.testBit_two_pow]
    rw [hbyte, Bool.or_eq_true, hold, decide_eq_true_eq]
    constructor
    · rintro ((rfl | ⟨hlt, hp⟩) | hmod)
      · exact .inl rfl
      · exact .inr ⟨hlt, .inl hp⟩
      · have : k = i := by omega
        exact .inr ⟨by omega, .inr this⟩
    · rintro (rfl | ⟨hlt, hp | rfl⟩)
      · exact .inl (.inl rfl)
      · exact .inl (.inr ⟨hlt, hp⟩)
      · exact .inr rfl
  · have hbyte : bitAt (b.set (i / 8) ((b[i / 8]?).getD 0 ||| UInt8.ofNat (2 ^ (i % 8)))) k =
        bitAt b k := by
      rw [bitAt, bitAt, getElem?_set_ne (Ne.symm hk)]
    rw [hbyte, hold]
    refine or_congr_right (and_congr_right fun _ => ⟨.inl, fun hp => hp.resolve_right ?_⟩)
    rintro rfl
    exact hk rfl

theorem eq_of_pairwise_lt (h : l.Pairwise (· < ·)) (h' : l'.Pairwise (· < ·))
    (hmem : ∀ k, k ∈ l ↔ k ∈ l') : l = l' :=
  ((perm_ext_iff_of_nodup (h.imp ne_of_lt) (h'.imp ne_of_lt)).2 hmem).eq_of_pairwise
    (fun _ _ _ _ hlt hgt => absurd hgt (lt_asymm hlt)) h h'

theorem HasBits.bitIndices_eq [DecidablePred p] (h : HasBits n p b) :
    bitIndices b = (List.range n).filter fun k => p k := by
  obtain ⟨last, hlast, hsize⟩ := h.last
  have hne : last ≠ 0 := by
    rintro rfl
    simp at hsize
  have hset : setBits b = (List.range n).filter (fun k => p k) ++ [n] := by
    refine eq_of_pairwise_lt (setBits_pairwise b) ?_ fun k => ?_
    · refine pairwise_append.2
        ⟨pairwise_lt_range.filter _, pairwise_singleton _ _, ?_⟩
      intro x hx y hy
      rw [mem_singleton.1 hy]
      exact mem_range.1 (mem_of_mem_filter hx)
    · rw [mem_setBits, h.bits]
      simp [or_comm]
  rw [bitIndices, hlast, Option.getD_some, if_neg hne, hset, dropLast_concat]

/-- A bitlist with the bits at the positions of the flags that are true. -/
def buildBits (flags : List Bool) : List UInt8 :=
  flags.zipIdx.foldl (fun b (f, i) => if f then setBitAt b i else b) (newBitlist flags.length)

theorem hasBits_loop (flags : List Bool) (hn : k + flags.length ≤ n) (h : HasBits n p b) :
    HasBits n (fun i => p i ∨ k ≤ i ∧ flags[i - k]? = some true)
      ((flags.zipIdx k).foldl (fun b (f, i) => if f then setBitAt b i else b) b) := by
  induction flags generalizing b k p with
  | nil => exact ⟨h.length, by simpa using h.bits⟩
  | cons f flags ih =>
    rw [length_cons] at hn
    have hstep : HasBits n (fun i => p i ∨ i = k ∧ f = true)
        (if f then GoLib.setBitAt b k else b) := by
      cases f
      · simpa using h
      · simpa using h.setBitAt (i := k) (by omega)
    have hrest := ih (k := k + 1) (by omega) hstep
    refine ⟨hrest.length, fun i => (hrest.bits i).trans ?_⟩
    rcases lt_trichotomy i k with hlt | rfl | hgt
    · simp [show i ≠ k by omega, show ¬ k + 1 ≤ i by omega, show ¬ k ≤ i by omega]
    · simp
    · have hidx : i - k = (i - (k + 1)) + 1 := by omega
      rw [hidx, getElem?_cons_succ]
      simp [show i ≠ k by omega, show k + 1 ≤ i by omega, show k ≤ i by omega]

theorem length_buildBits (flags : List Bool) : (buildBits flags).length = flags.length / 8 + 1 :=
  (hasBits_loop flags (by omega) (hasBits_newBitlist flags.length)).length

/-- The indices read back are those of the flags that are true. -/
theorem bitIndices_buildBits (flags : List Bool) :
    bitIndices (buildBits flags) =
      (List.range flags.length).filter fun i => flags[i]? = some true := by
  have h := hasBits_loop flags (k := 0) (by omega) (hasBits_newBitlist flags.length)
  simp only [false_or, Nat.zero_le, Nat.sub_zero, true_and] at h
  exact h.bitIndices_eq

theorem mapM_eq_some_of_map {α β : Type} {f : α → Option β} :
    ∀ {l : List α} {r : List β}, l.map f = r.map some → l.mapM f = some r
  | [], [], _ => rfl
  | a :: l, b :: r, h => by
    obtain ⟨ha, hl⟩ := List.cons.inj h
    rw [mapM_cons, ha, mapM_eq_some_of_map hl]
    rfl

theorem map_getElem?_filter {α : Type} (p : α → Bool) (l : List α) :
    ((List.range l.length).filter fun i => (l.map p)[i]? = some true).map (fun i => l[i]?) =
      (l.filter p).map some := by
  induction l with
  | nil => rfl
  | cons a l ih =>
    have htail : (((List.range l.length).map Nat.succ).filter fun i =>
        ((a :: l).map p)[i]? = some true).map (fun i => (a :: l)[i]?) = (l.filter p).map some := by
      rw [← ih, filter_map, map_map]
      rfl
    rw [length_cons, range_succ_eq_map, filter_cons, filter_cons]
    cases hp : p a with
    | true => simpa [hp] using htail
    | false => simpa [hp] using htail

theorem mapM_bitIndices_buildBits {α : Type} (p : α → Bool) (l : List α) :
    (bitIndices (buildBits (l.map p))).mapM (fun i => l[i]?) = some (l.filter p) := by
  refine mapM_eq_some_of_map ?_
  rw [bitIndices_buildBits, length_map]
  exact map_getElem?_filter p l

end GoLib
