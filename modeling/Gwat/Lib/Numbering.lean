/-
  Two-way numberings: an index from keys to numbers and one from numbers to keys
  that are written together.

  `Numbering.UpTo I m` says that the two directions are inverse to each other and
  that the numbers in use are `0, …, m`.
-/
import Mathlib

namespace GoLib

open List Option Function

variable {κ : Type}

/-- An index from keys to numbers with the index from numbers to keys. -/
@[ext]
structure Numbering (κ : Type) where
  numOf : κ → Option ℕ
  keyAt : ℕ → Option κ

namespace Numbering

variable {I J : Numbering κ} {k k' : κ} {m n j : ℕ}

/-- The numbers in use are `0, …, m`, each for one key. -/
structure UpTo (I : Numbering κ) (m : ℕ) : Prop where
  inverse : ∀ k n, I.numOf k = some n ↔ I.keyAt n = some k
  range : ∀ n, (I.keyAt n).isSome ↔ n ≤ m

namespace UpTo

theorem le (h : I.UpTo m) (hk : I.numOf k = some n) : n ≤ m :=
  (h.range n).1 (by rw [(h.inverse k n).1 hk]; rfl)

theorem exists_key (h : I.UpTo m) (hn : n ≤ m) : ∃ k, I.numOf k = some n ∧ I.keyAt n = some k := by
  obtain ⟨k, hk⟩ := Option.isSome_iff_exists.1 ((h.range n).2 hn)
  exact ⟨k, (h.inverse k n).2 hk, hk⟩

theorem injective (h : I.UpTo m) {k' : κ} (hk : I.numOf k = some n) (hk' : I.numOf k' = some n) :
    k = k' :=
  Option.some.inj (((h.inverse k n).1 hk).symm.trans ((h.inverse k' n).1 hk'))

theorem keyAt_eq_none (h : I.UpTo m) (hn : m < n) : I.keyAt n = none := by
  by_contra hne
  have := (h.range n).1 (Option.ne_none_iff_isSome.1 hne)
  omega

theorem top_unique (h : I.UpTo m) (h' : I.UpTo n) : m = n :=
  le_antisymm ((h'.range m).1 ((h.range m).2 le_rfl)) ((h.range n).1 ((h'.range n).2 le_rfl))

end UpTo

/-! ## Truncation -/

/-- The numbering restricted to the numbers up to `m`. -/
def truncate (I : Numbering κ) (m : ℕ) : Numbering κ where
  numOf k := (I.numOf k).filter (· ≤ m)
  keyAt n := if n ≤ m then I.keyAt n else none

theorem numOf_truncate : (I.truncate m).numOf k = some n ↔ I.numOf k = some n ∧ n ≤ m := by
  simp [truncate, filter_eq_some_iff]

theorem keyAt_truncate : (I.truncate m).keyAt n = some k ↔ I.keyAt n = some k ∧ n ≤ m := by
  simp only [truncate]
  split_ifs with h <;> simp [h]

theorem ext_some (hn : ∀ k n, I.numOf k = some n ↔ J.numOf k = some n)
    (hk : ∀ n k, I.keyAt n = some k ↔ J.keyAt n = some k) : I = J :=
  Numbering.ext (funext fun k => Option.ext (hn k)) (funext fun n => Option.ext (hk n))

theorem truncate_truncate (h : n ≤ m) : (I.truncate m).truncate n = I.truncate n := by
  refine ext_some (fun k j => ?_) (fun j k => ?_)
  · rw [numOf_truncate, numOf_truncate, numOf_truncate]
    exact ⟨fun hk => ⟨hk.1.1, hk.2⟩, fun hk => ⟨⟨hk.1, hk.2.trans h⟩, hk.2⟩⟩
  · rw [keyAt_truncate, keyAt_truncate, keyAt_truncate]
    exact ⟨fun hk => ⟨hk.1.1, hk.2⟩, fun hk => ⟨⟨hk.1, hk.2.trans h⟩, hk.2⟩⟩

theorem UpTo.truncate (h : I.UpTo m) (hn : n ≤ m) : (I.truncate n).UpTo n where
  inverse k j := by rw [numOf_truncate, keyAt_truncate, h.inverse]
  range j := by
    constructor
    · intro hj
      obtain ⟨k, hk⟩ := Option.isSome_iff_exists.1 hj
      exact (keyAt_truncate.1 hk).2
    · intro hj
      obtain ⟨k, -, hk⟩ := h.exists_key (hj.trans hn)
      rw [keyAt_truncate.2 ⟨hk, hj⟩]; rfl

theorem UpTo.truncate_self (h : I.UpTo m) : I.truncate m = I := by
  refine ext_some (fun k j => ?_) (fun j k => ?_)
  · rw [numOf_truncate]
    exact ⟨And.left, fun hk => ⟨hk, h.le hk⟩⟩
  · rw [keyAt_truncate]
    exact ⟨And.left, fun hk => ⟨hk, h.le ((h.inverse k j).2 hk)⟩⟩

/-! ## Writing and erasing an entry -/

variable [DecidableEq κ]

/-- Write both directions of an entry. -/
def set (I : Numbering κ) (n : ℕ) (k : κ) : Numbering κ :=
  ⟨update I.numOf k (some n), update I.keyAt n (some k)⟩

/-- Delete both directions of an entry. -/
def erase (I : Numbering κ) (n : ℕ) (k : κ) : Numbering κ :=
  ⟨update I.numOf k none, update I.keyAt n none⟩

/-- One key with the number `0`. -/
def single (k : κ) : Numbering κ :=
  ⟨fun k' => if k' = k then some 0 else none, fun n => if n = 0 then some k else none⟩

theorem upTo_single (k : κ) : (single k).UpTo 0 where
  inverse k' n := by
    simp only [single, ite_none_right_eq_some, Option.some.injEq]
    exact ⟨fun h => ⟨h.2.symm, h.1.symm⟩, fun h => ⟨h.2.symm, h.1.symm⟩⟩
  range n := by
    simp only [single]
    split_ifs with h <;> simp [h]

theorem isSome_set : ((I.set n k).numOf k').isSome ↔ k' = k ∨ (I.numOf k').isSome := by
  by_cases h : k' = k
  · subst h; simp [set]
  · simp [set, h]

theorem UpTo.set_self (h : I.UpTo m) (hk : I.numOf k = some n) : I.set n k = I := by
  have hk' := (h.inverse k n).1 hk
  unfold set
  rw [← hk, ← hk', update_eq_self, update_eq_self]

theorem UpTo.set_succ (h : I.UpTo m) (hk : I.numOf k = none) : (I.set (m + 1) k).UpTo (m + 1) where
  inverse k' n := by
    simp only [set, update_apply]
    by_cases hn : n = m + 1 <;> by_cases hk' : k' = k
    · simp [hn, hk']
    · have hne : I.numOf k' ≠ some (m + 1) := fun he => by have := h.le he; omega
      simp [hn, hk', Ne.symm hk', hne]
    · have hne : I.keyAt n ≠ some k := fun he => by simp [(h.inverse k n).2 he] at hk
      simp [hn, hk', Ne.symm hn, hne]
    · simp [hn, hk', h.inverse]
  range n := by
    simp only [set, update_apply]
    split_ifs with hn
    · simp [hn]
    · rw [h.range]; omega

theorem UpTo.erase_top (h : I.UpTo (m + 1)) (hk : I.keyAt (m + 1) = some k) :
    I.erase (m + 1) k = I.truncate m := by
  have hk' := (h.inverse k _).2 hk
  refine ext_some (fun k' n => ?_) (fun n k' => ?_)
  · rw [numOf_truncate]
    simp only [erase, update_apply]
    split_ifs with he
    · subst he; rw [hk']; simp; omega
    · refine ⟨fun hn => ⟨hn, ?_⟩, And.left⟩
      have hle := h.le hn
      have hne : n ≠ m + 1 := fun hn' => he (h.injective (hn' ▸ hn) hk')
      omega
  · rw [keyAt_truncate]
    simp only [erase, update_apply]
    split_ifs with he
    · subst he; simp
    · refine ⟨fun hn => ⟨hn, ?_⟩, And.left⟩
      have hle := h.le ((h.inverse _ _).2 hn)
      omega

/-! ## Numbering a list of new keys -/

/-- Give the keys the numbers from `n` on. -/
def pushAll (I : Numbering κ) : ℕ → List κ → Numbering κ
  | _, [] => I
  | n, k :: ks => (I.set n k).pushAll (n + 1) ks

theorem isSome_pushAll : ∀ (ks : List κ) (I : Numbering κ) (n : ℕ),
    ((I.pushAll n ks).numOf k).isSome ↔ k ∈ ks ∨ (I.numOf k).isSome
  | [], _, _ => by simp [pushAll]
  | k' :: ks, I, n => by
    rw [pushAll, isSome_pushAll ks, isSome_set, mem_cons]
    tauto

theorem pushAll_append : ∀ (ks ks' : List κ) (I : Numbering κ) (n : ℕ),
    I.pushAll n (ks ++ ks') = (I.pushAll n ks).pushAll (n + ks.length) ks'
  | [], _, _, _ => rfl
  | k :: ks, ks', I, n => by
    rw [cons_append, pushAll, pushAll_append ks, pushAll, length_cons, Nat.add_right_comm,
      Nat.add_assoc]

theorem numOf_pushAll_concat (ks : List κ) (k : κ) (I : Numbering κ) (n : ℕ) :
    (I.pushAll n (ks ++ [k])).numOf k = some (n + ks.length) := by
  rw [pushAll_append]
  simp [pushAll, set]

theorem keyAt_pushAll_of_lt : ∀ (ks : List κ) (I : Numbering κ) {n : ℕ}, j < n →
    (I.pushAll n ks).keyAt j = I.keyAt j
  | [], _, _, _ => rfl
  | k :: ks, I, n, h => by
    rw [pushAll, keyAt_pushAll_of_lt ks _ (Nat.lt_succ_of_lt h)]
    exact update_of_ne (Nat.ne_of_lt h) _ _

/-- A push gives its keys their numbers in order. -/
theorem keyAt_pushAll : ∀ (ks : List κ) (I : Numbering κ) (n i : ℕ), i < ks.length →
    (I.pushAll n ks).keyAt (n + i) = ks[i]?
  | k :: ks, I, n, 0, _ => by
    show ((I.set n k).pushAll (n + 1) ks).keyAt n = some k
    rw [keyAt_pushAll_of_lt ks _ (Nat.lt_succ_self n)]
    exact update_self ..
  | k :: ks, I, n, i + 1, h => by
    rw [pushAll, show n + (i + 1) = n + 1 + i by omega, keyAt_pushAll ks _ _ i (by simpa using h)]
    rfl

/-- Distinct new keys get the numbers after the last one. -/
theorem UpTo.pushAll : ∀ (ks : List κ) {I : Numbering κ} {m : ℕ}, I.UpTo m → ks.Nodup →
    (∀ k ∈ ks, I.numOf k = none) → (I.pushAll (m + 1) ks).UpTo (m + ks.length)
  | [], _, _, h, _, _ => h
  | k :: ks, I, m, h, hnd, hks => by
    obtain ⟨hk, hnd⟩ := nodup_cons.1 hnd
    have hnew : ∀ k' ∈ ks, (I.set (m + 1) k).numOf k' = none := fun k' hk' => by
      have hne : k' ≠ k := fun he => hk (he ▸ hk')
      simpa [set, hne] using hks k' (by simp [hk'])
    have := UpTo.pushAll ks (h.set_succ (hks k (by simp))) hnd hnew
    rw [length_cons, show m + (ks.length + 1) = m + 1 + ks.length by omega]
    exact this

/-- Truncating undoes a push. -/
theorem UpTo.truncate_pushAll : ∀ (ks : List κ) {I : Numbering κ} {m : ℕ}, I.UpTo m → ks.Nodup →
    (∀ k ∈ ks, I.numOf k = none) → (I.pushAll (m + 1) ks).truncate m = I
  | [], _, _, h, _, _ => h.truncate_self
  | k :: ks, I, m, h, hnd, hks => by
    obtain ⟨hk, hnd⟩ := nodup_cons.1 hnd
    have hnew : ∀ k' ∈ ks, (I.set (m + 1) k).numOf k' = none := fun k' hk' => by
      have hne : k' ≠ k := fun he => hk (he ▸ hk')
      simpa [set, hne] using hks k' (by simp [hk'])
    have hset := h.set_succ (hks k (by simp))
    have ih := UpTo.truncate_pushAll ks hset hnd hnew
    have hone : (I.set (m + 1) k).truncate m = I := by
      have hkey : (I.set (m + 1) k).keyAt (m + 1) = some k := by simp [set]
      rw [← hset.erase_top hkey]
      have hnone := hks k (by simp)
      have htop := h.keyAt_eq_none (Nat.lt_succ_self m)
      simp only [set, erase, update_idem]
      rw [← hnone, ← htop, update_eq_self, update_eq_self]
    rw [Numbering.pushAll, ← truncate_truncate (Nat.le_succ m), ih, hone]

end Numbering

end GoLib
