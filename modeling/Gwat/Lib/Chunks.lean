/-
  A list cut into pieces of equal length.
-/
import Mathlib

namespace GoLib

open List

variable {α : Type} {k i j : ℕ} {l : List α}

/-- The `i`-th piece of length `k`. -/
def chunk (k : ℕ) (l : List α) (i : ℕ) : List α := (l.drop (i * k)).take k

theorem length_chunk (h : (i + 1) * k ≤ l.length) : (chunk k l i).length = k := by
  rw [chunk, length_take, length_drop]
  rw [Nat.add_mul, Nat.one_mul] at h
  omega

theorem chunk_sublist : (chunk k l i).Sublist l :=
  (take_sublist _ _).trans (drop_sublist _ _)

theorem chunk_subset : chunk k l i ⊆ l := chunk_sublist.subset

theorem chunk_nodup (h : l.Nodup) : (chunk k l i).Nodup := h.sublist chunk_sublist

theorem mem_chunk {x : α} : x ∈ chunk k l i ↔ ∃ t < k, l[i * k + t]? = some x := by
  rw [chunk, mem_iff_getElem?]
  constructor
  · rintro ⟨t, ht⟩
    rw [getElem?_take, getElem?_drop] at ht
    split_ifs at ht with hlt
    exact ⟨t, hlt, ht⟩
  · rintro ⟨t, hlt, ht⟩
    exact ⟨t, by rw [getElem?_take, getElem?_drop, if_pos hlt, ht]⟩

theorem chunk_disjoint (h : l.Nodup) (hij : i ≠ j) : (chunk k l i).Disjoint (chunk k l j) := by
  intro x hi hj
  obtain ⟨s, hs, hsx⟩ := mem_chunk.1 hi
  obtain ⟨t, ht, htx⟩ := mem_chunk.1 hj
  -- both occurrences are at one position, which lies in one piece only
  have hpos : i * k + s = j * k + t := by
    obtain ⟨h1, hx1⟩ := List.getElem?_eq_some_iff.1 hsx
    obtain ⟨h2, hx2⟩ := List.getElem?_eq_some_iff.1 htx
    exact (h.getElem_inj_iff).1 (hx1.trans hx2.symm)
  have hk : 0 < k := by omega
  have hdiv : (i * k + s) / k = (j * k + t) / k := by rw [hpos]
  rw [Nat.mul_comm i, Nat.mul_comm j, Nat.mul_add_div hk, Nat.mul_add_div hk,
    Nat.div_eq_of_lt hs, Nat.div_eq_of_lt ht] at hdiv
  exact hij (by omega)

end GoLib
