/-
  Balances and owners: two ways to record who holds what.

  A ledger of units gives every account a number; a ledger of things gives every thing an
  account.
-/
import Mathlib

namespace GoLib

open Function Finset

/-! ## Units -/

section
variable {α : Type} [DecidableEq α] {bal : α → ℕ} {src dst : α} {v : ℕ}

/-- `v` units are taken from `src`, then added to `dst`. -/
def move (bal : α → ℕ) (src dst : α) (v : ℕ) : α → ℕ :=
  let taken := update bal src (bal src - v)
  update taken dst (taken dst + v)

theorem move_add (dst a : α) (h : v ≤ bal src) :
    move bal src dst v a + (if a = src then v else 0) = bal a + if a = dst then v else 0 := by
  unfold move
  by_cases hd : a = dst
  · subst hd
    by_cases hs : a = src
    · subst hs
      simp only [update_self, if_true]
      omega
    · simp [hs]
  · by_cases hs : a = src
    · subst hs
      simp only [update_of_ne hd, update_self, if_true, if_neg hd]
      omega
    · simp [hd, hs]

/-- Units are neither lost nor made. -/
theorem sum_move [Fintype α] (h : v ≤ bal src) : ∑ a, move bal src dst v a = ∑ a, bal a := by
  have hsum : ∑ a, (move bal src dst v a + if a = src then v else 0) =
      ∑ a, (bal a + if a = dst then v else 0) := sum_congr rfl fun a _ => move_add dst a h
  rw [sum_add_distrib, sum_add_distrib, sum_ite_eq' Finset.univ src,
    sum_ite_eq' Finset.univ dst, if_pos (mem_univ _), if_pos (mem_univ _)] at hsum
  exact Nat.add_right_cancel hsum

end

/-! ## Things -/

section
variable {ι α : Type} [Fintype ι] [DecidableEq ι] [DecidableEq α]

/-- The number of things that `a` owns. -/
def holdings (owner : ι → α) (a : α) : ℕ := (Finset.univ.filter fun i => owner i = a).card

theorem holdings_update (owner : ι → α) (i : ι) (a b : α) :
    holdings (update owner i b) a + (if owner i = a then 1 else 0) =
      holdings owner a + if b = a then 1 else 0 := by
  have hsplit : ∀ f : ι → α, holdings f a =
      (if f i = a then 1 else 0) + ((Finset.univ.erase i).filter fun j => f j = a).card := by
    intro f
    rw [holdings, ← insert_erase (mem_univ i), filter_insert]
    split_ifs
    · rw [card_insert_of_notMem (by simp), erase_insert (by simp), Nat.add_comm]
    · rw [erase_insert (by simp), Nat.zero_add]
  have hrest : ((Finset.univ.erase i).filter fun j => update owner i b j = a) =
      (Finset.univ.erase i).filter fun j => owner j = a := by
    refine filter_congr fun j hj => ?_
    rw [update_of_ne (ne_of_mem_erase hj)]
  rw [hsplit (update owner i b), hsplit owner, hrest, update_self]
  omega

end

end GoLib
