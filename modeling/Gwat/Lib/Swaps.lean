/-
  Conditional swaps of mirrored positions.
-/
import Mathlib

namespace GoLib

open List

variable {α : Type} {b c : ℕ → Bool} {i j k m n i' j' : ℕ} {l : List α}

theorem getElem?_swap (hi : i < l.length) (hj : j < l.length) (k : ℕ) :
    (l.swap i j)[k]? = if k = i then l[j]? else if k = j then l[i]? else l[k]? := by
  by_cases hki : k = i
  · subst hki
    rw [if_pos rfl, getElem?_eq_getElem (by simpa using hi), getElem?_eq_getElem hj,
      getElem_swap_left_of_lt hj]
  by_cases hkj : k = j
  · subst hkj
    rw [if_neg hki, if_pos rfl, getElem?_eq_getElem (by simpa using hj),
      getElem?_eq_getElem hi, getElem_swap_right_of_lt hi]
  rw [if_neg hki, if_neg hkj]
  by_cases hk : k < l.length
  · rw [getElem?_eq_getElem (by simpa using hk), getElem?_eq_getElem hk,
      getElem_swap_of_ne hki hkj]
  · rw [getElem?_eq_none (by simpa using hk), getElem?_eq_none (not_lt.1 hk)]

theorem swap_swap_comm (hi : i < l.length) (hj : j < l.length) (hi' : i' < l.length)
    (hj' : j' < l.length) (hii : i ≠ i') (hij : i ≠ j') (hji : j ≠ i') (hjj : j ≠ j') :
    (l.swap i j).swap i' j' = (l.swap i' j').swap i j := by
  refine ext_getElem? fun k => ?_
  rw [getElem?_swap (l := l.swap i j) (by simpa using hi') (by simpa using hj'),
    getElem?_swap (l := l.swap i' j') (by simpa using hi) (by simpa using hj)]
  simp only [getElem?_swap hi hj, getElem?_swap hi' hj']
  grind

/-- The swap of a pair that `b` selects by its right position. -/
def condSwap (b : ℕ → Bool) (i j : ℕ) (l : List α) : List α := if b j then l.swap i j else l

@[simp] theorem length_condSwap : (condSwap b i j l).length = l.length := by
  unfold condSwap
  split <;> simp

theorem condSwap_perm : (condSwap b i j l).Perm l := by
  unfold condSwap
  split
  · exact swap_perm _ _ _
  · exact .refl _

theorem condSwap_condSwap : condSwap b i j (condSwap b i j l) = l := by
  unfold condSwap
  split <;> simp

theorem condSwap_comm (hi : i < l.length) (hj : j < l.length) (hi' : i' < l.length)
    (hj' : j' < l.length) (hii : i ≠ i') (hij : i ≠ j') (hji : j ≠ i') (hjj : j ≠ j') :
    condSwap c i' j' (condSwap b i j l) = condSwap b i j (condSwap c i' j' l) := by
  unfold condSwap
  split_ifs
  · exact swap_swap_comm hi hj hi' hj' hii hij hji hjj
  all_goals rfl

/-- The `n` pairs from the positions `i` and `j` inwards. -/
def mirrorSwaps (b : ℕ → Bool) : ℕ → ℕ → ℕ → List α → List α
  | 0, _, _, l => l
  | n + 1, i, j, l => mirrorSwaps b n (i + 1) (j - 1) (condSwap b i j l)

theorem mirrorSwaps_perm : (mirrorSwaps b n i j l).Perm l := by
  induction n generalizing i j l with
  | zero => exact .refl _
  | succ n ih => exact ih.trans condSwap_perm

@[simp] theorem length_mirrorSwaps : (mirrorSwaps b n i j l).length = l.length :=
  mirrorSwaps_perm.length_eq

/-- A swap of positions outside the range of a mirroring may be done before it. -/
theorem mirrorSwaps_condSwap (hn : i + 2 * n ≤ j + 1) (hj : j < l.length) (hi' : i' < l.length)
    (hj' : j' < l.length) (hio : i' < i ∨ j < i') (hjo : j' < i ∨ j < j') :
    mirrorSwaps b n i j (condSwap c i' j' l) = condSwap c i' j' (mirrorSwaps b n i j l) := by
  induction n generalizing i j l with
  | zero => rfl
  | succ n ih =>
    rw [mirrorSwaps, mirrorSwaps, condSwap_comm hi' hj' (by omega) hj (by omega) (by omega)
      (by omega) (by omega)]
    exact ih (by omega) (by rw [length_condSwap]; omega) (by simpa using hi') (by simpa using hj')
      (by omega) (by omega)

/-- A mirroring is its own inverse. -/
theorem mirrorSwaps_mirrorSwaps (hn : i + 2 * n ≤ j + 1) (hj : j < l.length) :
    mirrorSwaps b n i j (mirrorSwaps b n i j l) = l := by
  induction n generalizing i j l with
  | zero => rfl
  | succ n ih =>
    -- the outermost pair is swapped back before the inner ones
    rw [mirrorSwaps, mirrorSwaps, ← mirrorSwaps_condSwap (by omega) (by rw [length_condSwap]; omega)
      (by rw [length_condSwap]; omega) (by rwa [length_condSwap]) (by omega) (by omega),
      condSwap_condSwap]
    exact ih (by omega) (by omega)

/-- Mirrorings of disjoint ranges commute. -/
theorem mirrorSwaps_comm (hn : i + 2 * n ≤ j + 1) (hj : j < i') (hm : i' + 2 * m ≤ j' + 1)
    (hj' : j' < l.length) : mirrorSwaps c m i' j' (mirrorSwaps b n i j l) =
      mirrorSwaps b n i j (mirrorSwaps c m i' j' l) := by
  induction n generalizing i j l with
  | zero => rfl
  | succ n ih =>
    by_cases hm0 : m = 0
    · subst hm0; rfl
    rw [mirrorSwaps, mirrorSwaps, ih (by omega) (by omega) (by rwa [length_condSwap]),
      mirrorSwaps_condSwap hm hj' (by omega) (by omega) (by omega) (by omega)]

end GoLib
