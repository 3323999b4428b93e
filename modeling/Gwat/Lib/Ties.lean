/-
  Sorting by a key with `sort.Slice`, which leaves the order of ties open.
-/
import Gwat.Lib.GoMap

namespace GoLib

open List

section
variable {α κ : Type} [LinearOrder κ] {key : α → κ}

/-- Elements with distinct keys are sorted in one way. -/
theorem sort_eq_sort (s s' : SliceSort fun a b : α => decide (key a < key b)) {l l' : List α}
    (hperm : l.Perm l') (hkeys : (l.map key).Nodup) : s.sort l = s'.sort l' := by
  have hstrict : ∀ (s : SliceSort fun a b : α => decide (key a < key b)) (m : List α),
      (m.map key).Nodup → (s.sort m).Pairwise fun a b => key a < key b := by
    intro s m hm
    have hne : (s.sort m).Pairwise fun a b => key a ≠ key b :=
      pairwise_map.1 (((s.perm m).map key).nodup_iff.2 hm)
    exact ((s.sorted m).and hne).imp fun h =>
      lt_of_le_of_ne (not_lt.1 (of_decide_eq_false h.1)) h.2
  refine List.Perm.eq_of_pairwise (fun _ _ _ _ h h' => absurd h' (lt_asymm h)) (hstrict s l hkeys)
    (hstrict s' l' ((hperm.map key).nodup_iff.1 hkeys)) ?_
  exact (s.perm l).trans (hperm.trans (s'.perm l').symm)

/-- An insertion sort, which keeps ties in their order. -/
def stableSort (key : α → κ) : SliceSort fun a b : α => decide (key a < key b) where
  sort := List.insertionSort fun a b => key a ≤ key b
  perm := perm_insertionSort _
  sorted l := by
    have : Std.Total fun a b : α => key a ≤ key b := ⟨fun _ _ => le_total _ _⟩
    have : IsTrans α fun a b => key a ≤ key b := ⟨fun _ _ _ => le_trans⟩
    exact (pairwise_insertionSort _ l).imp fun h => decide_eq_false (not_lt.2 h)

variable [DecidableEq α] {e e' : α}

theorem map_swap_perm {l : List α} (h : l.count e = l.count e') :
    (l.map (Equiv.swap e e')).Perm l := by
  refine perm_iff_count.2 fun a => ?_
  have hcount := count_map_of_injective l _ (Equiv.swap e e').injective (Equiv.swap e e' a)
  rw [Equiv.swap_apply_self] at hcount
  rw [hcount]
  rcases eq_or_ne a e with rfl | hne
  · rw [Equiv.swap_apply_left, h]
  rcases eq_or_ne a e' with rfl | hne'
  · rw [Equiv.swap_apply_right, h]
  · rw [Equiv.swap_apply_of_ne_of_ne hne hne']

/-- On the inputs `p` the tie of `e` and `e'` is returned the other way round. -/
def swapTies (htie : key e = key e') (p : List α → Bool) :
    SliceSort fun a b : α => decide (key a < key b) where
  sort l :=
    if p l ∧ l.count e = l.count e' then ((stableSort key).sort l).map (Equiv.swap e e')
    else (stableSort key).sort l
  perm l := by
    split_ifs with h
    · have hperm := (stableSort key).perm l
      refine (map_swap_perm ?_).trans hperm
      rw [hperm.count_eq, hperm.count_eq, h.2]
    · exact (stableSort key).perm l
  sorted l := by
    have hkey : ∀ a, key (Equiv.swap e e' a) = key a := by
      intro a
      rw [Equiv.swap_apply_def]
      split_ifs with h h'
      · rw [h, htie]
      · rw [h', htie]
      · rfl
    split_ifs with h
    · refine pairwise_map.2 (((stableSort key).sorted l).imp fun h => ?_)
      rwa [hkey, hkey]
    · exact (stableSort key).sorted l

variable {l l' : List α} (hnodup : l.Nodup) (he : e ∈ l) (he' : e' ∈ l) (hne : e ≠ e')
include hnodup he he' hne

theorem swapTies_sort_ne (htie : key e = key e') {p : List α → Bool} (hp : p l = true) :
    (swapTies htie p).sort l ≠ (stableSort key).sort l := by
  have hcount : l.count e = l.count e' := by
    rw [count_eq_one_of_mem hnodup he, count_eq_one_of_mem hnodup he']
  rw [swapTies]
  dsimp only
  rw [if_pos ⟨hp, hcount⟩]
  intro h
  have hmem : e ∈ (stableSort key).sort l := ((stableSort key).perm l).mem_iff.2 he
  have hfix := map_inj_left.1 (h.trans (map_id _).symm) e hmem
  exact hne ((Equiv.swap_apply_left e e').symm.trans hfix).symm

variable (key) in
theorem exists_sort_ne (htie : key e = key e') :
    ∃ s s' : SliceSort fun a b : α => decide (key a < key b), s.sort l ≠ s'.sort l :=
  ⟨swapTies htie fun _ => true, stableSort key, swapTies_sort_ne hnodup he he' hne htie rfl⟩

variable (key) in
/-- One sort returns a tie in two ways, for two inputs. -/
theorem exists_sort_ne_of_ne (htie : key e = key e') (hl : l ≠ l') :
    ∃ s : SliceSort fun a b : α => decide (key a < key b), s.sort l ≠ s.sort l' := by
  by_cases h : (stableSort key).sort l = (stableSort key).sort l'
  · refine ⟨swapTies htie fun m => decide (m = l), ?_⟩
    have hother : (swapTies htie fun m => decide (m = l)).sort l' = (stableSort key).sort l' := by
      rw [swapTies]
      dsimp only
      rw [if_neg fun h' => hl (of_decide_eq_true h'.1).symm]
    rw [hother, ← h]
    exact swapTies_sort_ne hnodup he he' hne htie (by simp)
  · exact ⟨stableSort key, h⟩

end

theorem sortAsc_eq_of_perm {κ : Type} [LinearOrder κ] {l l' : List κ} (h : l.Perm l') :
    sortAsc l = sortAsc l' :=
  List.Perm.eq_of_pairwise (fun _ _ _ _ hle hge => le_antisymm hle hge) (sortAsc_pairwise_le l)
    (sortAsc_pairwise_le l') ((sortAsc_perm l).trans (h.trans (sortAsc_perm l').symm))

theorem reverse_ne_self {α : Type} {l : List α} (hnodup : l.Nodup) (hlen : 1 < l.length) :
    l.reverse ≠ l := by
  intro h
  have hlast : l.reverse[0]? = l[0]? := by rw [h]
  rw [getElem?_reverse (by omega)] at hlast
  have hidx := (getElem?_inj (by omega) hnodup).1 hlast
  omega

end GoLib
