/-
  Go maps and their iteration order.

  A Go map is an association list without repeated keys (`GoMap`).  `range`
  visits its keys in an order that the language leaves open: a `Shuffle` is one
  choice of that order, a permutation of every list of keys, and a statement
  quantified over shuffles covers every order a run can meet.
-/
import Mathlib

namespace GoLib

open List AList

universe u

/-- A Go map `map[κ]α`. -/
abbrev GoMap (κ α : Type) := AList (fun _ : κ => α)

section
variable {κ ι α : Type} [DecidableEq κ] [DecidableEq ι]
variable {k : κ} {v x : α} {l : List (κ × α)} {key : α → κ}

theorem mem_keys_of_lookup {m : GoMap κ α} (h : m.lookup k = some v) : k ∈ m.keys :=
  AList.mem_keys.2 (AList.lookup_isSome.1 (by simp [h]))

/-- A read through a missing inner map finds nothing. -/
theorem lookup_of_getD {m : GoMap κ (GoMap ι α)} {i : ι}
    (h : ((m.lookup k).getD ∅).lookup i = some v) :
    ∃ m', m.lookup k = some m' ∧ m'.lookup i = some v := by
  cases hm : m.lookup k with
  | none => simp [hm] at h
  | some m' => exact ⟨m', rfl, by simpa [hm] using h⟩

/-- `for _, e := range l { m[e.key] = e.value }` -/
def ofPairs (l : List (κ × α)) : GoMap κ α := l.foldl (fun m e => m.insert e.1 e.2) ∅

theorem ofPairs_snoc (l : List (κ × α)) (e : κ × α) :
    ofPairs (l ++ [e]) = (ofPairs l).insert e.1 e.2 := by
  simp [ofPairs, foldl_append]

theorem mem_ofPairs : k ∈ ofPairs l ↔ k ∈ l.map Prod.fst := by
  induction l using reverseRecOn with
  | nil => simp [ofPairs]
  | append_singleton l e ih =>
    rw [ofPairs_snoc, mem_insert, ih]
    simp [or_comm]

theorem mem_of_lookup_ofPairs (h : (ofPairs l).lookup k = some v) : (k, v) ∈ l := by
  induction l using reverseRecOn with
  | nil => simp [ofPairs] at h
  | append_singleton l e ih =>
    rw [ofPairs_snoc] at h
    by_cases hk : k = e.1
    · rw [hk, lookup_insert, Option.some.injEq] at h
      simp [hk, ← h]
    · rw [lookup_insert_ne hk] at h
      exact mem_append_left _ (ih h)

/-- With distinct keys the map holds the entries of the list. -/
theorem lookup_ofPairs (hn : (l.map Prod.fst).Nodup) :
    (ofPairs l).lookup k = some v ↔ (k, v) ∈ l := by
  refine ⟨mem_of_lookup_ofPairs, fun hmem => ?_⟩
  obtain ⟨w, hw⟩ := Option.isSome_iff_exists.1
    (AList.lookup_isSome.2 (mem_ofPairs.2 (mem_map_of_mem hmem)))
  have hkey := inj_on_of_nodup_map hn (mem_of_lookup_ofPairs hw) hmem rfl
  rw [hw, (Prod.mk.inj hkey).2]

def sumBy (f : α → ℕ) (m : GoMap κ α) : ℕ := (m.entries.map fun e => f e.2).sum

theorem sumBy_insert (f : α → ℕ) (m : GoMap κ α) (k : κ) (v : α) :
    sumBy f (m.insert k v) + ((m.lookup k).map f).getD 0 = sumBy f m + f v := by
  simp only [sumBy, entries_insert, map_cons, sum_cons]
  by_cases hk : k ∈ m
  · obtain ⟨w, l₁, l₂, -, hentries, herase⟩ := exists_of_kerase (AList.mem_keys.1 hk)
    have hmem : (⟨k, w⟩ : Sigma fun _ : κ => α) ∈ m.entries := by rw [hentries]; simp
    have hlook : m.lookup k = some w := mem_dlookup m.nodupKeys hmem
    rw [hlook, herase, hentries]
    simp only [map_append, map_cons, sum_append, sum_cons, Option.map_some, Option.getD_some]
    omega
  · rw [kerase_of_notMem_keys (fun h => hk (AList.mem_keys.2 h)), AList.lookup_eq_none.2 hk]
    simp [Nat.add_comm]

theorem sumBy_ofPairs_snoc (f : α → ℕ) (l : List (κ × α)) (e : κ × α) :
    sumBy f (ofPairs (l ++ [e])) + (((ofPairs l).lookup e.1).map f).getD 0 =
      sumBy f (ofPairs l) + f e.2 := by
  rw [ofPairs_snoc, sumBy_insert]

theorem sumBy_ofPairs_le (f : α → ℕ) (l : List (κ × α)) :
    sumBy f (ofPairs l) ≤ (l.map fun e => f e.2).sum := by
  induction l using reverseRecOn with
  | nil => simp [ofPairs, sumBy]
  | append_singleton l e ih =>
    have h := sumBy_ofPairs_snoc f l e
    simp only [map_append, sum_append, map_cons, map_nil, sum_cons, sum_nil]
    omega

/-- The map has the sum of the list exactly if no entry was overwritten. -/
theorem sumBy_ofPairs_eq_iff {f : α → ℕ} (hpos : ∀ e ∈ l, 0 < f e.2) :
    sumBy f (ofPairs l) = (l.map fun e => f e.2).sum ↔ (l.map Prod.fst).Nodup := by
  induction l using reverseRecOn with
  | nil => simp [ofPairs, sumBy]
  | append_singleton l e ih =>
    have hstep := sumBy_ofPairs_snoc f l e
    have hle := sumBy_ofPairs_le f l
    have ih := ih fun e he => hpos e (by simp [he])
    rw [map_append, map_append, sum_append, nodup_append, ← ih]
    simp only [map_cons, map_nil, sum_cons, sum_nil, mem_singleton]
    by_cases hk : e.1 ∈ l.map Prod.fst
    · -- the entry before it is lost
      obtain ⟨w, hw⟩ := Option.isSome_iff_exists.1 (AList.lookup_isSome.2 (mem_ofPairs.2 hk))
      have hw0 : 0 < f w := hpos (e.1, w) (by simp [mem_of_lookup_ofPairs hw])
      rw [hw] at hstep
      simp only [Option.map_some, Option.getD_some] at hstep
      constructor
      · omega
      · rintro ⟨-, -, hdisj⟩
        exact absurd rfl (hdisj e.1 hk e.1 rfl)
    · rw [AList.lookup_eq_none.2 (fun h => hk (mem_ofPairs.1 h))] at hstep
      simp only [Option.map_none, Option.getD_none] at hstep
      constructor
      · intro h
        refine ⟨by omega, by simp, ?_⟩
        rintro a ha b rfl rfl
        exact hk ha
      · omega

/-- `for _, x := range l { m[key(x)] = x }` -/
def indexBy (key : α → κ) (l : List α) : GoMap κ α := l.foldl (fun m x => m.insert (key x) x) ∅

theorem indexBy_eq (key : α → κ) (l : List α) :
    indexBy key l = ofPairs (l.map fun x => (key x, x)) := by
  rw [indexBy, ofPairs, foldl_map]

theorem mem_keys_indexBy {l : List α} : k ∈ (indexBy key l).keys ↔ k ∈ l.map key := by
  rw [← AList.mem_keys, indexBy_eq, mem_ofPairs, map_map]
  rfl

/-- With distinct keys no entry is overwritten. -/
theorem lookup_indexBy {l : List α} (hn : (l.map key).Nodup) (hx : x ∈ l) :
    (indexBy key l).lookup (key x) = some x := by
  have hkeys : ((l.map fun x => (key x, x)).map Prod.fst).Nodup := by rwa [map_map]
  rw [indexBy_eq, lookup_ofPairs hkeys]
  exact mem_map_of_mem hx

end

/-- A read by key, where at most one element has each key. -/
theorem find?_key_eq_some {κ α : Type} [DecidableEq κ] {key : α → κ} {l : List α}
    (hn : (l.map key).Nodup) {k : κ} {x : α} :
    l.find? (fun y => key y = k) = some x ↔ x ∈ l ∧ key x = k := by
  constructor
  · intro h
    exact ⟨mem_of_find?_eq_some h, by simpa using List.find?_some h⟩
  · rintro ⟨hx, rfl⟩
    obtain ⟨y, hy⟩ : ∃ y, l.find? (fun y => key y = key x) = some y :=
      Option.isSome_iff_exists.1 (List.find?_isSome.2 ⟨x, hx, by simp⟩)
    have hyx : key y = key x := by simpa using List.find?_some hy
    rw [hy, inj_on_of_nodup_map hn (mem_of_find?_eq_some hy) hx hyx]

/-- The order in which one `range` statement visits the keys of a map. -/
structure Shuffle (κ : Type) where
  order : List κ → List κ
  perm : ∀ l, (order l).Perm l

namespace Shuffle

variable {κ : Type}
variable {o : Shuffle κ} {l : List κ}

/-- The order in which the keys are stored. -/
def stored : Shuffle κ := ⟨id, fun l => .refl l⟩

def reversed : Shuffle κ := ⟨List.reverse, fun l => l.reverse_perm⟩

instance : Inhabited (Shuffle κ) := ⟨stored⟩

@[simp] theorem mem_order {k : κ} : k ∈ o.order l ↔ k ∈ l :=
  (o.perm l).mem_iff

theorem nodup_order (h : l.Nodup) : (o.order l).Nodup :=
  (o.perm l).nodup_iff.2 h

end Shuffle

/-! ## Sorting the keys of a `range` -/

section
variable {κ : Type} [LinearOrder κ]
variable {l : List κ} {k : κ}

/-- `sort.Sort` in ascending order. -/
def sortAsc (l : List κ) : List κ := l.insertionSort (· ≤ ·)

/-- `sort.Sort` in descending order. -/
def sortDesc (l : List κ) : List κ := l.insertionSort (· ≥ ·)

theorem sortAsc_perm (l : List κ) : (sortAsc l).Perm l := l.perm_insertionSort _

theorem sortDesc_perm (l : List κ) : (sortDesc l).Perm l := l.perm_insertionSort _

@[simp] theorem mem_sortAsc : k ∈ sortAsc l ↔ k ∈ l :=
  (sortAsc_perm l).mem_iff

@[simp] theorem mem_sortDesc : k ∈ sortDesc l ↔ k ∈ l :=
  (sortDesc_perm l).mem_iff

theorem sortAsc_pairwise_le (l : List κ) : (sortAsc l).Pairwise (· ≤ ·) :=
  l.pairwise_insertionSort _

theorem sortDesc_pairwise_ge (l : List κ) : (sortDesc l).Pairwise (· ≥ ·) :=
  l.pairwise_insertionSort _

theorem sortAsc_pairwise_lt (h : l.Nodup) : (sortAsc l).Pairwise (· < ·) :=
  ((sortAsc_pairwise_le l).and ((sortAsc_perm l).nodup_iff.2 h)).imp
    fun h => lt_of_le_of_ne h.1 h.2

theorem sortDesc_pairwise_gt (h : l.Nodup) : (sortDesc l).Pairwise (· > ·) :=
  ((sortDesc_pairwise_ge l).and ((sortDesc_perm l).nodup_iff.2 h)).imp
    fun h => lt_of_le_of_ne h.1 (Ne.symm h.2)

/-- The values of a map that was filled from a list with increasing keys, read in the order of
    the keys, are the list. -/
theorem filterMap_lookup_indexBy {α : Type} {key : α → κ} {l : List α}
    (hl : l.Pairwise fun x y => key x < key y) (o : Shuffle κ) :
    (sortAsc (o.order (indexBy key l).keys)).filterMap (indexBy key l).lookup = l := by
  have hsorted : (l.map key).Pairwise (· < ·) := pairwise_map.2 hl
  have hn : (l.map key).Nodup := hsorted.imp ne_of_lt
  have hkeys : sortAsc (o.order (indexBy key l).keys) = l.map key := by
    refine List.Perm.eq_of_pairwise (fun _ _ _ _ h h' => absurd h' (lt_asymm h))
      (sortAsc_pairwise_lt (Shuffle.nodup_order (keys_nodup _))) hsorted ?_
    refine (perm_ext_iff_of_nodup ?_ hn).2 fun k => by simp [mem_keys_indexBy]
    exact (sortAsc_perm _).nodup_iff.2 (Shuffle.nodup_order (keys_nodup _))
  rw [hkeys, filterMap_map]
  calc l.filterMap ((indexBy key l).lookup ∘ key) = l.filterMap some :=
        filterMap_congr fun x hx => lookup_indexBy hn hx
    _ = l := filterMap_some

end

/-- `sort.Slice`: some rearrangement that is sorted by `less`, not necessarily a stable
    one. -/
structure SliceSort {α : Type} (less : α → α → Bool) where
  sort : List α → List α
  perm : ∀ l, (sort l).Perm l
  sorted : ∀ l, (sort l).Pairwise fun a b => less b a = false

end GoLib
