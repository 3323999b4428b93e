/-
  A map that keeps a bounded number of entries.
-/
import Gwat.Lib.GoMap

namespace GoLib

open List AList

variable {κ α : Type} [DecidableEq κ] [LT κ] [DecidableLT κ]
variable {capacity : ℕ} {top k k' : κ} {m : GoMap κ α} {v w : α}

/-- The smallest key, searched for from `top` downwards; the order of the search does not
    matter for the minimum. -/
def smallestKey (top : κ) (m : GoMap κ α) : κ :=
  m.keys.foldl (fun needDel e => if e < needDel then e else needDel) top

/-- Makes room in a full cache. -/
def cacheEvict (capacity : ℕ) (top : κ) (m : GoMap κ α) : GoMap κ α :=
  if m.keys.length = capacity then m.erase (smallestKey top m) else m

/-- Makes room in a full cache, then adds an entry. -/
def cacheAdd (capacity : ℕ) (top : κ) (m : GoMap κ α) (k : κ) (v : α) : GoMap κ α :=
  (cacheEvict capacity top m).insert k v

theorem lookup_cacheAdd_self : (cacheAdd capacity top m k v).lookup k = some v :=
  lookup_insert _

theorem lookup_cacheAdd (h : (cacheAdd capacity top m k v).lookup k' = some w) :
    k' = k ∧ w = v ∨ m.lookup k' = some w := by
  rw [cacheAdd] at h
  by_cases hk : k' = k
  · subst hk
    rw [lookup_insert, Option.some.injEq] at h
    exact .inl ⟨rfl, h.symm⟩
  · rw [lookup_insert_ne hk, cacheEvict] at h
    split_ifs at h with hfull
    · by_cases hdel : k' = smallestKey top m
      · rw [hdel, lookup_erase] at h
        cases h
      · exact .inr (by rwa [lookup_erase_ne hdel] at h)
    · exact .inr h

/-! ## The bound -/

omit [DecidableEq κ] in
theorem foldl_smaller_mem (l : List κ) (a : κ) :
    l.foldl (fun needDel e => if e < needDel then e else needDel) a ∈ a :: l := by
  induction l generalizing a with
  | nil => exact mem_cons_self
  | cons e l ih =>
    rw [foldl_cons]
    rcases mem_cons.1 (ih (if e < a then e else a)) with h | h
    · rw [h]
      split_ifs <;> simp
    · exact mem_cons_of_mem _ (mem_cons_of_mem _ h)

omit [DecidableEq κ] in
theorem smallestKey_mem (htop : ∀ e, e ≠ top → e < top) (hm : m.keys ≠ []) :
    smallestKey top m ∈ m.keys := by
  obtain ⟨e, l, hkeys⟩ := exists_cons_of_ne_nil hm
  -- after the first key the search stands at that key
  have hfirst : (if e < top then e else top) = e := by
    by_cases he : e = top
    · rw [he, ite_self]
    · rw [if_pos (htop e he)]
  rw [smallestKey, hkeys, foldl_cons, hfirst]
  exact foldl_smaller_mem l e

omit [LT κ] [DecidableLT κ] in
theorem length_keys_insert (m : GoMap κ α) (k : κ) (v : α) :
    (m.insert k v).keys.length = if k ∈ m then m.keys.length else m.keys.length + 1 := by
  rw [keys_insert, length_cons]
  split_ifs with hk
  · rw [length_erase_of_mem (AList.mem_keys.1 hk)]
    have := length_pos_of_mem (AList.mem_keys.1 hk)
    omega
  · rw [erase_of_not_mem (mt AList.mem_keys.2 hk)]

theorem length_keys_evict (htop : ∀ e, e ≠ top → e < top) (hcap : 0 < capacity)
    (h : m.keys.length ≤ capacity) : (cacheEvict capacity top m).keys.length < capacity := by
  rw [cacheEvict]
  split_ifs with hfull
  · have hmem := smallestKey_mem htop (ne_nil_of_length_pos (hfull ▸ hcap))
    rw [keys_erase, length_erase_of_mem hmem]
    omega
  · omega

theorem length_keys_evict_insert (htop : ∀ e, e ≠ top → e < top) (hcap : 0 < capacity)
    (h : m.keys.length ≤ capacity) :
    ((cacheEvict capacity top m).insert k v).keys.length ≤ capacity := by
  have hroom := length_keys_evict htop hcap h
  rw [length_keys_insert]
  split_ifs <;> omega

end GoLib
