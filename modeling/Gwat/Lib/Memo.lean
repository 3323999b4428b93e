/-
  Answers kept in a cache of bounded size.

  `Lru` is a cache that drops its least recently used entry when it is full.  `memoize` asks the
  cache before it computes.  A computation is `Transparent` for a value if, from every cache
  whose entries are right, it returns the value and leaves entries that are right; it does not
  matter which entries were dropped.
-/
import Mathlib

namespace GoLib

open List

variable {κ α β γ σ : Type}

/-! ## The cache -/

/-- A cache, the most recently used entry first. -/
def Lru (κ α : Type) : Type := List (κ × α)

namespace Lru

def entries (c : Lru κ α) : List (κ × α) := c

instance : EmptyCollection (Lru κ α) := ⟨([] : List (κ × α))⟩

instance : Membership (κ × α) (Lru κ α) := ⟨fun c x => x ∈ c.entries⟩

instance [DecidableEq κ] [DecidableEq α] : DecidableEq (Lru κ α) :=
  inferInstanceAs (DecidableEq (List (κ × α)))

instance {p : κ × α → Prop} [DecidablePred p] (c : Lru κ α) : Decidable (∀ x ∈ c, p x) :=
  inferInstanceAs (Decidable (∀ x ∈ c.entries, p x))

theorem not_mem_empty (x : κ × α) : x ∉ (∅ : Lru κ α) := not_mem_nil

variable [DecidableEq κ] {c : Lru κ α} {k : κ} {v : α} {x : κ × α} {size : ℕ}

/-- `cache.Remove` -/
def remove (c : Lru κ α) (k : κ) : Lru κ α := c.entries.filter fun x => x.1 ≠ k

/-- `cache.Get`, which makes the entry it finds the most recent one. -/
def get (k : κ) (c : Lru κ α) : Option α × Lru κ α :=
  match c.entries.find? fun x => x.1 = k with
  | none => (none, c)
  | some x => (some x.2, x :: (c.remove k).entries)

/-- `cache.Add`, which drops the oldest entry of a full cache. -/
def add (size : ℕ) (k : κ) (v : α) (c : Lru κ α) : Lru κ α :=
  ((k, v) :: (c.remove k).entries).take size

theorem mem_remove : x ∈ c.remove k ↔ x ∈ c ∧ x.1 ≠ k := by
  show x ∈ c.entries.filter _ ↔ x ∈ c.entries ∧ _
  simp [mem_filter]

theorem get_cases (k : κ) (c : Lru κ α) :
    c.get k = (none, c) ∨ ∃ v, (k, v) ∈ c ∧ (c.get k).1 = some v ∧ ∀ x ∈ (c.get k).2, x ∈ c := by
  unfold get
  cases hf : c.entries.find? fun x => x.1 = k with
  | none => exact .inl rfl
  | some y =>
    obtain ⟨hk, hy⟩ := And.intro (List.find?_some hf) (mem_of_find?_eq_some hf)
    obtain rfl : y.1 = k := by simpa using hk
    refine .inr ⟨y.2, hy, rfl, fun x hx => ?_⟩
    rcases mem_cons.1 hx with rfl | hx
    · exact hy
    · exact (mem_remove.1 hx).1

theorem mem_of_mem_add (h : x ∈ c.add size k v) : x = (k, v) ∨ x ∈ c := by
  rcases mem_cons.1 (mem_of_mem_take h) with rfl | h
  · exact .inl rfl
  · exact .inr (mem_remove.1 h).1

end Lru

/-! ## Transparent computations -/

/-- From every state that satisfies the invariant, `x` returns `a` and keeps the invariant. -/
def Transparent (Inv : σ → Prop) (x : StateM σ α) (a : α) : Prop :=
  ∀ s, Inv s → (x.run s).1 = a ∧ Inv (x.run s).2

namespace Transparent

variable {Inv : σ → Prop} {x : StateM σ α} {a : α}

theorem pure (a : α) : Transparent Inv (Pure.pure a) a := fun _ hs => ⟨rfl, hs⟩

theorem bind {f : α → StateM σ β} {b : β} (hx : Transparent Inv x a) (hf : Transparent Inv (f a) b) :
    Transparent Inv (x >>= f) b := by
  intro s hs
  obtain ⟨ha, hs'⟩ := hx s hs
  have hrun : ((x >>= f).run s) = (f (x.run s).1).run (x.run s).2 := rfl
  rw [hrun, ha]
  exact hf _ hs'

theorem foldlM {f : β → α → StateM σ β} {g : β → α → β} {l : List α}
    (h : ∀ b, ∀ a ∈ l, Transparent Inv (f b a) (g b a)) (b : β) :
    Transparent Inv (l.foldlM f b) (l.foldl g b) := by
  induction l generalizing b with
  | nil => exact .pure b
  | cons a l ih =>
    exact (h b a mem_cons_self).bind (ih (fun b a ha => h b a (mem_cons_of_mem _ ha)) _)

end Transparent

/-! ## Memoized computations -/

variable [DecidableEq κ]

/-- Computes the answer for `k` and adds it to the cache. -/
def computeAndAdd (size : ℕ) (k : κ) (compute : StateM (Lru κ α) α) : StateM (Lru κ α) α := do
  let e ← compute
  modify (Lru.add size k e)
  return e

/-- Returns the cached answer for `k` if it fits, and otherwise computes and adds it. -/
def memoize (size : ℕ) (fits : α → Bool) (k : κ) (compute : StateM (Lru κ α) α) :
    StateM (Lru κ α) α := do
  match ← modifyGet (Lru.get k) with
  | none => computeAndAdd size k compute
  | some e => if fits e then return e else computeAndAdd size k compute

/-- Every entry is right. -/
def Lru.All (P : κ → α → Prop) (c : Lru κ α) : Prop := ∀ x ∈ c, P x.1 x.2

variable {P : κ → α → Prop} {size : ℕ} {fits : α → Bool} {k : κ} {a : α}
  {compute : StateM (Lru κ α) α}

theorem Transparent.computeAndAdd (hc : Transparent (Lru.All P) compute a) (ha : P k a) :
    Transparent (Lru.All P) (computeAndAdd size k compute) a := by
  refine hc.bind fun c hcP => ⟨rfl, fun x hx => ?_⟩
  rcases Lru.mem_of_mem_add hx with rfl | hx
  · exact ha
  · exact hcP x hx

/-- A memoized computation is transparent if the computation is, its value is right, and an
    entry that is right and fits is the value. -/
theorem Transparent.memoize (hc : Transparent (Lru.All P) compute a) (ha : P k a)
    (hfits : ∀ e, P k e → fits e = true → e = a) :
    Transparent (Lru.All P) (memoize size fits k compute) a := by
  intro c hcP
  have hrun : (GoLib.memoize size fits k compute).run c = (match (c.get k).1 with
      | none => GoLib.computeAndAdd size k compute
      | some e => if fits e then Pure.pure e else GoLib.computeAndAdd size k compute).run
        (c.get k).2 := rfl
  rw [hrun]
  rcases Lru.get_cases k c with hget | ⟨v, hv, hget, hsub⟩
  · rw [hget]
    exact hc.computeAndAdd ha c hcP
  · have hcP' : Lru.All P (c.get k).2 := fun x hx => hcP x (hsub x hx)
    rw [hget]
    by_cases hv' : fits v = true
    · simp only [hv', if_true]
      exact ⟨hfits v (hcP _ hv) hv', hcP'⟩
    · simp only [hv']
      exact hc.computeAndAdd ha _ hcP'

end GoLib
