/-
  Leases: an event acquires a resource for `d` time units, and until the lease has ended or
  is released no event may acquire or use the resource.
-/
import Mathlib

namespace GoLib

open List

/-- What an event does with the resource. -/
inductive LeaseKind where
  | acquire
  | use
  | release
  | idle
  deriving DecidableEq, Repr

/-- The event waits for the end of the lease. -/
def LeaseKind.Waits (k : LeaseKind) : Prop := k = .acquire ∨ k = .use

section

variable {α : Type} (kind : α → LeaseKind) (time : α → ℕ) (d : ℕ)

/-- When the lease ends after an event, if it ended at `n` before it. -/
def leaseAfter (n : ℕ) (e : α) : ℕ :=
  match kind e with
  | .acquire => time e + d
  | .release => 0
  | _ => n

/-- When the lease ends that the events leave. -/
def leaseEnd (l : List α) : ℕ := l.foldl (leaseAfter kind time d) 0

/-- Every event that acquires or uses the resource waits for the end of the lease. -/
inductive Respects : List α → Prop
  | nil : Respects []
  | snoc {l : List α} {e : α} : Respects l →
      ((kind e).Waits → leaseEnd kind time d l ≤ time e) → Respects (l ++ [e])

variable {kind time d} {l l' pre mid post : List α} {w : α}

theorem leaseEnd_snoc (l : List α) (e : α) :
    leaseEnd kind time d (l ++ [e]) = leaseAfter kind time d (leaseEnd kind time d l) e := by
  simp [leaseEnd]

theorem Respects.of_snoc {e : α} (h : Respects kind time d (l ++ [e])) :
    Respects kind time d l ∧ ((kind e).Waits → leaseEnd kind time d l ≤ time e) := by
  generalize hl : l ++ [e] = l' at h
  cases h with
  | nil => simp at hl
  | snoc h hwait =>
    obtain ⟨rfl, he⟩ := append_inj' hl rfl
    obtain rfl := singleton_inj.1 he
    exact ⟨h, hwait⟩

theorem Respects.of_append (h : Respects kind time d (l ++ l')) : Respects kind time d l := by
  induction l' using reverseRecOn with
  | nil => simpa using h
  | append_singleton l' e ih =>
    rw [← append_assoc] at h
    exact ih h.of_snoc.1

theorem Respects.le_leaseEnd (h : Respects kind time d (pre ++ w :: mid)) (hw : kind w = .acquire)
    (hmid : ∀ u ∈ mid, kind u ≠ .release) :
    time w + d ≤ leaseEnd kind time d (pre ++ w :: mid) := by
  induction mid using reverseRecOn with
  | nil => rw [leaseEnd_snoc, leaseAfter, hw]
  | append_singleton mid e ih =>
    rw [← cons_append, ← append_assoc] at h ⊢
    obtain ⟨hpre, hwait⟩ := h.of_snoc
    have hle := ih hpre fun u hu => hmid u (by simp [hu])
    rw [leaseEnd_snoc, leaseAfter]
    cases hk : kind e with
    | acquire =>
      -- the next lease starts after the end of this one
      have := hwait (.inl hk)
      simp only
      omega
    | release => exact absurd hk (hmid e (by simp))
    | use => exact hle
    | idle => exact hle

/-- An event that waits comes at the end of every lease before it that is not released. -/
theorem Respects.le_time {x : α} (h : Respects kind time d (pre ++ w :: (mid ++ x :: post)))
    (hw : kind w = .acquire) (hx : (kind x).Waits) (hmid : ∀ u ∈ mid, kind u ≠ .release) :
    time w + d ≤ time x := by
  have hsplit : pre ++ w :: (mid ++ x :: post) = (pre ++ w :: mid ++ [x]) ++ post := by simp
  rw [hsplit] at h
  obtain ⟨hpre, hwait⟩ := h.of_append.of_snoc
  exact (hpre.le_leaseEnd hw hmid).trans (hwait hx)

end

end GoLib
