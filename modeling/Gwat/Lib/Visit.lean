/-
  Walks that share a set of visited keys.

  A depth-first walk reads a set `seen` of visited keys, extends it and emits
  the items it meets for the first time.  `Visits key items R seen seen' out`
  says that a walk covered exactly the keys of `R`: they are the ones it added to
  `seen`, and `out` holds each item of `R` that was new, once.
-/
import Mathlib

namespace GoLib

open List

variable {κ β : Type}

/-- A walk from the visited set `seen` covers the keys `R`, ends with `seen'` and
    emits `out`. -/
structure Visits (key : β → κ) (items : Set β) (R : Set κ) (seen seen' : Finset κ)
    (out : List β) : Prop where
  mem_seen : ∀ k, k ∈ seen' ↔ k ∈ seen ∨ k ∈ R
  mem_out : ∀ x, x ∈ out ↔ x ∈ items ∧ key x ∉ seen ∧ key x ∈ R
  nodup : (out.map key).Nodup

namespace Visits

variable {key : β → κ} {items : Set β} {R R₁ R₂ : Set κ} {s s₁ s₂ : Finset κ} {out o₁ o₂ : List β}

theorem skip (h : R ⊆ ↑s) : Visits key items R s s [] where
  mem_seen k := ⟨.inl, fun hk => hk.elim id fun hk => h hk⟩
  mem_out x := ⟨by simp, fun ⟨_, hn, hR⟩ => absurd (h hR) hn⟩
  nodup := by simp

theorem trans (h₁ : Visits key items R₁ s s₁ o₁) (h₂ : Visits key items R₂ s₁ s₂ o₂) :
    Visits key items (R₁ ∪ R₂) s s₂ (o₁ ++ o₂) where
  mem_seen k := by rw [h₂.mem_seen, h₁.mem_seen, Set.mem_union, or_assoc]
  mem_out x := by
    rw [mem_append, h₁.mem_out, h₂.mem_out, h₁.mem_seen, Set.mem_union]
    tauto
  nodup := by
    rw [map_append, nodup_append]
    refine ⟨h₁.nodup, h₂.nodup, ?_⟩
    rintro _ ha _ hb rfl
    obtain ⟨x, hx, hxa⟩ := mem_map.1 ha
    obtain ⟨y, hy, hyb⟩ := mem_map.1 hb
    -- the second walk emits only keys the first left unvisited
    refine ((h₂.mem_out y).1 hy).2.1 ((h₁.mem_seen _).2 (.inr ?_))
    rw [hyb, ← hxa]; exact ((h₁.mem_out x).1 hx).2.2

/-- A walk below `x`, started after `x` was marked, followed by `x` itself. -/
theorem root [DecidableEq κ] {x : β} (hx : x ∈ items) (hinj : Set.InjOn key items) (hnew : key x ∉ s)
    (h : Visits key items R (insert (key x) s) s' out) :
    Visits key items (insert (key x) R) s s' (out ++ [x]) where
  mem_seen k := by
    rw [h.mem_seen, Finset.mem_insert, Set.mem_insert_iff]; tauto
  mem_out y := by
    rw [mem_append, h.mem_out, mem_singleton, Finset.mem_insert, Set.mem_insert_iff]
    constructor
    · rintro (⟨hy, hn, hR⟩ | rfl)
      · exact ⟨hy, fun hs => hn (.inr hs), .inr hR⟩
      · exact ⟨hx, hnew, .inl rfl⟩
    · rintro ⟨hy, hn, hR⟩
      by_cases hxy : key y = key x
      · exact .inr (hinj hy hx hxy)
      · exact .inl ⟨hy, fun hs => hs.elim hxy hn, hR.resolve_left hxy⟩
  nodup := by
    rw [map_append, nodup_append]
    refine ⟨h.nodup, by simp, ?_⟩
    rintro a ha b hb rfl
    obtain ⟨y, hy, rfl⟩ := mem_map.1 ha
    have hyx : key y = key x := by simpa using hb
    exact ((h.mem_out y).1 hy).2.1 (by simp [hyx])

theorem congr (h : Visits key items R₁ s s₁ out) (hR : R₁ = R₂) : Visits key items R₂ s s₁ out :=
  hR ▸ h

end Visits

/-! ## The items still to visit -/

variable [DecidableEq κ] {key : β → κ} {items : List β} {s s' : Finset κ}

/-- The number of items whose key is not visited. -/
def unseen (key : β → κ) (items : List β) (seen : Finset κ) : ℕ :=
  (items.filter fun x => key x ∉ seen).length

theorem unseen_mono (h : s ⊆ s') : unseen key items s' ≤ unseen key items s := by
  refine List.Sublist.length_le (monotone_filter_right items fun x => ?_)
  simpa using fun hx hs => hx (h hs)

theorem unseen_lt {x : β} (hx : x ∈ items) (hnew : key x ∉ s) :
    unseen key items (insert (key x) s) < unseen key items s := by
  have hsub : (items.filter fun y => key y ∉ insert (key x) s).Sublist
      (items.filter fun y => key y ∉ s) := monotone_filter_right items fun y => by simp
  refine lt_of_le_of_ne hsub.length_le fun heq => ?_
  have hmem : x ∈ items.filter fun y => key y ∉ s := by simp [hx, hnew]
  rw [← hsub.eq_of_length heq] at hmem
  simp at hmem

theorem unseen_le_length (key : β → κ) (items : List β) (s : Finset κ) :
    unseen key items s ≤ items.length := length_filter_le _ _

end GoLib
