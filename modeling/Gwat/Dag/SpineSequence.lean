/-
  The checks of spine sequences: the validation of a finalization sequence (`dag/dag.go`) and of
  a sequence of spines (`dag/finalizer/finalizer.go`).
-/
import Gwat.Dag.Rollback
import Gwat.Dag.SlotOrder

namespace Gwat

open GoLib List

/-! ## `HandleValidateFinalization` -/

inductive ValidateError
  | spineNotFound (spine : Hash)
  | badOrderBySlot (spine : Hash) (slot prevSlot : ℕ)
  deriving DecidableEq, Repr

namespace BlockStore

/-- The loop of `HandleValidateFinalization`; `lastSlot` is never set to the slot of a spine. -/
def validateSpines (s : BlockStore) (lastSlot : ℕ) : List Hash → Except ValidateError Bool
  | [] => .ok true
  | h :: spines =>
    match s.get h with
    | none => .error (.spineNotFound h)
    | some spine =>
      if spine.slot ≤ lastSlot then .error (.badOrderBySlot h spine.slot lastSlot)
      else s.validateSpines lastSlot spines

/-- `d.HandleValidateFinalization` -/
def handleValidateFinalization (s : BlockStore) (spines : List Hash) : Except ValidateError Bool :=
  s.validateSpines 0 spines

theorem validateSpines_iff {s : BlockStore} {lastSlot : ℕ} {spines : List Hash} :
    s.validateSpines lastSlot spines = .ok true ↔
      ∃ blocks, spines.mapM s.get = some blocks ∧ ∀ b ∈ blocks, lastSlot < b.slot := by
  induction spines with
  | nil => exact iff_of_true rfl ⟨[], rfl, by simp⟩
  | cons h spines ih =>
    rw [validateSpines, mapM_cons]
    cases s.get h with
    | none => simp
    | some spine =>
      dsimp only
      split_ifs with hslot
      · refine iff_of_false (by simp) ?_
        rintro ⟨blocks, hblocks, hall⟩
        obtain ⟨bs, -, rfl⟩ : ∃ bs, spines.mapM s.get = some bs ∧ spine :: bs = blocks := by
          simpa [Option.bind_eq_some_iff] using hblocks
        exact absurd (hall spine (by simp)) (not_lt.2 hslot)
      · rw [ih]
        cases spines.mapM s.get with
        | none => simp
        | some bs => simp [not_le.1 hslot]

/-- All hashes are stored blocks, and the slots are positive and increase along the list.  The
    check accepts exactly such lists if the slots of stored blocks with positive slots increase
    anyway. -/
theorem handleValidateFinalization_iff (s : BlockStore) (spines : List Hash) :
    (s.handleValidateFinalization spines = .ok true ↔
      ∃ blocks, spines.mapM s.get = some blocks ∧
        (0 :: blocks.map Block.slot).Pairwise (· < ·)) ↔
    ∀ blocks, spines.mapM s.get = some blocks → (∀ b ∈ blocks, 0 < b.slot) →
      (blocks.map Block.slot).Pairwise (· < ·) := by
  rw [handleValidateFinalization, validateSpines_iff]
  simp only [pairwise_cons, forall_mem_map]
  constructor
  · rintro h blocks hblocks hpos
    obtain ⟨blocks', hblocks', hright⟩ := h.1 ⟨blocks, hblocks, hpos⟩
    obtain rfl : blocks' = blocks := Option.some.inj (hblocks'.symm.trans hblocks)
    exact hright.2
  · intro h
    exact ⟨fun ⟨blocks, hblocks, hpos⟩ => ⟨blocks, hblocks, hpos, h blocks hblocks hpos⟩,
      fun ⟨blocks, hblocks, hpos, _⟩ => ⟨blocks, hblocks, hpos⟩⟩

/-- Blocks 1 and 2 in the slots 2 and 1. -/
def crossed : BlockStore := ⟨[⟨1, [], 2, 0⟩, ⟨2, [1], 1, 1⟩], by decide⟩

/-- Block 1 of slot 2 is accepted before block 2 of slot 1. -/
theorem crossed_accepted :
    crossed.handleValidateFinalization [1, 2] = .ok true ∧
      ¬ ∃ blocks, [1, 2].mapM crossed.get = some blocks ∧
        (0 :: blocks.map Block.slot).Pairwise (· < ·) := by
  refine ⟨by decide +kernel, ?_⟩
  rintro ⟨blocks, hblocks, hpair⟩
  obtain rfl : [⟨1, [], 2, 0⟩, ⟨2, [1], 1, 1⟩] = blocks := by
    have : [1, 2].mapM crossed.get = some [⟨1, [], 2, 0⟩, ⟨2, [1], 1, 1⟩] := by decide +kernel
    exact Option.some.inj (this.symm.trans hblocks)
  exact absurd hpair (by decide)

end BlockStore

/-! ## `SequenceIntersection` -/

section

variable {α : Type} [DecidableEq α]

/-- `IndexOf` -/
def indexOf (ha : List α) (hash : α) : ℤ := if hash ∈ ha then ha.idxOf hash else -1

/-- The loop of `SequenceIntersection`; `index` is where the next item has to lie. -/
def sequenceLoop (hashArray : List α) : List α → ℤ → List α → List α
  | [], _, c => c
  | item :: ha, index, c =>
    let i := indexOf hashArray item
    if index = -1 ∧ 0 ≤ i then sequenceLoop hashArray ha (i + 1) (c ++ [item])
    else if 0 ≤ index ∧ index = i then sequenceLoop hashArray ha (i + 1) (c ++ [item])
    else if 0 ≤ index ∧ index ≠ i then c
    else sequenceLoop hashArray ha index c

/-- `ha.SequenceIntersection(hashArray)` -/
def sequenceIntersection (ha hashArray : List α) : List α := sequenceLoop hashArray ha (-1) []

variable {a b u v pre p r : List α} {x y : α}

theorem indexOf_eq_length_iff (hn : (u ++ v).Nodup) :
    indexOf (u ++ v) x = u.length ↔ v.head? = some x := by
  rw [indexOf]
  constructor
  · intro h
    split_ifs at h with hx
    have hget := getElem?_idxOf hx
    rw [show (u ++ v).idxOf x = u.length by omega, getElem?_append_right le_rfl,
      Nat.sub_self, ← head?_eq_getElem?] at hget
    exact hget
  · intro h
    obtain ⟨v, rfl⟩ := head?_eq_some_iff.1 h
    have hx : x ∉ u := fun hx => (nodup_append.1 hn).2.2 x hx x (by simp) rfl
    simp [idxOf_append_of_notMem hx]

/-- After the part `u` of the second array, the loop takes what the arrays have in common from
    there on. -/
theorem sequenceLoop_run (hn : (u ++ v).Nodup) (r c : List α) :
    ∃ p r' v', r = p ++ r' ∧ v = p ++ v' ∧ sequenceLoop (u ++ v) r u.length c = c ++ p ∧
      ∀ x, r'.head? = some x → v'.head? ≠ some x := by
  induction r generalizing u v c with
  | nil => exact ⟨[], [], v, rfl, rfl, by simp [sequenceLoop], by simp⟩
  | cons y r ih =>
    rw [sequenceLoop]
    simp only [show (u.length : ℤ) ≠ -1 by omega, false_and, if_false, Int.natCast_nonneg, true_and]
    by_cases hy : v.head? = some y
    · have hidx := (indexOf_eq_length_iff hn).2 hy
      obtain ⟨v, rfl⟩ := head?_eq_some_iff.1 hy
      obtain ⟨p, r', v', rfl, rfl, hloop, hend⟩ :=
        @ih (u ++ [y]) v (by simpa using hn) (c ++ [y])
      refine ⟨y :: p, r', v', rfl, rfl, ?_, hend⟩
      rw [if_pos hidx.symm, hidx]
      simpa using hloop
    · have hidx := mt (indexOf_eq_length_iff hn).1 hy
      refine ⟨[], y :: r, v, rfl, rfl, ?_, ?_⟩
      · rw [if_neg (Ne.symm hidx), if_pos (Ne.symm hidx), append_nil]
      · rintro x hx hv
        exact hy (by rwa [← hx] at hv)

/-- The loop skips what the second array does not have, and then takes a run. -/
theorem sequenceIntersection_cases (hb : b.Nodup) (a : List α) :
    (∀ x ∈ a, x ∉ b) ∧ sequenceIntersection a b = [] ∨
      ∃ pre y p r u v, a = pre ++ y :: (p ++ r) ∧ b = u ++ y :: (p ++ v) ∧ (∀ x ∈ pre, x ∉ b) ∧
        sequenceIntersection a b = y :: p ∧ ∀ x, r.head? = some x → v.head? ≠ some x := by
  induction a with
  | nil => exact .inl ⟨by simp, rfl⟩
  | cons y a ih =>
    rw [sequenceIntersection, sequenceLoop]
    by_cases hy : y ∈ b
    · obtain ⟨u, v, rfl⟩ := append_of_mem hy
      have hidx := (indexOf_eq_length_iff hb).2 (rfl : (y :: v).head? = some y)
      obtain ⟨p, r, v', rfl, rfl, hloop, hend⟩ :=
        @sequenceLoop_run _ _ (u ++ [y]) v (by simpa using hb) a [y]
      refine .inr ⟨[], y, p, r, u, v', rfl, rfl, by simp, ?_, hend⟩
      simpa [hidx] using hloop
    · have hskip : sequenceIntersection (y :: a) b = sequenceIntersection a b := by
        simp [sequenceIntersection, sequenceLoop, indexOf, hy]
      rw [sequenceIntersection, sequenceLoop] at hskip
      rw [hskip]
      rcases ih with ⟨hnone, hnil⟩ | ⟨pre, z, p, r, u, v, rfl, rfl, hpre, hres⟩
      · exact .inl ⟨forall_mem_cons.2 ⟨hy, hnone⟩, hnil⟩
      · exact .inr ⟨y :: pre, z, p, r, u, v, rfl, rfl, forall_mem_cons.2 ⟨hy, hpre⟩, hres⟩

omit [DecidableEq α] in
/-- A run that occurs in an array without repetitions is followed by what follows there. -/
theorem head?_of_segment (hn : (pre ++ y :: (p ++ r)).Nodup)
    (h : y :: p ++ [x] <:+: pre ++ y :: (p ++ r)) : r.head? = some x := by
  obtain ⟨s, t, heq⟩ := h
  have hnot := nodup_append.1 hn
  have hpre : y ∉ pre := fun hy => hnot.2.2 y hy y (by simp) rfl
  have hrest : y ∉ p ++ r := (nodup_cons.1 hnot.2.1).1
  have heq' : pre ++ y :: (p ++ r) = s ++ y :: (p ++ x :: t) := by simpa using heq.symm
  obtain ⟨-, -, hr⟩ := (append_cons_inj_of_notMem hpre hrest).1 heq'
  rw [append_cancel_left hr]
  rfl

/-- `SequenceIntersection` of arrays without repetitions is the run of common items that starts
    with the first common item, as far as it goes. -/
theorem sequenceIntersection_spec {α : Type} [DecidableEq α] (a b : List α) (ha : a.Nodup)
    (hb : b.Nodup) :
    (sequenceIntersection a b <:+: a ∧ sequenceIntersection a b <:+: b) ∧
      (sequenceIntersection a b).head? = a.find? (· ∈ b) ∧
      (sequenceIntersection a b = [] ↔ ∀ x ∈ a, x ∉ b) ∧
      ¬ ∃ x, sequenceIntersection a b ++ [x] <:+: a ∧ sequenceIntersection a b ++ [x] <:+: b := by
  rcases sequenceIntersection_cases hb a with
    ⟨hnone, hnil⟩ | ⟨pre, y, p, r, u, v, rfl, rfl, hpre, hres, hend⟩
  · rw [hnil]
    refine ⟨⟨by simp, by simp⟩, ?_, iff_of_true rfl hnone, ?_⟩
    · exact (List.find?_eq_none.2 (by simpa using hnone)).symm
    · rintro ⟨x, hxa, hxb⟩
      exact hnone x (hxa.subset (by simp)) (hxb.subset (by simp))
  · rw [hres]
    refine ⟨⟨⟨pre, r, by simp⟩, ⟨u, v, by simp⟩⟩, ?_, ?_, ?_⟩
    · have hfind : pre.find? (· ∈ u ++ y :: (p ++ v)) = none :=
        List.find?_eq_none.2 fun x hx => by simpa using hpre x hx
      rw [List.find?_append, hfind]
      simp
    · exact iff_of_false (by simp) fun h => h y (by simp) (by simp)
    · rintro ⟨x, hxa, hxb⟩
      exact hend x (head?_of_segment ha hxa) (head?_of_segment hb hxb)

theorem sequenceIntersection_spec_run :
    let c := sequenceIntersection [7, 1, 2, 5] [0, 1, 2, 3]
    (c <:+: [7, 1, 2, 5] ∧ c <:+: [0, 1, 2, 3]) ∧ c = [1, 2] :=
  ⟨(sequenceIntersection_spec [7, 1, 2, 5] [0, 1, 2, 3] (by decide) (by decide)).1, by decide⟩

end

end Gwat
