/-
  The eras of a node over all the checkpoints that it handles (`HandleEra` in
  `validator/era/era.go`).
-/
import Gwat.Validator.EraHandling
import Gwat.Validator.EraSearch

namespace Gwat

open List GoLib

namespace EraParams

/-- From `a` to `b` a node handles checkpoints, with the numbers of active validators that it reads
    at the time.  An error leaves what was entered before it. -/
inductive Handles (cfg : EraParams) (a : EraNode) : EraNode → Prop
  | start : Handles cfg a a
  | handled {count : Era → Except StorageError ℕ} : Handles cfg a b → Fitting cfg count finEpoch b →
      cfg.handleEra count true finEpoch fuel b = some (.ok c) ∨ Entered cfg count finEpoch b c →
      Handles cfg a c

variable {cfg : EraParams} {count : Era → Except StorageError ℕ} {finEpoch : UInt64} {fuel : ℕ} {a b c : EraNode}

theorem Entered.settled (hv : cfg.Valid) (hs : b.Settled) (hfits : Fitting cfg count finEpoch b)
    (h : Entered cfg count finEpoch b c) : c.Settled ∧ b.eras <+: c.eras := by
  refine ⟨?_, h.stored⟩
  induction h with
  | start => exact hs
  | next ha hle hok ih =>
    exact (enterNextEra_advances hv ih
      (fun hnone n hn => hfits.fits _ n (.entered ha hle hnone hn)) hok).settled

theorem handleEra_settled (hv : cfg.Valid) (hs : b.Settled) (hfits : Fitting cfg count finEpoch b)
    (h : cfg.handleEra count true finEpoch fuel b = some (.ok c)) :
    c.Settled ∧ b.eras <+: c.eras := by
  by_cases hle : b.cur.toEpoch + 1 ≤ finEpoch
  · rw [handleEra_enters hle] at h
    exact (entered_of_enterEras h).settled hv hs hfits
  · by_cases hfin : b.cur.toEpoch + 1 - cfg.transitionPeriod = finEpoch
    · rw [handleEra_starts hle hfin, Option.some.injEq] at h
      exact (startTransitionPeriod_settled hv hs hfits hle hfin h).symm
    · rw [handleEra_idle hle hfin] at h
      cases h
      exact ⟨hs, prefix_rfl⟩

/-- However many checkpoints a node handles, its eras tile the epochs, and the era that it finds for
    an epoch stays the same, in whatever era the node is. -/
theorem eras_run (hv : cfg.Valid) (ha : a.Settled) (h : Handles cfg a b) :
    (b.Settled ∧ a.eras <+: b.eras) ∧ ∀ epoch, CoveredBy a.eras epoch →
      ∃ e ∈ a.eras, ∃ rounds, ∀ n, rounds ≤ n →
        lookupEra n a.eras a.cur epoch = .found e ∧ lookupEra n b.eras b.cur epoch = .found e := by
  have hb : b.Settled ∧ a.eras <+: b.eras := by
    induction h with
    | start => exact ⟨ha, prefix_rfl⟩
    | handled _ hfits hor ih =>
      obtain ⟨hset, hpre⟩ := hor.elim (handleEra_settled hv ih.1 hfits) (·.settled hv ih.1 hfits)
      exact ⟨hset, ih.2.trans hpre⟩
  refine ⟨hb, fun epoch hcov => ?_⟩
  obtain ⟨last, hlast, hle⟩ := hcov
  obtain ⟨r, hr⟩ := ha.table.searchAnswers ha.cur_mem ⟨last, hlast, hle⟩
  obtain ⟨r', hr'⟩ := hb.1.table.searchAnswers hb.1.cur_mem ⟨last, hb.2.subset hlast, hle⟩
  obtain ⟨e, he, -, hc, -⟩ := (hr r le_rfl).2.2 ⟨last, hlast, hle⟩
  refine ⟨e, he, max r r', fun n hn => ?_⟩
  obtain ⟨e₁, -, hfound, -, huniq⟩ := (hr n (by omega)).2.2 ⟨last, hlast, hle⟩
  obtain ⟨e₂, -, hfound', -, huniq'⟩ := (hr' n (by omega)).2.2 ⟨last, hb.2.subset hlast, hle⟩
  exact ⟨huniq e he hc ▸ hfound, huniq' e (hb.2.subset he) hc ▸ hfound'⟩

end EraParams

/-- The checkpoint of the epoch 14 starts the transition to the second era. -/
theorem eras_run_transition : EraNode.Settled ⟨[⟨0, 0, 15⟩, ⟨1, 16, 31⟩], ⟨0, 0, 15⟩⟩ := by
  have hcur : ¬ firstEra.cur.toEpoch + 1 ≤ 14 := by decide
  refine (@EraParams.eras_run (sixteenEpochs 0 2) _ _ sixteenEpochs_valid firstEra_settled
    (.handled .start ⟨fun x hx hle => absurd (hx.first hle) hcur, fun x n hc => ?_⟩
      (.inl (rfl : (sixteenEpochs 0 2).handleEra (fun _ => .ok 0) true 14 1 firstEra = _)))).1.1
  cases hc with
  | entered hx hle => exact absurd (hx.first hle) hcur
  | transition hle =>
    refine ⟨.inl (by decide), ?_, by decide⟩
    rw [EraParams.eraLength, if_pos (by decide)]
    decide

end Gwat
