/-
  What `EpochToEra` does with an epoch that no stored era contains.
-/
import Gwat.Validator.Calendar

namespace Gwat

open List

/-! ## Beyond the last era -/

/-- The epoch is not beyond the last stored era. -/
def CoveredBy (eras : List Era) (epoch : UInt64) : Prop := ∃ e ∈ eras, epoch ≤ e.toEpoch

/-- The search gives, from some number of rounds on, the only era that contains the epoch, or
    ends without a read of a missing era if the epoch is beyond the table. -/
def SearchAnswers (eras : List Era) (cur : Era) (epoch : UInt64) : Prop :=
  ∃ rounds, ∀ n, rounds ≤ n →
    lookupEra n eras cur epoch ≠ .missing ∧ lookupEra n eras cur epoch ≠ .running ∧
    (CoveredBy eras epoch → ∃ e ∈ eras, lookupEra n eras cur epoch = .found e ∧
      e.isContainsEpoch epoch ∧ ∀ e' ∈ eras, e'.isContainsEpoch epoch → e' = e)

section
variable {eras : List Era} {epoch number : UInt64} {cur e : Era}

theorem EraTiling.table (h : EraTiling eras) (hshort : eras.length < 2 ^ 63) : EraTable eras :=
  ⟨h, hshort⟩

theorem lookupUp_ne_found {n : ℕ} (hno : ∀ e ∈ eras, ¬ e.isContainsEpoch epoch)
    (hcur : ¬ cur.isContainsEpoch epoch) : lookupUp eras epoch n number cur ≠ .found e := by
  induction n generalizing number cur with
  | zero =>
    rw [lookupUp, if_neg hcur]
    exact fun h => by cases h
  | succ n ih =>
    rw [lookupUp, if_neg hcur]
    cases hnext : readEra eras (number + 1) with
    | none => exact fun h => by cases h
    | some next => exact ih (hno next (mem_of_getElem? hnext))

/-- Beyond the last stored era no number of rounds gives an era. -/
theorem lookupEra_beyond (ht : EraTiling eras) (hcur : cur ∈ eras) (hno : ¬ CoveredBy eras epoch)
    (n : ℕ) : lookupEra n eras cur epoch = .missing ∨ lookupEra n eras cur epoch = .running := by
  have hto : ∀ e ∈ eras, e.toEpoch.toNat < epoch.toNat := by
    intro e he
    by_contra hle
    exact hno ⟨e, he, UInt64.le_iff_toNat_le.2 (not_lt.1 hle)⟩
  have hnone : ∀ e ∈ eras, ¬ e.isContainsEpoch epoch := by
    intro e he hc
    have := hto e he
    rw [Era.isContainsEpoch_iff] at hc
    omega
  obtain ⟨k, hk⟩ := mem_iff_getElem?.1 hcur
  have hne := ht.nonempty k cur hk
  have hlt := hto cur hcur
  have hfrom : ¬ epoch < cur.fromEpoch := by
    rw [UInt64.lt_iff_toNat_lt]
    omega
  rw [lookupEra, if_neg (hnone cur hcur), if_neg hfrom, if_pos (UInt64.lt_iff_toNat_lt.2 hlt)]
  cases h : lookupUp eras epoch n cur.number cur with
  | found e => exact absurd h (lookupUp_ne_found hnone (hnone cur hcur))
  | missing => exact .inl rfl
  | running => exact .inr rfl

theorem EraTable.searchAnswers (ht : EraTable eras) (hcur : cur ∈ eras)
    (hcov : CoveredBy eras epoch) : SearchAnswers eras cur epoch := by
  obtain ⟨last, hlast, hle⟩ := hcov
  obtain ⟨k, hk⟩ := mem_iff_getElem?.1 hlast
  obtain ⟨j, -, e, he, hc⟩ := ht.covered hk (UInt64.le_iff_toNat_le.1 hle)
  refine ⟨eras.length + 1, fun n hn => ?_⟩
  have hfind : (lookupEra n eras cur epoch).era? = some e := by
    rw [ht.lookupEra_eq_find hcur hn, ht.find_eq_some he hc]
  rw [EraLookup.era?_eq_some hfind]
  refine ⟨by simp, by simp, fun _ => ⟨e, mem_of_getElem? he, rfl, hc, fun e' he' hc' => ?_⟩⟩
  obtain ⟨i, hi⟩ := mem_iff_getElem?.1 he'
  have := ht.index_unique hi he hc' hc
  subst this
  exact Option.some.inj (hi.symm.trans he)

/-- The search answers only for epochs up to the end of the last stored era, and for those it
    does, whatever the current era is, on a table of fewer than 2^63 eras. -/
theorem lookupEra_found_iff (ht : EraTiling eras) (hcur : cur ∈ eras) :
    (SearchAnswers eras cur epoch → CoveredBy eras epoch) ∧
      (eras.length < 2 ^ 63 → CoveredBy eras epoch → SearchAnswers eras cur epoch) := by
  constructor
  · rintro ⟨rounds, h⟩
    by_contra hno
    obtain ⟨hmissing, hrunning, -⟩ := h rounds le_rfl
    exact (lookupEra_beyond ht hcur hno rounds).elim hmissing hrunning
  · exact fun hshort hcov => (ht.table hshort).searchAnswers hcur hcov

end

def twoEras : List Era := [⟨0, 0, 9⟩, ⟨1, 10, 19⟩]

theorem twoEras_tiling : EraTiling twoEras :=
  ((EraTable.singleton rfl rfl).snoc rfl rfl rfl rfl (by decide) (by decide)).toEraTiling

theorem lookupEra_found_twoEras : (EraTiling twoEras ∧ ⟨1, 10, 19⟩ ∈ twoEras) ∧
    (SearchAnswers twoEras ⟨1, 10, 19⟩ 4 → CoveredBy twoEras 4) ∧
      (twoEras.length < 2 ^ 63 → CoveredBy twoEras 4 → SearchAnswers twoEras ⟨1, 10, 19⟩ 4) :=
  ⟨⟨twoEras_tiling, by decide⟩, lookupEra_found_iff twoEras_tiling (by decide)⟩

/-- One epoch after the last era the search reads era 2, which is not stored. -/
theorem lookupEra_missing : EraTiling twoEras ∧ ⟨1, 10, 19⟩ ∈ twoEras ∧
    ∀ n, 1 ≤ n → lookupEra n twoEras ⟨1, 10, 19⟩ 20 = .missing := by
  refine ⟨twoEras_tiling, by decide, fun n hn => ?_⟩
  obtain ⟨n, rfl⟩ : ∃ k, n = k + 1 := ⟨n - 1, by omega⟩
  rfl

end Gwat
