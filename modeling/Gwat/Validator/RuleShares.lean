/-
  The shares of validated rules (`delegated_stake_rules.go`).
-/
import Gwat.Validator.NoPanic

namespace Gwat

open GoLib DelegatingStakeRules List

variable {addrs l : List Address} {shares : List UInt8}

/-- Every address has a share in the list, the shares that no address has are zero, and no
    address has two that are not zero. -/
structure SharesFit (addrs : List Address) (shares : List UInt8) : Prop where
  covered : addrs.length ≤ shares.length
  rest : ∀ v ∈ shares.drop addrs.length, v = 0
  distinct : ((nonZeroShares addrs shares).map Prod.fst).Nodup

/-- The rules share out one hundred percent of the profit and of the stake, and give their roles
    to addresses they name. -/
structure SharesHundred (r : DelegatingStakeRules) : Prop where
  profit : SharesTotal r.profitShare 100
  stake : SharesTotal r.stakeShare 100
  exit : ∃ l, r.exit = some l ∧ l ⊆ r.addrs
  withdrawal : ∃ l, r.withdrawal = some l ∧ l ⊆ r.addrs

theorem zip_take_length {α β : Type} (l : List α) (m : List β) :
    l.zip (m.take l.length) = l.zip m := by
  induction l generalizing m with
  | nil => rfl
  | cons a l ih =>
    cases m with
    | nil => rfl
    | cons b m =>
      rw [length_cons, take_succ_cons, zip_cons_cons, zip_cons_cons, ih]

theorem sum_nonZeroShares_take (h : addrs.length ≤ shares.length) :
    ((nonZeroShares addrs shares).map fun e => e.2.toNat).sum =
      total (shares.take addrs.length) := by
  rw [← sum_nonZeroShares (length_take_of_le h), nonZeroShares, nonZeroShares, zip_take_length]

theorem total_eq_zero_iff : total shares = 0 ↔ ∀ v ∈ shares, v = 0 := by
  rw [total, sum_eq_zero_iff]
  simp only [forall_mem_map, ← UInt8.toNat_inj]
  rfl

/-- The map has the sum of the list exactly if the shares fit the addresses. -/
theorem sharesTotal_iff :
    SharesTotal (shareMap addrs shares) (total shares) ↔ SharesFit addrs shares := by
  by_cases hlen : addrs.length ≤ shares.length
  · have hpos : ∀ e ∈ nonZeroShares addrs shares, 0 < e.2.toNat := by
      intro e he
      have hlt : 0 < e.2 := by simpa using (mem_filter.1 he).2
      simpa using UInt8.lt_iff_toNat_lt.1 hlt
    have hle := sumBy_ofPairs_le UInt8.toNat (nonZeroShares addrs shares)
    rw [sum_nonZeroShares_take hlen] at hle
    have hdistinct := sumBy_ofPairs_eq_iff hpos
    rw [sum_nonZeroShares_take hlen] at hdistinct
    have hsplit : total shares =
        total (shares.take addrs.length) + total (shares.drop addrs.length) := by
      conv_lhs => rw [← take_append_drop addrs.length shares]
      simp [total]
    constructor
    · rintro ⟨m, hm, hsum⟩
      rw [shareMap_eq hlen] at hm
      cases hm
      refine ⟨hlen, total_eq_zero_iff.1 (by omega), hdistinct.1 (by omega)⟩
    · intro h
      have hrest := total_eq_zero_iff.2 h.rest
      have hsum := hdistinct.2 h.distinct
      exact ⟨_, shareMap_eq hlen, by omega⟩
  · refine iff_of_false ?_ fun h => hlen h.covered
    rintro ⟨m, hm, -⟩
    exact hlen (isSome_shareMap.1 (by rw [hm]; rfl))

theorem roles_subset {bits : Bytes} (h : roles addrs bits = some l) : l ⊆ addrs := by
  unfold roles at h
  generalize bitIndices bits = ixs at h
  induction ixs generalizing l with
  | nil =>
    cases h
    exact nil_subset _
  | cons i ixs ih =>
    rw [mapM_cons] at h
    obtain ⟨a, ha, h⟩ := Option.bind_eq_some_iff.1 h
    obtain ⟨l', hl', h⟩ := Option.bind_eq_some_iff.1 h
    cases h
    exact cons_subset.2 ⟨mem_of_getElem? ha, ih hl'⟩

section
variable {r : DelegatingStakeRules}

/-- What the checks of `Validate` say. -/
theorem validate_eq_ok (h : r.validate = .ok ()) :
    total r.profitShares = 100 ∧ total r.stakeShares = 100 ∧ Granted r.exit ∧
      Granted r.withdrawal := by
  obtain ⟨_, hprofit, h⟩ := bind_eq_ok.1 h
  obtain ⟨_, hstake, h⟩ := bind_eq_ok.1 h
  obtain ⟨_, hexit, hwithdrawal⟩ := bind_eq_ok.1 h
  refine ⟨?_, ?_, granted_of_check hexit, granted_of_check hwithdrawal⟩
  · rw [validateProfitShare] at hprofit
    split_ifs at hprofit with ht
    exact not_not.1 ht
  · rw [validateStakeShare] at hstake
    split_ifs at hstake with ht
    exact not_not.1 ht

/-- Rules that pass `Validate`, whatever bytes they were decoded from, share out one hundred
    percent exactly if their lists of shares fit their addresses. -/
theorem hundred_iff (hvalid : r.validate = .ok ()) :
    SharesHundred r ↔ SharesFit r.addrs r.profitShares ∧ SharesFit r.addrs r.stakeShares := by
  obtain ⟨hprofit, hstake, ⟨le, hexit, -⟩, ⟨lw, hwithdrawal, -⟩⟩ := validate_eq_ok hvalid
  rw [← sharesTotal_iff, ← sharesTotal_iff, hprofit, hstake]
  constructor
  · exact fun h => ⟨h.profit, h.stake⟩
  · exact fun h => ⟨h.1, h.2, ⟨le, hexit, roles_subset hexit⟩,
      ⟨lw, hwithdrawal, roles_subset hwithdrawal⟩⟩

end

theorem hundred_two :
    (twoShares 1 2).validate = .ok () ∧
    (SharesHundred (twoShares 1 2) ↔
      SharesFit (twoShares 1 2).addrs (twoShares 1 2).profitShares ∧
        SharesFit (twoShares 1 2).addrs (twoShares 1 2).stakeShares) := by
  have hvalid : (twoShares 1 2).validate = .ok () := by decide
  exact ⟨hvalid, hundred_iff hvalid⟩

/-- Account 1 is given 60 and 40 percent of the profit: the second share replaces the first. -/
theorem hundred_repeated :
    DelegatingStakeRules.unmarshalBinary (twoShares 1 1).marshalBinary = some (twoShares 1 1) ∧
      (twoShares 1 1).validate = .ok () ∧ SharesTotal (twoShares 1 1).profitShare 40 ∧
      SharesTotal (twoShares 1 1).stakeShare 50 := by
  decide

end Gwat
