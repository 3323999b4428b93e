/-
  Building delegating stake rules and reading them back (`NewDelegatingStakeRules`).
-/
import Gwat.ByteOrder
import Gwat.Lib.BitlistBuild
import Gwat.Validator.DepositRules

namespace Gwat

open GoLib DelegatingStakeRules List

/-! ## The constructor -/

structure AdrInfo where
  profit : UInt8 := 0
  stake : UInt8 := 0
  exit : Bool := false
  withdraw : Bool := false
  deriving DecidableEq

/-- The orders in which one call iterates its maps, and its `sort.Slice`. -/
structure RuleOrder where
  profit : Shuffle Address
  stake : Shuffle Address
  addrs : Shuffle Address
  sort : SliceSort addressLess

/-- An entry of `addrMap` is made where it is missing, and changed. -/
def touch (m : GoMap Address AdrInfo) (a : Address) (f : AdrInfo → AdrInfo) :
    GoMap Address AdrInfo :=
  m.insert a (f ((m.lookup a).getD {}))

/-- `for a, v := range share`, with `set` for the field that is set. -/
def collectShares (set : UInt8 → AdrInfo → AdrInfo) (share : GoMap Address UInt8)
    (order : List Address) (m : GoMap Address AdrInfo) : GoMap Address AdrInfo :=
  order.foldl (fun m a =>
    let v := (share.lookup a).getD 0
    if v = 0 then m else touch m a (set v)) m

/-- `for _, a := range role` -/
def collectRoles (set : AdrInfo → AdrInfo) (role : List Address) (m : GoMap Address AdrInfo) :
    GoMap Address AdrInfo :=
  role.foldl (fun m a => touch m a set) m

section
variable (o : RuleOrder) (profitShare stakeShare : GoMap Address UInt8)
  (exit withdrawal : List Address)

/-- The map that `init` collects its data in. -/
def addrMap : GoMap Address AdrInfo :=
  let m := collectShares (fun v info => { info with profit := v }) profitShare
    (o.profit.order profitShare.keys) ∅
  let m := collectShares (fun v info => { info with stake := v }) stakeShare
    (o.stake.order stakeShare.keys) m
  let m := collectRoles (fun info => { info with exit := true }) exit m
  collectRoles (fun info => { info with withdraw := true }) withdrawal m

def newDelegatingStakeRules : DelegatingStakeRules :=
  let m := addrMap o profitShare stakeShare exit withdrawal
  let addrs := o.sort.sort (o.addrs.order m.keys)
  let info := fun a => (m.lookup a).getD {}
  { addrs
    profitShares := addrs.map fun a => if 0 < (info a).profit then (info a).profit else 0
    stakeShares := addrs.map fun a => if 0 < (info a).stake then (info a).stake else 0
    exitBits := buildBits (addrs.map fun a => (info a).exit)
    withdrawalBits := buildBits (addrs.map fun a => (info a).withdraw) }

end

/-! ## What the map holds -/

section
variable {o : RuleOrder} {profitShare stakeShare share : GoMap Address UInt8}
  {exit withdrawal addrs role : List Address} {x : Address} {n : ℕ}

theorem lookup_foldl_touch {f : Address → AdrInfo → AdrInfo} (hf : ∀ a i, f a (f a i) = f a i)
    (l : List Address) (m : GoMap Address AdrInfo) (x : Address) :
    (l.foldl (fun m a => touch m a (f a)) m).lookup x =
      if x ∈ l then some (f x ((m.lookup x).getD {})) else m.lookup x := by
  induction l generalizing m with
  | nil => simp
  | cons a l ih =>
    rw [foldl_cons, ih]
    by_cases hx : x = a
    · subst hx
      simp [touch, hf]
    · simp [touch, hx]

theorem lookup_collectRoles {set : AdrInfo → AdrInfo} (hset : ∀ i, set (set i) = set i)
    (role : List Address) (m : GoMap Address AdrInfo) (x : Address) :
    (collectRoles set role m).lookup x =
      if x ∈ role then some (set ((m.lookup x).getD {})) else m.lookup x :=
  @lookup_foldl_touch (fun _ => set) (fun _ => hset) role m x

theorem lookup_collectShares {set : UInt8 → AdrInfo → AdrInfo}
    (hset : ∀ v i, set v (set v i) = set v i) (share : GoMap Address UInt8)
    (order : Shuffle Address) (m : GoMap Address AdrInfo) (x : Address) :
    (collectShares set share (order.order share.keys) m).lookup x =
      if (share.lookup x).getD 0 ≠ 0 then
        some (set ((share.lookup x).getD 0) ((m.lookup x).getD {}))
      else m.lookup x := by
  have hfilter : collectShares set share (order.order share.keys) m =
      ((order.order share.keys).filter fun a => (share.lookup a).getD 0 ≠ 0).foldl
        (fun m a => touch m a (set ((share.lookup a).getD 0))) m := by
    rw [collectShares, foldl_filter]
    congr 1
    simp
  rw [hfilter, lookup_foldl_touch fun a => hset _]
  refine if_congr ?_ rfl rfl
  simp only [mem_filter, Shuffle.mem_order, decide_eq_true_eq, and_iff_right_iff_imp]
  intro hne
  cases hl : share.lookup x with
  | none => simp [hl] at hne
  | some v => exact mem_keys_of_lookup hl

/-- What is given for an address. -/
def givenInfo (profitShare stakeShare : GoMap Address UInt8) (exit withdrawal : List Address)
    (a : Address) : AdrInfo :=
  ⟨(profitShare.lookup a).getD 0, (stakeShare.lookup a).getD 0, a ∈ exit, a ∈ withdrawal⟩

/-- The map holds what is given for each address that is named. -/
theorem lookup_addrMap (x : Address) :
    (addrMap o profitShare stakeShare exit withdrawal).lookup x =
      if givenInfo profitShare stakeShare exit withdrawal x = {} then none
      else some (givenInfo profitShare stakeShare exit withdrawal x) := by
  unfold addrMap givenInfo
  rw [lookup_collectRoles, lookup_collectRoles, lookup_collectShares, lookup_collectShares]
  · generalize (profitShare.lookup x).getD 0 = p
    generalize (stakeShare.lookup x).getD 0 = s
    by_cases hp : p = 0 <;> by_cases hs : s = 0 <;> by_cases he : x ∈ exit <;>
      by_cases hw : x ∈ withdrawal <;> simp [hp, hs, he, hw]
  all_goals intros; rfl

theorem mem_keys_addrMap : x ∈ (addrMap o profitShare stakeShare exit withdrawal).keys ↔
      givenInfo profitShare stakeShare exit withdrawal x ≠ {} := by
  rw [← AList.mem_keys, ← AList.lookup_isSome, lookup_addrMap]
  split_ifs with h <;> simp [h]

theorem getD_lookup_addrMap (x : Address) :
    ((addrMap o profitShare stakeShare exit withdrawal).lookup x).getD {} =
      givenInfo profitShare stakeShare exit withdrawal x := by
  rw [lookup_addrMap]
  split_ifs with h
  · exact h.symm
  · rfl

/-! ## The sorted addresses -/

theorem addrs_pairwise :
    (newDelegatingStakeRules o profitShare stakeShare exit withdrawal).addrs.Pairwise (· < ·) := by
  have hperm := (o.sort.perm _).trans
    (o.addrs.perm (addrMap o profitShare stakeShare exit withdrawal).keys)
  have hnodup := hperm.nodup_iff.2 (AList.keys_nodup _)
  have hle := (o.sort.sorted (o.addrs.order
    (addrMap o profitShare stakeShare exit withdrawal).keys)).imp addressLess_eq_false.1
  exact (hle.and hnodup).imp fun h => lt_of_le_of_ne h.1 h.2

theorem mem_addrs : x ∈ (newDelegatingStakeRules o profitShare stakeShare exit withdrawal).addrs ↔
      givenInfo profitShare stakeShare exit withdrawal x ≠ {} := by
  rw [← mem_keys_addrMap (o := o)]
  exact ((o.sort.perm _).trans (o.addrs.perm _)).mem_iff

/-- The rules in terms of what is given: only the addresses are sorted. -/
theorem newDelegatingStakeRules_eq :
    newDelegatingStakeRules o profitShare stakeShare exit withdrawal =
      let addrs := (newDelegatingStakeRules o profitShare stakeShare exit withdrawal).addrs
      ⟨addrs, addrs.map fun a => (profitShare.lookup a).getD 0,
        addrs.map fun a => (stakeShare.lookup a).getD 0,
        buildBits (addrs.map fun a => decide (a ∈ exit)),
        buildBits (addrs.map fun a => decide (a ∈ withdrawal))⟩ := by
  have hzero : ∀ v : UInt8, (if 0 < v then v else 0) = v := by
    intro v
    split_ifs with h
    · rfl
    · exact (UInt8.le_zero_iff.1 (UInt8.not_lt.1 h)).symm
  simp only [newDelegatingStakeRules, getD_lookup_addrMap, hzero]
  rfl

theorem newDelegatingStakeRules_order (o' : RuleOrder) :
    newDelegatingStakeRules o profitShare stakeShare exit withdrawal =
      newDelegatingStakeRules o' profitShare stakeShare exit withdrawal := by
  have haddrs : (newDelegatingStakeRules o profitShare stakeShare exit withdrawal).addrs =
      (newDelegatingStakeRules o' profitShare stakeShare exit withdrawal).addrs := by
    refine @List.Perm.eq_of_pairwise _ (· < ·) _ _ (fun a b _ _ hab hba => absurd hab hba.asymm)
      addrs_pairwise addrs_pairwise ?_
    refine (perm_ext_iff_of_nodup addrs_pairwise.nodup addrs_pairwise.nodup).2 fun x => ?_
    rw [mem_addrs, mem_addrs]
  rw [newDelegatingStakeRules_eq, newDelegatingStakeRules_eq (o := o'), haddrs]

/-! ## The answers of the rules -/

/-- `ProfitShare` and `StakeShare` return the entries that are given and not zero, `Exit` and
    `Withdrawal` the addresses that are given, in ascending order. -/
structure RulesRead (r : DelegatingStakeRules) (profitShare stakeShare : GoMap Address UInt8)
    (exit withdrawal : List Address) : Prop where
  profit : ∃ m, r.profitShare = some m ∧
    ∀ a v, m.lookup a = some v ↔ profitShare.lookup a = some v ∧ v ≠ 0
  stake : ∃ m, r.stakeShare = some m ∧
    ∀ a v, m.lookup a = some v ↔ stakeShare.lookup a = some v ∧ v ≠ 0
  exit : ∃ l, r.exit = some l ∧ l.Pairwise (· < ·) ∧ ∀ a, a ∈ l ↔ a ∈ exit
  withdrawal : ∃ l, r.withdrawal = some l ∧ l.Pairwise (· < ·) ∧ ∀ a, a ∈ l ↔ a ∈ withdrawal

theorem shareMap_map (hnodup : addrs.Nodup)
    (haddrs : ∀ a, (share.lookup a).getD 0 ≠ 0 → a ∈ addrs) :
    ∃ m, shareMap addrs (addrs.map fun a => (share.lookup a).getD 0) = some m ∧
      ∀ a v, m.lookup a = some v ↔ share.lookup a = some v ∧ v ≠ 0 := by
  have hpairs : nonZeroShares addrs (addrs.map fun a => (share.lookup a).getD 0) =
      (addrs.map fun a => (a, (share.lookup a).getD 0)).filter fun e => 0 < e.2 := by
    rw [nonZeroShares, map_prod_left_eq_zip]
  have hkeys : ((nonZeroShares addrs (addrs.map fun a => (share.lookup a).getD 0)).map
      Prod.fst).Nodup := by
    rw [hpairs]
    refine (filter_sublist.map Prod.fst).nodup ?_
    rwa [map_map, show Prod.fst ∘ (fun a => (a, (share.lookup a).getD 0)) = id from rfl,
      map_id]
  refine ⟨_, shareMap_eq (length_map _).ge, fun a v => ?_⟩
  rw [lookup_ofPairs hkeys, hpairs]
  simp only [mem_filter, mem_map, Prod.mk.injEq, decide_eq_true_eq]
  constructor
  · rintro ⟨⟨_, -, rfl, rfl⟩, hpos⟩
    cases hl : share.lookup _ with
    | none => simp [hl] at hpos
    | some w => exact ⟨rfl, UInt8.pos_iff_ne_zero.1 (by simpa [hl] using hpos)⟩
  · rintro ⟨hl, hv⟩
    have hget : (share.lookup a).getD 0 = v := by rw [hl]; rfl
    exact ⟨⟨a, haddrs a (hget ▸ hv), rfl, hget⟩, UInt8.pos_iff_ne_zero.2 hv⟩

theorem roles_buildBits (hsorted : addrs.Pairwise (· < ·)) (haddrs : ∀ a ∈ role, a ∈ addrs) :
    ∃ l, roles addrs (buildBits (addrs.map fun a => decide (a ∈ role))) = some l ∧
      l.Pairwise (· < ·) ∧ ∀ a, a ∈ l ↔ a ∈ role := by
  refine ⟨_, mapM_bitIndices_buildBits _ addrs, hsorted.sublist filter_sublist, fun a => ?_⟩
  rw [mem_filter, decide_eq_true_eq]
  exact and_iff_right_of_imp (haddrs a)

theorem rulesRead_new : RulesRead (newDelegatingStakeRules o profitShare stakeShare exit withdrawal)
    profitShare stakeShare exit withdrawal := by
  have hnodup : (newDelegatingStakeRules o profitShare stakeShare exit withdrawal).addrs.Nodup :=
    addrs_pairwise.nodup
  rw [newDelegatingStakeRules_eq]
  refine ⟨shareMap_map hnodup fun a ha => mem_addrs.2 fun h => ha ?_,
    shareMap_map hnodup fun a ha => mem_addrs.2 fun h => ha ?_,
    roles_buildBits addrs_pairwise fun a ha => mem_addrs.2 fun h => ?_,
    roles_buildBits addrs_pairwise fun a ha => mem_addrs.2 fun h => ?_⟩
  · exact congrArg AdrInfo.profit h
  · exact congrArg AdrInfo.stake h
  · exact of_decide_eq_false (congrArg AdrInfo.exit h) ha
  · exact of_decide_eq_false (congrArg AdrInfo.withdraw h) ha

/-! ## The copy -/

theorem copyRoles_buildBits {flags : List Bool} (h : flags.length = n) :
    copyRoles n (buildBits flags) = buildBits flags := by
  subst h
  have hlen := length_buildBits flags
  have hnew : (newBitlist flags.length).length = flags.length / 8 + 1 := by simp [newBitlist]
  rw [copyRoles, if_neg (ne_nil_of_length_pos (by omega)), copyOver,
    take_of_length_le (by omega), drop_eq_nil_of_le (by omega), append_nil]

theorem copy_new : (newDelegatingStakeRules o profitShare stakeShare exit withdrawal).copy =
    some (newDelegatingStakeRules o profitShare stakeShare exit withdrawal) := by
  rw [newDelegatingStakeRules_eq]
  simp only [DelegatingStakeRules.copy, copyShares_self (length_map _),
    copyRoles_buildBits (length_map _), Option.bind_eq_bind, Option.bind_some, Option.pure_def]

end

/-- Building rules and reading them back agree: whatever is given, the rules answer it, their
    encoding does not depend on the orders of the maps, and a copy of them and what is decoded
    from their encoding are the same rules. -/
theorem newDelegatingStakeRules_read (o : RuleOrder) (profitShare stakeShare : GoMap Address UInt8)
    (exit withdrawal : List Address) :
    let r := newDelegatingStakeRules o profitShare stakeShare exit withdrawal
    RulesRead r profitShare stakeShare exit withdrawal ∧
      (∀ o' : RuleOrder, (newDelegatingStakeRules o' profitShare stakeShare exit
        withdrawal).marshalBinary = r.marshalBinary) ∧
      r.copy = some r ∧
      (r.marshalBinary.length < 2 ^ 64 → unmarshalBinary r.marshalBinary = some r) :=
  ⟨rulesRead_new, fun _ => congrArg marshalBinary (newDelegatingStakeRules_order o), copy_new,
    DelegatingStakeRules.unmarshalBinary_marshalBinary⟩

/-- The maps in the order in which they are stored, and an insertion sort. -/
def storedRuleOrder : RuleOrder where
  profit := .stored
  stake := .stored
  addrs := .stored
  sort := ⟨fun l => l.insertionSort (· ≤ ·), fun l => l.perm_insertionSort _,
    fun l => (l.pairwise_insertionSort (· ≤ ·)).imp addressLess_eq_false.2⟩

/-- Address 5 has a share of the profit and may exit and withdraw, address 3 has a zero share
    and may exit; the exit list names address 5 twice. -/
theorem newDelegatingStakeRules_read_two :
    let profitShare : GoMap Address UInt8 := ofPairs [(5, 100), (3, 0)]
    let r := newDelegatingStakeRules storedRuleOrder profitShare ∅ [5, 3, 5] [5]
    r.marshalBinary.length < 2 ^ 64 ∧ RulesRead r profitShare ∅ [5, 3, 5] [5] ∧
      r.copy = some r ∧ unmarshalBinary r.marshalBinary = some r := by
  intro profitShare r
  have hread := newDelegatingStakeRules_read storedRuleOrder profitShare ∅ [5, 3, 5] [5]
  have hlen : r.marshalBinary.length < 2 ^ 64 := by decide
  exact ⟨hlen, hread.1, hread.2.2.1, hread.2.2.2 hlen⟩

end Gwat
