/-
  What a delegated withdrawal pays (`applyDelegatingStakeRules`).
-/
import Gwat.Validator.SyncOps

namespace Gwat

open GoLib DelegatingStakeRules List

variable {addrs : List Address} {shares : List UInt8}

/-! ## The share maps -/

/-- The shares fit the addresses, which are distinct, and total 100 percent. -/
structure ValidShares (addrs : List Address) (shares : List UInt8) : Prop where
  nodup : addrs.Nodup
  length : shares.length = addrs.length
  total : total shares = 100

theorem ValidShares.distinct (h : ValidShares addrs shares) :
    ((nonZeroShares addrs shares).map Prod.fst).Nodup := by
  have hzip : ((addrs.zip shares).map Prod.fst).Nodup := by
    rw [map_fst_zip h.length.ge]; exact h.nodup
  exact hzip.sublist (filter_sublist.map _)

theorem shareMap_spec (h : ValidShares addrs shares) : ∃ m, shareMap addrs shares = some m ∧
      ∀ a v, m.lookup a = some v ↔ (a, v) ∈ addrs.zip shares ∧ 0 < v := by
  refine ⟨_, shareMap_eq h.length.ge, fun a v => ?_⟩
  rw [lookup_ofPairs h.distinct, nonZeroShares, mem_filter, decide_eq_true_eq]

/-! ## The payments of one part -/

theorem sum_filter_zip (h : shares.length = addrs.length) (c : ℤ) :
    (((addrs.zip shares).filter fun q => 0 < q.2).map fun q => c * (q.2.toNat : ℤ)).sum =
      c * total shares := by
  rw [sum_map_mul_left, ← sum_nonZeroShares h, Nat.cast_list_sum, map_map]
  rfl

open Processor in
theorem shareEntries_perm {m : GoMap Address UInt8} (h : ValidShares addrs shares)
    (hm : ∀ a v, m.lookup a = some v ↔ (a, v) ∈ addrs.zip shares ∧ 0 < v) (rt : RuleType)
    (tr : Bool) {opAmt : ℤ} (hpos : 0 < opAmt) (o : Shuffle Address) :
    (shareEntries rt tr opAmt o m).Perm (((addrs.zip shares).filter fun q => 0 < q.2).map
      fun q => ⟨q.1, rt, tr, opAmt / 100 * q.2.toNat⟩) := by
  have hmap : (((addrs.zip shares).filter fun q => 0 < q.2).map Prod.fst).Nodup := h.distinct
  have hkeys : (o.order m.keys).Perm (((addrs.zip shares).filter fun q => 0 < q.2).map Prod.fst) := by
    refine (o.perm _).trans ((perm_ext_iff_of_nodup (AList.keys_nodup m) hmap).2 fun a => ?_)
    rw [← AList.mem_keys, ← AList.lookup_isSome, Option.isSome_iff_exists]
    simp only [hm, mem_map, mem_filter, decide_eq_true_eq, Prod.exists,
      exists_and_right, exists_eq_right]
  unfold shareEntries
  rw [if_pos hpos]
  refine (hkeys.filterMap _).trans ?_
  rw [filterMap_map]
  refine List.Perm.of_eq ?_
  rw [← filterMap_eq_map]
  refine filterMap_congr fun q hq => ?_
  have hq := mem_filter.1 hq
  have : m.lookup q.1 = some q.2 := (hm q.1 q.2).2 ⟨hq.1, by simpa using hq.2⟩
  simp [this]

variable {addrs : List Address} {shares : List UInt8} {m : GoMap Address UInt8} {opAmt E B A : ℤ}

open Processor in
/-- One part is paid out up to the rounding of its division by 100. -/
theorem sum_shareEntries (h : ValidShares addrs shares)
    (hm : ∀ a v, m.lookup a = some v ↔ (a, v) ∈ addrs.zip shares ∧ 0 < v) (rt : RuleType)
    (tr : Bool) (hpos : 0 ≤ opAmt) (o : Shuffle Address) :
    ((shareEntries rt tr opAmt o m).map (·.amount)).sum = opAmt - opAmt % 100 := by
  rcases hpos.eq_or_lt with rfl | hpos
  · simp [shareEntries]
  · rw [((shareEntries_perm h hm rt tr hpos o).map (·.amount)).sum_eq, map_map]
    have hsum := sum_filter_zip h.length (opAmt / 100)
    rw [h.total] at hsum
    calc _ = opAmt / 100 * (100 : ℕ) := hsum
      _ = opAmt - opAmt % 100 := by push_cast; omega

theorem address_mem_of_shareEntries
    (hm : ∀ a v, m.lookup a = some v ↔ (a, v) ∈ addrs.zip shares ∧ 0 < v) {rt : RuleType}
    {tr : Bool} {o : Shuffle Address} {e : ShareRuleApplying}
    (he : e ∈ Processor.shareEntries rt tr opAmt o m) : e.address ∈ addrs := by
  unfold Processor.shareEntries at he
  split_ifs at he with h0
  · obtain ⟨a, -, ha⟩ := mem_filterMap.1 he
    obtain ⟨v, hv, rfl⟩ := Option.map_eq_some_iff.1 ha
    exact (of_mem_zip ((hm a v).1 hv).1).1
  · simp at he

/-! ## What the accounts receive -/

variable {s : StateDB} {a : Address} {es : List ShareRuleApplying}

open Processor in
theorem getBalance_payShares_of_notMem (h : ∀ e ∈ es, e.address ≠ a) :
    (payShares s es).getBalance a = s.getBalance a := by
  induction es generalizing s with
  | nil => rfl
  | cons e es ih =>
    obtain ⟨he, hes⟩ := forall_mem_cons.1 h
    show (payShares (s.addBalance e.address e.amount) es).getBalance a = _
    rw [ih hes, StateDB.getBalance_addBalance, if_neg (Ne.symm he), add_zero]

/-- The sum of what a step adds to the balances of the participants. -/
def credited (addrs : List Address) (s s' : StateDB) : ℤ :=
  (addrs.map fun a => s'.getBalance a - s.getBalance a).sum

theorem credited_trans (addrs : List Address) (s s₁ s₂ : StateDB) :
    credited addrs s s₂ = credited addrs s s₁ + credited addrs s₁ s₂ := by
  unfold credited
  rw [← sum_map_add]
  refine congrArg List.sum (map_congr_left fun a _ => ?_)
  ring

theorem credited_addBalance (hn : addrs.Nodup) (ha : a ∈ addrs) (x : ℤ) :
    credited addrs s (s.addBalance a x) = x := by
  unfold credited
  rw [← sum_toFinset _ hn]
  simp [StateDB.getBalance_addBalance, ha]

open Processor in
/-- The participants receive exactly the amounts of the entries. -/
theorem credited_payShares (hn : addrs.Nodup) (h : ∀ e ∈ es, e.address ∈ addrs) :
    credited addrs s (payShares s es) = (es.map (·.amount)).sum := by
  induction es generalizing s with
  | nil => simp [payShares, credited]
  | cons e es ih =>
    obtain ⟨he, hes⟩ := forall_mem_cons.1 h
    show credited addrs s (payShares (s.addBalance e.address e.amount) es) = _
    rw [credited_trans addrs s (s.addBalance e.address e.amount), ih hes,
      credited_addBalance hn he, map_cons, sum_cons]

/-! ## The split of the amount -/

theorem splitAmount_nonneg (hA : 0 ≤ A) :
    0 ≤ (Processor.splitAmount E B A).1 ∧ 0 ≤ (Processor.splitAmount E B A).2 := by
  unfold Processor.splitAmount
  simp only
  split_ifs <;> constructor <;> simp only <;> omega

/-- Up to the effective balance the parts add up to the amount; above it the profit part
    is the excess of the reported balance. -/
theorem splitAmount_eq (hA : 0 ≤ A) :
    (B ≤ E ∧ (Processor.splitAmount E B A).1 + (Processor.splitAmount E B A).2 = A) ∨
      (E < B ∧ Processor.splitAmount E B A = (B - E, 0)) := by
  unfold Processor.splitAmount
  simp only
  split_ifs with h₁ h₂ h₂
  · exact .inl ⟨by omega, by omega⟩
  · omega
  · exact .inl ⟨by omega, by omega⟩
  · right; rw [Prod.mk.injEq]; constructor <;> omega

open Processor in
/-- A delegated withdrawal under valid rules is carried out and pays, to the participants
    only, the two parts up to their rounding. -/
theorem applyDelegatingStakeRules_pays (p : Processor) (s : StateDB) (op : SyncOp) (v : Validator)
    {isTrial : Bool} {rules : DelegatingStakeRules}
    (hfork : p.blockchain.config.isForkSlotDelegate p.ctx.slot)
    (hrules : p.actualRules v = .ok (isTrial, rules))
    (hp : ValidShares rules.addrs rules.profitShares)
    (hs : ValidShares rules.addrs rules.stakeShares) (hA : op.amount = some A)
    (hB : op.balance = some B) (hA0 : 0 ≤ A) :
    ∃ ret s', p.applyDelegatingStakeRules s op v = .ok (ret, s') ∧
      (∀ a ∉ rules.addrs, s'.getBalance a = s.getBalance a) ∧ credited rules.addrs s s' =
        (splitAmount p.blockchain.config.effectiveBalanceWei B A).1 +
          (splitAmount p.blockchain.config.effectiveBalanceWei B A).2 -
        ((splitAmount p.blockchain.config.effectiveBalanceWei B A).1 % 100 +
          (splitAmount p.blockchain.config.effectiveBalanceWei B A).2 % 100) := by
  obtain ⟨mp, hmp, hlp⟩ := shareMap_spec hp
  obtain ⟨ms, hms, hls⟩ := shareMap_spec hs
  obtain ⟨h₁, h₂⟩ := splitAmount_nonneg (E := p.blockchain.config.effectiveBalanceWei) (B := B) hA0
  generalize hsplit : splitAmount p.blockchain.config.effectiveBalanceWei B A = q at h₁ h₂ ⊢
  obtain ⟨es, hes⟩ : ∃ es, es = shareEntries .profitShare isTrial q.1 p.order.profit mp ++
    shareEntries .stakeShare isTrial q.2 p.order.stake ms := ⟨_, rfl⟩
  have hentries : p.payoutEntries isTrial rules B A = .ok es := by
    simp [payoutEntries, profitShare, stakeShare, hmp, hms, hsplit, hes]
  have hmem : ∀ e ∈ es, e.address ∈ rules.addrs := by
    intro e he
    rw [hes] at he
    rcases mem_append.1 he with he | he
    · exact address_mem_of_shareEntries hlp he
    · exact address_mem_of_shareEntries hls he
  refine ⟨op.creator.bytes, ((payShares s es).addLog (p.updateBalanceLog op A none)).addLog
    (p.delegatingStakeLog es), ?_, fun a ha => ?_, ?_⟩
  · simp only [applyDelegatingStakeRules, failIf_of_not (not_not.2 hfork), hrules, hA, hB, orPanic_some,
      ok_bind, hentries, pure_eq_ok]
  · rw [StateDB.getBalance_addLog, StateDB.getBalance_addLog]
    exact getBalance_payShares_of_notMem fun e he h => ha (h ▸ hmem e he)
  · have hlog : credited rules.addrs s (((payShares s es).addLog (p.updateBalanceLog op A none)).addLog
        (p.delegatingStakeLog es)) = credited rules.addrs s (payShares s es) := rfl
    rw [hlog, credited_payShares hp.nodup hmem, hes, map_append, sum_append,
      sum_shareEntries hp hlp _ _ h₁, sum_shareEntries hs hls _ _ h₂]
    ring

open Processor in
/-- A delegated payout stays within the withdrawn amount, and above it up to rounding,
    exactly when the reported balance is at most the effective balance, or exceeds it by the
    amount itself up to rounding. -/
theorem credited_within_amount_iff (p : Processor) (s : StateDB) (op : SyncOp) (v : Validator)
    (isTrial : Bool) (rules : DelegatingStakeRules) (A B : ℤ)
    (hfork : p.blockchain.config.isForkSlotDelegate p.ctx.slot)
    (hrules : p.actualRules v = .ok (isTrial, rules))
    (hp : ValidShares rules.addrs rules.profitShares)
    (hs : ValidShares rules.addrs rules.stakeShares)
    (hA : op.amount = some A) (hB : op.balance = some B) (hA0 : 0 ≤ A) :
    ∃ ret s', p.applyDelegatingStakeRules s op v = .ok (ret, s') ∧
      (∀ a ∉ rules.addrs, s'.getBalance a = s.getBalance a) ∧
      let E := p.blockchain.config.effectiveBalanceWei
      let lost := (splitAmount E B A).1 % 100 + (splitAmount E B A).2 % 100
      (credited rules.addrs s s' ≤ A ∧ A - lost ≤ credited rules.addrs s s' ↔
        B ≤ E ∨ 100 * ((B - E) / 100) ≤ A ∧ A ≤ B - E) := by
  obtain ⟨ret, s', hrun, hout, hcr⟩ :=
    applyDelegatingStakeRules_pays p s op v hfork hrules hp hs hA hB hA0
  refine ⟨ret, s', hrun, hout, ?_⟩
  simp only
  rw [hcr]
  rcases splitAmount_eq (E := p.blockchain.config.effectiveBalanceWei) (B := B) hA0 with
    ⟨hle, hsum⟩ | ⟨hlt, hsplit⟩
  · have hmod := Int.emod_nonneg (splitAmount p.blockchain.config.effectiveBalanceWei B A).1
      (show (100 : ℤ) ≠ 0 by decide)
    have hmod' := Int.emod_nonneg (splitAmount p.blockchain.config.effectiveBalanceWei B A).2
      (show (100 : ℤ) ≠ 0 by decide)
    constructor
    · exact fun _ => .inl hle
    · intro _; constructor <;> omega
  · rw [hsplit]
    simp only
    omega

/-! ## A payout above the amount -/

/-- Two participants, of whom the first has 60 percent. -/
def sharedRules : DelegatingStakeRules where
  addrs := [1, 2]
  profitShares := [60, 40]
  stakeShares := [60, 40]
  exitBits := [0b101]
  withdrawalBits := [0b101]

/-- A validator with delegated stake that is not activated yet. -/
def sharedValidator : Validator :=
  { newValidator 7 9 (some 9) with delegatingStake := some ⟨sharedRules, 1000, sharedRules⟩ }

/-- The coordinator withdraws 1 wat and reports a remaining balance of `balance` wat. -/
def payoutOp (balance : ℤ) : SyncOp where
  version := ver1
  opType := .updateBalance
  initTxHash := 5
  procEpoch := 0
  index := 0
  creator := 9
  amountField := some (1 * bigWat)
  withdrawalAddress := some 9
  balance := some (balance * bigWat)

theorem sharedRules_valid (shares : List UInt8) (h : shares = [60, 40]) :
    ValidShares sharedRules.addrs shares := by
  subst h; exact ⟨by decide, rfl, by decide⟩

/-- With 3300 wat reported, a withdrawal of 1 wat pays 100 wat. -/
theorem credited_exceeds_amount :
    ∃ ret s', Processor.devnet.applyDelegatingStakeRules .empty (payoutOp 3300) sharedValidator =
        .ok (ret, s') ∧
      (payoutOp 3300).amount = some (1 * bigWat) ∧
      credited sharedRules.addrs .empty s' = 100 * bigWat := by
  obtain ⟨ret, s', hrun, -, hcr⟩ := applyDelegatingStakeRules_pays Processor.devnet .empty
    (payoutOp 3300) sharedValidator rfl rfl (sharedRules_valid _ rfl) (sharedRules_valid _ rfl)
    rfl rfl (by decide)
  exact ⟨ret, s', hrun, rfl, hcr⟩

/-- With 3199 wat reported, the payments are those of the withdrawn amount. -/
theorem credited_within_amount_below :
    ∃ ret s', Processor.devnet.applyDelegatingStakeRules .empty (payoutOp 3199) sharedValidator =
        .ok (ret, s') ∧ credited sharedRules.addrs .empty s' ≤ 1 * bigWat := by
  obtain ⟨ret, s', hrun, -, hiff⟩ := credited_within_amount_iff Processor.devnet .empty
    (payoutOp 3199) sharedValidator true sharedRules (1 * bigWat) (3199 * bigWat) rfl rfl
    (sharedRules_valid _ rfl) (sharedRules_valid _ rfl) rfl rfl (by decide)
  exact ⟨ret, s', hrun, (hiff.2 (.inl (by decide))).1⟩

end Gwat
