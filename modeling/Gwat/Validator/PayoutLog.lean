/-
  The log of a delegated payout on different nodes (`applyDelegatingStakeRules`,
  `PackDelegatingStakeLogData`).
-/
import Gwat.Lib.Ties
import Gwat.Validator.Payout

namespace Gwat

open GoLib DelegatingStakeRules List

namespace Processor

/-! ## The payout of one call -/

/-- The logs after a payout whose maps are iterated and whose log is sorted as `o` says. -/
def delegatingLogs (p : Processor) (o : PayoutOrder) (s : StateDB) (op : SyncOp) (v : Validator) :
    Except ValError (List Log) :=
  (fun r => r.2.logs) <$> { p with order := o }.applyDelegatingStakeRules s op v

/-- What a payout reads before it ranges over the shares. -/
structure PayoutData where
  isTrial : Bool
  balance : ℤ
  amount : ℤ
  profitShare : GoMap Address UInt8
  stakeShare : GoMap Address UInt8

/-- The payout goes ahead with these data. -/
structure PaysOut (p : Processor) (op : SyncOp) (v : Validator) (d : PayoutData) : Prop where
  fork : p.blockchain.config.isForkSlotDelegate p.ctx.slot
  rules : ∃ rules, p.actualRules v = .ok (d.isTrial, rules) ∧
    rules.profitShare = some d.profitShare ∧ rules.stakeShare = some d.stakeShare
  balance : op.balance = some d.balance
  amount : op.amount = some d.amount

/-- A payout that takes from the profit above the effective balance and from the stake below,
    under rules that give an address a share of both. -/
structure TiedPayout (p : Processor) (op : SyncOp) (v : Validator) (d : PayoutData) : Prop
    extends p.PaysOut op v d where
  below : d.balance < p.blockchain.config.effectiveBalanceWei
  above : p.blockchain.config.effectiveBalanceWei < d.balance + d.amount
  shared : ∃ a, a ∈ d.profitShare ∧ a ∈ d.stakeShare

section
variable {p : Processor} {s : StateDB} {op : SyncOp} {v : Validator} {d : PayoutData}
  {o o' : PayoutOrder}

/-- The entries of the log before they are sorted. -/
def logEntries (p : Processor) (o : PayoutOrder) (d : PayoutData) : List ShareRuleApplying :=
  let q := splitAmount p.blockchain.config.effectiveBalanceWei d.balance d.amount
  shareEntries .profitShare d.isTrial q.1 o.profit d.profitShare ++
    shareEntries .stakeShare d.isTrial q.2 o.stake d.stakeShare

theorem logs_payShares (entries : List ShareRuleApplying) (s : StateDB) :
    (payShares s entries).logs = s.logs := by
  induction entries generalizing s with
  | nil => rfl
  | cons e entries ih => exact ih (s.addBalance e.address e.amount)

theorem PaysOut.delegatingLogs_eq (h : p.PaysOut op v d) : p.delegatingLogs o s op v =
    .ok (s.logs ++ [p.updateBalanceLog op d.amount none] ++
      [{ p with order := o }.delegatingStakeLog (p.logEntries o d)]) := by
  obtain ⟨rules, hrules, hprofit, hstake⟩ := h.rules
  have hrules' : { p with order := o }.actualRules v = .ok (d.isTrial, rules) := hrules
  have hentries : { p with order := o }.payoutEntries d.isTrial rules d.balance d.amount =
      .ok (p.logEntries o d) := by
    simp only [payoutEntries, hprofit, hstake, orPanic_some, ok_bind]
    rfl
  simp only [delegatingLogs, applyDelegatingStakeRules, failIf_of_not (not_not.2 h.fork), hrules',
    h.balance, h.amount, orPanic_some, ok_bind, hentries, StateDB.addLog]
  rw [logs_payShares]
  rfl

/-- A payout that does not go ahead fails in the same way on every node. -/
theorem exists_delegatingLogs_error (h : ¬ ∃ d, p.PaysOut op v d) :
    ∃ e, ∀ o, p.delegatingLogs o s op v = .error e := by
  have hrules' : ∀ o, { p with order := o }.actualRules v = p.actualRules v := fun _ => rfl
  simp only [delegatingLogs, applyDelegatingStakeRules, payoutEntries, hrules']
  by_cases hfork : p.blockchain.config.isForkSlotDelegate p.ctx.slot
  swap
  · exact ⟨_, fun o => by rw [failIf_of hfork]; rfl⟩
  simp only [failIf_of_not (not_not.2 hfork), ok_bind]
  cases hrules : p.actualRules v with
  | error e => exact ⟨e, fun o => rfl⟩
  | ok r =>
    obtain ⟨isTrial, rules⟩ := r
    cases hbalance : op.balance with
    | none => exact ⟨_, fun o => rfl⟩
    | some balance =>
      cases hamount : op.amount with
      | none => exact ⟨_, fun o => rfl⟩
      | some amount =>
        cases hprofit : rules.profitShare with
        | none => exact ⟨.panic, fun o => by simp only [ok_bind, orPanic_some, hprofit]; rfl⟩
        | some profitShare =>
          cases hstake : rules.stakeShare with
          | none =>
            exact ⟨.panic, fun o => by simp only [ok_bind, orPanic_some, hprofit, hstake]; rfl⟩
          | some stakeShare =>
            exact absurd ⟨⟨isTrial, balance, amount, profitShare, stakeShare⟩, hfork,
              ⟨rules, hrules, hprofit, hstake⟩, hbalance, hamount⟩ h

/-! ## The entries of the log -/

section
variable {rt : RuleType} {tr : Bool} {opAmt : ℤ} {share : GoMap Address UInt8}

theorem shareEntries_order_perm (o o' : Shuffle Address) :
    (shareEntries rt tr opAmt o share).Perm (shareEntries rt tr opAmt o' share) := by
  rw [shareEntries, shareEntries]
  split_ifs with hpos
  · exact ((o.perm _).trans (o'.perm _).symm).filterMap _
  · exact .refl _

theorem map_address_shareEntries (o : Shuffle Address) :
    (shareEntries rt tr opAmt o share).map (·.address) =
      if 0 < opAmt then o.order share.keys else [] := by
  rw [shareEntries]
  split_ifs with hpos
  · rw [map_filterMap]
    calc (o.order share.keys).filterMap _ = (o.order share.keys).filterMap some := by
          refine filterMap_congr fun a ha => ?_
          obtain ⟨v, hv⟩ := Option.isSome_iff_exists.1
            (AList.lookup_isSome.2 (AList.mem_keys.2 (Shuffle.mem_order.1 ha)))
          rw [hv]
          rfl
      _ = o.order share.keys := filterMap_some
  · rfl

theorem ruleType_of_mem_shareEntries {o : Shuffle Address} {e : ShareRuleApplying}
    (he : e ∈ shareEntries rt tr opAmt o share) : e.ruleType = rt := by
  rw [shareEntries] at he
  split_ifs at he
  · obtain ⟨a, -, ha⟩ := mem_filterMap.1 he
    obtain ⟨v, -, rfl⟩ := Option.map_eq_some_iff.1 ha
    rfl
  · cases he

theorem nodup_map_address_shareEntries (o : Shuffle Address) :
    ((shareEntries rt tr opAmt o share).map (·.address)).Nodup := by
  rw [map_address_shareEntries]
  split_ifs
  · exact Shuffle.nodup_order (AList.keys_nodup share)
  · exact nodup_nil

end

/-- Both parts are paid where the withdrawal takes the balance from above the effective balance
    to below it. -/
theorem splitAmount_pos {eff balance amount : ℤ} :
    0 < (splitAmount eff balance amount).1 ∧ 0 < (splitAmount eff balance amount).2 ↔
      balance < eff ∧ eff < balance + amount := by
  rw [splitAmount]
  split_ifs <;> dsimp only <;> omega

theorem logEntries_perm (o o' : PayoutOrder) : (p.logEntries o d).Perm (p.logEntries o' d) :=
  (shareEntries_order_perm _ _).append (shareEntries_order_perm _ _)

theorem nodup_logEntries : (p.logEntries o d).Nodup := by
  refine nodup_append.2 ⟨(nodup_map_address_shareEntries _).of_map,
    (nodup_map_address_shareEntries _).of_map, fun e he e' he' heq => ?_⟩
  have hrule := ruleType_of_mem_shareEntries he
  rw [heq, ruleType_of_mem_shareEntries he'] at hrule
  cases hrule

/-- Without a tie every address has one entry. -/
theorem nodup_address_logEntries (hpays : p.PaysOut op v d) (h : ¬ p.TiedPayout op v d) :
    ((p.logEntries o d).map (·.address)).Nodup := by
  rw [logEntries, map_append]
  refine nodup_append.2 ⟨nodup_map_address_shareEntries _, nodup_map_address_shareEntries _,
    fun a ha a' ha' heq => h ?_⟩
  subst heq
  rw [map_address_shareEntries] at ha ha'
  split_ifs at ha ha' with hprofit hstake
  · obtain ⟨hbelow, habove⟩ := splitAmount_pos.1 ⟨hprofit, hstake⟩
    exact ⟨hpays, hbelow, habove, a, AList.mem_keys.2 (Shuffle.mem_order.1 ha),
      AList.mem_keys.2 (Shuffle.mem_order.1 ha')⟩
  all_goals first | cases ha | cases ha'

theorem TiedPayout.exists_tie (h : p.TiedPayout op v d) (o : PayoutOrder) :
    ∃ e ∈ p.logEntries o d, ∃ e' ∈ p.logEntries o d, e ≠ e' ∧ e.address = e'.address := by
  obtain ⟨hprofit, hstake⟩ := splitAmount_pos.2 ⟨h.below, h.above⟩
  obtain ⟨a, ha, ha'⟩ := h.shared
  have hmem : ∀ {rt : RuleType} {amt : ℤ} {share : GoMap Address UInt8} (so : Shuffle Address),
      0 < amt → a ∈ share → ∃ e ∈ shareEntries rt d.isTrial amt so share, e.address = a := by
    intro rt amt share so hpos hin
    refine mem_map.1 (?_ : a ∈ (shareEntries rt d.isTrial amt so share).map (·.address))
    rw [map_address_shareEntries, if_pos hpos]
    exact Shuffle.mem_order.2 (AList.mem_keys.1 hin)
  obtain ⟨e, he, hea⟩ := @hmem .profitShare _ _ o.profit hprofit ha
  obtain ⟨e', he', hea'⟩ := @hmem .stakeShare _ _ o.stake hstake ha'
  refine ⟨e, mem_append_left _ he, e', mem_append_right _ he', fun heq => ?_, hea.trans hea'.symm⟩
  have hrule := ruleType_of_mem_shareEntries he
  rw [heq, ruleType_of_mem_shareEntries he'] at hrule
  cases hrule

/-! ## The log on different nodes -/

theorem PaysOut.delegatingLogs_eq_iff (h : p.PaysOut op v d) :
    p.delegatingLogs o s op v = p.delegatingLogs o' s op v ↔
      o.sortLog.sort (p.logEntries o d) = o'.sortLog.sort (p.logEntries o' d) := by
  have htopics : sortAsc (((p.logEntries o d).map fun e => e.address.hash).reverse.dedup.reverse) =
      sortAsc (((p.logEntries o' d).map fun e => e.address.hash).reverse.dedup.reverse) := by
    refine sortAsc_eq_of_perm ((reverse_perm _).trans (.trans ?_ (reverse_perm _).symm))
    refine List.Perm.dedup ((reverse_perm _).trans (.trans ?_ (reverse_perm _).symm))
    exact (logEntries_perm o o').map _
  rw [h.delegatingLogs_eq, h.delegatingLogs_eq]
  simp only [Except.ok.injEq, append_cancel_left_eq, List.cons.injEq, and_true,
    delegatingStakeLog, htopics, Log.mk.injEq, true_and, LogData.delegatingStake.injEq]
  exact and_iff_right rfl

theorem delegatingLogs_eq_of_not_tied (h : ¬ ∃ d, p.TiedPayout op v d) :
    p.delegatingLogs o s op v = p.delegatingLogs o' s op v := by
  by_cases hpays : ∃ d, p.PaysOut op v d
  · obtain ⟨d, hd⟩ := hpays
    refine hd.delegatingLogs_eq_iff.2 (sort_eq_sort _ _ (logEntries_perm o o') ?_)
    exact nodup_address_logEntries hd fun ht => h ⟨d, ht⟩
  · obtain ⟨e, he⟩ := exists_delegatingLogs_error (s := s) hpays
    rw [he, he]

theorem order_eq_of_length_le {κ : Type} {l : List κ} (h : l.length ≤ 1) (o : Shuffle κ) :
    o.order l = l := by
  match l, h with
  | [], _ => exact (o.perm []).eq_nil
  | [a], _ => exact perm_singleton.1 (o.perm [a])

theorem TiedPayout.exists_entries_ne (h : p.TiedPayout op v d)
    (hlen : 1 < d.profitShare.keys.length ∨ 1 < d.stakeShare.keys.length)
    (sort : SliceSort fun a b : ShareRuleApplying => decide (a.address < b.address)) :
    ∃ profit stake,
      p.logEntries ⟨profit, stake, sort⟩ d ≠ p.logEntries ⟨.stored, .stored, sort⟩ d := by
  obtain ⟨hprofit, hstake⟩ := splitAmount_pos.2 ⟨h.below, h.above⟩
  have hreverse : ∀ {rt : RuleType} {amt : ℤ} {share : GoMap Address UInt8}, 0 < amt →
      1 < share.keys.length → shareEntries rt d.isTrial amt .reversed share ≠
        shareEntries rt d.isTrial amt .stored share := by
    intro rt amt share hpos hkeys heq
    have hmap := congrArg (List.map (·.address)) heq
    rw [map_address_shareEntries, map_address_shareEntries, if_pos hpos, if_pos hpos] at hmap
    exact reverse_ne_self (AList.keys_nodup share) hkeys hmap
  rcases hlen with hlen | hlen
  · exact ⟨.reversed, .stored, fun heq => hreverse hprofit hlen (append_cancel_right heq)⟩
  · exact ⟨.stored, .reversed, fun heq => hreverse hstake hlen (append_cancel_left heq)⟩

end

/-- The log of a delegated payout is the same on every node, whatever the orders of the maps and
    of ties, exactly if the payout is not tied.  If ties have one order on all nodes, which may
    depend on the input of the sort, it is the same for all orders of the maps exactly if the
    payout is not tied or neither map has two entries. -/
theorem delegatingLogs_same_iff (p : Processor) (s : StateDB) (op : SyncOp) (v : Validator) :
    ((∀ o o' : PayoutOrder, p.delegatingLogs o s op v = p.delegatingLogs o' s op v) ↔
      ¬ ∃ d, p.TiedPayout op v d) ∧
    ((∀ (profit stake profit' stake' : Shuffle Address)
        (sort : SliceSort fun a b : ShareRuleApplying => decide (a.address < b.address)),
        p.delegatingLogs ⟨profit, stake, sort⟩ s op v =
          p.delegatingLogs ⟨profit', stake', sort⟩ s op v) ↔
      ¬ ∃ d, p.TiedPayout op v d ∧
        (1 < d.profitShare.keys.length ∨ 1 < d.stakeShare.keys.length)) := by
  refine ⟨⟨?_, fun h o o' => delegatingLogs_eq_of_not_tied h⟩, ?_, fun h => ?_⟩
  · rintro hsame ⟨d, hd⟩
    obtain ⟨e, he, e', he', hne, htie⟩ := hd.exists_tie default
    obtain ⟨sort, sort', hsort⟩ := exists_sort_ne (·.address) nodup_logEntries he he' hne htie
    exact hsort (hd.delegatingLogs_eq_iff.1 (hsame ⟨.stored, .stored, sort⟩
      ⟨.stored, .stored, sort'⟩))
  · rintro hsame ⟨d, hd, hlen⟩
    obtain ⟨profit, stake, hentries⟩ := hd.exists_entries_ne hlen (default : PayoutOrder).sortLog
    obtain ⟨e, he, e', he', hne, htie⟩ :=
      hd.exists_tie ⟨profit, stake, (default : PayoutOrder).sortLog⟩
    obtain ⟨sort, hsort⟩ := exists_sort_ne_of_ne (·.address) nodup_logEntries he he' hne htie
      hentries
    exact hsort (hd.delegatingLogs_eq_iff.1 (hsame profit stake .stored .stored sort))
  · intro profit stake profit' stake' sort
    by_cases htied : ∃ d, p.TiedPayout op v d
    · obtain ⟨d, hd⟩ := htied
      have hlen : d.profitShare.keys.length ≤ 1 ∧ d.stakeShare.keys.length ≤ 1 := by
        by_contra hcon
        exact h ⟨d, hd, by omega⟩
      refine hd.delegatingLogs_eq_iff.2 (congrArg sort.sort ?_)
      simp only [logEntries, shareEntries, order_eq_of_length_le hlen.1,
        order_eq_of_length_le hlen.2]
    · exact delegatingLogs_eq_of_not_tied htied

/-! ## A log with a tie -/

/-- Two wat are withdrawn and 3199 are left: one wat is profit and one is stake. -/
def tiedOp : SyncOp := { payoutOp 3199 with amountField := some (2 * bigWat) }

/-- The entries of the first address. -/
def tiedEntry (ruleType : RuleType) : ShareRuleApplying := ⟨1, ruleType, true, 60 * (bigWat / 100)⟩

/-- A sort that returns the entries of the first address the other way round when one of them
    comes last. -/
def tieSort : SliceSort fun a b : ShareRuleApplying => decide (a.address < b.address) :=
  swapTies (show (tiedEntry .profitShare).address = (tiedEntry .stakeShare).address from rfl)
    fun l => l.getLast?.any (·.address = 1)

theorem delegatingLogs_differ :
    Processor.devnet.delegatingLogs ⟨.stored, .stored, tieSort⟩ .empty tiedOp sharedValidator ≠
      Processor.devnet.delegatingLogs ⟨.stored, .reversed, tieSort⟩ .empty tiedOp
        sharedValidator := by
  decide

end Processor

end Gwat
