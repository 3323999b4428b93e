/-
  A coordinated withdrawal is paid once: when a block brings at most one sync
  transaction per operation, and none that has already succeeded.
-/
import Gwat.Core.SyncRun
import Gwat.Validator.Payout

namespace Gwat

open GoLib List Network Function Blockchain Option

/-! ## The guard of a paid withdrawal -/

section

variable (net : Network)

/-- The initial transaction of the operation that a sync transaction carries. -/
def Network.syncKey (config : ChainConfig) (tx : Hash) : Option Hash :=
  (net.syncOp config tx).map (·.initTxHash)

/-- The operation of `key` was carried out by the saved transaction `tx`. -/
structure GuardedBy (bc : Blockchain) (key tx : Hash) : Prop where
  saved : ∃ vs, bc.getValidatorSyncData key = some vs ∧ vs.txHash = some tx
  receipt : (bc.getTransactionReceipt tx).1 = some .successful
  syncKey : net.syncKey bc.config tx = some key

/-- The operation of `key` was carried out. -/
def Guarded (bc : Blockchain) (key : Hash) : Prop := ∃ tx, GuardedBy net bc key tx

end

variable {net : Network} {bc : Blockchain} {key tx : Hash} {op : SyncOp} {slot : UInt64}
variable {config : ChainConfig} {other block : Hash} {env : Env} {msg : Message} {db : StateDB}
  {receipt : Option ReceiptStatus} {status : ReceiptStatus} {c : Commit} {b : ExecBlock}
  {paid : List Hash}

theorem Network.syncKey_of_syncOp (h : net.syncOp config tx = some op) :
    net.syncKey config tx = some op.initTxHash := by
  simp [Network.syncKey, h]

theorem Network.syncOp_eq_some (h : net.syncOp config tx = some op) :
    net.opCodec.decodeBytes (net.msg tx).data = .ok (.sync op) := by
  unfold syncOp at h
  grind

/-- The guard refuses every other transaction with the operation. -/
theorem validateValidatorSyncOp_guarded (hg : GuardedBy net bc op.initTxHash tx)
    (hne : tx ≠ other) : validateValidatorSyncOp net.opCodec bc op slot other ≠ .ok () := by
  intro h
  obtain ⟨vs, hvs, htx⟩ := hg.saved
  unfold validateValidatorSyncOp at h
  simp only [hvs, bind_eq_ok, failIf_eq_ok] at h
  obtain ⟨-, -, -, -, -, hfree, -⟩ := h
  exact hfree ⟨tx, htx, hne, .inr hg.receipt⟩

theorem validate_of_success {gp : UInt64} {r : ExecutionResult} {st : StateTransition}
    (hrun : applyMessage env msg db gp = (.ok r, st)) (herr : r.err = none)
    (htype : chargedType env msg (newStateTransition db gp) = .validatorSync)
    (hop : env.validators.opCodec.decodeBytes msg.data = .ok (.sync op)) :
    validateValidatorSyncOp env.validators.opCodec env.validators.blockchain op
      env.validators.ctx.slot msg.txHash = .ok () := by
  obtain ⟨o, st₁, hex, hset⟩ := applyMessage_eq_ok hrun
  rw [settle_executeMsg hex, Prod.mk.injEq, Except.ok.injEq] at hset
  have hoerr : o.err = none := by rw [← herr, ← hset.1]
  obtain ⟨-, left, -, hexec, -⟩ := executeMsg_eq_ok hex
  rw [htype] at hexec
  change validatorCall env msg _ left = .ok o at hexec
  unfold validatorCall Processor.call at hexec
  simp only [hop] at hexec
  cases hh : env.validators.handle _ msg.sender msg.recipient msg.value msg.txHash (.sync op) with
  | error e =>
    rw [hh] at hexec
    -- a failed handler shows in the outcome
    cases e <;> simp only [Except.ok.injEq, reduceCtorEq] at hexec <;> subst hexec <;> cases hoerr
  | ok q =>
    obtain ⟨u, hval, -⟩ := bind_eq_ok.1 hh
    exact hval

/-! ## Inserting a block -/

theorem GuardedBy.saveAt_ne (hg : GuardedBy net bc key tx) (hne : other ≠ key)
    (vs : ValidatorSync) : GuardedBy net (bc.saveAt other vs) key tx := by
  obtain ⟨saved, hs, htx⟩ := hg.saved
  refine ⟨⟨saved, ?_, htx⟩, hg.receipt, hg.syncKey⟩
  show update _ _ _ _ = _
  rw [update_of_ne hne.symm, hs]

theorem guardedBy_saved (hop : net.syncOp bc.config tx = some op)
    (hr : (bc.getTransactionReceipt tx).1 = some .successful) :
    GuardedBy net (bc.setValidatorSyncData (op.saved tx)) op.initTxHash tx :=
  ⟨⟨op.saved tx, update_self .., rfl⟩, hr, syncKey_of_syncOp hop⟩

theorem GuardedBy.handleValidatorSyncTx (hg : GuardedBy net bc key tx) (slot : UInt64)
    (other : Hash) : GuardedBy net (handleValidatorSyncTx net slot bc other) key tx := by
  unfold Gwat.handleValidatorSyncTx
  split
  · exact hg
  · next op hop =>
    split
    · exact hg
    · next hval =>
      by_cases hkey : op.initTxHash = key
      · -- an admitted transaction with the same operation is the saved one
        subst hkey
        have hsame : tx = other := by
          by_contra hne
          exact validateValidatorSyncOp_guarded hg hne hval
        subst hsame
        exact guardedBy_saved hop hg.receipt
      · exact hg.saveAt_ne hkey _

theorem Guarded.insertBlock (hg : Guarded net bc key) (b : ExecBlock) :
    Guarded net (bc.insertBlock net b) key := by
  obtain ⟨tx, hg⟩ := hg
  refine ⟨tx, ?_⟩
  refine List.foldlRecOn b.txs _ (motive := fun bc => GuardedBy net bc key tx)
    ⟨hg.saved, hg.receipt, hg.syncKey⟩ ?_
  intro bc hg other _
  exact hg.handleValidatorSyncTx b.slot other

/-! ## Executing a block -/

/-- What a block may bring: at most one sync transaction per operation, and none that has
    already succeeded. -/
def ExecBlock.Clean (net : Network) (b : ExecBlock) (bc : Blockchain) : Prop :=
  (b.txs.filterMap (net.syncKey bc.config)).Nodup ∧
    ∀ tx ∈ b.txs, (net.syncKey bc.config tx).isSome →
      (bc.getTransactionReceipt tx).1 ≠ some .successful

theorem GuardedBy.restoreValidatorSyncOp (hg : GuardedBy net bc key tx) (hne : tx ≠ other) :
    GuardedBy net (bc.restoreValidatorSyncOp slot other op) key tx := by
  unfold Blockchain.restoreValidatorSyncOp
  split
  · exact hg
  · split
    · exact hg
    · next saved hsaved =>
      split_ifs with hdone
      · exact hg
      · refine hg.saveAt_ne (fun hkey => hdone ?_) _
        obtain ⟨vs, hvs, htx⟩ := hg.saved
        rw [hkey, hvs, Option.some.injEq] at hsaved
        exact ⟨tx, hsaved ▸ htx, hne, hg.receipt⟩

theorem GuardedBy.located (hg : GuardedBy net bc key tx) (hne : tx ≠ other) :
    GuardedBy net (bc.located other msg receipt block) key tx := by
  refine ⟨hg.saved, ?_, hg.syncKey⟩
  show (update bc.getTransactionReceipt other _ tx).1 = _
  rw [update_of_ne hne, hg.receipt]

theorem GuardedBy.writeTxLookupEntry (hg : GuardedBy net bc key tx) (hne : tx ≠ other) :
    GuardedBy net (bc.writeTxLookupEntry other msg block status) key tx := by
  unfold Blockchain.writeTxLookupEntry
  split_ifs
  · exact hg.located hne
  · exact hg

theorem GuardedBy.storeReceipt (hg : GuardedBy net bc key tx) (hne : tx ≠ other) :
    GuardedBy net (bc.storeReceipt other msg block status) key tx := by
  unfold Blockchain.storeReceipt
  simp only
  split_ifs
  · exact hg.located hne
  · exact hg

@[simp] theorem config_restoreValidatorSyncOp :
    (bc.restoreValidatorSyncOp slot tx op).config = bc.config := by
  unfold restoreValidatorSyncOp
  repeat' split
  all_goals rfl

@[simp] theorem config_writeTxLookupEntry :
    (bc.writeTxLookupEntry tx msg block status).config = bc.config := by
  unfold writeTxLookupEntry
  split <;> rfl

@[simp] theorem config_storeReceipt : (bc.storeReceipt tx msg block status).config = bc.config := by
  unfold storeReceipt
  simp only
  split <;> rfl

theorem mem_paidBy (h : key ∈ paidBy net env tx c) :
    chargedType env (net.msg tx) (newStateTransition c.db c.gp) = .validatorSync ∧
      ∃ op, net.syncOp env.validators.blockchain.config tx = some op ∧ op.initTxHash = key := by
  unfold paidBy at h
  split_ifs at h with htype
  · obtain ⟨op, hop, h⟩ := Option.bind_eq_some_iff.1 h
    split_ifs at h
    exact ⟨htype, op, hop, Option.some.inj h⟩
  · cases h

/-- What the loop of `CommitBlockTransactions` keeps, after the transactions `done`: the
    guards of the chain `bc` on which the block started, and that each paid withdrawal was
    not guarded then and has a successful transaction now. -/
structure CommitInv (net : Network) (bc : Blockchain) (done : List Hash) (c : Commit) : Prop where
  config : c.bc.config = bc.config
  kept : ∀ {key tx}, GuardedBy net bc key tx → GuardedBy net c.bc key tx
  once : c.paid.Sublist (done.filterMap (net.syncKey bc.config))
  fresh : ∀ key ∈ c.paid, ¬ Guarded net bc key
  succeeded : ∀ key ∈ c.paid, ∃ tx, (tx, .successful) ∈ c.receipts ∧
    net.syncKey bc.config tx = some key
  txs : c.receipts.map Prod.fst = done

/-- What one transaction does: it keeps the guards of the others, and pays for a successful sync
    transaction whose operation is admitted. -/
theorem commitTransaction_paid {c' : Commit} (h : commitTransaction net env b c tx = some c') :
    (∃ status, c'.receipts = c.receipts ++ [(tx, status)] ∧ (c'.paid = c.paid ∨
      ∃ op, c'.paid = c.paid ++ [op.initTxHash] ∧ status = .successful ∧
        net.syncOp c.bc.config tx = some op ∧
        validateValidatorSyncOp net.opCodec c.bc op b.slot tx = .ok ())) ∧
      c'.bc.config = c.bc.config ∧
      ∀ {key t}, GuardedBy net c.bc key t → t ≠ tx → GuardedBy net c'.bc key t := by
  unfold Gwat.commitTransaction at h
  simp only at h
  split at h
  · cases h
  · next e st hrun =>
    obtain rfl := Option.some.inj h
    refine ⟨⟨_, rfl, .inl rfl⟩, ?_⟩
    split
    · split_ifs
      · exact ⟨by simp, fun hg hne => hg.restoreValidatorSyncOp hne⟩
      · exact ⟨rfl, fun hg _ => hg⟩
    · exact ⟨rfl, fun hg _ => hg⟩
  · next r st hrun =>
    obtain rfl := Option.some.inj h
    refine ⟨⟨_, rfl, ?_⟩, by simp, fun hg hne => hg.writeTxLookupEntry hne⟩
    by_cases herr : r.err = none
    · cases hpaid : paidBy net (env.ofBlock net b c.bc) tx c with
      | none => exact .inl (by simp)
      | some key =>
        obtain ⟨htype, op, hop, rfl⟩ := mem_paidBy hpaid
        have hval := validate_of_success hrun herr htype (syncOp_eq_some hop)
        rw [net.hash_msg] at hval
        exact .inr ⟨op, by simp [herr], by simp [herr], hop, hval⟩
    · exact .inl (by simp [herr])

theorem CommitInv.commitTransaction {done : List Hash} {c' : Commit} (hi : CommitInv net bc done c)
    (hclean : (net.syncKey bc.config tx).isSome →
      (bc.getTransactionReceipt tx).1 ≠ some .successful)
    (h : commitTransaction net env b c tx = some c') : CommitInv net bc (done ++ [tx]) c' := by
  -- the transaction of a guard is another one
  have hne : ∀ {key t}, GuardedBy net bc key t → t ≠ tx := by
    rintro key t hg rfl
    exact hclean (by simp [hg.syncKey]) hg.receipt
  obtain ⟨⟨status, hreceipts, hpaid⟩, hconfig, hkept⟩ := commitTransaction_paid h
  have hold : ∀ key ∈ c.paid, ∃ t, (t, .successful) ∈ c.receipts ++ [(tx, status)] ∧
      net.syncKey bc.config t = some key := fun key hk => by
    obtain ⟨t, ht, hkey⟩ := hi.succeeded key hk
    exact ⟨t, mem_append_left _ ht, hkey⟩
  refine ⟨hconfig.trans hi.config, fun hg => hkept (hi.kept hg) (hne hg), ?_, ?_, ?_, by
    simp [hreceipts, hi.txs]⟩ <;> rcases hpaid with hpaid | ⟨op, hpaid, rfl, hop, hval⟩ <;>
    rw [hpaid]
  · exact hi.once.trans ((sublist_append_left done [tx]).filterMap _)
  · rw [hi.config] at hop
    rw [filterMap_append]
    exact hi.once.append (by simp [syncKey_of_syncOp hop])
  · exact hi.fresh
  · refine forall_mem_append.2 ⟨hi.fresh, forall_mem_singleton.2 ?_⟩
    -- a guarded operation would have been refused
    rintro ⟨t, hg⟩
    exact validateValidatorSyncOp_guarded (hi.kept hg) (hne hg) hval
  · rwa [hreceipts]
  · rw [hi.config] at hop
    rw [hreceipts]
    exact forall_mem_append.2 ⟨hold, forall_mem_singleton.2 ⟨tx, by simp, syncKey_of_syncOp hop⟩⟩

theorem CommitInv.foldlM :
    ∀ (rest : List Hash) {done : List Hash} {c c' : Commit}, CommitInv net bc done c →
      (∀ tx ∈ rest, (net.syncKey bc.config tx).isSome →
        (bc.getTransactionReceipt tx).1 ≠ some .successful) →
      rest.foldlM (Gwat.commitTransaction net env b) c = some c' →
      CommitInv net bc (done ++ rest) c'
  | [], done, c, c', hi, _, h => by
    rw [foldlM_nil, Option.pure_def, Option.some.injEq] at h
    rwa [append_nil, ← h]
  | tx :: rest, done, c, c', hi, hclean, h => by
    obtain ⟨c₁, h₁, h⟩ := Option.bind_eq_some_iff.1 h
    have hi₁ := hi.commitTransaction (hclean tx (by simp)) h₁
    have := CommitInv.foldlM rest hi₁ (fun t ht => hclean t (by simp [ht])) h
    rwa [append_assoc, singleton_append] at this

/-! ## The receipts of a block -/

theorem receipt_located :
    ((bc.located tx msg receipt block).getTransactionReceipt tx).1 = receipt := by
  show (update bc.getTransactionReceipt tx (receipt, block) tx).1 = receipt
  rw [update_self]

theorem receipt_storeReceipt (h : (bc.getTransactionReceipt tx).1 = some .successful) :
    ((bc.storeReceipt other msg block status).getTransactionReceipt tx).1 = some .successful := by
  unfold storeReceipt
  simp only
  split_ifs with hw
  · by_cases heq : tx = other
    · subst heq
      -- a receipt that is stored over a successful one is successful
      rcases hw with hs | ⟨hnone, -⟩
      · rw [hs]; exact receipt_located
      · rw [h] at hnone; cases hnone
    · show (update bc.getTransactionReceipt other _ tx).1 = _
      rw [update_of_ne heq, h]
  · exact h

theorem receipt_storeReceipt_self :
    ((bc.storeReceipt tx msg block .successful).getTransactionReceipt tx).1 = some .successful := by
  unfold storeReceipt
  exact receipt_located

theorem receipt_storeReceipts (receipts : List (Hash × ReceiptStatus))
    (h : (bc.getTransactionReceipt tx).1 = some .successful ∨ (tx, .successful) ∈ receipts) :
    ((storeReceipts net block bc receipts).getTransactionReceipt tx).1 = some .successful := by
  induction receipts generalizing bc with
  | nil => exact h.resolve_right (by simp)
  | cons r rs ih =>
    refine ih ?_
    rcases h with h | h
    · exact .inl (receipt_storeReceipt h)
    · rcases mem_cons.1 h with rfl | h
      · exact .inl receipt_storeReceipt_self
      · exact .inr h

theorem config_storeReceipts (receipts : List (Hash × ReceiptStatus)) :
    (storeReceipts net block bc receipts).config = bc.config := by
  induction receipts generalizing bc with
  | nil => rfl
  | cons r rs ih => exact ih.trans config_storeReceipt

theorem GuardedBy.storeReceipts (receipts : List (Hash × ReceiptStatus))
    (hg : GuardedBy net bc key tx) (hne : tx ∉ receipts.map Prod.fst) :
    GuardedBy net (storeReceipts net block bc receipts) key tx := by
  induction receipts generalizing bc with
  | nil => exact hg
  | cons r rs ih =>
    rw [map_cons, mem_cons, not_or] at hne
    exact ih (hg.storeReceipt hne.1) hne.2

/-- The receipts that are handled are stored ones. -/
def Stored (bc : Blockchain) (receipts : List (Hash × ReceiptStatus)) : Prop :=
  ∀ tx, (tx, .successful) ∈ receipts → (bc.getTransactionReceipt tx).1 = some .successful

/-- The handling of stored receipts keeps the guards and guards the operations of the
    successful transactions. -/
theorem guarded_handleReceipts (receipts : List (Hash × ReceiptStatus)) (hs : Stored bc receipts)
    (h : Guarded net bc key ∨
      ∃ tx, (tx, .successful) ∈ receipts ∧ net.syncKey bc.config tx = some key) :
    Guarded net (receipts.foldl (handleValidatorSyncReceipt net) bc) key := by
  induction receipts generalizing bc with
  | nil => exact h.resolve_right (by simp)
  | cons r rs ih =>
    have hrs : Stored bc rs := fun t ht => hs t (mem_cons_of_mem _ ht)
    rw [foldl_cons]
    unfold handleValidatorSyncReceipt
    split
    · next hop =>
      refine ih hrs (h.imp_right ?_)
      rintro ⟨t, ht, hkey⟩
      rcases mem_cons.1 ht with rfl | ht
      · simp [Network.syncKey, hop] at hkey
      · exact ⟨t, ht, hkey⟩
    · next op hop =>
      split_ifs with hr
      · have hmem : (r.1, ReceiptStatus.successful) ∈ r :: rs := by rw [← hr]; simp
        have hnew := guardedBy_saved hop (hs r.1 hmem)
        refine ih hrs ?_
        by_cases hkey : op.initTxHash = key
        · exact .inl ⟨r.1, hkey ▸ hnew⟩
        · rcases h with ⟨t, hg⟩ | ⟨t, ht, hk⟩
          · exact .inl ⟨t, hg.saveAt_ne hkey _⟩
          · rcases mem_cons.1 ht with rfl | ht
            · rw [syncKey_of_syncOp hop, Option.some.injEq] at hk
              exact absurd hk hkey
            · exact .inr ⟨t, ht, hk⟩
      · refine ih hrs (h.imp_right ?_)
        rintro ⟨t, ht, hkey⟩
        rcases mem_cons.1 ht with rfl | ht
        · exact absurd rfl hr
        · exact ⟨t, ht, hkey⟩

/-- A clean block pays different withdrawals, none of which was paid before, and guards
    them all. -/
theorem guarded_commitBlockTransactions {bc' : Blockchain} {db' : StateDB} (hclean : b.Clean net bc)
    (h : commitBlockTransactions net env b bc db = some (bc', db', paid)) :
    paid.Nodup ∧ (∀ key ∈ paid, ¬ Guarded net bc key) ∧
      ∀ key, Guarded net bc key ∨ key ∈ paid → Guarded net bc' key := by
  obtain ⟨c, hc, hres⟩ := Option.bind_eq_some_iff.1 h
  obtain ⟨rfl, -, rfl⟩ := hres
  have hstart : CommitInv net bc [] ⟨bc, db, b.gasLimit, [], []⟩ :=
    ⟨rfl, id, .slnil, by simp, by simp, rfl⟩
  have hi := CommitInv.foldlM b.txs hstart hclean.2 hc
  refine ⟨hclean.1.sublist hi.once, hi.fresh, fun key hkey => guarded_handleReceipts _ ?_ ?_⟩
  · exact fun t ht => receipt_storeReceipts c.receipts (.inr ht)
  · rcases hkey with ⟨t, hg⟩ | hkey
    · refine .inl ⟨t, (hi.kept hg).storeReceipts _ ?_⟩
      rw [hi.txs]
      exact fun ht => hclean.2 t ht (by simp [hg.syncKey]) hg.receipt
    · obtain ⟨t, ht, hk⟩ := hi.succeeded key hkey
      exact .inr ⟨t, ht, by rw [config_storeReceipts, hi.config, hk]⟩

/-! ## Runs -/

/-- The events under which a withdrawal is paid once: the coordinator delivers an operation
    once, and an executed block is clean. -/
def PaysOnce (net : Network) (n : Node) : NodeEvent → Prop
  | .deliver vs => n.bc.getValidatorSyncData vs.initTxHash = none
  | .insert _ => True
  | .execute _ b => b.Clean net n.bc

/-- What a run keeps: no withdrawal was paid twice, and all of them are guarded. -/
structure PaidInv (net : Network) (n : Node) (paid : List Hash) : Prop where
  nodup : paid.Nodup
  guarded : ∀ key ∈ paid, Guarded net n.bc key

theorem Guarded.appendNotProcessed {vs : ValidatorSync} (hg : Guarded net bc key)
    (hnew : bc.getValidatorSyncData vs.initTxHash = none) :
    Guarded net (bc.appendNotProcessed vs) key := by
  obtain ⟨tx, hg⟩ := hg
  have hne : vs.initTxHash ≠ key := by
    rintro rfl
    obtain ⟨saved, hs, -⟩ := hg.saved
    rw [hnew] at hs; cases hs
  unfold Blockchain.appendNotProcessed
  rw [hnew]
  exact ⟨tx, hg.saveAt_ne hne vs⟩

theorem PaidInv.step {n n' : Node} {new : List Hash} {e : NodeEvent} (hi : PaidInv net n paid)
    (he : PaysOnce net n e) (h : n.step net e = some (n', new)) : PaidInv net n' (paid ++ new) := by
  cases e with
  | deliver vs =>
    cases h
    rw [append_nil]
    exact ⟨hi.nodup, fun key hk => (hi.guarded key hk).appendNotProcessed he⟩
  | insert b =>
    cases h
    rw [append_nil]
    exact ⟨hi.nodup, fun key hk => (hi.guarded key hk).insertBlock b⟩
  | execute env b =>
    obtain ⟨⟨_, _, _⟩, hc, hres⟩ := Option.bind_eq_some_iff.1 h
    cases hres
    obtain ⟨hnodup, hfresh, hguard⟩ := guarded_commitBlockTransactions he hc
    refine ⟨nodup_append.2 ⟨hi.nodup, hnodup, ?_⟩, fun key hk => hguard key ?_⟩
    · rintro key hk _ hnew rfl
      exact hfresh key hnew (hi.guarded key hk)
    · exact (mem_append.1 hk).imp_left (hi.guarded key)

/-- Along every run in which the coordinator delivers an operation once, and no executed
    block brings two sync transactions of one operation or one that has already succeeded,
    each withdrawal is paid at most once. -/
theorem paid_once (net : Network) (n₀ n : Node) (paid : List Hash)
    (h : Node.Run net (PaysOnce net) n₀ n paid) : paid.Nodup := by
  have hinv : PaidInv net n paid := by
    induction h with
    | start => exact ⟨nodup_nil, by simp⟩
    | step _ he hstep ih => exact ih.step he hstep
  exact hinv.nodup

/-! ## A withdrawal paid twice -/

/-- The validator of `sharedValidator`, activated in era 0, with the withdrawal requested
    by transaction 5. -/
def activeValidator : Validator :=
  { sharedValidator with activationEra := 0, version := ver1, withdrawalTx := some 5 }

/-- Transactions 1 and 2 of accounts 1 and 2 carry the operation of the coordinator that pays the
    withdrawal 5; transaction 3 carries the one for the withdrawal 6. -/
def twinNetwork : Network where
  opCodec := .binary
  msg h :=
    { idleMsg 0xFFFF
        (ValOp.data (.sync { payoutOp 3199 with initTxHash := if h = 3 then 6 else 5 })) 0 with
      sender := if h = 1 then 1 else 2
      nonce := if h = 1 then 5 else if h = 2 then 0 else 1
      txHash := h }
  hash_msg _ := rfl

/-- All forks are active. -/
def payoutConfig : ChainConfig := Processor.devnet.blockchain.config

/-- A node with the given record of validator 9, to which the coordinator has delivered the
    payouts of the withdrawals in the transactions 5 and 6. -/
def payoutNode (v : Validator) : Node where
  bc :=
    { empty payoutConfig [⟨0, 0, 99⟩] with
      getValidatorSyncData := fun h =>
        if h = 5 ∨ h = 6 then
          some { (payoutOp 3199).saved 0 with initTxHash := h, txHash := none }
        else none
      getTransaction := fun h =>
        if h = 5 ∨ h = 6 then some ⟨ValOp.data (.withdrawal ⟨9, 1 * bigWat⟩), 1⟩ else none
      getTransactionReceipt := fun h =>
        if h = 5 ∨ h = 6 then (some .successful, 7) else (none, 0) }
  db := idleDb.setCode 9 v.code

def twinNode : Node := payoutNode activeValidator

/-- The node after the insertion of a block. -/
def twinInserted (n : Node) (b : ExecBlock) : Node :=
  { n with bc := n.bc.insertBlock twinNetwork b }

/-- A block is inserted and executed. -/
theorem Node.Run.addBlock {P : Node → NodeEvent → Prop} {n₀ n n' : Node} {new : List Hash} (b : ExecBlock)
    (h : Node.Run twinNetwork P n₀ n paid) (hins : P n (.insert b))
    (hexec : P (twinInserted n b) (.execute idleEnv b))
    (hstep : (twinInserted n b).step twinNetwork (.execute idleEnv b) = some (n', new)) :
    Node.Run twinNetwork P n₀ n' (paid ++ new) := by
  have hinserted := Node.Run.step h hins rfl
  rw [append_nil] at hinserted
  exact hinserted.step hexec hstep

/-- A block of slot 10 with the given transactions. -/
def twinBlock (txs : List Hash) : ExecBlock := ⟨8, 10, 0, 8000000, txs⟩

/-- The block of slot 11 with the transactions 2 and 3. -/
def laterBlock : ExecBlock := { twinBlock [2, 3] with hash := 9, slot := 11 }

/-- A block with the transactions 1 and 2 pays the withdrawal of 1 wat twice: participant 1
    receives its 60 percent two times. -/
theorem paid_twice : ∃ n, Node.Run twinNetwork (fun _ _ => True) twinNode n [5, 5] ∧
    n.db.getBalance 1 - twinNode.db.getBalance 1 = 2 * (60 * (bigWat / 100)) := by
  have hok : ((twinInserted twinNode (twinBlock [1, 2])).step twinNetwork
      (.execute idleEnv (twinBlock [1, 2]))).any (fun r => decide (r.2 = [5, 5] ∧
        r.1.db.getBalance 1 - twinNode.db.getBalance 1 = 2 * (60 * (bigWat / 100)))) = true := by
    decide +kernel
  obtain ⟨⟨n, paid⟩, hstep, hcheck⟩ := (Option.any_eq_true _ _).1 hok
  simp only [decide_eq_true_eq] at hcheck
  obtain ⟨rfl, hcredit⟩ := hcheck
  exact ⟨n, Node.Run.start.addBlock (twinBlock [1, 2]) trivial trivial hstep, hcredit⟩

instance (b : ExecBlock) (bc : Blockchain) : Decidable (b.Clean twinNetwork bc) :=
  inferInstanceAs (Decidable (_ ∧ _))

/-- Transaction 1 pays the withdrawal 5.  In the next block transaction 2, which carries the same
    operation, is refused, and transaction 3 pays the withdrawal 6. -/
theorem paid_once_refused :
    ∃ n n', Node.Run twinNetwork (PaysOnce twinNetwork) twinNode n [5] ∧
      (twinInserted n laterBlock).step twinNetwork (.execute idleEnv laterBlock) =
        some (n', [6]) ∧ [(5 : Hash), 6].Nodup := by
  have hclean : (twinBlock [1]).Clean twinNetwork (twinInserted twinNode (twinBlock [1])).bc := by
    decide +kernel
  have hok : ((twinInserted twinNode (twinBlock [1])).step twinNetwork
      (.execute idleEnv (twinBlock [1]))).any (fun r =>
        decide (r.2 = [5] ∧ laterBlock.Clean twinNetwork (twinInserted r.1 laterBlock).bc) &&
        ((twinInserted r.1 laterBlock).step twinNetwork (.execute idleEnv laterBlock)).any
          (fun r' => decide (r'.2 = [6]))) = true := by decide +kernel
  obtain ⟨⟨n, paid⟩, hfirst, hcheck⟩ := (Option.any_eq_true _ _).1 hok
  simp only [Bool.and_eq_true, decide_eq_true_eq, Option.any_eq_true] at hcheck
  obtain ⟨⟨rfl, hlater⟩, ⟨n', paid'⟩, hsecond, rfl⟩ := hcheck
  have hrun : Node.Run twinNetwork (PaysOnce twinNetwork) twinNode n [5] :=
    Node.Run.start.addBlock (twinBlock [1]) trivial hclean hfirst
  exact ⟨n, n', hrun, hsecond, paid_once twinNetwork twinNode n' [5, 6]
    (hrun.addBlock laterBlock trivial hlater hsecond)⟩

end Gwat
