/-
  At most one withdrawal of a validator is outstanding.
-/
import Gwat.Core.OpTrace
import Gwat.Core.PaidOnce
import Gwat.Validator.WithdrawalLock

namespace Gwat

open GoLib List Function Blockchain

/-! ## Receipts -/

section

variable {net : Network} {bc : Blockchain} {tx other block : Hash} {msg : Message}
  {status : ReceiptStatus}
variable {receipt : Option ReceiptStatus}

theorem receipt_located_of_ne (hne : tx ≠ other) :
    (bc.located other msg receipt block).getTransactionReceipt tx = bc.getTransactionReceipt tx :=
  update_of_ne hne _ _

theorem receipt_located_self :
    (bc.located tx msg receipt block).getTransactionReceipt tx = (receipt, block) :=
  update_self _ _ _

/-- A transaction that is found in a block stays there unless it succeeds in another one. -/
theorem receipt_writeTxLookupEntry
    (h : tx ≠ other ∨ status = .failed ∧ (bc.getTransactionReceipt tx).2 ≠ 0) :
    (bc.writeTxLookupEntry other msg block status).getTransactionReceipt tx =
      bc.getTransactionReceipt tx := by
  unfold writeTxLookupEntry
  split_ifs with hw
  · refine receipt_located_of_ne ?_
    rintro rfl
    obtain ⟨rfl, hfound⟩ := h.resolve_left (· rfl)
    exact hfound (hw.resolve_left (by decide))
  · rfl

theorem receipt_writeTxLookupEntry_self :
    (bc.writeTxLookupEntry tx msg block .successful).getTransactionReceipt tx = (none, block) := by
  exact receipt_located_self

theorem lookup_writeTxLookupEntry :
    (bc.writeTxLookupEntry tx msg block status).getHeaderByHash = bc.getHeaderByHash ∧
      (bc.writeTxLookupEntry tx msg block status).config = bc.config := by
  unfold writeTxLookupEntry
  split <;> exact ⟨rfl, rfl⟩

theorem lookup_storeReceipt :
    (bc.storeReceipt tx msg block status).getHeaderByHash = bc.getHeaderByHash ∧
      (bc.storeReceipt tx msg block status).config = bc.config := by
  unfold storeReceipt
  simp only
  split <;> exact ⟨rfl, rfl⟩

/-- A stored receipt of success is replaced by another success only. -/
theorem receipt_storeReceipt_keeps (hr : (bc.getTransactionReceipt tx).1 = some .successful)
    (h : tx ≠ other ∨ status = .failed) :
    (bc.storeReceipt other msg block status).getTransactionReceipt tx =
      bc.getTransactionReceipt tx := by
  unfold storeReceipt
  simp only
  split_ifs with hw
  · refine receipt_located_of_ne ?_
    rintro rfl
    simp [h.resolve_left (· rfl), hr] at hw
  · rfl

theorem receipt_storeReceipt_success :
    (bc.storeReceipt tx msg block .successful).getTransactionReceipt tx =
      (some .successful, block) := by
  exact receipt_located_self

theorem lookup_storeReceipts (receipts : List (Hash × ReceiptStatus)) :
    (storeReceipts net block bc receipts).getHeaderByHash = bc.getHeaderByHash ∧
      (storeReceipts net block bc receipts).config = bc.config := by
  induction receipts generalizing bc with
  | nil => exact ⟨rfl, rfl⟩
  | cons r rs ih =>
    obtain ⟨hheader, hconfig⟩ := @ih (bc.storeReceipt r.1 (net.msg r.1) block r.2)
    exact ⟨hheader.trans lookup_storeReceipt.1, hconfig.trans lookup_storeReceipt.2⟩

theorem receipt_storeReceipts_keeps (receipts : List (Hash × ReceiptStatus))
    (hr : (bc.getTransactionReceipt tx).1 = some .successful) (hno : (tx, .successful) ∉ receipts) :
    (storeReceipts net block bc receipts).getTransactionReceipt tx =
      bc.getTransactionReceipt tx := by
  induction receipts generalizing bc with
  | nil => rfl
  | cons r rs ih =>
    obtain ⟨other, status⟩ := r
    rw [mem_cons, not_or] at hno
    have hstep : (bc.storeReceipt other (net.msg other) block status).getTransactionReceipt tx =
        bc.getTransactionReceipt tx := receipt_storeReceipt_keeps hr (by cases status <;> grind)
    exact (ih (by rw [hstep, hr]) hno.2).trans hstep

theorem receipt_storeReceipts_success (receipts : List (Hash × ReceiptStatus))
    (h : bc.getTransactionReceipt tx = (some .successful, block) ∨ (tx, .successful) ∈ receipts) :
    (storeReceipts net block bc receipts).getTransactionReceipt tx = (some .successful, block) := by
  induction receipts generalizing bc with
  | nil => exact h.resolve_right (by simp)
  | cons r rs ih =>
    obtain ⟨other, status⟩ := r
    refine ih ?_
    by_cases hsucc : tx = other ∧ status = .successful
    · obtain ⟨rfl, rfl⟩ := hsucc
      exact .inl receipt_storeReceipt_success
    · rcases h with hr | hmem
      · refine .inl ((receipt_storeReceipt_keeps (by rw [hr]) ?_).trans hr)
        cases status <;> grind
      · exact .inr (by grind)

end

/-! ## Where a withdrawal is found -/

/-- The transaction of a withdrawal is found in the block that is being executed, or with its
    receipt in an earlier one. -/
inductive Located (o : Option (Env × ExecBlock)) (c : Commit) (w : DoneOp) : Prop
  | executing {env : Env} {b : ExecBlock} (ho : o = some (env, b))
      (hreceipt : c.bc.getTransactionReceipt w.tx = (none, b.hash))
      (hdone : (w.tx, .successful) ∈ c.receipts) (hslot : b.slot = w.slot)
  | stored {block : Hash} (hne : block ≠ 0)
      (hreceipt : c.bc.getTransactionReceipt w.tx = (some .successful, block))
      (hheader : c.bc.getHeaderByHash block = some w.slot)
      (hdone : o ≠ none → (w.tx, .successful) ∉ c.receipts)

namespace Located

variable {net : Network} {o : Option (Env × ExecBlock)} {c c' : Commit} {w : DoneOp} {env : Env}
  {b : ExecBlock}

theorem sameLookup (h : Located o c w) {bc' : Blockchain} (hsame : SameLookup c.bc bc') :
    Located o { c with bc := bc' } w := by
  cases h with
  | executing ho hreceipt hdone hslot =>
    exact .executing ho (by rw [hsame.receipt, hreceipt]) hdone hslot
  | stored hne hreceipt hheader hdone =>
    exact .stored hne (by rw [hsame.receipt, hreceipt]) (by rw [hsame.header, hheader]) hdone

theorem addHeader (h : Located o c w) (hb : ∀ slot ∈ c.bc.getHeaderByHash b.hash, slot = b.slot) :
    Located o { c with bc := { c.bc with
      getHeaderByHash := update c.bc.getHeaderByHash b.hash (some b.slot) } } w := by
  cases h with
  | executing ho hreceipt hdone hslot => exact .executing ho hreceipt hdone hslot
  | @stored block hne hreceipt hheader hdone =>
    refine .stored hne hreceipt ?_ hdone
    show update c.bc.getHeaderByHash b.hash (some b.slot) block = some w.slot
    by_cases hblock : block = b.hash
    · rw [hblock, update_self, hb w.slot (by rw [← hblock, hheader]; rfl)]
    · rw [update_of_ne hblock, hheader]

theorem enter (h : Located none c w) (gp : UInt64) :
    Located (some (env, b)) ⟨c.bc, c.db, gp, [], []⟩ w := by
  cases h with
  | executing ho _ _ _ => cases ho
  | stored hne hreceipt hheader _ => exact .stored hne hreceipt hheader fun _ => by simp

theorem commit {tx : Hash} {status : ReceiptStatus} {msg : Message}
    (h : Located (some (env, b)) c w) (hb : b.hash ≠ 0) (hother : w.tx ≠ tx ∨ status = .failed)
    (hlookup : c'.bc = c.bc.writeTxLookupEntry tx msg b.hash status ∨ SameLookup c.bc c'.bc)
    (hreceipts : c'.receipts = c.receipts ++ [(tx, status)]) : Located (some (env, b)) c' w := by
  have hfound : (c.bc.getTransactionReceipt w.tx).2 ≠ 0 := by
    cases h with
    | executing ho hreceipt =>
      cases ho
      rwa [hreceipt]
    | stored hne hreceipt => rwa [hreceipt]
  have hreceipt' : c'.bc.getTransactionReceipt w.tx = c.bc.getTransactionReceipt w.tx := by
    rcases hlookup with hl | hl
    · rw [hl]
      exact receipt_writeTxLookupEntry (hother.imp_right fun hf => ⟨hf, hfound⟩)
    · rw [hl.receipt]
  have hheader' : c'.bc.getHeaderByHash = c.bc.getHeaderByHash := by
    rcases hlookup with hl | hl
    · rw [hl, lookup_writeTxLookupEntry.1]
    · exact hl.header
  have hdone' : (w.tx, .successful) ∈ c'.receipts ↔ (w.tx, .successful) ∈ c.receipts := by
    grind
  cases h with
  | executing ho hreceipt hdone hslot =>
    exact .executing ho (hreceipt'.trans hreceipt) (hdone'.2 hdone) hslot
  | stored hne hreceipt hheader hdone =>
    exact .stored hne (hreceipt'.trans hreceipt) (by rw [hheader', hheader])
      fun hsome hmem => hdone hsome (hdone'.1 hmem)

theorem leave (h : Located (some (env, b)) c w) (hb : b.hash ≠ 0)
    (hheader : c.bc.getHeaderByHash b.hash = some b.slot) :
    Located none { c with bc := finishBlock net b c } w := by
  have hstored : Located none { c with bc := storeReceipts net b.hash c.bc c.receipts } w := by
    obtain ⟨hheaders, -⟩ := @lookup_storeReceipts net c.bc b.hash c.receipts
    cases h with
    | executing ho _ hdone hslot =>
      cases ho
      refine .stored hb (receipt_storeReceipts_success _ (.inr hdone)) ?_ fun h => absurd rfl h
      rw [hheaders, hheader, hslot]
    | @stored block hne hreceipt hheader hdone =>
      refine .stored hne ?_ ?_ fun h => absurd rfl h
      · exact (receipt_storeReceipts_keeps _ (by rw [hreceipt]) (hdone (by simp))).trans hreceipt
      · rw [hheaders, hheader]
  exact hstored.sameLookup (sameLookup_finishBlock b c)

/-- The check of the pending withdrawal passes only when the lock has expired. -/
theorem le_slot {p : Processor} (h : Located (some (env, b)) c w) (hb : b.hash ≠ 0)
    (hbc : p.blockchain = c.bc) (hslot : p.ctx.slot = b.slot) (hhash : p.ctx.blockHash = b.hash)
    (hexpire : w.slot.toNat + c.bc.config.validatorOpExpireSlots.toNat < 2 ^ 64)
    (hcheck : p.prevOpCheck (some w.tx) = .ok ()) :
    w.slot.toNat + c.bc.config.validatorOpExpireSlots.toNat ≤ b.slot.toNat := by
  unfold Processor.prevOpCheck at hcheck
  simp only [hbc, hhash] at hcheck
  split_ifs at hcheck with hsame hpending
  cases h with
  | executing ho hreceipt =>
    cases ho
    rw [hreceipt] at hsame
    exact absurd ⟨hb, rfl⟩ hsame
  | stored hne hreceipt hheader _ =>
    rw [hreceipt] at hpending
    simp only [Processor.isPending, hbc, hheader, hslot, decide_true, Bool.true_and,
      decide_eq_true_eq, UInt64.not_lt, UInt64.le_iff_toNat_le] at hpending
    rwa [UInt64.toNat_add, Nat.mod_eq_of_lt hexpire] at hpending

end Located

/-! ## The lock of a validator -/

section

variable (net : Network)

/-- The transactions that are considered: after the fork of the tracking, when a transaction
    that is no validator operation changes no record and the validators' account is no token,
    records have room for one more stake, and the lock of a withdrawal ends below 2^64. -/
structure Orderly (env : Env) (b : ExecBlock) (c : Commit) (tx : Hash) : Prop where
  tracking : c.bc.config.isForkSlotValOpTracking b.slot
  codec : env.validators.codec = .binary
  txHash : tx ≠ 0
  other : ∀ c', commitTransaction net env b c tx = some c' →
    ¬ (blockTxType net env b c tx).isValidatorOp → SameRecords c.db c'.db
  noToken : blockTxType net env b c tx = .tokenMethod →
    (net.msg tx).toAddr ≠ some c.bc.config.validatorsStateAddress
  creator_ne : ∀ op, net.opCodec.decodeBytes (net.msg tx).data = .ok op →
    op.creator ≠ c.bc.config.validatorsStateAddress
  small : ∀ op, net.opCodec.decodeBytes (net.msg tx).data = .ok op →
    ∀ v, getValidator .binary c.db op.creator = .ok v → v.Small
  encodes : ∀ op, net.opCodec.decodeBytes (net.msg tx).data = .ok op → OpStep.Encodes op
  expiry : b.slot.toNat + c.bc.config.validatorOpExpireSlots.toNat < 2 ^ 64

/-- The transaction carries the operation to the validators' address. -/
structure IsOpTx (cfg : ChainConfig) (tx : Hash) (op : ValOp) : Prop where
  toAddr : (net.msg tx).toAddr = some cfg.validatorsStateAddress
  data : (net.msg tx).data ≠ []
  decodes : net.opCodec.decodeBytes (net.msg tx).data = .ok op

/-- The validator is locked by the withdrawal `w`. -/
structure LockedBy (cfg : ChainConfig) (o : Option (Env × ExecBlock)) (c : Commit) (a : Address)
    (w : DoneOp) : Prop where
  locked : Locked c.db a w.tx
  isOpTx : IsOpTx net cfg w.tx w.op
  acquires : w.op.leaseKind a = .acquire
  located : Located o c w
  expiry : w.slot.toNat + cfg.validatorOpExpireSlots.toNat < 2 ^ 64

/-- The slot at which the validator `a` is free again. -/
def lockEnd (cfg : ChainConfig) (a : Address) (done : List DoneOp) : ℕ :=
  leaseEnd (fun d => d.op.leaseKind a) (fun d => d.slot.toNat) cfg.validatorOpExpireSlots.toNat done

/-- The operations on the validator `a` wait for the end of its lock. -/
def Waited (cfg : ChainConfig) (a : Address) (done : List DoneOp) : Prop :=
  Respects (fun d => d.op.leaseKind a) (fun d => d.slot.toNat) cfg.validatorOpExpireSlots.toNat done

/-- What holds of a node that executes blocks: a validator is free or locked by the withdrawal
    in its record, and all operations have waited. -/
structure LockInv (cfg : ChainConfig) (o : Option (Env × ExecBlock)) (c : Commit)
    (done : List DoneOp) : Prop where
  config : c.bc.config = cfg
  home : Home cfg.validatorsStateAddress c.db
  block : ∀ env b, o = some (env, b) → b.hash ≠ 0 ∧ c.bc.getHeaderByHash b.hash = some b.slot
  lock : ∀ a, a ≠ cfg.validatorsStateAddress → lockEnd cfg a done = 0 ∨
    ∃ w, LockedBy net cfg o c a w ∧
      lockEnd cfg a done = w.slot.toNat + cfg.validatorOpExpireSlots.toNat
  waited : ∀ a, a ≠ cfg.validatorsStateAddress → Waited cfg a done

end

variable {net : Network} {cfg : ChainConfig} {o o' : Option (Env × ExecBlock)} {c c' : Commit}
  {done : List DoneOp} {env : Env} {b : ExecBlock} {tx : Hash}

theorem isOpTx_of_blockTxType {op : ValOp} (hcfg : c.bc.config = cfg)
    (h : (blockTxType net env b c tx).isValidatorOp)
    (hop : net.opCodec.decodeBytes (net.msg tx).data = .ok op) : IsOpTx net cfg tx op := by
  unfold blockTxType chargedType getTxType at h
  by_cases hdata : (net.msg tx).data = []
  · rw [if_pos hdata] at h
    cases h
  rw [if_neg hdata] at h
  cases hto : (net.msg tx).toAddr with
  | none =>
    simp only [hto] at h
    split_ifs at h <;> cases h
  | some toAddr =>
    simp only [hto] at h
    split at h
    · simp [TxType.isValidatorOp] at h
    · simp [TxType.isValidatorOp] at h
    · split_ifs at h with hval
      · have hval : toAddr = c.bc.config.validatorsStateAddress := of_decide_eq_true hval
        exact ⟨by rw [hto, hval, hcfg], hdata, hop⟩
      · cases h

/-- A transaction to the validators' address that carries an operation is a validator
    operation, if it gets a type. -/
theorem IsOpTx.isValidatorOp_or_panics {op : ValOp} (h : IsOpTx net cfg tx op) (hcfg : c.bc.config = cfg)
    (htoken : blockTxType net env b c tx = .tokenMethod →
      (net.msg tx).toAddr ≠ some c.bc.config.validatorsStateAddress) :
    (blockTxType net env b c tx).isValidatorOp ∨ blockTxType net env b c tx = .panics := by
  have hto := h.toAddr
  rw [← hcfg] at hto
  have hdecodes : (env.ofBlock net b c.bc).validators.opCodec.decodeBytes (net.msg tx).data =
      .ok op := h.decodes
  unfold blockTxType chargedType getTxType at htoken ⊢
  rw [if_neg h.data] at htoken ⊢
  simp only [hto] at htoken ⊢
  have hval : (env.ofBlock net b c.bc).validators.isValidatorOp
      c.bc.config.validatorsStateAddress := decide_eq_true rfl
  split at htoken
  · exact .inr rfl
  · exact absurd rfl (htoken rfl)
  · rw [if_pos hval, hdecodes]
    cases op <;> exact .inl rfl

theorem lockEnd_snoc (a : Address) (d : DoneOp) :
    lockEnd cfg a (done ++ [d]) = leaseAfter (fun d => d.op.leaseKind a) (fun d => d.slot.toNat)
      cfg.validatorOpExpireSlots.toNat (lockEnd cfg a done) d := leaseEnd_snoc done d

namespace LockInv

variable {st : OpStep} {a : Address}

/-- The lock of a validator lasts over a step that keeps what `LockedBy` says. -/
theorem lock_imp (h : LockInv net cfg o c done) (ha : a ≠ cfg.validatorsStateAddress)
    (hkeep : ∀ w, LockedBy net cfg o c a w → LockedBy net cfg o' c' a w) :
    lockEnd cfg a done = 0 ∨ ∃ w, LockedBy net cfg o' c' a w ∧
      lockEnd cfg a done = w.slot.toNat + cfg.validatorOpExpireSlots.toNat :=
  (h.lock a ha).imp_right fun ⟨w, hw, hend⟩ => ⟨w, hkeep w hw, hend⟩

theorem sameLookup (h : LockInv net cfg o c done) {bc' : Blockchain} (hsame : SameLookup c.bc bc') :
    LockInv net cfg o { c with bc := bc' } done where
  config := hsame.config.trans h.config
  home := h.home
  block env b ho := by
    rw [hsame.header]
    exact h.block env b ho
  lock _ ha := h.lock_imp ha fun _ hw => { hw with located := hw.located.sameLookup hsame }
  waited := h.waited

theorem insert (h : LockInv net cfg o c done) (b : ExecBlock)
    (hb : ∀ slot ∈ c.bc.getHeaderByHash b.hash, slot = b.slot) :
    LockInv net cfg o { c with bc := c.bc.insertBlock net b } done := by
  have hadd : LockInv net cfg o { c with bc := { c.bc with
      getHeaderByHash := update c.bc.getHeaderByHash b.hash (some b.slot) } } done := by
    refine ⟨h.config, h.home, fun env b' ho => ?_, fun a ha => h.lock_imp ha fun _ hw =>
      { hw with located := hw.located.addHeader hb }, h.waited⟩
    obtain ⟨hne, hheader⟩ := h.block env b' ho
    refine ⟨hne, ?_⟩
    show update c.bc.getHeaderByHash b.hash (some b.slot) b'.hash = some b'.slot
    by_cases hhash : b'.hash = b.hash
    · rw [hhash, update_self, hb b'.slot (by rw [← hhash, hheader]; rfl)]
    · rw [update_of_ne hhash, hheader]
  exact hadd.sameLookup (sameLookup_insertBlock b)

theorem enter (h : LockInv net cfg none c done) (hne : b.hash ≠ 0)
    (hheader : c.bc.getHeaderByHash b.hash = some b.slot) :
    LockInv net cfg (some (env, b)) ⟨c.bc, c.db, b.gasLimit, [], []⟩ done where
  config := h.config
  home := h.home
  block env' b' ho := by
    cases ho
    exact ⟨hne, hheader⟩
  lock _ ha := h.lock_imp ha fun _ hw => { hw with located := hw.located.enter _ }
  waited := h.waited

theorem leave (h : LockInv net cfg (some (env, b)) c done) :
    LockInv net cfg none { c with bc := finishBlock net b c } done := by
  obtain ⟨hne, hheader⟩ := h.block env b rfl
  have hconfig : (finishBlock net b c).config = c.bc.config :=
    (sameLookup_finishBlock b c).config.trans (lookup_storeReceipts c.receipts).2
  exact ⟨hconfig.trans h.config, h.home, nofun, fun a ha => h.lock_imp ha fun _ hw =>
    { hw with located := hw.located.leave hne hheader }, h.waited⟩

theorem carriesNone {status : ReceiptStatus} (h : LockInv net cfg (some (env, b)) c done)
    (hord : Orderly net env b c tx) (hrun : Gwat.commitTransaction net env b c tx = some c')
    (hnone : CarriesNone net env b c c' tx status) : LockInv net cfg (some (env, b)) c' done := by
  obtain ⟨hne, hheader⟩ := h.block env b rfl
  have hrecords : SameRecords c.db c'.db := by
    by_cases htype : (blockTxType net env b c tx).isValidatorOp
    · exact (hnone.code htype).sameRecords
    · exact hord.other c' hrun htype
  have hlookup : c'.bc = c.bc.writeTxLookupEntry tx (net.msg tx) b.hash status ∨
      SameLookup c.bc c'.bc := by
    rcases hnone.lookup with hl | ⟨-, hl | ⟨op, hl⟩⟩
    · exact .inl hl
    · exact .inr (hl ▸ .refl _)
    · exact .inr (hl ▸ sameLookup_restoreValidatorSyncOp _ _ _)
  have hheaders : c'.bc.getHeaderByHash = c.bc.getHeaderByHash ∧ c'.bc.config = c.bc.config := by
    rcases hlookup with hl | hl
    · rw [hl]
      exact lookup_writeTxLookupEntry
    · exact ⟨hl.header, hl.config⟩
  refine ⟨hheaders.2.trans h.config, h.home.congr hrecords, fun env' b' ho => ?_, fun a ha => ?_,
    h.waited⟩
  · cases ho
    exact ⟨hne, by rw [hheaders.1, hheader]⟩
  · refine h.lock_imp ha fun w hw => ?_
    -- the transaction of the withdrawal is a validator operation, so it cannot succeed here
    have hother : w.tx ≠ tx ∨ status = .failed := by
      by_cases heq : w.tx = tx
      · have hop := hw.isOpTx
        rw [heq] at hop
        exact .inr (hnone.failed (hop.isValidatorOp_or_panics h.config hord.noToken))
      · exact .inl heq
    exact { hw with
      locked := hw.locked.congr (hrecords a)
      located := hw.located.commit hne hother hlookup hnone.receipts }

theorem tracked (h : LockInv net cfg (some (env, b)) c done) (hord : Orderly net env b c tx)
    (hst : Carries net env b c c' tx st) :
    st.Tracked cfg.validatorsStateAddress where
  codec := by rw [hst.processor]; exact hord.codec
  tracking := by rw [hst.processor]; exact hord.tracking
  account := by rw [hst.processor, ← h.config]; rfl
  tx := by rw [hst.txHash]; exact hord.txHash
  creator_ne := h.config ▸ hord.creator_ne st.op hst.decodes
  small v hv := hord.small st.op hst.decodes v
    ((getValidator_congr (hst.before st.op.creator)).symm.trans hv)
  encodes := hord.encodes st.op hst.decodes

theorem lockEnd_le (h : LockInv net cfg (some (env, b)) c done)
    (hord : Orderly net env b c tx) (hst : Carries net env b c c' tx st)
    (ha : a ≠ cfg.validatorsStateAddress) (hwaits : (st.op.leaseKind a).Waits) :
    lockEnd cfg a done ≤ b.slot.toNat := by
  obtain ⟨hne, -⟩ := h.block env b rfl
  rcases h.lock a ha with hfree | ⟨w, hw, hend⟩
  · rw [hfree]
    exact Nat.zero_le _
  · have hcheck := OpStep.prevOpCheck_of_locked (h.tracked hord hst).codec hst.accepted hwaits
      (hw.locked.congr (hst.before.sameRecords a))
    have hexpire := hw.expiry
    rw [hend, ← h.config] at *
    exact hw.located.le_slot hne (by rw [hst.processor]; rfl) (by rw [hst.processor]; rfl)
      (by rw [hst.processor]; rfl) hexpire hcheck

theorem carries (h : LockInv net cfg (some (env, b)) c done) (hord : Orderly net env b c tx)
    (hst : Carries net env b c c' tx st) :
    LockInv net cfg (some (env, b)) c' (done ++ [⟨b.slot, tx, st.op⟩]) := by
  obtain ⟨hne, hheader⟩ := h.block env b rfl
  have ht := h.tracked hord hst
  have hhome := h.home.congr hst.before.sameRecords
  have hheaders := @lookup_writeTxLookupEntry c.bc tx b.hash (net.msg tx) .successful
  rw [← hst.lookup] at hheaders
  refine ⟨hheaders.2.trans h.config, (OpStep.home_after ht hhome hst.accepted).congr hst.after.sameRecords,
    fun env' b' ho => ?_, fun a ha => ?_, fun a ha => ?_⟩
  · cases ho
    exact ⟨hne, by rw [hheaders.1, hheader]⟩
  · rw [lockEnd_snoc, leaseAfter]
    have hkeep (hacq : st.op.leaseKind a ≠ .acquire) (hrel : st.op.leaseKind a ≠ .release) (w)
        (hw : LockedBy net cfg (some (env, b)) c a w) :
        LockedBy net cfg (some (env, b)) c' a w := by
      -- the transaction of the withdrawal would set the lock again
      have hother : w.tx ≠ tx := by
        intro heq
        have hop : w.op = st.op :=
          Except.ok.inj (hw.isOpTx.decodes.symm.trans (heq ▸ hst.decodes))
        exact hacq (hop ▸ hw.acquires)
      have hlocked := OpStep.locked_after ht hhome hst.accepted ha hacq hrel
        (hw.locked.congr (hst.before.sameRecords a))
      exact { hw with
        locked := hlocked.congr (hst.after.sameRecords a)
        located := hw.located.commit hne (.inl hother) (.inl hst.lookup) hst.receipts }
    cases hkind : st.op.leaseKind a with
    | acquire =>
      have hlocked := OpStep.locked_of_acquire ht hhome hst.accepted hkind
      rw [hst.txHash] at hlocked
      refine .inr ⟨⟨b.slot, tx, st.op⟩, ⟨hlocked.congr (hst.after.sameRecords a),
        isOpTx_of_blockTxType h.config hst.type hst.decodes, hkind, ?_, h.config ▸ hord.expiry⟩, rfl⟩
      refine .executing rfl ?_ (by rw [hst.receipts]; simp) rfl
      rw [hst.lookup]
      exact receipt_writeTxLookupEntry_self
    | release => exact .inl rfl
    | _ => exact h.lock_imp ha (hkeep (by simp [hkind]) (by simp [hkind]))
  · exact .snoc (h.waited a ha) (h.lockEnd_le hord hst ha)

theorem commitTransaction (h : LockInv net cfg (some (env, b)) c done)
    (hord : Orderly net env b c tx) (hrun : Gwat.commitTransaction net env b c tx = some c') :
    LockInv net cfg (some (env, b)) c' (done ++ (doneOp net env b c tx).toList) := by
  rcases commitTransaction_cases hrun with ⟨st, hdone, hst⟩ | ⟨hdone, status, hnone⟩
  · rw [hdone]
    exact h.carries hord hst
  · rw [hdone, Option.toList_none, append_nil]
    exact h.carriesNone hord hrun hnone

end LockInv

variable {n₀ : Node} {hash : Hash} {op : ValOp}

/-- The invariant along a run, by induction on its steps. -/
theorem ChainRun.lockInv (h : ChainRun net (Orderly net) n₀ c o done)
    (hhome : Home n₀.bc.config.validatorsStateAddress n₀.db) :
    LockInv net n₀.bc.config o c done := by
  induction h with
  | start =>
    exact ⟨rfl, hhome, nofun, fun _ _ => .inl rfl, fun _ _ => .nil⟩
  | deliver vs _ ih => exact ih.sameLookup (sameLookup_appendNotProcessed vs)
  | insert b _ hb ih => exact ih.insert b hb
  | enter env b _ hne hheader ih => exact ih.enter hne hheader
  | tx _ hord hrun ih => exact ih.commitTransaction hord hrun
  | leave _ ih => exact ih.leave

/-- At most one withdrawal of a validator is outstanding.  Over every run of blocks of orderly
    transactions, after a withdrawal no other withdrawal and no deposit of the validator
    succeeds for `ValidatorOpExpireSlots` slots unless its balance has been updated; and an
    update of the balance leaves no pending withdrawal, unless it pays by the rules of a
    delegating validator: then a pending withdrawal stays. -/
theorem one_withdrawal (net : Network) (n₀ : Node) (c : Commit) (o : Option (Env × ExecBlock))
    (done : List DoneOp) (h : ChainRun net (Orderly net) n₀ c o done)
    (hhome : Home n₀.bc.config.validatorsStateAddress n₀.db) :
    (∀ a, a ≠ n₀.bc.config.validatorsStateAddress → ∀ pre w mid x post,
      done = pre ++ w :: (mid ++ x :: post) → w.op.leaseKind a = .acquire →
      (x.op.leaseKind a).Waits → (∀ u ∈ mid, u.op.leaseKind a ≠ .release) →
      w.slot.toNat + n₀.bc.config.validatorOpExpireSlots.toNat ≤ x.slot.toNat) ∧
    (∀ env b tx c' op, o = some (env, b) → Orderly net env b c tx →
      commitTransaction net env b c tx = some c' →
      doneOp net env b c tx = some ⟨b.slot, tx, .sync op⟩ → op.opType = .updateBalance →
      (NoPending c'.db op.creator ↔
        ((∃ v, getValidator .binary c.db op.creator = .ok v ∧
          (env.ofBlock net b c.bc).validators.PaysShares v) → NoPending c.db op.creator))) := by
  have hinv := h.lockInv hhome
  refine ⟨fun a ha pre w mid x post hsplit hw hx hmid => ?_, ?_⟩
  · have hwaited := hinv.waited a ha
    rw [hsplit] at hwaited
    exact hwaited.le_time hw hx hmid
  · rintro env b tx c' op rfl hord hrun hdone htype
    rcases commitTransaction_cases hrun with ⟨st, hdone', hst⟩ | ⟨hnone, -⟩
    · have hop := (DoneOp.mk.inj (Option.some.inj (hdone.symm.trans hdone'))).2.2
      have hreleased := OpStep.released_iff (hinv.tracked hord hst)
        (hinv.home.congr hst.before.sameRecords) hst.accepted hop.symm htype
      have hbefore := @getValidator_congr .binary _ _ _ (hst.before op.creator)
      have hafter := @getValidator_congr .binary _ _ _ (hst.after op.creator)
      rw [OpStep.PaysShares, ← hop, hst.processor] at hreleased
      simp only [NoPending, ← hafter, ValOp.creator, hbefore] at hreleased ⊢
      exact hreleased
    · cases hdone.symm.trans hnone

/-! ## Runs on one validator -/

/-- Transactions 21 and 22 of account 1 withdraw 1 wat from validator 9, transaction 1 carries
    the operation of the coordinator that pays 1 wat out. -/
def lockNetwork : Network where
  opCodec := .binary
  msg h :=
    { idleMsg 0xFFFF (ValOp.data (if h = 1 then .sync (payoutOp 3199) else
        .withdrawal ⟨9, 1 * bigWat⟩)) (if h = 1 then 0 else 100000) with
      nonce := if h = 22 then 6 else 5
      txHash := h }
  hash_msg _ := rfl

/-- Validator 9, activated in era 0, with account 1 as its withdrawal address. -/
def lockValidator : Validator :=
  { newValidator 7 9 (some 1) with activationEra := 0, version := ver1 }

/-- The blocks of slot 10 and of slot 110, when a lock of slot 10 has expired. -/
def lockBlock (hash : Hash) : ExecBlock := ⟨hash, if hash = 8 then 10 else 110, 0, 8000000, []⟩

theorem slot_lockBlock (hash : Hash) : (lockBlock hash).slot = 10 ∨ (lockBlock hash).slot = 110 := by
  by_cases h : hash = 8
  · exact .inl (if_pos h)
  · exact .inr (if_neg h)

/-- The node when it enters a block. -/
def lockEnter (bc : Blockchain) (db : StateDB) (hash : Hash) : Commit :=
  ⟨bc.insertBlock lockNetwork (lockBlock hash), db, 8000000, [], []⟩

theorem home_payoutNode (v : Validator) (h : ∀ w, getValidator .binary (payoutNode v).db 9 = .ok w →
    w.address = 9) : Home 0xFFFF (payoutNode v).db := by
  intro a w _ hw
  by_cases ha : a = 9
  · subst ha
    exact h w hw
  · refine absurd ?_ (getValidator_eq_ok.1 hw).1
    rw [payoutNode, StateDB.getCode_setCode, if_neg ha]
    by_cases ha1 : a = 1
    · subst ha1
      rfl
    · simp [StateDB.getCode, StateDB.acct, idleDb, ha1]

theorem orderly_lock (hcfg : c.bc.config = payoutConfig) (htx : tx ≠ 0)
    (hop : lockNetwork.opCodec.decodeBytes (lockNetwork.msg tx).data = .ok op)
    (hcreator : op.creator = 9) (hencodes : OpStep.Encodes op)
    (htype : (blockTxType lockNetwork idleEnv (lockBlock hash) c tx).isValidatorOp)
    (hsmall : ∀ v, getValidator .binary c.db 9 = .ok v → v.Small) :
    Orderly lockNetwork idleEnv (lockBlock hash) c tx := by
  have hsame {op'} (hop' : lockNetwork.opCodec.decodeBytes (lockNetwork.msg tx).data = .ok op') :
      op' = op := Except.ok.inj (hop'.symm.trans hop)
  refine ⟨?_, rfl, htx, fun _ _ hno => absurd htype hno, fun h => ?_, fun op' hop' => ?_,
    fun op' hop' => ?_, fun op' hop' => hsame hop' ▸ hencodes, ?_⟩
  · rcases slot_lockBlock hash with h | h <;> rw [hcfg, h] <;> decide
  · rw [h] at htype; cases htype
  · rw [hsame hop', hcreator, hcfg]
    decide
  · rw [hsame hop', hcreator]
    exact hsmall
  · rcases slot_lockBlock hash with h | h <;> rw [hcfg, h] <;> decide

theorem ChainRun.lockEnter (h : ChainRun lockNetwork (Orderly lockNetwork) n₀ c none done)
    (hne : hash ≠ 0) (hnew : c.bc.getHeaderByHash hash = none) :
    ChainRun lockNetwork (Orderly lockNetwork) n₀ (Gwat.lockEnter c.bc c.db hash)
      (some (idleEnv, lockBlock hash)) done := by
  refine (h.insert (lockBlock hash) ?_).enter idleEnv (lockBlock hash) hne ?_
  · show ∀ slot ∈ c.bc.getHeaderByHash hash, _
    simp [hnew]
  · exact update_self ..

theorem ChainRun.lockTx
    (h : ChainRun lockNetwork (Orderly lockNetwork) n₀ c (some (idleEnv, lockBlock hash)) done)
    (hord : Orderly lockNetwork idleEnv (lockBlock hash) c tx)
    (hop : lockNetwork.opCodec.decodeBytes (lockNetwork.msg tx).data = .ok op)
    (hdone : (doneOp lockNetwork idleEnv (lockBlock hash) c tx).isSome)
    (hrun : commitTransaction lockNetwork idleEnv (lockBlock hash) c tx = some c') :
    ChainRun lockNetwork (Orderly lockNetwork) n₀ c' (some (idleEnv, lockBlock hash))
      (done ++ [⟨(lockBlock hash).slot, tx, op⟩]) := by
  have hrun' := h.tx hord hrun
  rwa [doneOp_of_isSome hop hdone] at hrun'

/-- What is checked of a transaction by evaluation. -/
def lockChecks (c : Commit) (hash tx : Hash) : Bool :=
  c.bc.config = payoutConfig ∧ (blockTxType lockNetwork idleEnv (lockBlock hash) c tx).isValidatorOp ∧
    (∀ v, getValidator .binary c.db 9 = .ok v → v.Small) ∧
    (doneOp lockNetwork idleEnv (lockBlock hash) c tx).isSome

theorem orderly_of_lockChecks (h : lockChecks c hash tx = true) (htx : tx ≠ 0)
    (hop : lockNetwork.opCodec.decodeBytes (lockNetwork.msg tx).data = .ok op)
    (hcreator : op.creator = 9) (hencodes : OpStep.Encodes op) :
    Orderly lockNetwork idleEnv (lockBlock hash) c tx ∧
      (doneOp lockNetwork idleEnv (lockBlock hash) c tx).isSome := by
  obtain ⟨hcfg, htype, hsmall, hdone⟩ := of_decide_eq_true h
  exact ⟨orderly_lock hcfg htx hop hcreator hencodes htype hsmall, hdone⟩

/-- Two withdrawals of one validator, the second when the lock of the first has expired. -/
theorem one_withdrawal_expired :
    ∃ c w x, ChainRun lockNetwork (Orderly lockNetwork) (payoutNode lockValidator) c
        (some (idleEnv, lockBlock 9)) [w, x] ∧
      w.op.leaseKind 9 = .acquire ∧ x.op.leaseKind 9 = .acquire ∧
      w.slot.toNat + 100 ≤ x.slot.toNat := by
  have hfirst : lockChecks (lockEnter (payoutNode lockValidator).bc (payoutNode lockValidator).db 8)
      8 21 = true := by decide +kernel
  have hok : (commitTransaction lockNetwork idleEnv (lockBlock 8)
      (lockEnter (payoutNode lockValidator).bc (payoutNode lockValidator).db 8) 21).any (fun c₁ =>
        let c₂ := lockEnter (finishBlock lockNetwork (lockBlock 8) c₁) c₁.db 9
        decide ((finishBlock lockNetwork (lockBlock 8) c₁).getHeaderByHash 9 = none) &&
          lockChecks c₂ 9 22 && (commitTransaction lockNetwork idleEnv (lockBlock 9) c₂ 22).isSome) =
        true := by decide +kernel
  obtain ⟨c₁, hc₁, hcheck⟩ := (Option.any_eq_true _ _).1 hok
  simp only [Bool.and_eq_true, decide_eq_true_eq] at hcheck
  obtain ⟨⟨hnew, hsecond⟩, hsome⟩ := hcheck
  obtain ⟨c₃, hc₃⟩ := Option.isSome_iff_exists.1 hsome
  have hop (tx : Hash) (htx : tx = 21 ∨ tx = 22) : lockNetwork.opCodec.decodeBytes
      (lockNetwork.msg tx).data = .ok (.withdrawal ⟨9, 1 * bigWat⟩) := by
    rcases htx with rfl | rfl <;> decide
  obtain ⟨hord₁, hdone₁⟩ := orderly_of_lockChecks hfirst (by decide) (hop _ (.inl rfl)) rfl trivial
  obtain ⟨hord₂, hdone₂⟩ := orderly_of_lockChecks hsecond (by decide) (hop _ (.inr rfl)) rfl trivial
  have henter₁ : ChainRun lockNetwork (Orderly lockNetwork) (payoutNode lockValidator)
      (lockEnter (payoutNode lockValidator).bc (payoutNode lockValidator).db 8)
      (some (idleEnv, lockBlock 8)) [] := ChainRun.start.lockEnter (by decide) rfl
  have hrun₁ := henter₁.lockTx hord₁ (hop _ (.inl rfl)) hdone₁ hc₁
  have henter₂ : ChainRun lockNetwork (Orderly lockNetwork) (payoutNode lockValidator)
      (lockEnter (finishBlock lockNetwork (lockBlock 8) c₁) c₁.db 9) (some (idleEnv, lockBlock 9)) _ :=
    hrun₁.leave.lockEnter (by decide) hnew
  have hrun₂ := henter₂.lockTx hord₂ (hop _ (.inr rfl)) hdone₂ hc₃
  have hhome : Home 0xFFFF (payoutNode lockValidator).db :=
    home_payoutNode lockValidator (by decide +kernel)
  have hle := (one_withdrawal lockNetwork _ _ _ _ hrun₂ hhome).1 9 (by decide) [] _ [] _ [] rfl rfl
    (.inl rfl) (by simp)
  exact ⟨c₃, _, _, hrun₂, rfl, rfl, hle⟩

instance (s : StateDB) (a : Address) (tx : Hash) : Decidable (Locked s a tx) :=
  inferInstanceAs (Decidable (∃ v, getValidator .binary s a = .ok v ∧ _))

theorem Locked.not_noPending {s : StateDB} {a : Address} (h : Locked s a tx) : ¬ NoPending s a := by
  rintro ⟨w, hw, hnone⟩
  obtain ⟨v, hv, -, htx⟩ := h
  cases hv.symm.trans hw
  cases hnone.symm.trans htx

/-- The withdrawal in transaction 5 of a delegating validator is paid by transaction 1, and it
    is still pending afterwards. -/
theorem payout_keeps_lock :
    ∃ c c' op, ChainRun lockNetwork (Orderly lockNetwork) (payoutNode activeValidator) c
        (some (idleEnv, lockBlock 8)) [] ∧
      commitTransaction lockNetwork idleEnv (lockBlock 8) c 1 = some c' ∧
      doneOp lockNetwork idleEnv (lockBlock 8) c 1 = some ⟨10, 1, .sync op⟩ ∧
      op.opType = .updateBalance ∧ Locked c'.db op.creator 5 ∧ ¬ NoPending c'.db op.creator := by
  have hchecks : lockChecks (lockEnter (payoutNode activeValidator).bc (payoutNode activeValidator).db 8)
      8 1 = true := by decide +kernel
  have hok : (commitTransaction lockNetwork idleEnv (lockBlock 8)
      (lockEnter (payoutNode activeValidator).bc (payoutNode activeValidator).db 8) 1).any (fun c' =>
        decide (Locked c'.db 9 5)) = true := by decide +kernel
  obtain ⟨c', hc', hlocked⟩ := (Option.any_eq_true _ _).1 hok
  have hlocked := of_decide_eq_true hlocked
  have hop : lockNetwork.opCodec.decodeBytes (lockNetwork.msg 1).data =
      .ok (.sync (payoutOp 3199)) := by decide +kernel
  obtain ⟨-, hdone⟩ := orderly_of_lockChecks hchecks (by decide) hop rfl (by decide)
  have henter : ChainRun lockNetwork (Orderly lockNetwork) (payoutNode activeValidator)
      (lockEnter (payoutNode activeValidator).bc (payoutNode activeValidator).db 8)
      (some (idleEnv, lockBlock 8)) [] := ChainRun.start.lockEnter (by decide) rfl
  exact ⟨_, c', payoutOp 3199, henter, hc', doneOp_of_isSome hop hdone, rfl, hlocked,
    hlocked.not_noPending⟩

end Gwat
