/-
  The validator operations that the executed blocks of a node carry out.
-/
import Gwat.Core.SyncRun
import Gwat.Validator.Payout

namespace Gwat

open GoLib StateDB

/-! ## Code that a message leaves alone -/

theorem SameCode.refl (s : StateDB) : SameCode s s := fun _ => rfl

theorem SameCode.trans {s s₁ s' : StateDB} (h : SameCode s s₁) (h' : SameCode s₁ s') :
    SameCode s s' := fun a => (h' a).trans (h a)

theorem sameCode_finalise (s : StateDB) : SameCode s s.finalise := by
  intro a
  show ((Option.filter _ (s.accounts a)).getD {}).code = ((s.accounts a).getD {}).code
  cases hacc : s.accounts a with
  | none => rfl
  | some acc =>
    by_cases hempty : acc.balance = 0 ∧ acc.nonce = 0 ∧ acc.code = []
    · simp [Option.filter, hempty]
    · simp [Option.filter, hempty]

theorem Processor.sameCode_of_call {p : Processor} {s s' : StateDB} {caller toAddr : Address}
    {value : ℤ} {data : Bytes} {txHash : Hash} {e : ValError}
    (h : p.call s caller toAddr value data txHash = (.error e, s')) : SameCode s s' := by
  rw [call] at h
  split at h
  · cases h
    exact .refl s
  · simp only at h
    split at h
    · cases h
      exact fun a => getCode_setNonce _
    · cases h

section

variable {env : Env} {msg : Message} {db : StateDB} {gp : UInt64} {st' : StateTransition}

theorem sameCode_prepared : SameCode db (prepared env msg (newStateTransition db gp)) :=
  fun _ => getCode_subBalance _

theorem sameCode_of_core {e : CoreError}
    (h : applyMessage env msg db gp = (.error (.core e), st')) : SameCode db st'.db := by
  rw [applyMessage_eq_core] at h
  cases hpre : preCheck env msg (newStateTransition db gp) with
  | error e' =>
    rw [executeMsg, hpre, Prod.mk.injEq] at h
    rw [← h.2]
    exact .refl db
  | ok st =>
    rw [executeMsg_of_preCheck hpre] at h
    split_ifs at h
    · simp at h
    split at h
    · rw [Prod.mk.injEq] at h
      rw [← h.2]
      exact sameCode_prepared
    · split at h
      · rw [Prod.mk.injEq] at h
        rw [← h.2]
        exact sameCode_prepared
      · simp at h

/-- A validator operation runs its handler and changes the code as the handler does; one that
    fails changes no code. -/
theorem applyMessage_validatorOp {r : ExecutionResult}
    (h : applyMessage env msg db gp = (.ok r, st'))
    (htype : (chargedType env msg (newStateTransition db gp)).isValidatorOp) :
    (r.err = none → ∃ op s₁ s₂ ret, env.validators.opCodec.decodeBytes msg.data = .ok op ∧
      SameCode db s₁ ∧ SameCode s₂ st'.db ∧ env.validators.handle s₁ msg.sender msg.recipient
        msg.value msg.txHash op = .ok (ret, s₂)) ∧ (r.err ≠ none → SameCode db st'.db) := by
  obtain ⟨o, st₁, hex, hset⟩ := applyMessage_eq_ok h
  rw [settle_executeMsg hex, Prod.mk.injEq, Except.ok.injEq] at hset
  obtain ⟨-, left, -, hexec, rfl⟩ := executeMsg_eq_ok hex
  obtain ⟨rfl, rfl⟩ := hset
  have hpaid : ∀ x y, SameCode o.db ((o.db.addBalance msg.sender x).addBalance env.coinbase y) :=
    fun x y a => by rw [getCode_addBalance, getCode_addBalance]
  have hcall : validatorCall env msg (prepared env msg (newStateTransition db gp)) left = .ok o := by
    unfold execute at hexec
    revert htype hexec
    cases chargedType env msg (newStateTransition db gp) <;>
      simp [TxType.isValidatorOp, TxType.isContractCreation, TxType.isTokenOp]
  unfold validatorCall at hcall
  split at hcall
  · cases hcall
  · next e s' _ hfail =>
    cases hcall
    refine ⟨fun herr => absurd herr (by simp), fun _ => ?_⟩
    exact (sameCode_prepared.trans (Processor.sameCode_of_call hfail)).trans (hpaid _ _)
  · next ret s' hok =>
    cases hcall
    refine ⟨fun _ => ?_, fun herr => absurd rfl herr⟩
    obtain ⟨op, hop, hrun⟩ := Processor.call_eq_ok hok
    refine ⟨op, _, _, ret, hop, fun a => ?_, hpaid _ _, hrun⟩
    rw [getCode_setNonce]
    exact sameCode_prepared a

end

/-! ## The operations of a block -/

/-- A validator operation that succeeded in a block of the given slot. -/
structure DoneOp where
  slot : UInt64
  tx : Hash
  op : ValOp

section

variable (net : Network)

/-- The type under which a transaction of a block is executed. -/
def blockTxType (env : Env) (b : ExecBlock) (c : Commit) (tx : Hash) : TxType :=
  chargedType (env.ofBlock net b c.bc) (net.msg tx) (newStateTransition c.db c.gp)

/-- The operation that a transaction of a block carries out, when it succeeds. -/
def doneOp (env : Env) (b : ExecBlock) (c : Commit) (tx : Hash) : Option DoneOp :=
  match applyMessage (env.ofBlock net b c.bc) (net.msg tx) c.db c.gp with
  | (.ok r, _) =>
    if r.err = none ∧ (blockTxType net env b c tx).isValidatorOp then
      match net.opCodec.decodeBytes (net.msg tx).data with
      | .ok op => some ⟨b.slot, tx, op⟩
      | .error _ => none
    else none
  | (.error _, _) => none

/-- A transaction that carries out an operation: its handler accepts the operation, and the
    transaction can be looked up in its block. -/
structure Carries (env : Env) (b : ExecBlock) (c c' : Commit) (tx : Hash) (st : OpStep) : Prop where
  type : (blockTxType net env b c tx).isValidatorOp
  processor : st.p = (env.ofBlock net b c.bc).validators
  txHash : st.txHash = tx
  decodes : net.opCodec.decodeBytes (net.msg tx).data = .ok st.op
  before : SameCode c.db st.before
  accepted : st.Accepted
  after : SameCode st.after c'.db
  lookup : c'.bc = c.bc.writeTxLookupEntry tx (net.msg tx) b.hash .successful
  receipts : c'.receipts = c.receipts ++ [(tx, .successful)]

/-- A transaction that carries out no operation; `status` is that of its receipt. -/
structure CarriesNone (env : Env) (b : ExecBlock) (c c' : Commit) (tx : Hash)
    (status : ReceiptStatus) : Prop where
  code : (blockTxType net env b c tx).isValidatorOp → SameCode c.db c'.db
  failed : (blockTxType net env b c tx).isValidatorOp ∨ blockTxType net env b c tx = .panics →
    status = .failed
  lookup : c'.bc = c.bc.writeTxLookupEntry tx (net.msg tx) b.hash status ∨
    status = .failed ∧ (c'.bc = c.bc ∨ ∃ op, c'.bc = c.bc.restoreValidatorSyncOp b.slot tx op)
  receipts : c'.receipts = c.receipts ++ [(tx, status)]

variable {net} {env : Env} {b : ExecBlock} {c c' : Commit} {tx : Hash}

theorem doneOp_of_isSome {op : ValOp} (hop : net.opCodec.decodeBytes (net.msg tx).data = .ok op)
    (h : (doneOp net env b c tx).isSome) : doneOp net env b c tx = some ⟨b.slot, tx, op⟩ := by
  unfold doneOp at h ⊢
  simp only [hop] at h ⊢
  split at h
  · split_ifs at h ⊢ with hok
    · rfl
    · cases h
  · cases h

/-- A transaction of a block carries out the operation `doneOp`, or none. -/
theorem commitTransaction_cases (h : commitTransaction net env b c tx = some c') :
    (∃ st, doneOp net env b c tx = some ⟨b.slot, tx, st.op⟩ ∧ Carries net env b c c' tx st) ∨
      doneOp net env b c tx = none ∧ ∃ status, CarriesNone net env b c c' tx status := by
  unfold commitTransaction at h
  simp only at h
  split at h
  · cases h
  · next e st hrun =>
    obtain rfl := Option.some.inj h
    refine .inr ⟨by rw [doneOp, hrun], .failed, fun _ => ?_, fun _ => rfl, .inr ⟨rfl, ?_⟩, rfl⟩
    · exact (sameCode_of_core hrun).trans (sameCode_finalise _)
    · split
      · next op _ =>
        split_ifs
        · exact .inr ⟨op, rfl⟩
        · exact .inl rfl
      · exact .inl rfl
  · next r st hrun =>
    obtain rfl := Option.some.inj h
    by_cases htype : (blockTxType net env b c tx).isValidatorOp
    · obtain ⟨hok, hfail⟩ := applyMessage_validatorOp hrun htype
      by_cases herr : r.err = none
      · obtain ⟨op, s₁, s₂, ret, hop, hs₁, hs₂, hhandle⟩ := hok herr
        have hdecode : net.opCodec.decodeBytes (net.msg tx).data = .ok op := hop
        refine .inl ⟨⟨(env.ofBlock net b c.bc).validators, (net.msg tx).sender,
          (net.msg tx).recipient, (net.msg tx).value, (net.msg tx).txHash, op, s₁, s₂⟩, ?_, ?_⟩
        · rw [doneOp, hrun]
          simp [herr, htype, hdecode]
        · exact ⟨htype, rfl, net.hash_msg tx, hop, hs₁, ⟨ret, hhandle⟩,
            hs₂.trans (sameCode_finalise _), by simp [herr], by simp [herr]⟩
      · refine .inr ⟨?_, .failed, fun _ => (hfail herr).trans (sameCode_finalise _), fun _ => rfl,
          .inl (by simp [herr]), by simp [herr]⟩
        rw [doneOp, hrun]
        simp [herr]
    · refine .inr ⟨?_, if r.err = none then .successful else .failed, fun ht => absurd ht htype,
        fun ht => absurd ht (not_or.2 ⟨htype, ?_⟩), .inl rfl, rfl⟩
      · rw [doneOp, hrun]
        simp [htype]
      · obtain ⟨o, st₁, hex, -⟩ := applyMessage_eq_ok hrun
        exact chargedType_ne_panics hex

end

/-! ## Runs -/

section

variable (net : Network)

/-- The end of `CommitBlockTransactions`: the receipts are stored and handled. -/
def finishBlock (b : ExecBlock) (c : Commit) : Blockchain :=
  c.receipts.foldl (handleValidatorSyncReceipt net) (storeReceipts net b.hash c.bc c.receipts)

/-- A node that executes blocks, transaction by transaction: its data, the block that it
    executes, and the operations carried out so far.  Of the transactions only those that
    satisfy `P` are considered. -/
inductive ChainRun (P : Env → ExecBlock → Commit → Hash → Prop) (n₀ : Node) :
    Commit → Option (Env × ExecBlock) → List DoneOp → Prop
  | start : ChainRun P n₀ ⟨n₀.bc, n₀.db, 0, [], []⟩ none []
  | deliver {c : Commit} {o : Option (Env × ExecBlock)} {done : List DoneOp} (vs : ValidatorSync) :
      ChainRun P n₀ c o done → ChainRun P n₀ { c with bc := c.bc.appendNotProcessed vs } o done
  -- the hash of a block determines it
  | insert {c : Commit} {o : Option (Env × ExecBlock)} {done : List DoneOp} (b : ExecBlock) :
      ChainRun P n₀ c o done → (∀ slot ∈ c.bc.getHeaderByHash b.hash, slot = b.slot) →
      ChainRun P n₀ { c with bc := c.bc.insertBlock net b } o done
  | enter {c : Commit} {done : List DoneOp} (env : Env) (b : ExecBlock) :
      ChainRun P n₀ c none done → b.hash ≠ 0 → c.bc.getHeaderByHash b.hash = some b.slot →
      ChainRun P n₀ ⟨c.bc, c.db, b.gasLimit, [], []⟩ (some (env, b)) done
  | tx {c c' : Commit} {env : Env} {b : ExecBlock} {done : List DoneOp} {tx : Hash} :
      ChainRun P n₀ c (some (env, b)) done → P env b c tx →
      commitTransaction net env b c tx = some c' →
      ChainRun P n₀ c' (some (env, b)) (done ++ (doneOp net env b c tx).toList)
  | leave {c : Commit} {env : Env} {b : ExecBlock} {done : List DoneOp} :
      ChainRun P n₀ c (some (env, b)) done →
      ChainRun P n₀ { c with bc := finishBlock net b c } none done

variable {net} {P : Env → ExecBlock → Commit → Hash → Prop} {n₀ : Node}
variable {env : Env} {b : ExecBlock} {c : Commit} {done : List DoneOp}

theorem ChainRun.txs {txs : List Hash} (hP : ∀ c, ∀ tx ∈ txs, P env b c tx) {c' : Commit}
    (h : ChainRun net P n₀ c (some (env, b)) done)
    (hrun : txs.foldlM (commitTransaction net env b) c = some c') :
    ∃ done', ChainRun net P n₀ c' (some (env, b)) done' := by
  induction txs generalizing c done with
  | nil =>
    rw [List.foldlM_nil, Option.pure_def, Option.some.injEq] at hrun
    exact ⟨done, hrun ▸ h⟩
  | cons tx txs ih =>
    obtain ⟨c₁, h₁, hrun⟩ := Option.bind_eq_some_iff.1 hrun
    exact ih (fun c t ht => hP c t (List.mem_cons_of_mem _ ht)) (h.tx (hP c tx (by simp)) h₁) hrun

/-- The execution of a block is a run. -/
theorem ChainRun.executeBlock {bc' : Blockchain} {db' : StateDB} {paid : List Hash}
    (h : ChainRun net P n₀ c none done) (hhash : b.hash ≠ 0)
    (hheader : c.bc.getHeaderByHash b.hash = some b.slot) (hP : ∀ c, ∀ tx ∈ b.txs, P env b c tx)
    (hrun : commitBlockTransactions net env b c.bc c.db = some (bc', db', paid)) :
    ∃ c' done', ChainRun net P n₀ c' none done' ∧ c'.bc = bc' ∧ c'.db = db' := by
  obtain ⟨c₁, h₁, hres⟩ := Option.bind_eq_some_iff.1 hrun
  obtain ⟨done', hdone'⟩ := (h.enter env b hhash hheader).txs hP h₁
  obtain ⟨hbc, hrest⟩ := Prod.mk.inj (Option.some.inj hres)
  exact ⟨_, done', hdone'.leave, hbc, (Prod.mk.inj hrest).1⟩

end

/-! ## What can be looked up -/

/-- The receipts, the headers and the configuration are the same. -/
structure SameLookup (bc bc' : Blockchain) : Prop where
  receipt : bc'.getTransactionReceipt = bc.getTransactionReceipt
  header : bc'.getHeaderByHash = bc.getHeaderByHash
  config : bc'.config = bc.config

theorem SameLookup.refl (bc : Blockchain) : SameLookup bc bc := ⟨rfl, rfl, rfl⟩

theorem SameLookup.trans {bc bc₁ bc' : Blockchain} (h : SameLookup bc bc₁)
    (h' : SameLookup bc₁ bc') : SameLookup bc bc' :=
  ⟨h'.1.trans h.1, h'.2.trans h.2, h'.3.trans h.3⟩

section

variable {net : Network} {bc : Blockchain}

theorem sameLookup_saveAt (key : Hash) (vs : ValidatorSync) : SameLookup bc (bc.saveAt key vs) :=
  ⟨rfl, rfl, rfl⟩

theorem sameLookup_appendNotProcessed (vs : ValidatorSync) :
    SameLookup bc (bc.appendNotProcessed vs) := by
  unfold Blockchain.appendNotProcessed
  split
  · exact sameLookup_saveAt _ _
  · split_ifs
    · exact sameLookup_saveAt _ _
    · exact .refl bc

theorem sameLookup_restoreValidatorSyncOp (slot : UInt64) (tx : Hash) (op : SyncOp) :
    SameLookup bc (bc.restoreValidatorSyncOp slot tx op) := by
  unfold Blockchain.restoreValidatorSyncOp
  split
  · exact .refl bc
  · split
    · exact .refl bc
    · split_ifs
      · exact .refl bc
      · exact sameLookup_saveAt _ _

theorem sameLookup_handleValidatorSyncTx (slot : UInt64) (tx : Hash) :
    SameLookup bc (handleValidatorSyncTx net slot bc tx) := by
  unfold handleValidatorSyncTx
  split
  · exact .refl bc
  · split
    · exact .refl bc
    · exact sameLookup_saveAt _ _

theorem sameLookup_handleValidatorSyncReceipt (receipt : Hash × ReceiptStatus) :
    SameLookup bc (handleValidatorSyncReceipt net bc receipt) := by
  unfold handleValidatorSyncReceipt
  split
  · exact .refl bc
  · split_ifs
    · exact sameLookup_saveAt _ _
    · exact .refl bc

theorem sameLookup_foldl {α : Type} {f : Blockchain → α → Blockchain}
    (hf : ∀ bc a, SameLookup bc (f bc a)) (l : List α) : SameLookup bc (l.foldl f bc) := by
  induction l generalizing bc with
  | nil => exact .refl bc
  | cons a l ih => exact (hf bc a).trans ih

theorem sameLookup_insertBlock (b : ExecBlock) :
    SameLookup { bc with getHeaderByHash := Function.update bc.getHeaderByHash b.hash (some b.slot) }
      (bc.insertBlock net b) :=
  sameLookup_foldl (fun _ tx => sameLookup_handleValidatorSyncTx b.slot tx) b.txs

theorem sameLookup_finishBlock (b : ExecBlock) (c : Commit) :
    SameLookup (storeReceipts net b.hash c.bc c.receipts) (finishBlock net b c) :=
  sameLookup_foldl (fun _ r => sameLookup_handleValidatorSyncReceipt r) c.receipts

end

end Gwat
