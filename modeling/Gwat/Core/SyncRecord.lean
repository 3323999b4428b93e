/-
  What a node keeps of the coordinator's operation when a sync transaction is included
  (`handleBlockValidatorSyncTxs` and `handleBlockValidatorSyncReceipts` in `core/blockchain.go`).
-/
import Gwat.Core.SyncRun
import Gwat.Validator.Effect

namespace Gwat

open GoLib List

namespace Blockchain

/-- The saved operation is the given one, up to the hash of its transaction. -/
def Keeps (bc : Blockchain) (saved : ValidatorSync) : Prop :=
  ∃ t, bc.getValidatorSyncData saved.initTxHash = some { saved with txHash := t }

variable {bc : Blockchain} {saved : ValidatorSync} {op : SyncOp} {fork : Bool}

/-- An operation that passes the comparison is saved with its own epoch and without a balance. -/
theorem keeps_setValidatorSyncData (h : compareValSync saved op fork = true) (tx : Hash) :
    (bc.setValidatorSyncData (op.saved tx)).Keeps saved ↔
      saved.balance = none ∧ op.procEpoch = saved.procEpoch := by
  obtain ⟨hinit, htype, hcreator, hindex, -, hamount⟩ := compareValSync_iff.1 h
  have hget : (bc.setValidatorSyncData (op.saved tx)).getValidatorSyncData saved.initTxHash =
      some (op.saved tx) := by
    rw [hinit]
    exact Function.update_self _ _ _
  simp only [Keeps, hget, Option.some.injEq]
  constructor
  · rintro ⟨t, heq⟩
    exact ⟨(congrArg ValidatorSync.balance heq).symm, congrArg ValidatorSync.procEpoch heq⟩
  · rintro ⟨hbalance, hepoch⟩
    refine ⟨some tx, ?_⟩
    rw [SyncOp.saved, hbalance, hepoch, hinit, htype, hcreator, hindex, hamount]

theorem Keeps.save (hk : bc.Keeps saved) (hbalance : saved.balance = none) {tx : Hash}
    (h : op.initTxHash = saved.initTxHash →
      (∃ fork, compareValSync saved op fork = true) ∧ op.procEpoch = saved.procEpoch) :
    (bc.setValidatorSyncData (op.saved tx)).Keeps saved := by
  by_cases hkey : op.initTxHash = saved.initTxHash
  · obtain ⟨⟨fork, hcmp⟩, hepoch⟩ := h hkey
    exact (keeps_setValidatorSyncData hcmp tx).2 ⟨hbalance, hepoch⟩
  · obtain ⟨t, ht⟩ := hk
    exact ⟨t, (Function.update_of_ne (Ne.symm hkey) _ _).trans ht⟩

end Blockchain

section

variable {net : Network} {saved : ValidatorSync} {config : ChainConfig} {bc : Blockchain}

/-- Every sync transaction for the record has its epoch. -/
def SameEpoch (net : Network) (config : ChainConfig) (saved : ValidatorSync) (txs : List Hash) :
    Prop :=
  ∀ tx ∈ txs, ∀ op, net.syncOp config tx = some op → op.initTxHash = saved.initTxHash →
    op.procEpoch = saved.procEpoch

/-- Every sync transaction for the record that was executed successfully passed the comparison
    with it. -/
def Executed (net : Network) (config : ChainConfig) (saved : ValidatorSync)
    (receipts : List (Hash × ReceiptStatus)) : Prop :=
  ∀ r ∈ receipts, r.2 = .successful → ∀ op, net.syncOp config r.1 = some op →
    op.initTxHash = saved.initTxHash → ∃ fork, compareValSync saved op fork = true

theorem keeps_handleTxs (hbalance : saved.balance = none) (slot : UInt64) {txs : List Hash}
    (htxs : SameEpoch net config saved txs) (hconfig : bc.config = config) (hk : bc.Keeps saved) :
    (txs.foldl (handleValidatorSyncTx net slot) bc).config = config ∧
      (txs.foldl (handleValidatorSyncTx net slot) bc).Keeps saved := by
  induction txs generalizing bc with
  | nil => exact ⟨hconfig, hk⟩
  | cons tx txs ih =>
    obtain ⟨hfirst, htxs⟩ := forall_mem_cons.1 htxs
    rw [foldl_cons]
    unfold handleValidatorSyncTx
    split
    · exact ih htxs hconfig hk
    · next op hop =>
      split
      · exact ih htxs hconfig hk
      · next haccept =>
        obtain ⟨saved', hsaved', hcmp⟩ := accepted_saved haccept
        refine ih htxs hconfig (hk.save hbalance fun hkey => ⟨?_, hfirst op (hconfig ▸ hop) hkey⟩)
        -- the comparison does not read the transaction of the record
        obtain ⟨t, ht⟩ := hk
        rw [hkey, ht] at hsaved'
        cases hsaved'
        exact ⟨_, hcmp⟩

theorem keeps_handleReceipts (hbalance : saved.balance = none)
    {receipts : List (Hash × ReceiptStatus)}
    (hepoch : SameEpoch net config saved (receipts.map Prod.fst))
    (hexec : Executed net config saved receipts) (hconfig : bc.config = config)
    (hk : bc.Keeps saved) : (receipts.foldl (handleValidatorSyncReceipt net) bc).Keeps saved := by
  induction receipts generalizing bc with
  | nil => exact hk
  | cons r receipts ih =>
    obtain ⟨hepoch₁, hepoch⟩ := forall_mem_cons.1 hepoch
    obtain ⟨hexec₁, hexec⟩ := forall_mem_cons.1 hexec
    rw [foldl_cons]
    unfold handleValidatorSyncReceipt
    split
    · exact ih hepoch hexec hconfig hk
    · next op hop =>
      rw [hconfig] at hop
      split_ifs with hok
      · exact ih hepoch hexec hconfig (hk.save hbalance fun hkey =>
          ⟨hexec₁ hok op hop hkey, hepoch₁ op hop hkey⟩)
      · exact ih hepoch hexec hconfig hk

end

/-- Recording an accepted sync transaction, and its successful receipt, changes the coordinator's
    record in the hash of its transaction only, exactly if the record has no balance and the
    transaction has its epoch.  A block all of whose sync transactions for the record are such
    keeps the record. -/
theorem record_kept_iff (net : Network) (bc : Blockchain) (slot : UInt64) (tx : Hash) (op : SyncOp)
    (saved : ValidatorSync) (hsaved : bc.getValidatorSyncData op.initTxHash = some saved)
    (hop : net.syncOp bc.config tx = some op)
    (haccept : validateValidatorSyncOp net.opCodec bc op slot tx = .ok ()) :
    ((handleValidatorSyncTx net slot bc tx).Keeps saved ↔
      saved.balance = none ∧ op.procEpoch = saved.procEpoch) ∧
    ((handleValidatorSyncReceipt net (handleValidatorSyncTx net slot bc tx)
        (tx, .successful)).Keeps saved ↔
      saved.balance = none ∧ op.procEpoch = saved.procEpoch) ∧
    ∀ (b : ExecBlock) (receipts : List (Hash × ReceiptStatus)), saved.balance = none →
      SameEpoch net bc.config saved b.txs → (∀ r ∈ receipts, r.1 ∈ b.txs) →
      Executed net bc.config saved receipts →
      (bc.insertBlock net b).Keeps saved ∧
        (receipts.foldl (handleValidatorSyncReceipt net) (bc.insertBlock net b)).Keeps saved := by
  obtain ⟨saved', hsaved', hcmp⟩ := accepted_saved haccept
  obtain rfl : saved' = saved := Option.some.inj (hsaved'.symm.trans hsaved)
  have htx : handleValidatorSyncTx net slot bc tx = bc.setValidatorSyncData (op.saved tx) := by
    simp only [handleValidatorSyncTx, hop, haccept]
  have hreceipt : handleValidatorSyncReceipt net (bc.setValidatorSyncData (op.saved tx))
      (tx, .successful) = (bc.setValidatorSyncData (op.saved tx)).setValidatorSyncData
        (op.saved tx) := by
    have hop' : net.syncOp (bc.setValidatorSyncData (op.saved tx)).config tx = some op := hop
    simp only [handleValidatorSyncReceipt, hop', if_true]
  rw [htx, hreceipt]
  refine ⟨Blockchain.keeps_setValidatorSyncData hcmp tx,
    Blockchain.keeps_setValidatorSyncData hcmp tx, fun b receipts hbalance hepoch hsub hexec => ?_⟩
  have hkey := congrArg bc.getValidatorSyncData (compareValSync_iff.1 hcmp).1
  have hk : bc.Keeps saved' := ⟨saved'.txHash, hkey.trans hsaved⟩
  obtain ⟨hconfig, hinsert⟩ : (bc.insertBlock net b).config = bc.config ∧
      (bc.insertBlock net b).Keeps saved' := keeps_handleTxs hbalance b.slot hepoch rfl hk
  refine ⟨hinsert, keeps_handleReceipts hbalance (fun x hx => ?_) hexec hconfig hinsert⟩
  obtain ⟨r, hr, rfl⟩ := mem_map.1 hx
  exact hepoch r.1 (hsub r hr)

/-! ### An operation started by slashing -/

/-- A deactivation or a balance update for validator 9, with the hash that slashing gives it. -/
def slashingOp : Option ℤ → SyncOp
  | none => ⟨ver1, .deactivate, 0x9000000000000000000000000, 3, 1, 9, some 0, none, none⟩
  | some balance =>
    ⟨ver1, .updateBalance, 0x9000000000000000000000000, 3, 1, 9, some 5, some 12, some balance⟩

/-- Every transaction carries the operation. -/
def slashingNetwork (op : SyncOp) : Network where
  opCodec := .binary
  msg h := { idleMsg 0xFFFF (ValOp.data (.sync op)) 0 with txHash := h }
  hash_msg _ := rfl

/-- The coordinator's record of the operation. -/
def slashingRecord (op : SyncOp) : ValidatorSync :=
  ⟨op.initTxHash, op.opType, op.procEpoch, op.index, op.creator, op.amount, none, op.balance⟩

/-- The chain with the record; the forks start with the first slot. -/
def slashingChain (op : SyncOp) : Blockchain :=
  { Blockchain.empty ⟨0xFFFF, 3200, 100, 0, 0, 0, 32⟩ [] with
    getValidatorSyncData := fun _ => some (slashingRecord op) }

theorem record_kept_deactivation :
    (handleValidatorSyncTx (slashingNetwork (slashingOp none)) 40
      (slashingChain (slashingOp none)) 5).Keeps
        (slashingRecord (slashingOp none)) :=
  (record_kept_iff (slashingNetwork (slashingOp none))
    (slashingChain (slashingOp none)) 40 5 (slashingOp none) _ rfl
    (by decide) (by decide)).1.2 ⟨rfl, rfl⟩

/-- The balance of a withdrawal is lost when the transaction is recorded. -/
theorem recorded_without_balance :
    let op := slashingOp (some 4)
    validateValidatorSyncOp (slashingNetwork op).opCodec (slashingChain op) op 40 5 = .ok () ∧
    (slashingRecord op).balance = some 4 ∧
    (handleValidatorSyncTx (slashingNetwork op) 40 (slashingChain op) 5).getValidatorSyncData
      op.initTxHash = some { slashingRecord op with txHash := some 5, balance := none } := by
  decide

end Gwat
