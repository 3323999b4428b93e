/-
  The life of a sync operation on a node: the coordinator delivers it, a block
  brings a transaction that carries it, and the block is executed
  (`core/blockchain.go`).
-/
import Gwat.Core.Charge

namespace Gwat

open GoLib Function

/-! ## Blocks and transactions -/

/-- What all nodes agree on: the operation codec and the transactions by their hash. -/
structure Network where
  opCodec : OpCodec
  msg : Hash → Message
  hash_msg : ∀ h, (msg h).txHash = h

/-- `types.Block`, as far as its execution reads it. -/
structure ExecBlock where
  hash : Hash
  slot : UInt64
  era : UInt64
  gasLimit : UInt64
  txs : List Hash
  deriving DecidableEq, Repr

/-- The sync operation of a transaction to the validators' address (`IsTxValidatorSync`). -/
def Network.syncOp (net : Network) (config : ChainConfig) (tx : Hash) : Option SyncOp :=
  if (net.msg tx).toAddr = some config.validatorsStateAddress then
    match net.opCodec.decodeBytes (net.msg tx).data with
    | .ok (.sync op) => some op
    | _ => none
  else none

/-- The operation that a sync transaction saves; the reported balance is not part of it. -/
def SyncOp.saved (op : SyncOp) (tx : Hash) : ValidatorSync where
  initTxHash := op.initTxHash
  opType := op.opType
  procEpoch := op.procEpoch
  index := op.index
  creator := op.creator
  amount := op.amount
  txHash := some tx
  balance := none

namespace Blockchain

/-- The operation saved under an initial transaction. -/
def saveAt (bc : Blockchain) (key : Hash) (vs : ValidatorSync) : Blockchain :=
  { bc with getValidatorSyncData := update bc.getValidatorSyncData key (some vs) }

def setValidatorSyncData (bc : Blockchain) (vs : ValidatorSync) : Blockchain :=
  bc.saveAt vs.initTxHash vs

/-- `AppendNotProcessedValidatorSyncData` for one operation: a saved one is replaced when
    it has a transaction and a later epoch. -/
def appendNotProcessed (bc : Blockchain) (vs : ValidatorSync) : Blockchain :=
  match bc.getValidatorSyncData vs.initTxHash with
  | none => bc.setValidatorSyncData vs
  | some saved =>
    if vs.procEpoch < saved.procEpoch ∧ saved.txHash ≠ none then bc.setValidatorSyncData vs else bc

/-- The transaction is found in the given block, with the given receipt. -/
def located (bc : Blockchain) (tx : Hash) (msg : Message) (receipt : Option ReceiptStatus)
    (block : Hash) : Blockchain :=
  { bc with
    getTransaction := update bc.getTransaction tx (some ⟨msg.data, msg.sender⟩)
    getTransactionReceipt := update bc.getTransactionReceipt tx (receipt, block) }

/-- `WriteTxLookupEntry` while the block is executed: its receipts are not stored yet. -/
def writeTxLookupEntry (bc : Blockchain) (tx : Hash) (msg : Message) (block : Hash)
    (status : ReceiptStatus) : Blockchain :=
  if status = .successful ∨ (bc.getTransactionReceipt tx).2 = 0 then bc.located tx msg none block
  else bc

/-- `WriteReceipts` and `WriteTxLookupEntry` for one transaction of an executed block.  A
    transaction found in an earlier block stays there unless it succeeded now. -/
def storeReceipt (bc : Blockchain) (tx : Hash) (msg : Message) (block : Hash)
    (status : ReceiptStatus) : Blockchain :=
  let old := bc.getTransactionReceipt tx
  if status = .successful ∨ old.1 = none ∧ (old.2 = 0 ∨ old.2 = block) then
    bc.located tx msg (some status) block
  else bc

/-- `RestoreValidatorSyncOp`: the operation is without a transaction again, unless another
    transaction has succeeded. -/
def restoreValidatorSyncOp (bc : Blockchain) (slot : UInt64) (tx : Hash) (op : SyncOp) :
    Blockchain :=
  if ¬ bc.config.isForkSlotDelegate slot then bc
  else match bc.getValidatorSyncData op.initTxHash with
    | none => bc
    | some saved =>
      if ∃ other ∈ saved.txHash, other ≠ tx ∧
          (bc.getTransactionReceipt other).1 = some .successful then bc
      else bc.saveAt op.initTxHash { saved with txHash := none }

end Blockchain

/-- `Finalise(true)` and the `Prepare` of the next transaction: empty accounts are dropped,
    the refund counter and the access list are reset. -/
def StateDB.finalise (s : StateDB) : StateDB where
  accounts a := (s.accounts a).filter fun acc => ¬ (acc.balance = 0 ∧ acc.nonce = 0 ∧ acc.code = [])
  refund := 0
  logs := s.logs
  accessAddresses := []
  accessSlots := []

/-! ## Inserting a block -/

section

variable (net : Network)

/-- `handleBlockValidatorSyncTxs` for one transaction. -/
def handleValidatorSyncTx (slot : UInt64) (bc : Blockchain) (tx : Hash) : Blockchain :=
  match net.syncOp bc.config tx with
  | none => bc
  | some op =>
    match validateValidatorSyncOp net.opCodec bc op slot tx with
    | .error _ => bc
    | .ok () => bc.setValidatorSyncData (op.saved tx)

/-- The insertion of a block: its header is known, and `handleBlockValidatorSyncTxs`. -/
def Blockchain.insertBlock (bc : Blockchain) (b : ExecBlock) : Blockchain :=
  b.txs.foldl (handleValidatorSyncTx net b.slot)
    { bc with getHeaderByHash := update bc.getHeaderByHash b.hash (some b.slot) }

/-! ## Executing a block -/

/-- `NewEVMBlockContext` and the processors of a block. -/
def Env.ofBlock (env : Env) (b : ExecBlock) (bc : Blockchain) : Env :=
  { env with
    validators := { env.validators with
      opCodec := net.opCodec
      blockchain := bc
      ctx := ⟨b.slot, b.era, b.hash⟩ } }

/-- The state of `CommitBlockTransactions`, with the initial transactions of the
    withdrawals it has paid. -/
structure Commit where
  bc : Blockchain
  db : StateDB
  gp : UInt64
  receipts : List (Hash × ReceiptStatus)
  paid : List Hash

/-- A core error after which the sync operation is restored. -/
def CoreError.restores (e : CoreError) : Bool :=
  e = .gasLimitReached ∨ e = .nonceTooLow ∨ e = .nonceTooHigh

/-- The withdrawal that a successful transaction has paid. -/
def paidBy (env : Env) (tx : Hash) (c : Commit) : Option Hash :=
  if chargedType env (net.msg tx) (newStateTransition c.db c.gp) = .validatorSync then
    (net.syncOp env.validators.blockchain.config tx).bind fun op =>
      if op.opType = .updateBalance then some op.initTxHash else none
  else none

/-- One turn of the loop of `CommitBlockTransactions`; a run-time panic ends the node. -/
def commitTransaction (env : Env) (b : ExecBlock) (c : Commit) (tx : Hash) : Option Commit :=
  let env := env.ofBlock net b c.bc
  match applyMessage env (net.msg tx) c.db c.gp with
  | (.error .panic, _) => none
  | (.error (.core e), st) => some
      { c with
        bc := match net.syncOp c.bc.config tx with
          | some op => if e.restores then c.bc.restoreValidatorSyncOp b.slot tx op else c.bc
          | none => c.bc
        db := st.db.finalise
        gp := st.gp
        receipts := c.receipts ++ [(tx, .failed)] }
  | (.ok r, st) =>
    let status := if r.err = none then .successful else .failed
    some
      { bc := c.bc.writeTxLookupEntry tx (net.msg tx) b.hash status
        db := st.db.finalise
        gp := st.gp
        receipts := c.receipts ++ [(tx, status)]
        paid := if r.err = none then c.paid ++ (paidBy net env tx c).toList else c.paid }

/-- `handleBlockValidatorSyncReceipts` for one receipt. -/
def handleValidatorSyncReceipt (bc : Blockchain) (receipt : Hash × ReceiptStatus) : Blockchain :=
  match net.syncOp bc.config receipt.1 with
  | none => bc
  | some op => if receipt.2 = .successful then bc.setValidatorSyncData (op.saved receipt.1) else bc

/-- The receipts of an executed block are stored. -/
def storeReceipts (block : Hash) (bc : Blockchain) (receipts : List (Hash × ReceiptStatus)) :
    Blockchain :=
  receipts.foldl (fun bc r => bc.storeReceipt r.1 (net.msg r.1) block r.2) bc

/-- `CommitBlockTransactions`: the chain, the state and the paid withdrawals. -/
def commitBlockTransactions (env : Env) (b : ExecBlock) (bc : Blockchain) (db : StateDB) :
    Option (Blockchain × StateDB × List Hash) := do
  let c ← b.txs.foldlM (commitTransaction net env b) ⟨bc, db, b.gasLimit, [], []⟩
  let bc := c.receipts.foldl (handleValidatorSyncReceipt net) (storeReceipts net b.hash c.bc c.receipts)
  return (bc, c.db, c.paid)

/-! ## Runs -/

/-- The chain data and the state of a node. -/
structure Node where
  bc : Blockchain
  db : StateDB

/-- What happens to a node. -/
inductive NodeEvent where
  | deliver (vs : ValidatorSync)
  | insert (b : ExecBlock)
  | execute (env : Env) (b : ExecBlock)

/-- One event, with the withdrawals that it pays. -/
def Node.step (n : Node) : NodeEvent → Option (Node × List Hash)
  | .deliver vs => some ({ n with bc := n.bc.appendNotProcessed vs }, [])
  | .insert b => some ({ n with bc := n.bc.insertBlock net b }, [])
  | .execute env b => do
    let (bc, db, paid) ← commitBlockTransactions net env b n.bc n.db
    return (⟨bc, db⟩, paid)

/-- The runs from `n₀` whose events satisfy `P`, with all the withdrawals they pay. -/
inductive Node.Run (P : Node → NodeEvent → Prop) (n₀ : Node) : Node → List Hash → Prop where
  | start : Run P n₀ n₀ []
  | step {n n' : Node} {paid new : List Hash} {e : NodeEvent} :
      Run P n₀ n paid → P n e → n.step net e = some (n', new) → Run P n₀ n' (paid ++ new)

end

end Gwat
