/-
  The finalizer (`dag/finalizer/finalizer.go`) and the part of the block chain it
  writes: the finalization index and the last finalized head (`core/blockchain.go`).
-/
import Gwat.Dag.Spine
import Gwat.Lib.Numbering

namespace Gwat

open GoLib

/-- The errors of `Finalize`; `processing` is an error of the state processing of a
    block. -/
inductive FinError where
  | busy
  | badParams
  | blockNotFound
  | badBlockNr
  | insertionInterrupted
  | zeroFinNr
  | cpNotFound
  | spineNotFound
  | calcChain (e : SpineError)
  | processing (code : ℕ)
  | finNrUsed
  deriving DecidableEq, Repr

/-- The finalized chain over the stored DAG.  `permits` is the number of times that
    `chainmu.TryLock` still succeeds, `none` when the chain is not stopped. -/
structure FinChain where
  store : BlockStore
  genesis : Hash
  index : Numbering Hash
  head : Hash
  root : Hash → Hash
  permits : Option ℕ

/-- The processing of a block on the state under a root: the new root or an error. -/
abbrev Process := Hash → Block → Except ℕ Hash

/-- What a call of `Finalize` meets: the processing of blocks, whether a checkpoint is found
    for a header (`hasCp`), and the orders in which it ranges over maps. -/
structure FinEnv where
  process : Process
  hasCp : Hash → Bool
  order : Hash → SpineOrder
  slots : Shuffle ℕ

namespace FinChain

/-- The DAG that `SpineGetDagChain` reads. -/
def dag (c : FinChain) : DagChain := ⟨c.store, c.index.numOf⟩

/-- `block.Nr()`: the finalized number of a block, `0` when it has none. -/
def nr (c : FinChain) (h : Hash) : ℕ := (c.index.numOf h).getD 0

/-- `bc.GetHeaderByNumber` and `bc.GetBlockByNumber` -/
def getBlockByNumber (c : FinChain) (n : ℕ) : Option Block := (c.index.keyAt n).bind c.store.get

/-- `bc.chainmu.TryLock`, which fails once the chain is stopped. -/
def tryLock (c : FinChain) : Option FinChain :=
  match c.permits with
  | none => some c
  | some 0 => none
  | some (k + 1) => some { c with permits := some k }

/-- `block.SetHeader` with a new state root. -/
def setRoot (c : FinChain) (h root : Hash) : FinChain :=
  { c with root := Function.update c.root h root }

/-! ## Writing and rolling back single blocks -/

/-- `bc.writeFinalizedBlock` past its check. -/
def assign (c : FinChain) (finNr : ℕ) (h : Hash) (isHead : Bool) : FinChain :=
  { c with index := c.index.set finNr h, head := if isHead then h else c.head }

/-- `bc.WriteFinalizedBlock` -/
def writeFinalizedBlock (c : FinChain) (finNr : ℕ) (h : Hash) (isHead : Bool) :
    Except FinError Unit × FinChain :=
  match c.tryLock with
  | none => (.error .insertionInterrupted, c)
  | some c =>
    if finNr = 0 ∧ h ≠ c.genesis then (.error .zeroFinNr, c)
    else (.ok (), c.assign finNr h isHead)

/-- The effect of `bc.rollbackBlockFinalization`: the entry is deleted in both
    directions and the header's state root reset. -/
def unassign (c : FinChain) (finNr : ℕ) (h : Hash) : FinChain :=
  { c.setRoot h 0 with index := c.index.erase finNr h }

/-- `bc.rollbackBlockFinalization` -/
def rollbackBlockFinalization (c : FinChain) (finNr : ℕ) : Except FinError Unit × FinChain :=
  match c.tryLock with
  | none => (.error .insertionInterrupted, c)
  | some c =>
    match c.getBlockByNumber finNr with
    | none => (.error .blockNotFound, c)
    | some b => (.ok (), c.unassign finNr b.hash)

/-! ## `RollbackFinalization` -/

/-- The loop of `RollbackFinalization` from `i` down to the number after `lo`.  The
    error of a step is only logged. -/
def rollbackLoop (lo : ℕ) : ℕ → FinChain → FinChain
  | 0, c => c
  | i + 1, c =>
    if i + 1 ≤ lo then c
    else
      match c.getBlockByNumber (i + 1) with
      | none => rollbackLoop lo i c
      | some _ => rollbackLoop lo i (c.rollbackBlockFinalization (i + 1)).2

/-- `bc.RollbackFinalization` -/
def rollbackFinalization (env : FinEnv) (spine : Hash) (lfNr : ℕ) (c : FinChain) :
    Except FinError Unit × FinChain :=
  match c.store.get spine with
  | none => (.error .blockNotFound, c)
  | some _ =>
    if c.index.numOf spine = none ∧ spine ≠ c.genesis then (.error .badBlockNr, c)
    else if spine = c.head ∧ lfNr ≤ c.nr spine then (.ok (), c)
    else
      let newNr := c.nr spine
      andThen ((rollbackLoop newNr lfNr c).writeFinalizedBlock newNr spine true) fun c =>
        if env.hasCp spine then (.ok (), c) else (.error .cpNotFound, c)

/-- `f.SetSpineState` -/
def setSpineState (env : FinEnv) (spine : Option Hash) (lfNr : ℕ) (c : FinChain) :
    Except FinError Unit × FinChain :=
  match spine with
  | none => (.error .badParams, c)
  | some spine => c.rollbackFinalization env spine lfNr

/-! ## `Finalize` -/

/-- `bc.UpdateFinalizingState`: process `b` on the state of `stateBlock` and record its
    state root. -/
def updateFinalizingState (process : Process) (b : Block) (stateBlock : Hash) (c : FinChain) :
    Except FinError FinChain :=
  match process (c.root stateBlock) b with
  | .error code => .error (.processing code)
  | .ok root => .ok (c.setRoot b.hash root)

/-- `f.finalizeBlock` -/
def finalizeBlock (c : FinChain) (finNr : ℕ) (h : Hash) (isHead : Bool) :
    Except FinError Unit × FinChain :=
  if c.index.numOf h = some finNr then (.ok (), c)
  else if c.index.keyAt finNr ≠ none then (.error .finNrUsed, c)
  else c.writeFinalizedBlock finNr h isHead

/-- The loop of `Finalize` over the chain of one spine, from the number `nr` on. -/
def finalizeBlocks (env : FinEnv) (successSpine : Hash) :
    ℕ → Hash → List Block → FinChain → Except FinError Unit × FinChain
  | _, _, [], c => (.ok (), c)
  | nr, lastFinBlock, b :: bs, c =>
    match c.updateFinalizingState env.process b lastFinBlock with
    | .error e => (.error e, c)
    | .ok c =>
      match c.finalizeBlock nr b.hash bs.isEmpty with
      | (.ok (), c) => finalizeBlocks env successSpine (nr + 1) b.hash bs c
      | (.error e, c) =>
        andThen (c.setSpineState env (some successSpine) nr) fun c => (.error e, c)

/-- The loop of `Finalize` over the spines, with its variables `lastFinBlock`,
    `lastFinNr` and `successSpine`. -/
def finalizeSpines (env : FinEnv) :
    List Block → Hash → ℕ → Hash → FinChain → Except FinError Unit × FinChain
  | [], _, _, _, c => (.ok (), c)
  | spine :: rest, lastFinBlock, lastFinNr, successSpine, c =>
    match spineGetDagChain c.dag (env.order spine.hash) spine with
    | .error e => (.error (.calcChain e), c)
    | .ok orderedChain =>
      match orderedChain.getLast? with
      | none => finalizeSpines env rest lastFinBlock lastFinNr successSpine c
      | some last =>
        andThen (finalizeBlocks env successSpine (lastFinNr + 1) lastFinBlock orderedChain c)
          fun c => finalizeSpines env rest last.hash (c.nr last.hash) spine.hash c

/-- The spines in the order of their slots, through `spinesMap`. -/
def sortBySlot (o : Shuffle ℕ) (spines : List Block) : List Block :=
  let spinesMap : GoMap ℕ Block := indexBy Block.slot spines
  (sortAsc (o.order spinesMap.keys)).filterMap spinesMap.lookup

/-- `Finalizer.Finalize` -/
def finalize (env : FinEnv) (busy : Bool) (spines : List Hash) (baseSpine : Option Hash)
    (c : FinChain) : Except FinError Unit × FinChain :=
  if busy then (.error .busy, c)
  else if spines = [] then (.ok (), c)
  else
    andThen (c.setSpineState env baseSpine (c.nr c.head)) fun c =>
      match spines.mapM c.store.get with
      | none => (.error .spineNotFound, c)
      | some blocks =>
        finalizeSpines env (sortBySlot env.slots blocks) c.head (c.nr c.head) c.head c

end FinChain

end Gwat
