/-
  Blocks of the DAG and the store that holds them (`core/types/block.go`,
  `core/blockchain_reader.go`).
-/
import Gwat.Common
import Gwat.Lib.GoMap

namespace Gwat

open GoLib

variable {s : BlockStore} {h : Hash} {b : Block}

/-- The fields of `types.Block` that the ordering of the DAG reads. -/
structure Block where
  hash : Hash
  parentHashes : List Hash
  slot : ℕ
  height : ℕ
  deriving DecidableEq, Repr

/-- `len(block.ParentHashes())` -/
def Block.plen (b : Block) : ℕ := b.parentHashes.length

/-! ## The block store -/

/-- The stored blocks, at most one under each hash. -/
structure BlockStore where
  blocks : List Block
  nodup : (blocks.map Block.hash).Nodup

/-- `bc.GetBlockByHash` -/
def BlockStore.get (s : BlockStore) (h : Hash) : Option Block :=
  s.blocks.find? (fun b => b.hash = h)

theorem BlockStore.get_eq_some : s.get h = some b ↔ b ∈ s.blocks ∧ b.hash = h :=
  find?_key_eq_some s.nodup

theorem BlockStore.get_mem (hb : s.get h = some b) : b ∈ s.blocks :=
  (get_eq_some.1 hb).1

theorem BlockStore.get_hash (hb : s.get h = some b) : b.hash = h :=
  (get_eq_some.1 hb).2

theorem BlockStore.get_of_mem (hb : b ∈ s.blocks) : s.get b.hash = some b :=
  get_eq_some.2 ⟨hb, rfl⟩

/-! ## The DAG and its finalized numbers -/

/-- The stored blocks with the index from hashes to finalized numbers. -/
structure DagChain where
  store : BlockStore
  finNumber : Hash → Option ℕ

namespace DagChain

variable {bc : DagChain} {b : Block}

/-- `block.Number()`: the finalized number of a block read with `GetBlock`. -/
def number (bc : DagChain) (b : Block) : Option ℕ := bc.finNumber b.hash

/-- `bc.GetBlocksByHashes`: a missing block is present in the map as `nil`. -/
def getBlocksByHashes (bc : DagChain) (hashes : List Hash) : GoMap Hash (Option Block) :=
  hashes.foldl (fun m h => m.insert h (bc.store.get h)) ∅

/-- `p` is listed as a parent of the stored block `c`. -/
def Parent (bc : DagChain) (c p : Hash) : Prop :=
  ∃ b, bc.store.get c = some b ∧ p ∈ b.parentHashes

/-- `a` is `h` or one of its ancestors. -/
def AncestorOrSelf (bc : DagChain) (h a : Hash) : Prop := Relation.ReflTransGen bc.Parent h a

/-- Each parent's slot is smaller than its child's. -/
def SlotOrdered (bc : DagChain) : Prop :=
  ∀ b ∈ bc.store.blocks, ∀ p ∈ bc.store.blocks, p.hash ∈ b.parentHashes → p.slot < b.slot

/-- The finalized blocks are closed under taking parents. -/
def FinClosed (bc : DagChain) : Prop :=
  ∀ c p, bc.Parent c p → (bc.finNumber c).isSome → (bc.finNumber p).isSome

/-- `h` and all its ancestors are stored. -/
def AncestorsStored (bc : DagChain) (h : Hash) : Prop :=
  ∀ a, bc.AncestorOrSelf h a → (bc.store.get a).isSome

theorem parent_iff (hb : b ∈ bc.store.blocks) {p : Hash} :
    bc.Parent b.hash p ↔ p ∈ b.parentHashes := by
  simp [Parent, BlockStore.get_of_mem hb]

theorem finClosed_iff : bc.FinClosed ↔ ∀ b ∈ bc.store.blocks, (bc.finNumber b.hash).isSome →
      ∀ p ∈ b.parentHashes, (bc.finNumber p).isSome := by
  constructor
  · exact fun hf b hb hn p hp => hf _ _ ((parent_iff hb).2 hp) hn
  · rintro h c p ⟨b, hb, hp⟩ hc
    obtain ⟨hbm, rfl⟩ := BlockStore.get_eq_some.1 hb
    exact h b hbm hc p hp

theorem ancestorsStored_of_closed
    (hc : ∀ b ∈ bc.store.blocks, ∀ p ∈ b.parentHashes, (bc.store.get p).isSome)
    (hb : b ∈ bc.store.blocks) : bc.AncestorsStored b.hash := by
  intro a ha
  induction ha with
  | refl => rw [BlockStore.get_of_mem hb]; rfl
  | tail _ hp _ =>
    obtain ⟨c, hcg, hp⟩ := hp
    exact hc c (BlockStore.get_mem hcg) _ hp

end DagChain

end Gwat
