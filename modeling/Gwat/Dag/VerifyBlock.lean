/-
  The verification of a received block (`VerifyBlock` in `core/blockchain.go`).

  The checks of the slot, the creator, the body and the fees are parameters of `Verifier`; the
  checks that look at the DAG are translated: the checkpoint, the height and the parents.
-/
import Gwat.Dag.HeaderChain

namespace Gwat

open GoLib List

/-- The node that verifies a block: the stored headers, the checkpoints received from the
    coordinator that are not outdated, the hashes of rejected blocks, and the checks that do not
    concern the DAG. -/
structure Verifier where
  chain : HeaderChain
  coordinated : Hash → Bool
  invalidBlocksCache : Hash → Bool
  verifyBlockSlot : Header → Bool
  verifyBlockEra : Header → Bool
  getCreatorsBySlot : ℕ → Except VerifyError (List Address)
  verifyBlockCoinbase : Header → List Address → Bool
  verifyEmptyBlock : Header → List Address → Except VerifyError Unit
  verifyHibernateModeBlock : Header → Except VerifyError Bool
  verifyBlockBaseFee : Header → Bool
  verifyBlockHashes : Header → Bool
  verifyBlockUsedGas : Header → Bool

/-- The orders in which the two loops over the map of parents visit it. -/
structure ParentOrder where
  outer : Shuffle Hash
  inner : Hash → Shuffle Hash

namespace HeaderChain

/-! ## Parents -/

/-- The checks of one parent: it is stored, lower and in an earlier slot. -/
def verifyParent (hc : HeaderChain) (block : Header) (parentHash : Hash) :
    Except VerifyError Bool :=
  match hc.getHeader parentHash with
  | none => .error .insertUncompletedDag
  | some parent => .ok (decide (parent.height < block.height ∧ parent.slot < block.slot))

/-- All parents are in the slot of the first. -/
def parentsSlotsEquals (hc : HeaderChain) (parents : List Hash) : Bool :=
  match parents.filterMap fun h => (hc.getHeader h).map fun p => p.slot with
  | [] => true
  | pSlot :: slots => slots.all fun s => s = pSlot

/-- One round of the loop that looks for the ancestors of the parent `ph` among the parents. -/
def noParentAncestor (hc : HeaderChain) (o : ParentOrder) (parents : List Hash) (ph : Hash) :
    Except VerifyError Bool :=
  match hc.getHeader ph with
  | none => .error .nilPointer
  | some parentHeader =>
    if 0 < hc.nr ph ∨ parentHeader.height = 0 then .ok true
    else ((o.inner ph).order parents).allM fun pph =>
      if ph = pph then .ok true
      else do return !(← hc.isAncestorByTips parentHeader pph)

/-- `bc.verifyBlockParents` -/
def verifyBlockParents (hc : HeaderChain) (o : ParentOrder) (block : Header) :
    Except VerifyError Bool :=
  if block.parentHashes = [] then .ok false
  else do
    let valid ← block.parentHashes.allM (hc.verifyParent block)
    require valid <|
      if hc.parentsSlotsEquals block.parentHashes then .ok true
      else
        -- the headers are kept in a map, where a repeated parent is one entry
        let parents := block.parentHashes.dedup
        (o.outer.order parents).allM (hc.noParentAncestor o parents)

/-! ## Checkpoint and height -/

/-- The check of the block's checkpoint against the checkpoint of one parent. -/
def verifyParentCp (hc : HeaderChain) (block cpHeader : Header) (ph : Hash) :
    Except VerifyError Bool :=
  match hc.blockDag ph with
  | none => .error .nilPointer
  | some parBdag =>
    if block.cpHash = parBdag.cpHash then .ok true
    else if cpHeader.height ≤ parBdag.cpHeight then .ok false
    else if block.cpHash ∈ block.parentHashes ∧ parBdag.slot = cpHeader.slot then .ok true
    else .ok (decide (block.cpHash ∈ parBdag.orderedAncestorsHashes))

/-- `bc.verifyBlockHeight`, with `bc.calcBlockHeight` -/
def verifyBlockHeight (hc : HeaderChain) (block : Header) (ancestorsCount : ℕ) :
    Except VerifyError Bool :=
  match hc.getHeader block.cpHash with
  | none => .error .nilPointer
  | some cpHeader => .ok (decide (block.height = cpHeader.height + ancestorsCount + 1))

/-- The checkpoint below which ancestors are collected, and the ancestors to leave out: if the
    checkpoint of the block is one of its parents, the checkpoint of the checkpoint. -/
def cpCp (hc : HeaderChain) (block : Header) : Except VerifyError (Hash × List Hash) :=
  if block.cpHash ∈ block.parentHashes then
    match hc.getHeader block.cpHash with
    | none => .error .nilPointer
    | some pHdr => do
      let cpCpHash := if pHdr.height = 0 then pHdr.hash else pHdr.cpHash
      let c ← hc.collectAncestorsAftCpByTips pHdr.parentHashes cpCpHash
      return (cpCpHash, c.ancestors)
  else .ok (block.cpHash, [])

end HeaderChain

namespace Verifier

/-- `bc.verifyCheckpoint` -/
def verifyCheckpoint (bc : Verifier) (block : Header) : Except VerifyError Bool :=
  require (bc.coordinated block.cpHash) <|
    match bc.chain.getHeader block.cpHash with
    | none => .ok false
    | some cpHeader =>
      require (¬ (0 < cpHeader.height ∧ bc.chain.nr block.cpHash = 0)) <|
      require (block.cpNumber = bc.chain.nr block.cpHash) <|
      require (block.cpHash = cpHeader.hash) <|
      require (block.cpState = cpHeader.state) <|
        block.parentHashes.allM (bc.chain.verifyParentCp block cpHeader)

/-- The second half of `VerifyBlock`, which looks at the DAG. -/
def verifyDag (bc : Verifier) (o : ParentOrder) (block : Header) : Except VerifyError Bool := do
  let (cpCpHash, cpCpAncestors) ← bc.chain.cpCp block
  let c ← bc.chain.collectAncestorsAftCpByTips block.parentHashes cpCpHash
  let ancestors := c.ancestors.filter fun h =>
    h ∉ cpCpAncestors ∧ ¬ (cpCpHash ≠ block.cpHash ∧ h = block.cpHash)
  require (¬ c.unloaded.any bc.invalidBlocksCache) do
    failIf (c.unloaded ≠ []) .insertUncompletedDag
    require (c.isCpAncestor ∨ block.cpHash ∈ block.parentHashes) do
      let cpValid ← bc.verifyCheckpoint block
      require cpValid do
        let heightValid ← bc.chain.verifyBlockHeight block ancestors.length
        require heightValid (bc.chain.verifyBlockParents o block)

/-- `bc.VerifyBlock` -/
def verifyBlock (bc : Verifier) (o : ParentOrder) (block : Header) : Except VerifyError Bool := do
  failIf (¬ bc.verifyBlockSlot block) .futureBlock
  require (bc.verifyBlockEra block) do
    let slotCreators ← bc.getCreatorsBySlot block.slot
    require (bc.verifyBlockCoinbase block slotCreators) do
      bc.verifyEmptyBlock block slotCreators
      let isValid ← bc.verifyHibernateModeBlock block
      require isValid <|
        require (bc.verifyBlockBaseFee block) <|
        require (bc.verifyBlockHashes block) <|
        require (bc.verifyBlockUsedGas block) <|
          bc.verifyDag o block

end Verifier

/-! ## What the checks of the parents establish -/

namespace HeaderChain

variable {hc : HeaderChain} {o : ParentOrder} {block : Header}
variable {p q : Header} {parents : List Hash}

theorem verifyParent_eq_true {p : Hash} (h : hc.verifyParent block p = .ok true) :
    ∃ parent ∈ hc.headers, parent.hash = p ∧ parent.slot < block.slot ∧
      parent.height < block.height := by
  rw [verifyParent] at h
  cases hp : hc.getHeader p with
  | none => rw [hp] at h; cases h
  | some parent =>
    obtain ⟨hm, hh⟩ := getHeader_eq_some.1 hp
    have hlt : parent.height < block.height ∧ parent.slot < block.slot := by simpa [hp] using h
    exact ⟨parent, hm, hh, hlt.2, hlt.1⟩

theorem slot_eq_of_parentsSlotsEquals (h : hc.parentsSlotsEquals parents = true)
    (hp : p ∈ hc.headers) (hq : q ∈ hc.headers) (hpm : p.hash ∈ parents) (hqm : q.hash ∈ parents) :
    p.slot = q.slot := by
  have hmem : ∀ b ∈ hc.headers, b.hash ∈ parents →
      b.slot ∈ parents.filterMap fun h => (hc.getHeader h).map fun p => p.slot :=
    fun b hb hbm => mem_filterMap.2 ⟨_, hbm, by simp [getHeader_of_mem hb]⟩
  have hps := hmem p hp hpm
  have hqs := hmem q hq hqm
  rw [parentsSlotsEquals] at h
  split at h
  · next heq => rw [heq] at hps; cases hps
  · next s slots heq =>
    rw [heq, mem_cons] at hps hqs
    have hall : ∀ t ∈ slots, t = s := by simpa using h
    rw [hps.elim id (hall _), hqs.elim id (hall _)]

theorem noParentAncestor_eq_true (hp : p ∈ hc.headers)
    (h : hc.noParentAncestor o parents p.hash = .ok true) : 0 < hc.nr p.hash ∨ p.height = 0 ∨
      ∀ q ∈ parents, p.hash ≠ q → hc.isAncestorByTips p q = .ok false := by
  rw [noParentAncestor, getHeader_of_mem hp] at h
  simp only at h
  split_ifs at h with hex
  · exact hex.imp id .inl
  · refine .inr (.inr fun q hq hne => ?_)
    have hq' := allM_eq_true.1 h q (Shuffle.mem_order.2 hq)
    rw [if_neg hne] at hq'
    obtain ⟨b, hb, hret⟩ := bind_eq_ok.1 hq'
    cases b with
    | false => exact hb
    | true => cases hret

/-- An accepted list of parents is not empty, its blocks are below the block in slot and
    height, and they are in one slot or passed the search for ancestors. -/
theorem verifyBlockParents_eq_true (h : hc.verifyBlockParents o block = .ok true) :
    block.parentHashes ≠ [] ∧ (∀ p ∈ block.parentHashes, ∃ parent ∈ hc.headers, parent.hash = p ∧
      parent.slot < block.slot ∧ parent.height < block.height) ∧
    (hc.parentsSlotsEquals block.parentHashes = true ∨
      ∀ p ∈ hc.headers, p.hash ∈ block.parentHashes → 0 < hc.nr p.hash ∨ p.height = 0 ∨
        ∀ q ∈ block.parentHashes, p.hash ≠ q → hc.isAncestorByTips p q = .ok false) := by
  rw [verifyBlockParents] at h
  split_ifs at h with hne hslots
  · cases h
  all_goals obtain ⟨valid, hvalid, h⟩ := bind_eq_ok.1 h
  all_goals obtain ⟨rfl, h⟩ := require_eq_true.1 h
  all_goals refine ⟨hne, fun p hp => verifyParent_eq_true (allM_eq_true.1 hvalid p hp), ?_⟩
  · exact .inl hslots
  · refine .inr fun p hp hpm => ?_
    have hround := allM_eq_true.1 h p.hash (Shuffle.mem_order.2 (mem_dedup.2 hpm))
    simpa only [mem_dedup] using noParentAncestor_eq_true hp hround

/-- The parents of a block form an antichain of the DAG below the block. -/
structure ParentsOk (hc : HeaderChain) (block : Header) : Prop where
  ne_nil : block.parentHashes ≠ []
  nodup : block.parentHashes.Nodup
  below : ∀ p ∈ block.parentHashes, ∃ parent ∈ hc.headers, parent.hash = p ∧
    parent.slot < block.slot ∧ parent.height < block.height
  antichain : ∀ p ∈ block.parentHashes, ∀ q ∈ block.parentHashes, ¬ hc.Ancestor p q

/-- Among accepted parents an ancestor is found only where the code does not look for it: of a
    finalized parent, or as the checkpoint of a parent. -/
theorem Sound.unseen_of_ancestor (hs : hc.Sound) (h : hc.verifyBlockParents o block = .ok true)
    (hp : p ∈ hc.headers) (hq : q ∈ hc.headers) (hpm : p.hash ∈ block.parentHashes)
    (hqm : q.hash ∈ block.parentHashes) (hanc : hc.Ancestor p.hash q.hash) :
    0 < hc.nr p.hash ∨ hc.Overlooked p q.hash := by
  obtain ⟨-, -, hslots | hsearch⟩ := verifyBlockParents_eq_true h
  · have := slot_eq_of_parentsSlotsEquals hslots hp hq hpm hqm
    exact absurd (hs.slot_lt hp hq hanc) (by omega)
  · rcases hsearch p hp hpm with hnr | hzero | hnot
    · exact .inl hnr
    · exact absurd (hs.root p hp hzero) (hanc.parentHashes_ne_nil hp)
    · have hno := hnot _ hqm (hs.ne_of_ancestor hp hq hanc)
      exact .inr (hs.isAncestorByTips_false hp hq hanc hno)

end HeaderChain

namespace Verifier

variable {bc : Verifier} {o : ParentOrder} {block : Header}

theorem verifyDag_parents (h : bc.verifyDag o block = .ok true) :
    bc.chain.verifyBlockParents o block = .ok true := by
  obtain ⟨⟨cpCpHash, cpCpAncestors⟩, -, h⟩ := bind_eq_ok.1 h
  obtain ⟨c, -, h⟩ := bind_eq_ok.1 h
  obtain ⟨-, h⟩ := require_eq_true.1 h
  obtain ⟨u, -, h⟩ := bind_eq_ok.1 h
  obtain ⟨-, h⟩ := require_eq_true.1 h
  obtain ⟨cpValid, -, h⟩ := bind_eq_ok.1 h
  obtain ⟨-, h⟩ := require_eq_true.1 h
  obtain ⟨heightValid, -, h⟩ := bind_eq_ok.1 h
  exact (require_eq_true.1 h).2

theorem verifyBlock_parents (h : bc.verifyBlock o block = .ok true) :
    bc.chain.verifyBlockParents o block = .ok true := by
  obtain ⟨u, -, h⟩ := bind_eq_ok.1 h
  obtain ⟨-, h⟩ := require_eq_true.1 h
  obtain ⟨creators, -, h⟩ := bind_eq_ok.1 h
  obtain ⟨-, h⟩ := require_eq_true.1 h
  obtain ⟨u, -, h⟩ := bind_eq_ok.1 h
  obtain ⟨isValid, -, h⟩ := bind_eq_ok.1 h
  obtain ⟨-, h⟩ := require_eq_true.1 h
  obtain ⟨-, h⟩ := require_eq_true.1 h
  obtain ⟨-, h⟩ := require_eq_true.1 h
  obtain ⟨-, h⟩ := require_eq_true.1 h
  exact verifyDag_parents h

/-- The parents of an accepted block are below it, and no parent that is not finalized has
    another one as an ancestor, its checkpoint apart. -/
theorem verifyBlock_parents_unrelated (hs : bc.chain.Sound)
    (h : bc.verifyBlock o block = .ok true) :
    block.parentHashes ≠ [] ∧
    (∀ p ∈ block.parentHashes, ∃ parent ∈ bc.chain.headers, parent.hash = p ∧
      parent.slot < block.slot ∧ parent.height < block.height) ∧
    ∀ p ∈ bc.chain.headers, ∀ q ∈ bc.chain.headers, p.hash ∈ block.parentHashes →
      q.hash ∈ block.parentHashes → bc.chain.nr p.hash = 0 → ¬ bc.chain.Overlooked p q.hash →
        ¬ bc.chain.Ancestor p.hash q.hash := by
  have hpar := verifyBlock_parents h
  obtain ⟨hne, hbelow, -⟩ := HeaderChain.verifyBlockParents_eq_true hpar
  refine ⟨hne, hbelow, ?_⟩
  intro p hp q hq hpm hqm hnr hover hanc
  rcases hs.unseen_of_ancestor hpar hp hq hpm hqm hanc with hfin | hseen
  · omega
  · exact hover hseen

/-! ### A chain of five blocks -/

/-- The genesis block 1, the chain 2, 3, 4 above it and block 5 beside 4; 2 and 3 are finalized, and
    4 and 5 name 2 as their checkpoint. -/
def fiveBlocks : HeaderChain where
  headers := [plainHeader 1 [] 0 0 0 0, plainHeader 2 [1] 1 1 1 0, plainHeader 3 [2] 2 2 1 0,
    plainHeader 4 [3] 3 3 2 1, plainHeader 5 [3] 4 3 2 1]
  nodup := by decide
  genesis := 1
  number h := if h = 1 then some 0 else if h = 2 then some 1 else if h = 3 then some 2 else none
  blockDag h :=
    if h = 1 then some ⟨0, 0, 0, []⟩
    else if h = 2 then some ⟨1, 1, 0, []⟩
    else if h = 3 then some ⟨2, 1, 0, [2]⟩
    else if h = 4 then some ⟨3, 2, 1, [3]⟩
    else if h = 5 then some ⟨4, 2, 1, [3]⟩
    else none
  collected _ := none

/-- A node with these blocks whose other checks pass. -/
def fiveBlocksVerifier : Verifier where
  chain := fiveBlocks
  coordinated _ := true
  invalidBlocksCache _ := false
  verifyBlockSlot _ := true
  verifyBlockEra _ := true
  getCreatorsBySlot _ := .ok []
  verifyBlockCoinbase _ _ := true
  verifyEmptyBlock _ _ := .ok ()
  verifyHibernateModeBlock _ := .ok true
  verifyBlockBaseFee _ := true
  verifyBlockHashes _ := true
  verifyBlockUsedGas _ := true

theorem fiveBlocks_sound : fiveBlocks.Sound where
  slots := by decide
  root := by decide
  numbers := by decide
  positive := by decide
  cpNumber := by decide
  cpUnique := by decide
  cpMono := by decide
  parents := by decide
  closed := by decide
  below := by
    -- the lists of the two checkpoints are empty
    have hnil : ∀ r ∈ fiveBlocks.headers, r.parentHashes ≠ [] →
        fiveBlocks.cpAncestors r.cpHash = .ok (some []) := by decide
    intro r hr hne l hl a ha
    rw [hnil r hr hne] at hl
    cases hl
    cases ha
  complete := by decide

theorem fiveBlocks_parent_two : fiveBlocks.Parent 3 2 :=
  ⟨plainHeader 3 [2] 2 2 1 0, by decide, by decide⟩

theorem fiveBlocks_parent_three : fiveBlocks.Parent 4 3 :=
  ⟨plainHeader 4 [3] 3 3 2 1, by decide, by decide⟩

/-- A block on the tips 4 and 5, neither of which is an ancestor of the other. -/
theorem verifyBlock_parents_unrelated_tips :
    fiveBlocksVerifier.verifyBlock ⟨.stored, fun _ => .stored⟩ (plainHeader 6 [4, 5] 5 5 2 1)
      = .ok true ∧ ¬ fiveBlocks.Ancestor 4 5 ∧ ¬ fiveBlocks.Ancestor 5 4 := by
  have hacc : fiveBlocksVerifier.verifyBlock ⟨.stored, fun _ => .stored⟩
      (plainHeader 6 [4, 5] 5 5 2 1) = .ok true := by decide
  obtain ⟨-, -, hunrelated⟩ := verifyBlock_parents_unrelated fiveBlocks_sound hacc
  refine ⟨hacc, hunrelated (plainHeader 4 [3] 3 3 2 1) ?_ (plainHeader 5 [3] 4 3 2 1) ?_ ?_ ?_ ?_ ?_,
    hunrelated (plainHeader 5 [3] 4 3 2 1) ?_ (plainHeader 4 [3] 3 3 2 1) ?_ ?_ ?_ ?_ ?_⟩
  all_goals decide

/-- Accepted: a parent listed twice, a finalized parent with its own parent, and a parent with
    its checkpoint. -/
theorem verifyBlock_accepts_related :
    fiveBlocks.Sound ∧
    ∀ block ∈ [plainHeader 6 [4, 4] 5 4 2 1, plainHeader 6 [3, 2] 5 3 2 1,
      plainHeader 6 [4, 2] 5 4 2 1],
      fiveBlocksVerifier.verifyBlock ⟨.stored, fun _ => .stored⟩ block = .ok true ∧
        ¬ fiveBlocks.ParentsOk block := by
  refine ⟨fiveBlocks_sound, ?_⟩
  simp only [forall_mem_cons]
  refine ⟨⟨by decide, ?_⟩, ⟨by decide, ?_⟩, ⟨by decide, ?_⟩, by simp⟩
  · intro hok
    exact absurd hok.nodup (by decide)
  · intro hok
    exact hok.antichain 3 (by decide) 2 (by decide) (.single fiveBlocks_parent_two)
  · intro hok
    exact hok.antichain 4 (by decide) 2 (by decide)
      (.head fiveBlocks_parent_three (.single fiveBlocks_parent_two))

end Verifier

end Gwat
