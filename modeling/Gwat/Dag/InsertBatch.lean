/-
  Inserting a batch of blocks (`insertBlocks` in `core/blockchain.go`).
-/
import Gwat.Dag.SlotOrder
import Gwat.Dag.Tips
import Gwat.Dag.VerifyBlock

namespace Gwat

open GoLib List

/-- The blocks that hashes stand for.  A block contains the hashes of its parents, so no block is
    its own ancestor; `rank` stands for this. -/
structure BlockHashes where
  block : Hash → Header
  rank : Hash → ℕ
  rank_lt : ∀ h, ∀ p ∈ (block h).parentHashes, rank p < rank h

/-- The blocks, the tips, the blocks by slot, the children of blocks and the rejected blocks. -/
structure InsertState where
  tips : TipsState
  slotBlocks : ℕ → List Hash
  children : Hash → List Hash
  invalidBlocks : List Hash

/-- The operations for which blocks are inserted. -/
inductive InsertKind
  | create
  | propagate
  | delay
  | sync
  deriving DecidableEq, Repr

/-- What `insertBlocks` reads besides the blocks.  The checks of `VerifyBlock` that do not concern
    the DAG may depend on the state. -/
structure InsertEnv where
  coordinatedCheckpoint : Hash → Bool
  slotToEpoch : ℕ → ℕ
  lastCpEpoch : ℕ
  currEpoch : ℕ
  lastFinalizedNr : ℕ
  verifier : InsertState → Verifier
  order : ParentOrder
  interrupted : Bool
  stopped : ℕ → Bool

inductive BatchError
  | verify (e : VerifyError)
  | invalidBlock
  | record (e : InsertError)
  deriving DecidableEq, Repr

/-- What one round does with its block. -/
inductive Turn
  | inserted
  | skipped
  | failed (e : BatchError)
  deriving DecidableEq, Repr

namespace InsertState

/-- `rawdb.AddSlotBlockHash` -/
def addSlotBlockHash (s : InsertState) (slot : ℕ) (h : Hash) : InsertState :=
  if h ∈ s.slotBlocks slot then s
  else { s with slotBlocks := Function.update s.slotBlocks slot (s.slotBlocks slot ++ [h]) }

/-- `bc.AppendToChildren`, which reads all lists before it writes them; `WriteChildren` writes each
    child once, in the order of the hashes. -/
def appendToChildren (s : InsertState) (child : Hash) (parents : List Hash) : InsertState :=
  { s with
    children := fun p =>
      if p ∈ parents then hashArraySort (s.children p ++ [child]).eraseDups else s.children p }

/-- `bc.CacheInvalidBlock` -/
def cacheInvalidBlock (s : InsertState) (block : Header) : InsertState :=
  { s with invalidBlocks := block.hash :: s.invalidBlocks }

/-- The part of a round that writes. -/
def insert (s : InsertState) (block : Header) : Turn × InsertState :=
  let s := (s.addSlotBlockHash block.slot block.hash).appendToChildren block.hash block.parentHashes
  match s.tips.insertBlock block with
  | (tips, some e) => (.failed (.record e), { s with tips := tips })
  | (tips, none) => (.inserted, { s with tips := tips })

end InsertState

namespace InsertEnv

variable (env : InsertEnv) (validate : Bool) (op : InsertKind)

/-- The verification of the checkpoint in `insertBlocks`: a checkpoint that was not received from
    the coordinator has to be stored. -/
def acceptsCp (s : InsertState) (block : Header) : Bool :=
  env.coordinatedCheckpoint block.cpHash ||
    match s.tips.chain.getHeader block.cpHash with
    | none => false
    | some cpHeader =>
      let cpEpoch := env.slotToEpoch cpHeader.slot
      if cpEpoch ≤ env.lastCpEpoch ∧ env.currEpoch ≤ cpEpoch then false
      else if 0 < cpHeader.height ∧ s.tips.chain.nr block.cpHash = 0 then
        decide (env.lastFinalizedNr < block.cpNumber)
      else decide (block.cpNumber = s.tips.chain.nr block.cpHash)

/-- `bc.VerifyBlock` with the blocks and the rejected blocks of the state. -/
def verifyBlock (s : InsertState) (block : Header) : Except VerifyError Bool :=
  Verifier.verifyBlock { env.verifier s with
    chain := s.tips.chain
    invalidBlocksCache := fun h => h ∈ s.invalidBlocks } env.order block

/-- One round of the loop of `insertBlocks`. -/
def turn (s : InsertState) (block : Header) : Turn × InsertState :=
  if validate then
    if env.acceptsCp s block then
      match env.verifyBlock s block with
      | .error .futureBlock => (.skipped, s)
      | .error e => (.failed (.verify e), s)
      | .ok false =>
        (if op = .create ∨ op = .propagate then .failed .invalidBlock else .skipped,
          s.cacheInvalidBlock block)
      | .ok true => s.insert block
    else (.skipped, s.cacheInvalidBlock block)
  else s.insert block

/-- The loop of `insertBlocks` from the index `i` on. -/
def insertLoop : InsertState → ℕ → List Header → (ℕ × Option BatchError) × InsertState
  | s, i, [] => ((i, none), s)
  | s, i, block :: chain =>
    if env.stopped i then ((i, none), s)
    else
      match env.turn validate op s block with
      | (.failed e, s') => ((i, some e), s')
      | (_, s') => insertLoop s' (i + 1) chain

/-- `insertBlocks`: the index and the error, and the state that is left. -/
def insertBlocks (s : InsertState) (chain : List Header) :
    (ℕ × Option BatchError) × InsertState :=
  if env.interrupted then ((0, none), s) else env.insertLoop validate op s 0 chain

/-- The state after the rounds of some blocks. -/
def stateAfter (s : InsertState) (chain : List Header) : InsertState :=
  chain.foldl (fun s block => (env.turn validate op s block).2) s

end InsertEnv

/-! ## Tips after an insertion -/

namespace HeaderChain

theorem headers_foldl_saveBlockDag (l : Tips) (hc : HeaderChain) :
    (l.foldl (fun hc t => hc.saveBlockDag t.1 t.2) hc).headers = hc.headers ∧
      (l.foldl (fun hc t => hc.saveBlockDag t.1 t.2) hc).number = hc.number ∧
      (l.foldl (fun hc t => hc.saveBlockDag t.1 t.2) hc).collected = hc.collected := by
  induction l generalizing hc with
  | nil => exact ⟨rfl, rfl, rfl⟩
  | cons t l ih => exact ih (hc.saveBlockDag t.1 t.2)

theorem blockDag_foldl_saveBlockDag {l : Tips} {hc : HeaderChain} {h : Hash} {d : BlockDag}
    (hd : (l.foldl (fun hc t => hc.saveBlockDag t.1 t.2) hc).blockDag h = some d) :
    hc.blockDag h = some d ∨ (h, d) ∈ l := by
  induction l generalizing hc with
  | nil => exact .inl hd
  | cons t l ih =>
    obtain ⟨k, e⟩ := t
    rcases ih hd with hsaved | hin
    · by_cases hne : h = k
      · exact .inr (by simp_all [saveBlockDag])
      · exact .inl (by simpa [saveBlockDag, hne] using hsaved)
    · exact .inr (mem_cons_of_mem _ hin)

end HeaderChain

namespace TipsState

open HeaderChain

variable {s : TipsState} {b : Header} {d : BlockDag} {h x : Hash} {tips : Tips}

theorem mem_add {t : Hash × BlockDag} (ht : t ∈ tips.add h d) :
    t ∈ tips ∨ t.1 = h ∧ ∀ y ∈ t.2.orderedAncestorsHashes, y ∈ d.orderedAncestorsHashes := by
  rcases mem_append.1 ht with ht | ht
  · exact .inl (mem_filter.1 ht).1
  · rw [mem_singleton.1 ht]
    exact .inr ⟨rfl, fun y hy => mem_dedup.1 hy⟩

theorem mem_getHashes_shown (hx : x ∈ s.tips.getHashes) (hn : s.chain.number x = none) :
    x ∈ s.shown.getHashes := by
  obtain ⟨d, hd⟩ := mem_getHashes.1 hx
  exact mem_getHashes.2 ⟨d, mem_shown_of_none hd hn⟩

/-- The tips and the stored lists after a block with the list `d` was added. -/
structure Added (s : TipsState) (h : Hash) (d : BlockDag) (s' : TipsState) : Prop where
  headers : s'.chain.headers = s.chain.headers
  number : s'.chain.number = s.chain.number
  collected : s'.chain.collected = s.chain.collected
  keeps : ∀ x, x = h ∨ x ∈ s.tips.getHashes → s.chain.number x = none →
    x ∉ d.orderedAncestorsHashes → x ∈ s'.tips.getHashes
  tips : ∀ t ∈ s'.tips, t ∈ s.tips ∨
    t.1 = h ∧ ∀ y ∈ t.2.orderedAncestorsHashes, y ∈ d.orderedAncestorsHashes
  lists : ∀ y e, s'.chain.blockDag y = some e → s.chain.blockDag y = some e ∨ (y, e) ∈ s'.tips

theorem added (s : TipsState) (h : Hash) (d : BlockDag) :
    s.Added h d ((s.addTips h d).removeTips d.orderedAncestorsHashes).writeCurrentTips := by
  have hadd : s.addTips h d = ⟨s.chain, s.shown.add h d, s.tipsHashes⟩ := by
    rw [addTips, getTips_eq]
  have hrem : (s.addTips h d).removeTips d.orderedAncestorsHashes =
      ⟨s.chain, (s.addTips h d).shown.filter fun t => t.1 ∉ d.orderedAncestorsHashes,
        s.tipsHashes⟩ := by
    rw [removeTips, getTips_eq, hadd]
  set s₂ := (s.addTips h d).removeTips d.orderedAncestorsHashes with hs₂
  have hchain₂ : s₂.chain = s.chain := by rw [hrem]
  have htips₂ : s₂.tips =
      (s.addTips h d).shown.filter fun t => t.1 ∉ d.orderedAncestorsHashes := by rw [hrem]
  have hw : s₂.writeCurrentTips = ⟨s₂.shown.foldl (fun hc t => hc.saveBlockDag t.1 t.2) s₂.chain,
      s₂.shown, s₂.shown.getHashes⟩ := by
    rw [writeCurrentTips, getTips_eq]
  obtain ⟨hheaders, hnumber, hcollected⟩ := headers_foldl_saveBlockDag s₂.shown s₂.chain
  rw [hw]
  refine ⟨hheaders.trans (by rw [hchain₂]), hnumber.trans (by rw [hchain₂]),
    hcollected.trans (by rw [hchain₂]), fun x hx hn hout => ?_, fun t ht => ?_, fun y e he => ?_⟩
  · refine mem_getHashes_shown ?_ (by rw [hchain₂, hn])
    have hshown : x ∈ (s.addTips h d).shown.getHashes := by
      refine mem_getHashes_shown ?_ (by rw [hadd]; exact hn)
      rw [hadd]
      refine Tips.mem_getHashes_add.2 (hx.imp_right fun hin => mem_getHashes_shown hin hn)
    obtain ⟨e, he⟩ := mem_getHashes.1 hshown
    rw [htips₂]
    exact mem_getHashes.2 ⟨e, mem_filter.2 ⟨he, decide_eq_true hout⟩⟩
  · have ht₂ : t ∈ s₂.tips := mem_of_mem_shown ht
    rw [htips₂] at ht₂
    have hadded := mem_of_mem_shown (mem_filter.1 ht₂).1
    rw [hadd] at hadded
    exact (mem_add hadded).imp_left mem_of_mem_shown
  · rcases blockDag_foldl_saveBlockDag he with hold | hin
    · rw [hchain₂] at hold
      exact .inl hold
    · exact .inr hin

end TipsState

/-! ## The invariant -/

namespace HeaderChain

/-- The blocks have the given hashes, stored lists contain ancestors only, and finalized blocks are
    stored and have finalized parents. -/
structure Tracked (u : BlockHashes) (hc : HeaderChain) : Prop where
  hashes : ∀ b ∈ hc.headers, u.block b.hash = b
  lists : ∀ h d, hc.blockDag h = some d → ∀ x ∈ d.orderedAncestorsHashes, hc.Ancestor h x
  collected : ∀ h r, hc.collected h = some r → ∀ x ∈ r.1, hc.Ancestor h x
  numbered : ∀ h, hc.number h ≠ none → (hc.getHeader h).isSome
  closed : ∀ c p, hc.Parent c p → hc.number c ≠ none → hc.number p ≠ none

variable {u : BlockHashes} {hc hc' : HeaderChain} {b : Header} {d : BlockDag} {h x y : Hash}

theorem Tracked.rank_lt (ht : hc.Tracked u) (ha : hc.Ancestor h x) : u.rank x < u.rank h := by
  have hstep : ∀ {c p}, hc.Parent c p → u.rank p < u.rank c := by
    rintro c p ⟨b, hg, hp⟩
    obtain ⟨hb, rfl⟩ := getHeader_eq_some.1 hg
    refine u.rank_lt b.hash p ?_
    rwa [ht.hashes b hb]
  induction ha with
  | single hp => exact hstep hp
  | tail _ hp ih => exact (hstep hp).trans ih

theorem Tracked.number_eq_none (ht : hc.Tracked u) (ha : hc.Ancestor y x)
    (hx : hc.number x = none) : hc.number y = none := by
  by_contra hy
  induction ha with
  | single hp => exact ht.closed _ _ hp hy hx
  | tail hanc hp ih => exact ih (by_contra fun hn => ht.closed _ _ hp hn hx)

theorem Ancestor.writeBlock (ha : hc.Ancestor h x) : (hc.writeBlock b).Ancestor h x := by
  have hstep : ∀ {c p}, hc.Parent c p → (hc.writeBlock b).Parent c p := by
    rintro c p ⟨e, hg, hp⟩
    exact ⟨e, by rw [getHeader_writeBlock (by rw [hg]; rfl), hg], hp⟩
  induction ha with
  | single hp => exact .single (hstep hp)
  | tail _ hp ih => exact ih.tail (hstep hp)

theorem Tracked.getHeader_writeBlock (ht : hc.Tracked u) (hb : u.block b.hash = b) :
    (hc.writeBlock b).getHeader b.hash = some b := by
  cases hg : hc.getHeader b.hash with
  | none => exact getHeader_writeBlock_new hg
  | some c =>
    rw [HeaderChain.getHeader_writeBlock (by rw [hg]; rfl), hg]
    obtain ⟨hcm, hhash⟩ := getHeader_eq_some.1 hg
    rw [← ht.hashes c hcm, hhash, hb]

theorem Tracked.writeBlock (ht : hc.Tracked u) (hb : u.block b.hash = b) :
    (hc.writeBlock b).Tracked u := by
  have hcoll : (hc.writeBlock b).collected = hc.collected := by
    unfold HeaderChain.writeBlock
    split_ifs <;> rfl
  refine ⟨fun c hc' => ?_, fun h d hd x hx => ?_, fun h l hl x hx => ?_, fun h hn => ?_,
    fun c p hp hn => ?_⟩
  · rcases mem_writeBlock hc' with ⟨rfl, -⟩ | hc'
    · exact hb
    · exact ht.hashes c hc'
  · rw [blockDag_writeBlock] at hd
    exact (ht.lists h d hd x hx).writeBlock
  · rw [hcoll] at hl
    exact (ht.collected h l hl x hx).writeBlock
  · rw [number_writeBlock] at hn
    have hs := ht.numbered h hn
    rwa [HeaderChain.getHeader_writeBlock hs]
  · rw [number_writeBlock] at hn ⊢
    have hs := ht.numbered c hn
    exact ht.closed c p ((parent_writeBlock hs).1 hp) hn

theorem Tracked.parentBlockDag (ht : hc.Tracked u) (hd : hc.parentBlockDag h = .ok d) :
    ∀ x ∈ d.orderedAncestorsHashes, hc.Ancestor h x := by
  unfold HeaderChain.parentBlockDag at hd
  split at hd
  next bdag hbdag =>
    cases hd
    exact ht.lists h _ hbdag
  split at hd
  · cases hd
  split at hd
  · cases hd
  split at hd
  · cases hd
  next anc hanc =>
    cases hd
    exact ht.collected h _ hanc
  · cases hd

theorem Tracked.newBlockDag (ht : hc.Tracked u) (hg : hc.getHeader b.hash = some b)
    (hd : hc.newBlockDag b = .ok d) : ∀ x ∈ d.orderedAncestorsHashes, hc.Ancestor b.hash x := by
  obtain ⟨base, out, cpAnc, hj⟩ := joined_of_newBlockDag hd
  intro x hx
  obtain ⟨-, p, hp, -, -, bdag, hbdag, rfl | ⟨hx, -⟩⟩ := (hj.mem x).1 hx
  · exact .single ⟨b, hg, hp⟩
  · exact .head ⟨b, hg, hp⟩ (ht.parentBlockDag hbdag x hx)

theorem Tracked.congr (ht : hc.Tracked u) (hheaders : hc'.headers = hc.headers)
    (hnumber : hc'.number = hc.number) (hcollected : hc'.collected = hc.collected)
    (hlists : ∀ h d, hc'.blockDag h = some d → ∀ x ∈ d.orderedAncestorsHashes, hc.Ancestor h x) :
    hc'.Tracked u ∧ hc'.getHeader = hc.getHeader ∧ hc'.Ancestor = hc.Ancestor := by
  have hget : hc'.getHeader = hc.getHeader := by
    funext h
    rw [getHeader, hheaders, ← getHeader]
  have hparent : hc'.Parent = hc.Parent := by
    funext c p
    rw [Parent, hget, ← Parent]
  have hanc : hc'.Ancestor = hc.Ancestor := by
    funext h x
    rw [Ancestor, hparent, ← Ancestor]
  refine ⟨⟨?_, ?_, ?_, ?_, ?_⟩, hget, hanc⟩
  · rw [hheaders]
    exact ht.hashes
  · rw [hanc]
    exact hlists
  · rw [hcollected, hanc]
    exact ht.collected
  · rw [hnumber, hget]
    exact ht.numbered
  · rw [hnumber, hparent]
    exact ht.closed

end HeaderChain

namespace InsertState

open HeaderChain

variable {u : BlockHashes} {s s' : InsertState} {b c : Header} {h x p : Hash} {d : BlockDag}

def Stored (s : InsertState) (h : Hash) : Prop := (s.tips.chain.getHeader h).isSome

/-- The lists of stored blocks and of tips contain ancestors, and the tips and the indexes contain
    stored blocks. -/
structure Consistent (u : BlockHashes) (s : InsertState) : Prop where
  tracked : s.tips.chain.Tracked u
  lists : ∀ t ∈ s.tips.tips, ∀ x ∈ t.2.orderedAncestorsHashes, s.tips.chain.Ancestor t.1 x
  tips : ∀ t ∈ s.tips.tips, s.Stored t.1
  slots : ∀ slot, ∀ h ∈ s.slotBlocks slot, s.Stored h
  children : ∀ p, ∀ h ∈ s.children p, s.Stored h

/-- A block that is inserted, with the list `d`. -/
structure Inserted (s : InsertState) (b : Header) (s' : InsertState) (d : BlockDag) : Prop where
  made : (s.tips.chain.writeBlock b).newBlockDag b = .ok d
  added : TipsState.Added { s.tips with chain := s.tips.chain.writeBlock b } b.hash d s'.tips
  slots : s'.slotBlocks = (s.addSlotBlockHash b.slot b.hash).slotBlocks
  children : s'.children = (s.appendToChildren b.hash b.parentHashes).children

/-- The writes of a round: the list of the block cannot be made, or it is inserted. -/
theorem insert_cases (s : InsertState) (b : Header) :
    (∃ e s', s.insert b = (.failed (.record e), s') ∧
        s'.tips = { s.tips with chain := s.tips.chain.writeBlock b } ∧
        s'.slotBlocks = (s.addSlotBlockHash b.slot b.hash).slotBlocks) ∨
      ∃ d s', s.insert b = (.inserted, s') ∧ s.Inserted b s' d := by
  have htips : (s.addSlotBlockHash b.slot b.hash).tips = s.tips := by
    unfold addSlotBlockHash
    split_ifs <;> rfl
  have hchildren : (s.addSlotBlockHash b.slot b.hash).children = s.children := by
    unfold addSlotBlockHash
    split_ifs <;> rfl
  simp only [insert, appendToChildren, htips, TipsState.insertBlock]
  cases hd : (s.tips.chain.writeBlock b).newBlockDag b with
  | error e => exact .inl ⟨e, _, rfl, rfl, rfl⟩
  | ok d => exact .inr ⟨d, _, rfl, hd, TipsState.added _ _ _, rfl, by rw [appendToChildren, hchildren]⟩

theorem mem_slotBlocks_addSlotBlockHash {slot k : ℕ} :
    x ∈ (s.addSlotBlockHash slot h).slotBlocks k ↔ x ∈ s.slotBlocks k ∨ k = slot ∧ x = h := by
  unfold addSlotBlockHash
  split_ifs <;> grind

theorem mem_children_appendToChildren {parents : List Hash} :
    x ∈ (s.appendToChildren h parents).children p ↔ x ∈ s.children p ∨ p ∈ parents ∧ x = h := by
  show x ∈ (if p ∈ parents then _ else _) ↔ _
  split_ifs with hp <;> simp [hp, hashArraySort_eq]

namespace Inserted

variable {d : BlockDag}

/-- What an insertion leaves: the invariant, and the ancestors and numbers of the blocks. -/
theorem chain (hi : s.Inserted b s' d) (hs : s.Consistent u) (hb : u.block b.hash = b) :
    s'.tips.chain.Tracked u ∧ s'.tips.chain.getHeader = (s.tips.chain.writeBlock b).getHeader ∧
      s'.tips.chain.Ancestor = (s.tips.chain.writeBlock b).Ancestor := by
  have ht := hs.tracked.writeBlock hb
  have hlist := ht.newBlockDag (hs.tracked.getHeader_writeBlock hb) hi.made
  refine ht.congr hi.added.headers hi.added.number hi.added.collected fun h e he x hx => ?_
  rcases hi.added.lists h e he with hold | hin
  · exact ht.lists h e hold x hx
  · rcases hi.added.tips _ hin with hin | ⟨rfl, hsub⟩
    · exact (hs.lists _ hin x hx).writeBlock
    · exact hlist x (hsub x hx)

theorem stored_of_stored (hi : s.Inserted b s' d) (hs : s.Consistent u) (hb : u.block b.hash = b)
    (h : s.Stored x) : s'.Stored x := by
  rw [Stored, (hi.chain hs hb).2.1, getHeader_writeBlock h]
  exact h

theorem stored (hi : s.Inserted b s' d) (hs : s.Consistent u) (hb : u.block b.hash = b) :
    s'.Stored b.hash := by
  rw [Stored, (hi.chain hs hb).2.1, hs.tracked.getHeader_writeBlock hb]
  rfl

theorem consistent (hi : s.Inserted b s' d) (hs : s.Consistent u) (hb : u.block b.hash = b) :
    s'.Consistent u := by
  obtain ⟨ht, -, hanc⟩ := hi.chain hs hb
  have hlist := (hs.tracked.writeBlock hb).newBlockDag (hs.tracked.getHeader_writeBlock hb) hi.made
  refine ⟨ht, fun t htip x hx => ?_, fun t htip => ?_, fun slot x hx => ?_, fun p x hx => ?_⟩
  · rw [hanc]
    rcases hi.added.tips t htip with hold | ⟨hself, hsub⟩
    · exact (hs.lists t hold x hx).writeBlock
    · rw [hself]
      exact hlist x (hsub x hx)
  · rcases hi.added.tips t htip with hold | ⟨hself, -⟩
    · exact hi.stored_of_stored hs hb (hs.tips t hold)
    · rw [hself]
      exact hi.stored hs hb
  · rw [hi.slots, mem_slotBlocks_addSlotBlockHash] at hx
    rcases hx with hx | ⟨-, rfl⟩
    · exact hi.stored_of_stored hs hb (hs.slots slot x hx)
    · exact hi.stored hs hb
  · rw [hi.children, mem_children_appendToChildren] at hx
    rcases hx with hx | ⟨-, rfl⟩
    · exact hi.stored_of_stored hs hb (hs.children p x hx)
    · exact hi.stored hs hb

end Inserted

/-- The block is stored, indexed under its slot and, unless it is finalized, a tip or an ancestor of
    a tip. -/
structure Placed (s : InsertState) (b : Header) : Prop where
  stored : s.Stored b.hash
  indexed : b.hash ∈ s.slotBlocks b.slot
  covered : s.tips.chain.number b.hash = none → b.hash ∈ s.tips.tips.getHashes ∨
    ∃ t ∈ s.tips.tips.getHashes, s.tips.chain.Ancestor t b.hash

theorem Inserted.placed (hi : s.Inserted b s' d) (hs : s.Consistent u) (hb : u.block b.hash = b) :
    s'.Placed b := by
  refine ⟨hi.stored hs hb, ?_, fun hn => .inl ?_⟩
  · rw [hi.slots, mem_slotBlocks_addSlotBlockHash]
    exact .inr ⟨rfl, rfl⟩
  · rw [hi.added.number] at hn
    refine hi.added.keeps b.hash (.inl rfl) hn fun hin => ?_
    have ht := hs.tracked.writeBlock hb
    have ha := ht.newBlockDag (hs.tracked.getHeader_writeBlock hb) hi.made b.hash hin
    exact absurd (ht.rank_lt ha) (lt_irrefl _)

theorem Placed.insert (hp : s.Placed c) (hi : s.Inserted b s' d) (hs : s.Consistent u)
    (hb : u.block b.hash = b) : s'.Placed c := by
  have ht := hs.tracked.writeBlock hb
  have hlist := ht.newBlockDag (hs.tracked.getHeader_writeBlock hb) hi.made
  obtain ⟨ht', -, hanc⟩ := hi.chain hs hb
  refine ⟨hi.stored_of_stored hs hb hp.stored, ?_, fun hn => ?_⟩
  · rw [hi.slots, mem_slotBlocks_addSlotBlockHash]
    exact .inl hp.indexed
  rw [hi.added.number] at hn
  have hcold : s.tips.chain.number c.hash = none := number_writeBlock.symm.trans hn
  rw [hanc]
  -- a block above `c` that was a tip stays one, or the new block is above it
  have hstays : ∀ t ∈ s.tips.tips.getHashes, (t = c.hash ∨ s.tips.chain.Ancestor t c.hash) →
      t ∈ s'.tips.tips.getHashes ∨ b.hash ∈ s'.tips.tips.getHashes ∧
        (s.tips.chain.writeBlock b).Ancestor b.hash t := by
    intro t htip habove
    have htn : s.tips.chain.number t = none := by
      rcases habove with rfl | ha
      · exact hcold
      · exact hs.tracked.number_eq_none ha hcold
    have htn' : (s.tips.chain.writeBlock b).number t = none := number_writeBlock.trans htn
    by_cases hin : t ∈ d.orderedAncestorsHashes
    · have ha := hlist t hin
      have hbn := ht.number_eq_none ha htn'
      refine .inr ⟨hi.added.keeps b.hash (.inl rfl) hbn fun hself => ?_, ha⟩
      exact absurd (ht.rank_lt (hlist _ hself)) (lt_irrefl _)
    · exact .inl (hi.added.keeps t (.inr htip) htn' hin)
  rcases hp.covered hcold with htip | ⟨t, htip, ha⟩
  · rcases hstays _ htip (.inl rfl) with hin | ⟨hbtip, hba⟩
    · exact .inl hin
    · exact .inr ⟨b.hash, hbtip, hba⟩
  · rcases hstays t htip (.inr ha) with hin | ⟨hbtip, hba⟩
    · exact .inr ⟨t, hin, ha.writeBlock⟩
    · exact .inr ⟨b.hash, hbtip, hba.trans ha.writeBlock⟩

theorem Placed.written (hp : s.Placed c)
    (htips : s'.tips = { s.tips with chain := s.tips.chain.writeBlock b })
    (hslots : s'.slotBlocks = (s.addSlotBlockHash b.slot b.hash).slotBlocks) : s'.Placed c := by
  refine ⟨?_, ?_, fun hn => ?_⟩
  · rw [Stored, htips]
    exact (getHeader_writeBlock hp.stored).symm ▸ hp.stored
  · rw [hslots, mem_slotBlocks_addSlotBlockHash]
    exact .inl hp.indexed
  · rw [htips] at hn ⊢
    rcases hp.covered (number_writeBlock.symm.trans hn) with hin | ⟨t, ht, ha⟩
    · exact .inl hin
    · exact .inr ⟨t, ht, ha.writeBlock⟩

/-- The block is in the block store, in the index by slots, in a list of children or a tip. -/
def Traces (s : InsertState) (h : Hash) : Prop :=
  s.Stored h ∨ (∃ slot, h ∈ s.slotBlocks slot) ∨ (∃ p, h ∈ s.children p) ∨
    h ∈ s.tips.tips.getHashes

theorem Consistent.not_traces (hs : s.Consistent u) (hn : ¬ s.Stored h) : ¬ s.Traces h := by
  rintro (hst | ⟨slot, hin⟩ | ⟨p, hin⟩ | hin)
  · exact hn hst
  · exact hn (hs.slots slot h hin)
  · exact hn (hs.children p h hin)
  · obtain ⟨d, hd⟩ := TipsState.mem_getHashes.1 hin
    exact hn (hs.tips _ hd)

end InsertState

/-- The error is that of the verification, which comes before the block is written. -/
def BatchError.Rejects : BatchError → Prop
  | .verify _ => True
  | .invalidBlock => True
  | .record _ => False

namespace InsertEnv

open InsertState

variable {env : InsertEnv} {validate : Bool} {op : InsertKind} {u : BlockHashes}
  {s s' : InsertState} {b : Header} {chain before : List Header} {e : BatchError} {n i : ℕ}

/-- The rejected blocks do not matter for the places of blocks. -/
def SameBlocks (s s' : InsertState) : Prop :=
  s'.tips = s.tips ∧ s'.slotBlocks = s.slotBlocks ∧ s'.children = s.children

/-- What one round can do: the block is skipped or rejected and nothing is written, or it is
    written. -/
theorem turn_cases (env : InsertEnv) (validate : Bool) (op : InsertKind) (s : InsertState)
    (b : Header) : (∃ t s', env.turn validate op s b = (t, s') ∧ SameBlocks s s' ∧
        (t = .skipped ∨ ∃ e, t = .failed e ∧ e.Rejects)) ∨
      env.turn validate op s b = s.insert b := by
  unfold turn
  split
  · split
    · split
      · exact .inl ⟨_, _, rfl, ⟨rfl, rfl, rfl⟩, .inl rfl⟩
      · exact .inl ⟨_, _, rfl, ⟨rfl, rfl, rfl⟩, .inr ⟨_, rfl, trivial⟩⟩
      · refine .inl ⟨_, _, rfl, ⟨rfl, rfl, rfl⟩, ?_⟩
        split_ifs
        · exact .inr ⟨_, rfl, trivial⟩
        · exact .inl rfl
      · exact .inr rfl
    · exact .inl ⟨_, _, rfl, ⟨rfl, rfl, rfl⟩, .inl rfl⟩
  · exact .inr rfl

theorem SameBlocks.consistent (h : SameBlocks s s') (hs : s.Consistent u) : s'.Consistent u := by
  obtain ⟨_, _, _, _⟩ := s'
  obtain ⟨rfl, rfl, rfl⟩ := h
  exact ⟨hs.tracked, hs.lists, hs.tips, hs.slots, hs.children⟩

theorem SameBlocks.placed (h : SameBlocks s s') (hp : s.Placed b) : s'.Placed b := by
  obtain ⟨_, _, _, _⟩ := s'
  obtain ⟨rfl, rfl, rfl⟩ := h
  exact ⟨hp.stored, hp.indexed, hp.covered⟩

/-- One round that does not fail keeps the invariant, and the places of the blocks inserted before;
    a block that is not skipped gets its place. -/
theorem turn_passed (hs : s.Consistent u) (hb : u.block b.hash = b)
    (hok : ∀ e, (env.turn validate op s b).1 ≠ .failed e) :
    (env.turn validate op s b).2.Consistent u ∧
      (∀ c, s.Placed c → (env.turn validate op s b).2.Placed c) ∧
      ((env.turn validate op s b).1 ≠ .skipped → (env.turn validate op s b).2.Placed b) := by
  rcases turn_cases env validate op s b with ⟨t, s', hturn, hsame, hskip⟩ | hturn
  · rw [hturn] at hok ⊢
    refine ⟨hsame.consistent hs, fun c hc => hsame.placed hc, fun hno => ?_⟩
    rcases hskip with rfl | ⟨e, rfl, -⟩
    · exact absurd rfl hno
    · exact absurd rfl (hok e)
  · rw [hturn] at hok ⊢
    rcases insert_cases s b with ⟨e, s', hins, -⟩ | ⟨d, s', hins, hi⟩ <;> rw [hins] at hok ⊢
    · exact absurd rfl (hok _)
    · exact ⟨hi.consistent hs hb, fun c hc => hc.insert hi hs hb, fun _ => hi.placed hs hb⟩

/-- A round that fails keeps the places of the blocks inserted before, and leaves no trace of the
    block if it was rejected. -/
theorem turn_failed (hs : s.Consistent u) (h : env.turn validate op s b = (.failed e, s')) :
    (∀ c, s.Placed c → s'.Placed c) ∧ (e.Rejects → ¬ s.Stored b.hash → ¬ s'.Traces b.hash) := by
  rcases turn_cases env validate op s b with ⟨t, s'', hturn, hsame, -⟩ | hturn
  · obtain ⟨rfl, rfl⟩ := Prod.mk.inj (hturn.symm.trans h)
    refine ⟨fun c hc => hsame.placed hc, fun _ hn => (hsame.consistent hs).not_traces ?_⟩
    rw [Stored, hsame.1]
    exact hn
  · rw [hturn] at h
    rcases insert_cases s b with ⟨e', s', hins, htips, hslots⟩ | ⟨d, s', hins, -⟩ <;>
      cases hins.symm.trans h
    exact ⟨fun c hc => hc.written htips hslots, fun hrej => hrej.elim⟩

theorem insertLoop_error (h : env.insertLoop validate op s i chain = ((n, some e), s')) :
    ∃ before block after, chain = before ++ block :: after ∧ n = i + before.length ∧
      (∀ l b r, before = l ++ b :: r →
        ∀ e, (env.turn validate op (env.stateAfter validate op s l) b).1 ≠ .failed e) ∧
      env.turn validate op (env.stateAfter validate op s before) block = (.failed e, s') := by
  induction chain generalizing s i with
  | nil => cases h
  | cons block chain ih =>
    rw [insertLoop] at h
    split at h
    · cases h
    split at h
    next e' s'' hturn =>
      obtain ⟨⟨rfl, he⟩, rfl⟩ := by simpa using h
      subst he
      refine ⟨[], block, chain, rfl, rfl, fun l b r hl => ?_, hturn⟩
      simp at hl
    next t s'' hno hturn =>
      obtain ⟨before, last, after, rfl, rfl, hpassed, hlast⟩ := ih h
      have hstate : s'' = (env.turn validate op s block).2 := by rw [hturn]
      subst hstate
      refine ⟨block :: before, last, after, rfl, by simp; omega, fun l b r hl => ?_, hlast⟩
      cases l with
      | nil =>
        obtain ⟨rfl, -⟩ := cons.inj hl
        intro e' he'
        have hfst : (env.turn validate op s block).1 = t := by rw [hturn]
        exact hno e' (hfst.symm.trans he')
      | cons c l =>
        obtain ⟨rfl, htail⟩ := cons.inj hl
        exact hpassed l b r htail

/-- Rounds that do not fail keep the invariant and the places of the blocks inserted before, and
    give every block that is not skipped its place. -/
theorem stateAfter_passed (hs : s.Consistent u) (hchain : ∀ b ∈ before, u.block b.hash = b)
    (hok : ∀ l b r, before = l ++ b :: r →
      ∀ e, (env.turn validate op (env.stateAfter validate op s l) b).1 ≠ .failed e) :
    (env.stateAfter validate op s before).Consistent u ∧
      (∀ c, s.Placed c → (env.stateAfter validate op s before).Placed c) ∧
      ∀ l b r, before = l ++ b :: r →
        (env.turn validate op (env.stateAfter validate op s l) b).1 ≠ .skipped →
          (env.stateAfter validate op s before).Placed b := by
  induction before generalizing s with
  | nil => exact ⟨hs, fun _ hc => hc, fun l b r hl => by simp at hl⟩
  | cons block before ih =>
    obtain ⟨hblock, hchain⟩ := forall_mem_cons.1 hchain
    obtain ⟨hs₁, hkeep, hplaced⟩ := turn_passed hs hblock (hok [] block before rfl)
    obtain ⟨hs', hkeep', hplaced'⟩ := ih hs₁ hchain fun l b r hl =>
      hok (block :: l) b r (by rw [hl]; rfl)
    refine ⟨hs', fun c hc => hkeep' c (hkeep c hc), fun l b r hl hskip => ?_⟩
    cases l with
    | nil =>
      obtain ⟨rfl, -⟩ := cons.inj hl
      exact hkeep' _ (hplaced hskip)
    | cons c l =>
      obtain ⟨rfl, htail⟩ := cons.inj hl
      exact hplaced' l b r htail hskip

/-- If `insertBlocks` returns an error at the index `n`, then a block at `n` that was rejected by
    the verification leaves no trace unless it was stored before, and every block before `n` that
    was not skipped is stored, indexed and, unless finalized, a tip or an ancestor of a tip. -/
theorem insertBlocks_error (hs : s.Consistent u) (hchain : ∀ b ∈ chain, u.block b.hash = b)
    (h : env.insertBlocks validate op s chain = ((n, some e), s')) :
    ∃ before block after, chain = before ++ block :: after ∧ n = before.length ∧
      (e.Rejects → ¬ (env.stateAfter validate op s before).Stored block.hash →
        ¬ s'.Traces block.hash) ∧
      ∀ l b r, before = l ++ b :: r →
        (env.turn validate op (env.stateAfter validate op s l) b).1 ≠ .skipped → s'.Placed b := by
  unfold insertBlocks at h
  split at h
  · cases h
  obtain ⟨before, block, after, rfl, hn, hpassed, hlast⟩ := insertLoop_error h
  obtain ⟨hs₁, -, hplaced⟩ := stateAfter_passed hs (fun b hb => hchain b (by simp [hb])) hpassed
  obtain ⟨hkeep, hclean⟩ := turn_failed hs₁ hlast
  refine ⟨before, block, after, rfl, by rw [hn, Nat.zero_add], hclean, fun l b r hl hskip => ?_⟩
  exact hkeep b (hplaced l b r hl hskip)

end InsertEnv

/-! ## Batches on the genesis block -/

namespace InsertState

open HeaderChain

variable {u : BlockHashes} {g : Header}

/-- A node with the genesis block alone. -/
def ofGenesis (g : Header) : InsertState where
  tips := TipsState.ofGenesis g
  slotBlocks slot := if slot = g.slot then [g.hash] else []
  children _ := []
  invalidBlocks := []

theorem consistent_ofGenesis (hu : u.block g.hash = g) (hp : g.parentHashes = []) :
    (ofGenesis g).Consistent u := by
  have hstored : (ofGenesis g).Stored g.hash := by
    simp [Stored, ofGenesis, TipsState.ofGenesis, HeaderChain.ofGenesis, getHeader]
  have hlist : ∀ h d, (HeaderChain.ofGenesis g).blockDag h = some d →
      d.orderedAncestorsHashes = [] := by
    intro h d hd
    have hd' : (if h = g.hash then some (⟨0, g.hash, 0, []⟩ : BlockDag) else none) = some d := hd
    split_ifs at hd'
    cases hd'
    rfl
  refine ⟨⟨fun b hb => ?_, fun h d hd x hx => ?_, fun h l hl => ?_, fun h hn => ?_,
    fun c p hpar => ?_⟩, fun t ht x hx => ?_, fun t ht => ?_, fun slot h hh => ?_, fun p h hh => ?_⟩
  · rw [eq_of_mem_ofGenesis hb]
    exact hu
  · rw [hlist h d hd] at hx
    cases hx
  · cases hl
  · obtain ⟨n, hn⟩ := Option.ne_none_iff_exists'.1 hn
    rw [(number_ofGenesis hn).1]
    exact hstored
  · exact absurd (.single hpar) (not_ancestor_ofGenesis hp)
  · rw [mem_singleton.1 ht] at hx
    cases hx
  · rw [mem_singleton.1 ht]
    exact hstored
  · have hh' : h ∈ if slot = g.slot then [g.hash] else [] := hh
    split_ifs at hh'
    · rw [mem_singleton.1 hh']
      exact hstored
    · cases hh'
  · cases hh

/-- Blocks whose parents have smaller hashes: 2 and 3 on the genesis block 1, and 5 on 4. -/
def smallHashes : BlockHashes where
  block h :=
    if h = 2 then plainHeader 2 [1] 1 1 1 0
    else if h = 3 then plainHeader 3 [1] 2 1 1 0
    else if h = 5 then plainHeader 5 [4] 4 2 1 0
    else plainHeader h [] 0 0 0 0
  rank h := h.val
  rank_lt h p hp := by
    split_ifs at hp with h2 h3 h5
    · rw [mem_singleton.1 hp, h2]; decide
    · rw [mem_singleton.1 hp, h3]; decide
    · rw [mem_singleton.1 hp, h5]; decide
    · cases hp

/-- A node that knows the era of every block except 3, and whose other checks pass. -/
def eraEnv : InsertEnv where
  coordinatedCheckpoint _ := true
  slotToEpoch slot := slot / 32
  lastCpEpoch := 0
  currEpoch := 0
  lastFinalizedNr := 0
  verifier _ := { Verifier.fiveBlocksVerifier with verifyBlockEra := fun b => b.hash ≠ 3 }
  order := ⟨.stored, fun _ => .stored⟩
  interrupted := false
  stopped _ := false

def genesisOne : InsertState := ofGenesis (plainHeader 1 [] 0 0 0 0)

theorem consistent_genesisOne : genesisOne.Consistent smallHashes :=
  consistent_ofGenesis (by decide) rfl

/-- Block 2 is inserted, block 3 is rejected and leaves no trace. -/
theorem insertBlocks_error_rejected :
    ∃ s', eraEnv.insertBlocks true .propagate genesisOne [smallHashes.block 2, smallHashes.block 3] =
        ((1, some .invalidBlock), s') ∧ ¬ s'.Traces 3 ∧ s'.Placed (smallHashes.block 2) := by
  have hres : (eraEnv.insertBlocks true .propagate genesisOne
      [smallHashes.block 2, smallHashes.block 3]).1 = (1, some .invalidBlock) := by decide +kernel
  have hturn : (eraEnv.turn true .propagate genesisOne (smallHashes.block 2)).1 = .inserted := by
    decide +kernel
  have hnew : ¬ (eraEnv.stateAfter true .propagate genesisOne [smallHashes.block 2]).Stored 3 := by
    unfold Stored
    decide +kernel
  obtain ⟨s', h⟩ : ∃ s', eraEnv.insertBlocks true .propagate genesisOne
      [smallHashes.block 2, smallHashes.block 3] = ((1, some .invalidBlock), s') :=
    ⟨_, Prod.ext hres rfl⟩
  obtain ⟨before, block, after, hchain, hlen, hclean, hplaced⟩ :=
    InsertEnv.insertBlocks_error consistent_genesisOne
      (forall_mem_cons.2 ⟨by decide, forall_mem_cons.2 ⟨by decide, by simp⟩⟩) h
  match before, hlen with
  | [b], _ =>
    obtain ⟨rfl, rfl, -⟩ : smallHashes.block 2 = b ∧ smallHashes.block 3 = block ∧ [] = after := by
      simpa using hchain
    refine ⟨s', h, hclean trivial hnew, hplaced [] _ [] rfl ?_⟩
    show (eraEnv.turn true .propagate genesisOne (smallHashes.block 2)).1 ≠ .skipped
    rw [hturn]
    simp

/-- Blocks 2 and 3 on the genesis block; block 2 is finalized, block 3 is the tip. -/
def twoSiblings : InsertState :=
  let s := eraEnv.stateAfter false .sync genesisOne [smallHashes.block 2, smallHashes.block 3]
  { s with tips := { s.tips with chain := s.tips.chain.writeNumber 2 (some 1) } }

/-- A block whose parent is missing fails at its list, and stays in the store, in the index and among
    the children of its parent. A finalized block inserted again before it is no tip and below
    none. -/
theorem failed_block_stays :
    (∃ s', eraEnv.insertBlocks false .sync genesisOne [smallHashes.block 5] =
        ((0, some (.record .insertUncompletedDag)), s') ∧
      ¬ genesisOne.Stored 5 ∧ s'.Stored 5 ∧ 5 ∈ s'.slotBlocks 4 ∧ 5 ∈ s'.children 4) ∧
    ∃ s', eraEnv.insertBlocks false .sync twoSiblings [smallHashes.block 2, smallHashes.block 5] =
        ((1, some (.record .insertUncompletedDag)), s') ∧
      (eraEnv.turn false .sync twoSiblings (smallHashes.block 2)).1 = .inserted ∧
      s'.tips.tips.getHashes = [3] ∧ ¬ s'.tips.chain.Ancestor 3 2 := by
  refine ⟨⟨(eraEnv.insertBlocks false .sync genesisOne [smallHashes.block 5]).2,
      Prod.ext (by decide +kernel) rfl, ?_, ?_, by decide +kernel, by decide +kernel⟩,
    (eraEnv.insertBlocks false .sync twoSiblings [smallHashes.block 2, smallHashes.block 5]).2,
    Prod.ext (by decide +kernel) rfl, by decide +kernel, by decide +kernel, fun h => ?_⟩
  · unfold Stored
    decide +kernel
  · unfold Stored
    decide +kernel
  · -- block 3 has the parent 1, which has none
    rw [show (3 : Hash) = (smallHashes.block 3).hash by decide, ancestor_iff (by decide +kernel)] at h
    obtain ⟨p, hp, h⟩ := h
    obtain rfl : p = 1 := mem_singleton.1 hp
    rcases h with h | h
    · exact absurd h (by decide)
    · rw [show (1 : Hash) = (smallHashes.block 1).hash by decide, ancestor_iff (by decide +kernel)] at h
      obtain ⟨p, hp, -⟩ := h
      cases hp

end InsertState

end Gwat
