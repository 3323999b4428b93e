/-
  The chain of a spine (`SpineGetDagChain`, `core/types/spine.go`): the spine and
  its ancestors that are not finalized, in the order of their finalization.
-/
import Gwat.Dag.SpineSort
import Gwat.Lib.Visit

namespace Gwat

open GoLib List

variable {bc : DagChain} {hs ks : List Hash}

/-- The errors of `SpineGetDagChain`; `depth` stands for a recursion deeper than
    the number of stored blocks, which `spineProcessBlock_spec` excludes. -/
inductive SpineError where
  | blockNotFound (hash : Hash)
  | badSequence
  | depth
  deriving DecidableEq, Repr

/-- The orders in which one call of `SpineGetDagChain` ranges over its maps.  The
    walk ranges over the parents of each block at most once. -/
structure SpineOrder where
  parents : Hash → Shuffle Hash
  sortParents : Hash → SortOrder
  slots : Shuffle ℕ
  sortSlot : ℕ → SortOrder
  deriving Inhabited

/-! ## The walk -/

/-- The loop of `spineProcessBlock` that reads the parents out of their map. -/
def collectParents (m : GoMap Hash (Option Block)) : List Hash → Except SpineError (List Block)
  | [] => .ok []
  | h :: hs =>
    match (m.lookup h).join with
    | none => .error (.blockNotFound h)
    | some b => return b :: (← collectParents m hs)

/-- The loop of `spineProcessBlock` over the sorted parents; `calcChain` is
    `spineCalculateChain`. -/
def processParents (bc : DagChain)
    (calcChain : Block → Finset Hash → Except SpineError (Finset Hash × List Block)) :
    List Block → Finset Hash → List Block → Except SpineError (Finset Hash × List Block)
  | [], cand, chain => .ok (cand, chain)
  | parent :: ps, cand, chain =>
    if parent.hash ∉ cand ∧ bc.finNumber parent.hash = none then do
      let (cand, chainPart) ← calcChain parent cand
      processParents bc calcChain ps (insert parent.hash cand) (chain ++ chainPart)
    else processParents bc calcChain ps cand chain

/-- `spineProcessBlock`: returns `candidatesInChain` and the extended chain.  Each
    level of the recursion marks one more stored block, so it is at most as deep as
    the store is large. -/
def spineProcessBlock (bc : DagChain) (o : SpineOrder) :
    ℕ → Block → Finset Hash → List Block → Except SpineError (Finset Hash × List Block)
  | 0, _, _, _ => .error .depth
  | n + 1, block, cand, chain =>
    if block.hash ∈ cand ∨ bc.number block ≠ none then .ok (cand, chain)
    else do
      let parentsMap := bc.getBlocksByHashes block.parentHashes
      let parents ← collectParents parentsMap ((o.parents block.hash).order parentsMap.keys)
      let sortedParents := spineSortBlocks (o.sortParents block.hash) parents
      let (cand, chain) ← processParents bc (fun b c => spineProcessBlock bc o n b c [])
        sortedParents (insert block.hash cand) chain
      return (cand, chain ++ [block])

/-- `Blocks.GroupBySlot` -/
def groupBySlot (blocks : List Block) : GoMap ℕ (List Block) :=
  blocks.foldl (fun m b => m.insert b.slot ((m.lookup b.slot).getD [] ++ [b])) ∅

/-- The part of `SpineGetDagChain` after the walk: group by slot, sort the slots and
    the blocks of each slot. -/
def orderBlocks (o : SpineOrder) (dagBlocks : List Block) : List Block :=
  let blocksBySlot := groupBySlot dagBlocks
  (sortAsc (o.slots.order blocksBySlot.keys)).flatMap fun slot =>
    spineSortBlocks (o.sortSlot slot) ((blocksBySlot.lookup slot).getD [])

def spineGetDagChain (bc : DagChain) (o : SpineOrder) (spine : Block) :
    Except SpineError (List Block) := do
  let (_, dagBlocks) ← spineProcessBlock bc o (bc.store.blocks.length + 1) spine ∅ []
  let orderedBlocks := orderBlocks o dagBlocks
  -- check that spine is the last in chain
  match orderedBlocks.getLast? with
  | none => return orderedBlocks
  | some last => if last.hash ≠ spine.hash then throw .badSequence else return orderedBlocks

/-! ## Reading the parents -/

theorem DagChain.lookup_getBlocksByHashes (bc : DagChain) (hs : List Hash) (h : Hash) :
    (bc.getBlocksByHashes hs).lookup h = if h ∈ hs then some (bc.store.get h) else none := by
  induction hs using reverseRecOn with
  | nil => simp [getBlocksByHashes]
  | append_singleton hs k ih =>
    unfold getBlocksByHashes at ih ⊢
    rw [foldl_append, foldl_cons, foldl_nil]
    by_cases hk : h = k
    · subst hk; simp
    · rw [AList.lookup_insert_ne hk, ih]; simp [hk]

theorem DagChain.mem_keys_getBlocksByHashes {h : Hash} :
    h ∈ (bc.getBlocksByHashes hs).keys ↔ h ∈ hs := by
  rw [← AList.mem_keys, ← AList.lookup_isSome, bc.lookup_getBlocksByHashes]
  split_ifs <;> simp_all

/-- When every parent is stored, the loop returns the parents in the order of the
    keys. -/
theorem collectParents_spec (hst : ∀ h ∈ hs, (bc.store.get h).isSome) (hk : ks ⊆ hs) :
    ∃ ps, collectParents (bc.getBlocksByHashes hs) ks = .ok ps ∧ ps.map Block.hash = ks ∧
      ∀ p ∈ ps, p ∈ bc.store.blocks := by
  induction ks with
  | nil => exact ⟨[], rfl, rfl, by simp⟩
  | cons k ks ih =>
    obtain ⟨ps, hps, hmap, hmem⟩ := ih (subset_of_cons_subset hk)
    have hkm : k ∈ hs := hk (by simp)
    obtain ⟨b, hb⟩ := Option.isSome_iff_exists.1 (hst k hkm)
    refine ⟨b :: ps, ?_, by simp [hmap, BlockStore.get_hash hb], ?_⟩
    · simp [collectParents, bc.lookup_getBlocksByHashes, hkm, hb, hps]
    · exact forall_mem_cons.2 ⟨BlockStore.get_mem hb, hmem⟩

/-! ## The unfinalized ancestry of a block -/

namespace DagChain

variable {bc : DagChain} {n m : ℕ}
variable {h a p : Hash} {b : Block} {cand cand' : Finset Hash}

/-- `h` and its ancestors, as far as they are not finalized. -/
def pending (bc : DagChain) (h : Hash) : Set Hash :=
  {a | bc.AncestorOrSelf h a ∧ bc.finNumber a = none}

theorem isSome_of_ancestor (hf : bc.FinClosed) (ha : bc.AncestorOrSelf h a)
    (hh : (bc.finNumber h).isSome) : (bc.finNumber a).isSome := by
  induction ha with
  | refl => exact hh
  | tail _ hp ih => exact hf _ _ hp ih

theorem pending_of_finalized (hf : bc.FinClosed) (hh : bc.finNumber h ≠ none) :
    bc.pending h = ∅ := by
  refine Set.eq_empty_of_forall_notMem fun a ⟨ha, hn⟩ => ?_
  have := isSome_of_ancestor hf ha (Option.ne_none_iff_isSome.1 hh)
  simp [hn] at this

theorem pending_eq (hb : b ∈ bc.store.blocks) (hn : bc.finNumber b.hash = none) :
    bc.pending b.hash = insert b.hash (⋃ p ∈ b.parentHashes, bc.pending p) := by
  ext a
  simp only [pending, Set.mem_ofPred_eq, Set.mem_insert_iff, Set.mem_iUnion, exists_prop]
  constructor
  · rintro ⟨ha, hna⟩
    rcases ha.cases_head with rfl | ⟨p, hp, ha⟩
    · exact .inl rfl
    · exact .inr ⟨p, (parent_iff hb).1 hp, ha, hna⟩
  · rintro (rfl | ⟨p, hp, ha, hna⟩)
    · exact ⟨.refl, hn⟩
    · exact ⟨.head ((parent_iff hb).2 hp) ha, hna⟩

theorem AncestorsStored.parent (h : bc.AncestorsStored b.hash) (hb : b ∈ bc.store.blocks)
    (hp : p ∈ b.parentHashes) : bc.AncestorsStored p :=
  fun a ha => h a (.head ((parent_iff hb).2 hp) ha)

/-- Below slot `n` the visited set is closed under unfinalized parents.  The blocks
    the walk is still inside of are above. -/
def ClosedBelow (bc : DagChain) (n : ℕ) (cand : Finset Hash) : Prop :=
  ∀ b ∈ bc.store.blocks, b.hash ∈ cand → b.slot < n →
    ∀ p ∈ b.parentHashes, bc.finNumber p = none → p ∈ cand

theorem ClosedBelow.mono (h : bc.ClosedBelow n cand) (hm : m ≤ n) :
    bc.ClosedBelow m cand := fun b hb hc hs => h b hb hc (lt_of_lt_of_le hs hm)

theorem ClosedBelow.visits {out : List Block} (hc : bc.ClosedBelow n cand)
    (hv : Visits Block.hash {b | b ∈ bc.store.blocks} (bc.pending h) cand cand' out) :
    bc.ClosedBelow n cand' := by
  intro b hb hbc hbn p hp hpn
  rcases (hv.mem_seen _).1 hbc with hbc | ⟨ha, -⟩
  · exact (hv.mem_seen _).2 (.inl (hc b hb hbc hbn p hp hpn))
  · exact (hv.mem_seen _).2 (.inr ⟨ha.tail ((parent_iff hb).2 hp), hpn⟩)

/-- A visited block below `n` has its whole unfinalized ancestry visited. -/
theorem ClosedBelow.pending_subset (hslot : bc.SlotOrdered) (hf : bc.FinClosed)
    (hc : bc.ClosedBelow n cand) (hb : b ∈ bc.store.blocks) (hbc : b.hash ∈ cand)
    (hbn : b.slot < n) (hst : bc.AncestorsStored b.hash) : bc.pending b.hash ⊆ ↑cand := by
  rintro a ⟨ha, hna⟩
  generalize hh : b.hash = h at ha hst
  induction ha using Relation.ReflTransGen.head_induction_on generalizing b with
  | refl => exact hh ▸ hbc
  | head hp ha ih =>
    subst hh
    have hp' := (parent_iff hb).1 hp
    obtain ⟨q, hq⟩ := Option.isSome_iff_exists.1 (hst _ (.single hp))
    obtain ⟨hqm, rfl⟩ := BlockStore.get_eq_some.1 hq
    have hqn : bc.finNumber q.hash = none := by
      by_contra hne
      have := isSome_of_ancestor hf ha (Option.ne_none_iff_isSome.1 hne)
      simp [hna] at this
    have hqs : q.slot < b.slot := hslot b hb q hqm hp'
    exact ih hqm (hc b hb hbc hbn _ hp' hqn) (by omega) rfl (hst.parent hb hp')

end DagChain

/-! ## What the walk collects -/

section
variable {bc : DagChain} (hslot : bc.SlotOrdered) (hf : bc.FinClosed)
include hslot hf

/-- The stored blocks, as the items of the walk. -/
abbrev DagChain.Walk (bc : DagChain) (R : Set Hash) (cand cand' : Finset Hash)
    (out : List Block) : Prop :=
  Visits Block.hash {b | b ∈ bc.store.blocks} R cand cand' out

/-- The loop over the parents, from what one call does: `n` bounds the unvisited
    blocks and `s` is the slot of the child. -/
theorem processParents_spec {n s : ℕ}
    {calcChain : Block → Finset Hash → Except SpineError (Finset Hash × List Block)}
    (hcalc : ∀ p ∈ bc.store.blocks, p.slot < s → bc.AncestorsStored p.hash →
      bc.finNumber p.hash = none → ∀ cand, p.hash ∉ cand → bc.ClosedBelow s cand →
      unseen Block.hash bc.store.blocks cand < n →
      ∃ cand' part, calcChain p cand = .ok (cand', part) ∧
        bc.Walk (bc.pending p.hash) cand cand' part) :
    ∀ (ps : List Block), (∀ p ∈ ps, p ∈ bc.store.blocks ∧ p.slot < s ∧ bc.AncestorsStored p.hash) →
      ∀ (cand : Finset Hash) (chain : List Block), bc.ClosedBelow s cand →
      unseen Block.hash bc.store.blocks cand < n →
      ∃ cand' part, processParents bc calcChain ps cand chain = .ok (cand', chain ++ part) ∧
        bc.Walk (⋃ p ∈ ps, bc.pending p.hash) cand cand' part
  | [], _, cand, chain, _, _ => ⟨cand, [], by simp [processParents], .skip (by simp)⟩
  | p :: ps, hps, cand, chain, hc, hn => by
    obtain ⟨⟨hpm, hpslot, hpst⟩, hps⟩ := forall_mem_cons.1 hps
    have hunion : (⋃ q ∈ p :: ps, bc.pending q.hash) =
        bc.pending p.hash ∪ ⋃ q ∈ ps, bc.pending q.hash := by
      simp
    rw [hunion]
    unfold processParents
    split_ifs with hp
    · obtain ⟨c₁, part₁, hcall, hv₁⟩ := hcalc p hpm hpslot hpst hp.2 cand hp.1 hc hn
      have hp₁ : insert p.hash c₁ = c₁ :=
        Finset.insert_eq_self.2 ((hv₁.mem_seen _).2 (.inr ⟨.refl, hp.2⟩))
      have hsub : cand ⊆ c₁ := fun h hh => (hv₁.mem_seen h).2 (.inl hh)
      obtain ⟨c₂, part₂, hrest, hv₂⟩ := processParents_spec hcalc ps hps c₁ (chain ++ part₁)
        (hc.visits hv₁) (lt_of_le_of_lt (unseen_mono hsub) hn)
      refine ⟨c₂, part₁ ++ part₂, ?_, hv₁.trans hv₂⟩
      rw [hcall]
      simpa [hp₁] using hrest
    · obtain ⟨c₂, part₂, hrest, hv₂⟩ := processParents_spec hcalc ps hps cand chain hc hn
      refine ⟨c₂, part₂, hrest, (Visits.skip ?_ : bc.Walk _ cand cand []).trans hv₂⟩
      -- a skipped parent is visited, with its ancestry, or finalized
      by_cases hpc : p.hash ∈ cand
      · exact hc.pending_subset hslot hf hpm hpc hpslot hpst
      · rw [DagChain.pending_of_finalized hf fun h => hp ⟨hpc, h⟩]; exact Set.empty_subset _

omit hslot hf in
/-- The parents that `spineProcessBlock` reads: every listed parent, once. -/
theorem parents_spec (o : SpineOrder) {b : Block} (hb : b ∈ bc.store.blocks)
    (hst : bc.AncestorsStored b.hash) : ∃ ps, collectParents (bc.getBlocksByHashes b.parentHashes)
        ((o.parents b.hash).order (bc.getBlocksByHashes b.parentHashes).keys) = .ok ps ∧
      (∀ p, p ∈ ps ↔ p ∈ bc.store.blocks ∧ p.hash ∈ b.parentHashes) ∧
      (ps.map Block.hash).Nodup := by
  have hsub : (o.parents b.hash).order (bc.getBlocksByHashes b.parentHashes).keys ⊆
      b.parentHashes := fun p hp =>
    DagChain.mem_keys_getBlocksByHashes.1 (Shuffle.mem_order.1 hp)
  obtain ⟨ps, hps, hmap, hmem⟩ := collectParents_spec
    (fun p hp => hst p (.single ((DagChain.parent_iff hb).2 hp))) hsub
  have hkey : ∀ h, h ∈ ps.map Block.hash ↔ h ∈ b.parentHashes := fun h => by
    rw [hmap, Shuffle.mem_order, DagChain.mem_keys_getBlocksByHashes]
  refine ⟨ps, hps, fun p => ⟨fun hp => ⟨hmem p hp, (hkey _).1 (mem_map_of_mem hp)⟩, ?_⟩,
    hmap ▸ Shuffle.nodup_order (AList.keys_nodup _)⟩
  rintro ⟨hp, hpp⟩
  obtain ⟨q, hq, hqp⟩ := mem_map.1 ((hkey _).2 hpp)
  rwa [← inj_on_of_nodup_map bc.store.nodup (hmem q hq) hp hqp]

/-- A call of `spineProcessBlock` with enough depth succeeds and collects the part of
    the block's unfinalized ancestry that was not visited before. -/
theorem spineProcessBlock_spec (o : SpineOrder) : ∀ (n : ℕ) (b : Block), b ∈ bc.store.blocks →
    bc.AncestorsStored b.hash → bc.finNumber b.hash = none →
    ∀ (cand : Finset Hash) (chain : List Block), b.hash ∉ cand → bc.ClosedBelow (b.slot + 1) cand →
    unseen Block.hash bc.store.blocks cand < n →
    ∃ cand' part, spineProcessBlock bc o n b cand chain = .ok (cand', chain ++ part) ∧
      bc.Walk (bc.pending b.hash) cand cand' part
  | 0, _, _, _, _, _, _, _, _, hn => absurd hn (Nat.not_lt_zero _)
  | n + 1, b, hb, hst, hbn, cand, chain, hbc, hc, hn => by
    obtain ⟨ps, hps, hpar, hpn⟩ := parents_spec o hb hst
    have hchild : bc.ClosedBelow b.slot (insert b.hash cand) := by
      intro c hcm hcc hcs p hp hpn
      have hne : c.hash ≠ b.hash := fun h => by
        rw [inj_on_of_nodup_map bc.store.nodup hcm hb h] at hcs; omega
      have hcc' : c.hash ∈ cand := (Finset.mem_insert.1 hcc).resolve_left hne
      exact Finset.mem_insert_of_mem (hc c hcm hcc' (by omega) p hp hpn)
    have hsort : ∀ p, p ∈ spineSortBlocks (o.sortParents b.hash) ps ↔ p ∈ ps := fun p =>
      (spineSortBlocks_perm _ hpn).mem_iff
    obtain ⟨cand', part, hloop, hv⟩ := processParents_spec hslot hf (n := n) (s := b.slot)
      (fun p hp hps hpst hpf c hpc hcl hun => by
        simpa using spineProcessBlock_spec o n p hp hpst hpf c [] hpc (hcl.mono hps) hun)
      (spineSortBlocks (o.sortParents b.hash) ps)
      (fun p hp => by
        obtain ⟨hpm, hpp⟩ := (hpar p).1 ((hsort p).1 hp)
        exact ⟨hpm, hslot b hb p hpm hpp, hst.parent hb hpp⟩)
      (insert b.hash cand) chain hchild
      (Nat.lt_of_lt_of_le (unseen_lt hb hbc) (Nat.le_of_lt_succ hn))
    refine ⟨cand', part ++ [b], ?_, ?_⟩
    · simp [spineProcessBlock, hbc, DagChain.number, hbn, hps, hloop]
    · have hroot := hv.root (x := b) hb (fun x hx y hy h =>
        inj_on_of_nodup_map bc.store.nodup hx hy h) hbc
      refine hroot.congr ?_
      rw [DagChain.pending_eq hb hbn]
      congr 1; ext a
      simp only [Set.mem_iUnion, exists_prop, hsort, hpar]
      constructor
      · rintro ⟨p, ⟨-, hpp⟩, ha⟩; exact ⟨p.hash, hpp, ha⟩
      · rintro ⟨p, hp, ha⟩
        obtain ⟨q, hq⟩ := Option.isSome_iff_exists.1
          (hst p (.single ((DagChain.parent_iff hb).2 hp)))
        obtain ⟨hqm, rfl⟩ := BlockStore.get_eq_some.1 hq
        exact ⟨q, ⟨hqm, hp⟩, ha⟩

end

/-! ## The order of the chain -/

variable {b a : Block} {bs : List Block}

/-- The finalization order: by slot, and inside a slot as `SpineSortBlocks` has it. -/
def Block.FinBefore (a b : Block) : Prop := a.slot < b.slot ∨ a.slot = b.slot ∧ a.Before b

theorem Block.FinBefore.asymm (h : a.FinBefore b) : ¬ b.FinBefore a := by
  rintro (h' | ⟨_, h'⟩) <;> rcases h with h | ⟨_, h⟩ <;> try omega
  exact h.asymm h'

theorem nodup_of_finBefore (h : bs.Pairwise Block.FinBefore) : bs.Nodup :=
  h.imp fun {a b} hab (heq : a = b) => hab.asymm (heq ▸ hab)

theorem groupBySlot_snoc (bs : List Block) (b : Block) : groupBySlot (bs ++ [b]) =
      (groupBySlot bs).insert b.slot (((groupBySlot bs).lookup b.slot).getD [] ++ [b]) := by
  simp [groupBySlot, foldl_append]

theorem getD_lookup_groupBySlot (bs : List Block) (s : ℕ) :
    ((groupBySlot bs).lookup s).getD [] = bs.filter (fun b => b.slot = s) := by
  induction bs using reverseRecOn with
  | nil => simp [groupBySlot]
  | append_singleton bs b ih =>
    rw [groupBySlot_snoc, filter_append]
    by_cases hs : s = b.slot
    · subst hs; simp [ih]
    · rw [AList.lookup_insert_ne hs, ih]
      simp [Ne.symm hs]

theorem mem_keys_groupBySlot {s : ℕ} : s ∈ (groupBySlot bs).keys ↔ ∃ b ∈ bs, b.slot = s := by
  induction bs using reverseRecOn with
  | nil => simp [groupBySlot]
  | append_singleton bs b ih =>
    rw [groupBySlot_snoc, ← AList.mem_keys, AList.mem_insert, AList.mem_keys, ih]
    simp [or_and_right, exists_or, or_comm, eq_comm]

theorem orderBlocks_pairwise (o : SpineOrder) (bs : List Block) :
    (orderBlocks o bs).Pairwise Block.FinBefore := by
  have hslot : ∀ s, ∀ b ∈ spineSortBlocks (o.sortSlot s) (((groupBySlot bs).lookup s).getD []),
      b.slot = s := fun s b hb => by
    rw [getD_lookup_groupBySlot] at hb
    simpa using (mem_filter.1 (spineSortBlocks_subset hb)).2
  unfold orderBlocks
  rw [pairwise_flatMap]
  refine ⟨fun s _ => ?_, ?_⟩
  · refine (spineSortBlocks_pairwise _ _).imp_of_mem fun {a b} ha hb hab => .inr ⟨?_, hab⟩
    rw [hslot s a ha, hslot s b hb]
  · refine (sortAsc_pairwise_lt (Shuffle.nodup_order (AList.keys_nodup _))).imp ?_
    intro s t hst a ha b hb
    exact .inl (by rw [hslot s a ha, hslot t b hb]; exact hst)

theorem mem_orderBlocks {o : SpineOrder} (hn : (bs.map Block.hash).Nodup) :
    b ∈ orderBlocks o bs ↔ b ∈ bs := by
  have hfil : ∀ s, ((bs.filter fun b => b.slot = s).map Block.hash).Nodup := fun s =>
    hn.sublist (filter_sublist.map _)
  simp only [orderBlocks, mem_flatMap, mem_sortAsc, Shuffle.mem_order, mem_keys_groupBySlot,
    getD_lookup_groupBySlot, (spineSortBlocks_perm _ (hfil _)).mem_iff, mem_filter]
  constructor
  · rintro ⟨s, -, hb, -⟩; exact hb
  · intro hb; exact ⟨b.slot, ⟨b, hb, rfl⟩, hb, by simp⟩

/-! ## Chains of arbitrary stores -/

section
variable {bc : DagChain} {o : SpineOrder}

theorem mem_store_of_collectParents {hs : List Hash} : ∀ {ks : List Hash} {ps : List Block},
    collectParents (bc.getBlocksByHashes hs) ks = .ok ps → ∀ p ∈ ps, p ∈ bc.store.blocks
  | [], ps, h => by
    obtain rfl : [] = ps := Except.ok.inj h
    simp
  | k :: ks, ps, h => by
    unfold collectParents at h
    rw [bc.lookup_getBlocksByHashes] at h
    by_cases hk : k ∈ hs
    · rw [if_pos hk, Option.join_some] at h
      cases hb : bc.store.get k with
      | none => rw [hb] at h; cases h
      | some b =>
        rw [hb] at h
        obtain ⟨ps', hps', hret⟩ := bind_eq_ok.1 h
        obtain rfl : b :: ps' = ps := Except.ok.inj hret
        exact forall_mem_cons.2
          ⟨BlockStore.get_mem hb, mem_store_of_collectParents hps'⟩
    · rw [if_neg hk] at h; cases h

/-- The walk emits blocks that are stored and not finalized, each once.  `R` is what it
    visits; `start` is among it unless it was visited or is finalized. -/
def DagChain.FreshWalk (bc : DagChain) (start : Hash) (cand cand' : Finset Hash)
    (out : List Block) : Prop :=
  ∃ R : Set Hash, bc.Walk R cand cand' out ∧ (∀ h ∈ R, bc.finNumber h = none) ∧
    (start ∉ cand → bc.finNumber start = none → start ∈ R)

theorem processParents_fresh
    {calcChain : Block → Finset Hash → Except SpineError (Finset Hash × List Block)}
    (hcalc : ∀ p ∈ bc.store.blocks, ∀ cand cand' part, calcChain p cand = .ok (cand', part) →
      bc.FreshWalk p.hash cand cand' part) :
    ∀ {ps : List Block}, (∀ p ∈ ps, p ∈ bc.store.blocks) →
      ∀ {cand cand' : Finset Hash} {chain chain' : List Block},
      processParents bc calcChain ps cand chain = .ok (cand', chain') →
      ∃ part R, chain' = chain ++ part ∧ bc.Walk R cand cand' part ∧
        ∀ h ∈ R, bc.finNumber h = none
  | [], _, cand, cand', chain, chain', h => by
    obtain ⟨rfl, rfl⟩ := Prod.mk.inj (Except.ok.inj h)
    exact ⟨[], ∅, by simp, .skip (by simp), by simp⟩
  | p :: ps, hps, cand, cand', chain, chain', h => by
    obtain ⟨hp, hps⟩ := forall_mem_cons.1 hps
    unfold processParents at h
    split_ifs at h with hnew
    · obtain ⟨⟨c₁, part₁⟩, hcall, h⟩ := bind_eq_ok.1 h
      obtain ⟨R₁, hv₁, hR₁, hstart⟩ := hcalc p hp _ _ _ hcall
      have hins : insert p.hash c₁ = c₁ :=
        Finset.insert_eq_self.2 ((hv₁.mem_seen _).2 (.inr (hstart hnew.1 hnew.2)))
      simp only [hins] at h
      obtain ⟨part₂, R₂, rfl, hv₂, hR₂⟩ := processParents_fresh hcalc hps h
      exact ⟨part₁ ++ part₂, R₁ ∪ R₂, by simp, hv₁.trans hv₂, fun x hx => hx.elim (hR₁ x) (hR₂ x)⟩
    · exact processParents_fresh hcalc hps h

theorem spineProcessBlock_fresh : ∀ {n : ℕ} {b : Block}, b ∈ bc.store.blocks →
    ∀ {cand cand' : Finset Hash} {chain chain' : List Block},
    spineProcessBlock bc o n b cand chain = .ok (cand', chain') →
    ∃ part, chain' = chain ++ part ∧ bc.FreshWalk b.hash cand cand' part
  | 0, _, _, _, _, _, _, h => by cases h
  | n + 1, b, hb, cand, cand', chain, chain', h => by
    unfold spineProcessBlock at h
    split_ifs at h with hskip
    · obtain ⟨rfl, rfl⟩ := Prod.mk.inj (Except.ok.inj h)
      refine ⟨[], by simp, ∅, .skip (by simp), by simp, fun hc hn => ?_⟩
      exact absurd hskip (by simp [hc, DagChain.number, hn])
    · simp only [not_or, not_not] at hskip
      obtain ⟨ps, hps, h⟩ := bind_eq_ok.1 h
      obtain ⟨⟨c₁, chain₁⟩, hloop, h⟩ := bind_eq_ok.1 h
      obtain ⟨rfl, rfl⟩ := Prod.mk.inj (Except.ok.inj h)
      have hcalc : ∀ p ∈ bc.store.blocks, ∀ cand cand' part,
          spineProcessBlock bc o n p cand [] = .ok (cand', part) →
          bc.FreshWalk p.hash cand cand' part := fun p hp _ _ _ hrun => by
        obtain ⟨_, rfl, hv⟩ := spineProcessBlock_fresh hp hrun
        exact hv
      obtain ⟨part, R, rfl, hv, hR⟩ := processParents_fresh hcalc
        (fun p hp => mem_store_of_collectParents hps p (spineSortBlocks_subset hp)) hloop
      have hroot := hv.root (x := b) hb (fun x hx y hy h =>
        inj_on_of_nodup_map bc.store.nodup hx hy h) hskip.1
      refine ⟨part ++ [b], by simp, _, hroot, fun x hx => ?_, fun _ _ => .inl rfl⟩
      rcases hx with rfl | hx
      · exact hskip.2
      · exact hR x hx

/-- What every computed chain satisfies, whatever the DAG looks like. -/
structure FreshChain (bc : DagChain) (spine : Hash) (chain : List Block) : Prop where
  nodup : (chain.map Block.hash).Nodup
  mem : ∀ b ∈ chain, b ∈ bc.store.blocks ∧ bc.finNumber b.hash = none
  last : ∀ b, chain.getLast? = some b → b.hash = spine
  nil : chain = [] ↔ (bc.finNumber spine).isSome

theorem spineGetDagChain_fresh {spine : Block} {chain : List Block} (hs : spine ∈ bc.store.blocks)
    (h : spineGetDagChain bc o spine = .ok chain) : FreshChain bc spine.hash chain := by
  obtain ⟨⟨cand, dag⟩, hwalk, h⟩ := bind_eq_ok.1 h
  obtain ⟨_, rfl, R, hv, hR, hstart⟩ := spineProcessBlock_fresh hs hwalk
  simp only at h
  have hchain : orderBlocks o dag = chain ∧
      ∀ b, (orderBlocks o dag).getLast? = some b → b.hash = spine.hash := by
    cases hl : (orderBlocks o dag).getLast? with
    | none => rw [hl] at h; exact ⟨Except.ok.inj h, by simp⟩
    | some last =>
      rw [hl] at h
      simp only [] at h
      split_ifs at h with hlast
      · exact ⟨Except.ok.inj h, by simpa using not_not.1 hlast⟩
  obtain ⟨rfl, hlast⟩ := hchain
  have hmem : ∀ b ∈ orderBlocks o dag, b ∈ bc.store.blocks ∧ bc.finNumber b.hash = none := by
    intro b hb
    obtain ⟨hbs, -, hbR⟩ := (hv.mem_out b).1 ((mem_orderBlocks hv.nodup).1 hb)
    exact ⟨hbs, hR _ hbR⟩
  refine ⟨(nodup_of_finBefore (orderBlocks_pairwise o dag)).map_on fun _ ha _ hb heq =>
    inj_on_of_nodup_map bc.store.nodup (hmem _ ha).1 (hmem _ hb).1 heq, hmem, hlast, ?_, ?_⟩
  · intro hnil
    by_contra hn
    have hspine : spine ∈ dag :=
      (hv.mem_out spine).2 ⟨hs, by simp, hstart (by simp) (by simpa using hn)⟩
    have := (mem_orderBlocks (o := o) hv.nodup).2 hspine
    simp [hnil] at this
  · intro hn
    refine eq_nil_iff_forall_not_mem.2 fun b hb => ?_
    -- a finalized spine is not walked at all
    have hrun : spineProcessBlock bc o (bc.store.blocks.length + 1) spine ∅ [] = .ok (∅, []) := by
      unfold spineProcessBlock
      rw [if_pos (.inr (Option.ne_none_iff_isSome.2 hn))]
    obtain ⟨-, hdag⟩ := Prod.mk.inj (Except.ok.inj (hrun.symm.trans hwalk))
    have := (mem_orderBlocks hv.nodup).1 hb
    simp [← hdag] at this

end

end Gwat
