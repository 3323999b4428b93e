/-
  The chain of a spine is canonical.
-/
import Gwat.Dag.Spine

namespace Gwat

open GoLib List

/-! ## The canonical chain -/

/-- The chain of `spine`: its unfinalized ancestry in the finalization order. -/
structure IsDagChain (bc : DagChain) (spine : Hash) (chain : List Block) : Prop where
  mem : ∀ b, b ∈ chain ↔ b ∈ bc.store.blocks ∧ b.hash ∈ bc.pending spine
  sorted : chain.Pairwise Block.FinBefore

variable {bc bc' : DagChain} {spine b a a' b' : Block} {chain c c' chain' : List Block}

theorem IsDagChain.unique {spine : Hash} (h : IsDagChain bc spine c) (h' : IsDagChain bc spine c') :
    c = c' := by
  have hperm : c.Perm c' := (perm_ext_iff_of_nodup (nodup_of_finBefore h.sorted)
    (nodup_of_finBefore h'.sorted)).2 fun b => (h.mem b).trans (h'.mem b).symm
  exact hperm.eq_of_pairwise (fun _ _ _ _ hab hba => absurd hba hab.asymm) h.sorted h'.sorted

theorem IsDagChain.mem_store (h : IsDagChain bc spine.hash chain) (hb : b ∈ chain) :
    b ∈ bc.store.blocks := ((h.mem b).1 hb).1

theorem IsDagChain.nodup_hash (h : IsDagChain bc spine.hash chain) : (chain.map Block.hash).Nodup :=
  (nodup_of_finBefore h.sorted).map_on fun _ ha _ hb heq =>
    inj_on_of_nodup_map bc.store.nodup (h.mem_store ha) (h.mem_store hb) heq

theorem DagChain.slot_lt_of_ancestor (hslot : bc.SlotOrdered) (hs : spine ∈ bc.store.blocks)
    (hst : bc.AncestorsStored spine.hash) {a : Hash} (ha : bc.AncestorOrSelf spine.hash a) :
    ∀ b ∈ bc.store.blocks, b.hash = a → b = spine ∨ b.slot < spine.slot := by
  induction ha with
  | refl => exact fun b hb h => .inl (inj_on_of_nodup_map bc.store.nodup hb hs h)
  | tail hc hp ih =>
    rintro b hb rfl
    obtain ⟨c, hcg, hpp⟩ := hp
    obtain ⟨hcm, hch⟩ := BlockStore.get_eq_some.1 hcg
    have hbc : b.slot < c.slot := hslot c hcm b hb hpp
    rcases ih c hcm hch with rfl | hlt
    · exact .inr hbc
    · exact .inr (hbc.trans hlt)

theorem IsDagChain.spine_mem (h : IsDagChain bc spine.hash chain) (hs : spine ∈ bc.store.blocks)
    (hn : bc.finNumber spine.hash = none) : spine ∈ chain := (h.mem spine).2 ⟨hs, .refl, hn⟩

theorem IsDagChain.getLast (h : IsDagChain bc spine.hash chain) (hslot : bc.SlotOrdered)
    (hs : spine ∈ bc.store.blocks) (hn : bc.finNumber spine.hash = none)
    (hst : bc.AncestorsStored spine.hash) : chain.getLast? = some spine := by
  have hmem := h.spine_mem hs hn
  rcases chain.eq_nil_or_concat' with rfl | ⟨init, last, rfl⟩
  · simp at hmem
  · rw [List.getLast?_concat, Option.some.injEq]
    by_contra hne
    have hinit : spine ∈ init := by simpa [Ne.symm hne] using hmem
    have hbefore : spine.FinBefore last :=
      (pairwise_append.1 h.sorted).2.2 spine hinit last (by simp)
    obtain ⟨hlm, hla, -⟩ := (h.mem last).1 (by simp)
    have hlt := (DagChain.slot_lt_of_ancestor hslot hs hst hla last hlm rfl).resolve_left hne
    rcases hbefore with hb | ⟨hb, -⟩ <;> omega

theorem IsDagChain.parent_lt (h : IsDagChain bc spine.hash chain) (hslot : bc.SlotOrdered)
    {i j : ℕ} (hi : i < chain.length) (hj : j < chain.length)
    (hp : chain[i].hash ∈ chain[j].parentHashes) : i < j := by
  have hlt : chain[i].slot < chain[j].slot :=
    hslot _ (h.mem_store (getElem_mem hj)) _ (h.mem_store (getElem_mem hi)) hp
  rcases Nat.lt_trichotomy i j with hij | rfl | hij
  · exact hij
  · omega
  · have := pairwise_iff_getElem.1 h.sorted j i hj hi hij
    rcases this with hb | ⟨hb, -⟩ <;> omega

/-- `SpineGetDagChain` returns the canonical chain, in whatever order it ranges over
    its maps. -/
theorem spineGetDagChain_isDagChain (hslot : bc.SlotOrdered) (hf : bc.FinClosed)
    (hs : spine ∈ bc.store.blocks) (hn : bc.finNumber spine.hash = none)
    (hst : bc.AncestorsStored spine.hash) (o : SpineOrder) :
    ∃ chain, spineGetDagChain bc o spine = .ok chain ∧ IsDagChain bc spine.hash chain := by
  obtain ⟨cand, dag, hwalk, hv⟩ := spineProcessBlock_spec hslot hf o (bc.store.blocks.length + 1)
    spine hs hst hn ∅ [] (by simp) (fun b _ hb => by simp at hb)
    (Nat.lt_succ_of_le (unseen_le_length _ _ _))
  have hchain : IsDagChain bc spine.hash (orderBlocks o dag) := by
    refine ⟨fun b => ?_, orderBlocks_pairwise o dag⟩
    rw [mem_orderBlocks hv.nodup, hv.mem_out]; simp
  refine ⟨orderBlocks o dag, ?_, hchain⟩
  have hlast := hchain.getLast hslot hs hn hst
  simp [spineGetDagChain, hwalk, hlast]

/-! ## The order in which parents are listed -/

/-- The same block up to the order of its parents. -/
structure Block.SameUpToParents (a b : Block) : Prop where
  hash : a.hash = b.hash
  slot : a.slot = b.slot
  height : a.height = b.height
  parents : a.parentHashes.Perm b.parentHashes

/-- The same DAG up to the order in which the parents of each block are listed. -/
structure DagChain.SameDag (bc bc' : DagChain) : Prop where
  get : ∀ h, Option.Rel Block.SameUpToParents (bc.store.get h) (bc'.store.get h)
  finNumber : bc.finNumber = bc'.finNumber

theorem Block.SameUpToParents.finBefore_iff (ha : a.SameUpToParents a')
    (hb : b.SameUpToParents b') : a.FinBefore b ↔ a'.FinBefore b' := by
  simp [FinBefore, Before, plen, ha.hash, ha.slot, ha.height, ha.parents.length_eq, hb.hash,
    hb.slot, hb.height, hb.parents.length_eq]

namespace DagChain.SameDag

theorem exists_mem' (h : bc.SameDag bc') {b' : Block} (hb : b' ∈ bc'.store.blocks) :
    ∃ b ∈ bc.store.blocks, b.SameUpToParents b' := by
  have hrel := h.get b'.hash
  rw [BlockStore.get_of_mem hb] at hrel
  cases hg : bc.store.get b'.hash with
  | none => rw [hg] at hrel; cases hrel
  | some b => rw [hg] at hrel; cases hrel with | some hr => exact ⟨b, BlockStore.get_mem hg, hr⟩

theorem exists_mem (h : bc.SameDag bc') {b : Block} (hb : b ∈ bc.store.blocks) :
    ∃ b', bc'.store.get b.hash = some b' ∧ b.SameUpToParents b' := by
  have hrel := h.get b.hash
  rw [BlockStore.get_of_mem hb] at hrel
  cases hg : bc'.store.get b.hash with
  | none => rw [hg] at hrel; cases hrel
  | some b' => rw [hg] at hrel; cases hrel with | some hr => exact ⟨b', rfl, hr⟩

theorem parent_eq (h : bc.SameDag bc') : bc.Parent = bc'.Parent := by
  funext c p
  refine propext ⟨?_, ?_⟩
  · rintro ⟨b, hb, hp⟩
    obtain ⟨hbm, rfl⟩ := BlockStore.get_eq_some.1 hb
    obtain ⟨b', hg, hr⟩ := h.exists_mem hbm
    exact ⟨b', hg, hr.parents.mem_iff.1 hp⟩
  · rintro ⟨b', hb', hp⟩
    obtain ⟨hbm', rfl⟩ := BlockStore.get_eq_some.1 hb'
    obtain ⟨b, hbm, hr⟩ := h.exists_mem' hbm'
    exact ⟨b, hr.hash ▸ BlockStore.get_of_mem hbm, hr.parents.mem_iff.2 hp⟩

theorem pending_eq (h : bc.SameDag bc') (x : Hash) : bc.pending x = bc'.pending x := by
  simp only [pending, AncestorOrSelf, h.parent_eq, h.finNumber]

theorem slotOrdered (h : bc.SameDag bc') (hs : bc.SlotOrdered) : bc'.SlotOrdered := by
  intro b' hb' p' hp' hpp
  obtain ⟨b, hb, hbr⟩ := h.exists_mem' hb'
  obtain ⟨p, hp, hpr⟩ := h.exists_mem' hp'
  rw [← hbr.slot, ← hpr.slot]
  exact hs b hb p hp (hpr.hash ▸ hbr.parents.mem_iff.2 hpp)

theorem finClosed (h : bc.SameDag bc') (hf : bc.FinClosed) : bc'.FinClosed := by
  unfold FinClosed; rw [← h.parent_eq, ← h.finNumber]; exact hf

theorem ancestorsStored (h : bc.SameDag bc') {x : Hash} (hst : bc.AncestorsStored x) :
    bc'.AncestorsStored x := by
  intro a ha
  rw [AncestorOrSelf, ← h.parent_eq] at ha
  obtain ⟨b, hb⟩ := Option.isSome_iff_exists.1 (hst a ha)
  obtain ⟨hbm, rfl⟩ := BlockStore.get_eq_some.1 hb
  obtain ⟨b', hg, -⟩ := h.exists_mem hbm
  exact Option.isSome_iff_exists.2 ⟨b', hg⟩

end DagChain.SameDag

/-- The chains of one spine in two stores that differ in the order of parents have the
    same hashes. -/
theorem IsDagChain.map_hash_eq {s : Hash} (h : IsDagChain bc s chain) (h' : IsDagChain bc' s chain')
    (hsame : bc.SameDag bc') : chain'.map Block.hash = chain.map Block.hash := by
  choose! f hfg hfr using fun b (hb : b ∈ bc.store.blocks) => hsame.exists_mem hb
  have hst : ∀ b ∈ chain, b ∈ bc.store.blocks := fun b hb => ((h.mem b).1 hb).1
  have hf : IsDagChain bc' s (chain.map f) := by
    refine ⟨fun b' => ?_, pairwise_map.2 (h.sorted.imp_of_mem fun ha hb hab =>
      ((hfr _ (hst _ ha)).finBefore_iff (hfr _ (hst _ hb))).1 hab)⟩
    rw [mem_map, ← hsame.pending_eq]
    constructor
    · rintro ⟨b, hb, rfl⟩
      obtain ⟨hbm, hbp⟩ := (h.mem b).1 hb
      exact ⟨BlockStore.get_mem (hfg b hbm), (hfr b hbm).hash ▸ hbp⟩
    · rintro ⟨hbm', hbp⟩
      obtain ⟨b, hbm, hbr⟩ := hsame.exists_mem' hbm'
      refine ⟨b, (h.mem b).2 ⟨hbm, hbr.hash ▸ hbp⟩, ?_⟩
      have := hfg b hbm
      rw [hbr.hash, BlockStore.get_of_mem hbm'] at this
      exact (Option.some.inj this).symm
  rw [h'.unique hf, map_map]
  exact map_congr_left fun b hb => (hfr b (hst b hb)).hash.symm

/-- The result of `SpineGetDagChain` is the canonical finalization order.  On a DAG whose slots grow
    from parent to child and whose finalized blocks are closed under parents, the chain of
    an unfinalized spine with all ancestors stored is computed without error, holds exactly
    the spine and its unfinalized ancestors, each once, has every parent before its
    children and the spine last, and depends neither on the order in which maps are
    traversed nor on the order in which parents are listed. -/
theorem spineGetDagChain_canonical (bc : DagChain) (spine : Block) (hslot : bc.SlotOrdered)
    (hf : bc.FinClosed) (hs : spine ∈ bc.store.blocks) (hn : bc.finNumber spine.hash = none)
    (hst : bc.AncestorsStored spine.hash) :
    ∃ chain : List Block,
      (∀ o, spineGetDagChain bc o spine = .ok chain) ∧
      (∀ b, b ∈ chain ↔ b ∈ bc.store.blocks ∧ bc.AncestorOrSelf spine.hash b.hash ∧
        bc.finNumber b.hash = none) ∧
      (chain.map Block.hash).Nodup ∧
      (∀ i j (hi : i < chain.length) (hj : j < chain.length),
        chain[i].hash ∈ chain[j].parentHashes → i < j) ∧
      chain.getLast? = some spine ∧
      ∀ bc' spine', bc.SameDag bc' → bc'.store.get spine.hash = some spine' → ∀ o,
        ∃ chain', spineGetDagChain bc' o spine' = .ok chain' ∧
          chain'.map Block.hash = chain.map Block.hash := by
  obtain ⟨chain, -, hc⟩ := spineGetDagChain_isDagChain hslot hf hs hn hst default
  refine ⟨chain, fun o => ?_, hc.mem, hc.nodup_hash, fun i j hi hj => hc.parent_lt hslot hi hj,
    hc.getLast hslot hs hn hst, fun bc' spine' hsame hg o => ?_⟩
  · obtain ⟨chain', hrun, hc'⟩ := spineGetDagChain_isDagChain hslot hf hs hn hst o
    rw [hrun, hc'.unique hc]
  · obtain ⟨hs', hh⟩ := BlockStore.get_eq_some.1 hg
    rw [← hh] at hn hst hc
    obtain ⟨chain', hrun, hc'⟩ := spineGetDagChain_isDagChain (hsame.slotOrdered hslot)
      (hsame.finClosed hf) hs' (hsame.finNumber ▸ hn) (hsame.ancestorsStored hst) o
    exact ⟨chain', hrun, hc.map_hash_eq hc' hsame⟩

/-- A diamond over a finalized genesis block: the two blocks of slot 1 have the same height
    and the same number of parents. -/
def diamond : DagChain where
  store := ⟨[⟨1, [], 0, 0⟩, ⟨9, [7, 5], 3, 2⟩, ⟨7, [1], 1, 1⟩, ⟨5, [1], 1, 1⟩], by decide⟩
  finNumber h := if h = 1 then some 0 else none

theorem spineGetDagChain_canonical_diamond :
    diamond.SlotOrdered ∧ diamond.FinClosed ∧ diamond.AncestorsStored 9 ∧
      ∀ o, spineGetDagChain diamond o ⟨9, [7, 5], 3, 2⟩ =
        .ok [⟨5, [1], 1, 1⟩, ⟨7, [1], 1, 1⟩, ⟨9, [7, 5], 3, 2⟩] := by
  have hslot : diamond.SlotOrdered := by unfold DagChain.SlotOrdered; decide
  have hf : diamond.FinClosed := by rw [DagChain.finClosed_iff]; decide
  have hst : diamond.AncestorsStored 9 :=
    DagChain.ancestorsStored_of_closed (b := ⟨9, [7, 5], 3, 2⟩) (by decide) (by decide)
  refine ⟨hslot, hf, hst, fun o => ?_⟩
  obtain ⟨chain, hrun, -⟩ := spineGetDagChain_canonical diamond ⟨9, [7, 5], 3, 2⟩ hslot hf
    (by decide) (by decide) hst
  rw [hrun o, ← hrun default]; rfl

end Gwat
