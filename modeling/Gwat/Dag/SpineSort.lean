/-
  The order of the blocks of one slot (`SpineSortBlocks`, `core/types/spine.go`):
  greater height first, then more parents, then the smaller hash.
-/
import Gwat.Dag.Block

namespace Gwat

open GoLib List AList

variable {b a : Block} {bs cs : List Block} {o : SortOrder}

/-- The orders in which one call of `SpineSortBlocks` ranges over its maps: the
    heights, the parent counts of a height, the hashes of a height and count. -/
structure SortOrder where
  heights : Shuffle ℕ
  plens : ℕ → Shuffle ℕ
  hashes : ℕ → ℕ → Shuffle Hash
  deriving Inhabited

/-- `heightPlenMap`: the blocks by height, number of parents and hash. -/
def heightPlenMap (blocks : List Block) : GoMap ℕ (GoMap ℕ (GoMap Hash Block)) :=
  blocks.foldl (fun m bl =>
    let plenMap := (m.lookup bl.height).getD ∅
    let hashMap := (plenMap.lookup bl.plen).getD ∅
    m.insert bl.height (plenMap.insert bl.plen (hashMap.insert bl.hash bl))) ∅

/-- `SpineSortBlocks` sorts blocks by order of finalization. -/
def spineSortBlocks (o : SortOrder) (blocks : List Block) : List Block :=
  let m := heightPlenMap blocks
  (sortDesc (o.heights.order m.keys)).flatMap fun hk =>
    let plenMap := (m.lookup hk).getD ∅
    (sortDesc ((o.plens hk).order plenMap.keys)).flatMap fun k =>
      let hashMap := (plenMap.lookup k).getD ∅
      (sortAsc ((o.hashes hk k).order hashMap.keys)).filterMap hashMap.lookup

/-- The finalization order inside a slot. -/
def Block.Before (a b : Block) : Prop :=
  b.height < a.height ∨ a.height = b.height ∧
    (b.plen < a.plen ∨ a.plen = b.plen ∧ a.hash < b.hash)

theorem Block.Before.asymm (h : a.Before b) : ¬ b.Before a := by
  rintro (h' | ⟨h₁, h' | ⟨h₂, h'⟩⟩) <;> rcases h with h | ⟨_, h | ⟨_, h⟩⟩ <;> try omega
  exact lt_asymm h h'

/-! ## What the nested maps hold -/

/-- The innermost map, empty where a key is missing. -/
def bucket (m : GoMap ℕ (GoMap ℕ (GoMap Hash Block))) (h p : ℕ) : GoMap Hash Block :=
  (((m.lookup h).getD ∅).lookup p).getD ∅

theorem bucket_heightPlenMap_snoc (bs : List Block) (bl : Block) (h p : ℕ) :
    bucket (heightPlenMap (bs ++ [bl])) h p =
      if h = bl.height ∧ p = bl.plen then (bucket (heightPlenMap bs) h p).insert bl.hash bl
      else bucket (heightPlenMap bs) h p := by
  simp only [heightPlenMap, foldl_append, foldl_cons, foldl_nil, bucket]
  by_cases hh : h = bl.height
  · subst hh
    by_cases hp : p = bl.plen
    · subst hp; simp
    · simp [hp, lookup_insert_ne]
  · simp [hh, lookup_insert_ne]

theorem mem_of_bucket (bs : List Block) {h p : ℕ} {x : Hash}
    (hb : (bucket (heightPlenMap bs) h p).lookup x = some b) :
    b ∈ bs ∧ b.height = h ∧ b.plen = p ∧ b.hash = x := by
  induction bs using reverseRecOn with
  | nil => simp [heightPlenMap, bucket] at hb
  | append_singleton bs bl ih =>
    rw [bucket_heightPlenMap_snoc] at hb
    have old : (bucket (heightPlenMap bs) h p).lookup x = some b →
        b ∈ bs ++ [bl] ∧ b.height = h ∧ b.plen = p ∧ b.hash = x := fun h' =>
      ⟨mem_append_left _ (ih h').1, (ih h').2⟩
    split_ifs at hb with hk
    · by_cases hx : x = bl.hash
      · subst hx
        rw [lookup_insert, Option.some.injEq] at hb
        subst hb; exact ⟨by simp, hk.1.symm, hk.2.symm, rfl⟩
      · rw [lookup_insert_ne hx] at hb; exact old hb
    · exact old hb

theorem bucket_of_mem (hn : (bs.map Block.hash).Nodup) (hb : b ∈ bs) :
    (bucket (heightPlenMap bs) b.height b.plen).lookup b.hash = some b := by
  induction bs using reverseRecOn with
  | nil => simp at hb
  | append_singleton bs bl ih =>
    rw [map_append, nodup_append] at hn
    obtain ⟨hn, -, hdisj⟩ := hn
    rw [bucket_heightPlenMap_snoc]
    rcases mem_append.1 hb with hb | hb
    · have hne : b.hash ≠ bl.hash :=
        hdisj b.hash (mem_map_of_mem hb) bl.hash (by simp)
      split_ifs
      · rw [lookup_insert_ne hne]; exact ih hn hb
      · exact ih hn hb
    · obtain rfl : b = bl := by simpa using hb
      simp

/-! ## The sorted list -/

theorem mem_spineSortBlocks : b ∈ spineSortBlocks o bs ↔
      (bucket (heightPlenMap bs) b.height b.plen).lookup b.hash = some b := by
  simp only [spineSortBlocks, mem_flatMap, mem_filterMap, mem_sortDesc, mem_sortAsc,
    Shuffle.mem_order]
  constructor
  · rintro ⟨hk, -, k, -, x, -, hx⟩
    obtain ⟨-, rfl, rfl, rfl⟩ := mem_of_bucket bs hx
    exact hx
  · intro hb
    obtain ⟨hm, hhm, -⟩ := lookup_of_getD hb
    obtain ⟨pm, hpm, -⟩ := lookup_of_getD hhm
    refine ⟨b.height, mem_keys_of_lookup hpm, b.plen, mem_keys_of_lookup hhm, b.hash,
      mem_keys_of_lookup hb, hb⟩

theorem spineSortBlocks_subset : spineSortBlocks o bs ⊆ bs :=
  fun _ hb => (mem_of_bucket bs (mem_spineSortBlocks.1 hb)).1

theorem spineSortBlocks_pairwise (o : SortOrder) (bs : List Block) :
    (spineSortBlocks o bs).Pairwise Block.Before := by
  simp only [spineSortBlocks, pairwise_flatMap, mem_flatMap, mem_filterMap]
  refine ⟨fun hk _ => ⟨fun k _ => ?_, ?_⟩, ?_⟩
  · -- the blocks of one height and parent count are ordered by their hashes
    rw [pairwise_filterMap]
    refine (sortAsc_pairwise_lt (Shuffle.nodup_order (keys_nodup _))).imp ?_
    intro x y hxy a ha b hb
    obtain ⟨-, ha₁, ha₂, rfl⟩ := mem_of_bucket bs ha
    obtain ⟨-, hb₁, hb₂, rfl⟩ := mem_of_bucket bs hb
    exact .inr ⟨ha₁.trans hb₁.symm, .inr ⟨ha₂.trans hb₂.symm, hxy⟩⟩
  · refine (sortDesc_pairwise_gt (Shuffle.nodup_order (keys_nodup _))).imp ?_
    rintro p q hpq a ⟨x, -, ha⟩ b ⟨y, -, hb⟩
    obtain ⟨-, ha₁, rfl, -⟩ := mem_of_bucket bs ha
    obtain ⟨-, hb₁, rfl, -⟩ := mem_of_bucket bs hb
    exact .inr ⟨ha₁.trans hb₁.symm, .inl hpq⟩
  · refine (sortDesc_pairwise_gt (Shuffle.nodup_order (keys_nodup _))).imp ?_
    rintro h h' hlt a ⟨p, -, x, -, ha⟩ b ⟨q, -, y, -, hb⟩
    obtain ⟨-, rfl, -⟩ := mem_of_bucket bs ha
    obtain ⟨-, rfl, -⟩ := mem_of_bucket bs hb
    exact .inl hlt

theorem nodup_of_before (h : bs.Pairwise Block.Before) : bs.Nodup :=
  h.imp fun {a b} hab (heq : a = b) => hab.asymm (heq ▸ hab)

/-- Blocks with distinct hashes are only rearranged. -/
theorem spineSortBlocks_perm (o : SortOrder) (hn : (bs.map Block.hash).Nodup) :
    (spineSortBlocks o bs).Perm bs := by
  refine (perm_ext_iff_of_nodup (nodup_of_before (spineSortBlocks_pairwise o bs))
    (List.Nodup.of_map _ hn)).2 fun b => ⟨fun hb => spineSortBlocks_subset hb, fun hb => ?_⟩
  exact mem_spineSortBlocks.2 (bucket_of_mem hn hb)

theorem eq_of_perm_of_before (hb : bs.Pairwise Block.Before) (hc : cs.Pairwise Block.Before)
    (hp : bs.Perm cs) : bs = cs :=
  hp.eq_of_pairwise (fun _ _ _ _ h h' => absurd h' h.asymm) hb hc

end Gwat
