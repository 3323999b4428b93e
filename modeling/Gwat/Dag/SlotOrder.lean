/-
  The orderings of the blocks of one slot (`core/types/spine.go`) and that they agree.
-/
import Gwat.ByteOrder
import Gwat.Dag.Spine

namespace Gwat

open GoLib List Block AList

variable {hs rest order : List Block} {x g h y : Hash} {f b : Block}

/-! ## Hashes and their strings -/

/-- `Hash.String()` -/
def Hash.string (h : Hash) : List Char := hexEncode h.bytes

def hexToHash (s : List Char) : Hash := hashOfBytes (fromHex s)

@[simp] theorem hexToHash_string (h : Hash) : hexToHash h.string = h := by
  rw [hexToHash, Hash.string, fromHex_hexEncode, hashOfBytes_bytes]

theorem Hash.string_lt (hlt : g < h) : g.string < h.string :=
  hexEncode_lt (by simp) (Hash.bytes_lt hlt)

/-- `HashArray.Sort` sorts the strings of the hashes and reads them back. -/
def hashArraySort (ha : List Hash) : List Hash := (sortAsc (ha.map Hash.string)).map hexToHash

/-- Sorting the strings sorts the hashes. -/
theorem hashArraySort_eq (ha : List Hash) : hashArraySort ha = sortAsc ha := by
  have hperm : (hashArraySort ha).Perm ha := by
    have h := (sortAsc_perm (ha.map Hash.string)).map hexToHash
    rw [map_map] at h
    have hid : hexToHash ∘ Hash.string = id := funext hexToHash_string
    rwa [hid, map_id] at h
  refine List.Perm.eq_of_pairwise (fun _ _ _ _ => le_antisymm) ?_ (sortAsc_pairwise_le ha)
    (hperm.trans (sortAsc_perm ha).symm)
  refine pairwise_map.2 ((sortAsc_pairwise_le _).imp_of_mem ?_)
  intro s t hs ht hle
  obtain ⟨g, -, rfl⟩ := mem_map.1 (mem_sortAsc.1 hs)
  obtain ⟨h, -, rfl⟩ := mem_map.1 (mem_sortAsc.1 ht)
  rw [hexToHash_string, hexToHash_string]
  exact le_of_not_gt fun hlt => absurd (Hash.string_lt hlt) (not_lt_of_ge hle)

/-! ## The orderings -/

/-- `SpineSortBlocks`, with the hashes of one height and parent count sorted by
    `HashArray.Sort`. -/
def spineSortByString (o : SortOrder) (blocks : List Block) : List Block :=
  let m := heightPlenMap blocks
  (sortDesc (o.heights.order m.keys)).flatMap fun hk =>
    let plenMap := (m.lookup hk).getD ∅
    (sortDesc ((o.plens hk).order plenMap.keys)).flatMap fun k =>
      let hashMap := (plenMap.lookup k).getD ∅
      (hashArraySort ((o.hashes hk k).order hashMap.keys)).filterMap hashMap.lookup

theorem spineSortByString_eq (o : SortOrder) (blocks : List Block) :
    spineSortByString o blocks = spineSortBlocks o blocks := by
  simp only [spineSortByString, spineSortBlocks, hashArraySort_eq]

/-- The `heightPlenMap` of `OptimisticSortSlotHeaders`: the hashes by height and number of
    parents, in the order of the headers. -/
def heightPlenHashes (slotHeaders : List Block) : GoMap ℕ (GoMap ℕ (List Hash)) :=
  slotHeaders.foldl (fun m bl =>
    let plenMap := (m.lookup bl.height).getD ∅
    m.insert bl.height (plenMap.insert bl.plen ((plenMap.lookup bl.plen).getD [] ++ [bl.hash]))) ∅

/-- `OptimisticSortSlotHeaders` sorts headers of the same slot by optimistic order. -/
def optimisticSortSlotHeaders (o : SortOrder) (s : SliceSort hashLess)
    (slotHeaders : List Block) : List Hash :=
  let m := heightPlenHashes slotHeaders
  (sortDesc (o.heights.order m.keys)).flatMap fun hk =>
    let plenMap := (m.lookup hk).getD ∅
    (sortDesc ((o.plens hk).order plenMap.keys)).flatMap fun k =>
      s.sort ((plenMap.lookup k).getD [])

/-- One round of the two selections: `key` is the height or the number of parents, the state the
    maximum so far and the headers that have it. -/
def selectStep (key : Block → ℕ) (s : ℕ × List Block) (header : Block) : ℕ × List Block :=
  if key header < s.1 then s
  else if s.1 < key header then (key header, [header])
  else (s.1, s.2 ++ [header])

def selectByMax (key : Block → ℕ) (headers : List Block) : List Block :=
  (headers.foldl (selectStep key) (0, [])).2

def selectSpinesByMaxHeight (blocks : List Block) : List Block :=
  if blocks.length = 0 then [] else selectByMax height blocks

def selectSpinesByMaxParentsCount (headers : List Block) : List Block :=
  selectByMax plen headers

/-- The comparison of `sortByHash`. -/
def headerLess (a b : Block) : Bool := hashLess a.hash b.hash

/-- `CalculateOptimisticSpines`; `sortByHash` is the `sort.Slice` it calls. -/
def calculateOptimisticSpines (sortByHash : SliceSort headerLess) (slotBlocks : List Block) :
    List Hash :=
  let slotSpines := selectSpinesByMaxHeight slotBlocks
  let slotSpines :=
    if 1 < slotSpines.length then selectSpinesByMaxParentsCount slotSpines else slotSpines
  let slotSpines := if 1 < slotSpines.length then sortByHash.sort slotSpines else slotSpines
  slotSpines.map hash

/-- `CalculateSpines`: the first block of every slot that is not finalized. -/
def calculateSpines (o : SpineOrder) (blocks : List Block) (lastFinSlot : ℕ) : GoMap ℕ Block :=
  let blocksBySlot := groupBySlot blocks
  let slots := sortAsc ((o.slots.order blocksBySlot.keys).filter (lastFinSlot < ·))
  slots.foldl (fun spines slot =>
    match spineSortByString (o.sortSlot slot) ((blocksBySlot.lookup slot).getD []) with
    | [] => spines
    | first :: _ => spines.insert slot first) ∅

/-! ## The byte order in a slot -/

theorem heightPlenHashes_bucket (hs : List Block) (h p : ℕ) :
    ((((heightPlenHashes hs).lookup h).getD ∅).lookup p).getD [] =
      (hs.filter fun b => b.height = h ∧ b.plen = p).map hash := by
  induction hs using reverseRecOn with
  | nil => simp [heightPlenHashes]
  | append_singleton hs b ih =>
    simp only [heightPlenHashes, foldl_append, foldl_cons, foldl_nil] at ih ⊢
    rw [filter_append, map_append, ← ih]
    by_cases hh : h = b.height
    · subst hh
      by_cases hp : p = b.plen
      · subst hp; simp
      · simp [hp, lookup_insert_ne, Ne.symm hp]
    · simp [hh, lookup_insert_ne, Ne.symm hh]

theorem mem_heightPlenHashes {h p : ℕ} :
    x ∈ ((((heightPlenHashes hs).lookup h).getD ∅).lookup p).getD [] ↔
      ∃ b ∈ hs, b.height = h ∧ b.plen = p ∧ b.hash = x := by
  rw [heightPlenHashes_bucket]
  simp [and_assoc]

theorem mem_optimisticSortSlotHeaders {o : SortOrder} {s : SliceSort hashLess} :
    x ∈ optimisticSortSlotHeaders o s hs ↔ x ∈ hs.map hash := by
  simp only [optimisticSortSlotHeaders, mem_flatMap, mem_sortDesc, Shuffle.mem_order,
    (s.perm _).mem_iff, mem_heightPlenHashes, mem_map]
  constructor
  · rintro ⟨h, -, p, -, b, hb, -, -, rfl⟩
    exact ⟨b, hb, rfl⟩
  · rintro ⟨b, hb, rfl⟩
    -- the bucket of the block is not empty, so both keys are there
    have hmem := (mem_heightPlenHashes (x := b.hash)).2 ⟨b, hb, rfl, rfl, rfl⟩
    have hplen : b.plen ∈ (((heightPlenHashes hs).lookup b.height).getD ∅).keys := by
      cases hl : (((heightPlenHashes hs).lookup b.height).getD ∅).lookup b.plen with
      | none => simp [hl] at hmem
      | some l => exact mem_keys_of_lookup hl
    have hheight : b.height ∈ (heightPlenHashes hs).keys := by
      cases hl : (heightPlenHashes hs).lookup b.height with
      | none => simp [hl] at hplen
      | some m => exact mem_keys_of_lookup hl
    exact ⟨b.height, hheight, b.plen, hplen, b, hb, rfl, rfl, rfl⟩

/-- The headers with these hashes stand in the finalization order. -/
def HashBefore (hs : List Block) (x y : Hash) : Prop :=
  ∀ a ∈ hs, a.hash = x → ∀ b ∈ hs, b.hash = y → a.Before b

theorem HashBefore.asymm (hx : x ∈ hs.map hash) (hy : y ∈ hs.map hash) (h : HashBefore hs x y) :
    ¬ HashBefore hs y x := by
  obtain ⟨a, ha, rfl⟩ := mem_map.1 hx
  obtain ⟨b, hb, rfl⟩ := mem_map.1 hy
  exact fun h' => (h a ha rfl b hb rfl).asymm (h' b hb rfl a ha rfl)

theorem optimisticSortSlotHeaders_pairwise (o : SortOrder) (s : SliceSort hashLess)
    (hn : (hs.map hash).Nodup) : (optimisticSortSlotHeaders o s hs).Pairwise (HashBefore hs) := by
  have hkey : ∀ {h p : ℕ} {x : Hash} {b : Block}, b ∈ hs → b.hash = x →
      x ∈ s.sort (((((heightPlenHashes hs).lookup h).getD ∅).lookup p).getD []) →
      b.height = h ∧ b.plen = p := by
    intro h p x b hb hx hmem
    obtain ⟨c, hc, hch, hcp, hcx⟩ := mem_heightPlenHashes.1 ((s.perm _).mem_iff.1 hmem)
    rw [inj_on_of_nodup_map hn hb hc (hx.trans hcx.symm)]
    exact ⟨hch, hcp⟩
  simp only [optimisticSortSlotHeaders, pairwise_flatMap, mem_flatMap]
  refine ⟨fun h _ => ⟨fun p _ => ?_, ?_⟩, ?_⟩
  · -- one slice: distinct hashes sorted by their bytes
    have hnodup := hn.sublist
      ((filter_sublist (p := fun b : Block => b.height = h ∧ b.plen = p)).map hash)
    rw [← heightPlenHashes_bucket, ← (s.perm _).nodup_iff] at hnodup
    refine ((s.sorted _).and hnodup).imp_of_mem fun {x y} hx hy hxy a ha hax b hb hby => ?_
    obtain ⟨hah, hap⟩ := hkey ha hax hx
    obtain ⟨hbh, hbp⟩ := hkey hb hby hy
    refine .inr ⟨hah.trans hbh.symm, .inr ⟨hap.trans hbp.symm, ?_⟩⟩
    rw [hax, hby]
    exact lt_of_le_of_ne (le_of_hashLess hxy.1) hxy.2
  · refine (sortDesc_pairwise_gt (Shuffle.nodup_order (keys_nodup _))).imp ?_
    intro p q hpq x hx y hy a ha hax b hb hby
    obtain ⟨hah, rfl⟩ := hkey ha hax hx
    obtain ⟨hbh, rfl⟩ := hkey hb hby hy
    exact .inr ⟨hah.trans hbh.symm, .inl hpq⟩
  · refine (sortDesc_pairwise_gt (Shuffle.nodup_order (keys_nodup _))).imp ?_
    rintro h h' hlt x ⟨p, -, hx⟩ y ⟨q, -, hy⟩ a ha hax b hb hby
    obtain ⟨rfl, -⟩ := hkey ha hax hx
    obtain ⟨rfl, -⟩ := hkey hb hby hy
    exact .inl hlt

theorem optimisticSortSlotHeaders_eq (o : SortOrder) (s : SliceSort hashLess)
    (hn : (hs.map hash).Nodup) (hperm : order.Perm hs) (hsorted : order.Pairwise Block.Before) :
    optimisticSortSlotHeaders o s hs = order.map hash := by
  have hpair := optimisticSortSlotHeaders_pairwise o s hn
  have hmap : (order.map hash).Pairwise (HashBefore hs) := by
    refine pairwise_map.2 (hsorted.imp_of_mem ?_)
    intro a b ha hb hab a' ha' haa b' hb' hbb
    rw [inj_on_of_nodup_map hn ha' (hperm.mem_iff.1 ha) haa,
      inj_on_of_nodup_map hn hb' (hperm.mem_iff.1 hb) hbb]
    exact hab
  have hnodup : (optimisticSortSlotHeaders o s hs).Nodup := by
    refine hpair.imp_of_mem fun {x y} hx hy hxy heq => ?_
    subst heq
    have hx := mem_optimisticSortSlotHeaders.1 hx
    exact hxy.asymm hx hx hxy
  have hp : (optimisticSortSlotHeaders o s hs).Perm (order.map hash) := by
    refine List.Perm.trans ?_ (hperm.map hash).symm
    exact (perm_ext_iff_of_nodup hnodup hn).2 fun x => mem_optimisticSortSlotHeaders
  refine hp.eq_of_pairwise (fun x y hx hy hxy hyx => absurd hyx (hxy.asymm ?_ ?_)) hpair hmap
  · exact mem_optimisticSortSlotHeaders.1 hx
  · exact ((hperm.map hash).mem_iff).1 hy

/-! ## The selections -/

theorem foldl_selectStep (key : Block → ℕ) (hs : List Block) :
    (∀ b ∈ hs, key b ≤ (hs.foldl (selectStep key) (0, [])).1) ∧
    ((hs.foldl (selectStep key) (0, [])).1 = 0 ∨
      ∃ b ∈ hs, key b = (hs.foldl (selectStep key) (0, [])).1) ∧
    (hs.foldl (selectStep key) (0, [])).2 =
      hs.filter fun b => key b = (hs.foldl (selectStep key) (0, [])).1 := by
  induction hs using reverseRecOn with
  | nil => simp
  | append_singleton hs b ih =>
    rw [foldl_append, foldl_cons, foldl_nil, filter_append]
    revert ih
    generalize hs.foldl (selectStep key) (0, []) = st
    obtain ⟨m, acc⟩ := st
    rintro ⟨hle, hatt, hacc⟩
    dsimp only at hle hatt hacc
    simp only [selectStep, forall_mem_append, forall_mem_singleton]
    rcases lt_trichotomy (key b) m with hlt | heq | hgt
    · rw [if_pos hlt]
      refine ⟨⟨hle, hlt.le⟩, ?_, by simp [hacc, hlt.ne]⟩
      exact hatt.imp_right fun ⟨c, hc, hcm⟩ => ⟨c, mem_append_left _ hc, hcm⟩
    · rw [if_neg (by omega), if_neg (by omega)]
      exact ⟨⟨hle, heq.le⟩, .inr ⟨b, by simp, heq⟩, by simp [hacc, heq]⟩
    · -- a new maximum: none of the headers before has it
      rw [if_neg (by omega), if_pos hgt]
      refine ⟨⟨fun c hc => (hle c hc).trans hgt.le, le_rfl⟩, .inr ⟨b, by simp, rfl⟩, ?_⟩
      have hnone : hs.filter (fun c => key c = key b) = [] := by
        refine filter_eq_nil_iff.2 fun c hc => ?_
        have := hle c hc
        simp only [decide_eq_true_eq]
        omega
      simp [hnone]

theorem selectByMax_eq {key : Block → ℕ} (hb : b ∈ hs) (hmax : ∀ c ∈ hs, key c ≤ key b) :
    selectByMax key hs = hs.filter fun c => key c = key b := by
  obtain ⟨hle, hatt, hacc⟩ := foldl_selectStep key hs
  have hm : (hs.foldl (selectStep key) (0, [])).1 = key b := by
    have h := hle b hb
    rcases hatt with h0 | ⟨c, hc, hcm⟩
    · omega
    · have h' := hmax c hc
      omega
  rw [selectByMax, hacc, hm]

theorem eq_singleton_of_mem {α : Type} {a : α} {l : List α} (ha : a ∈ l) (hl : l.length ≤ 1) :
    l = [a] := by
  match l, hl with
  | [b], _ => rw [mem_singleton.1 ha]

theorem selections_eq (hf : f ∈ hs) (hfirst : ∀ b ∈ hs, b = f ∨ f.Before b) :
    (if 1 < (selectSpinesByMaxHeight hs).length
      then selectSpinesByMaxParentsCount (selectSpinesByMaxHeight hs)
      else selectSpinesByMaxHeight hs) =
    hs.filter fun b => b.height = f.height ∧ b.plen = f.plen := by
  have hheight : ∀ b ∈ hs, b.height ≤ f.height := by
    intro b hb
    rcases hfirst b hb with rfl | h | ⟨h, -⟩ <;> omega
  have hplen : ∀ b ∈ hs.filter (fun c => c.height = f.height), b.plen ≤ f.plen := by
    intro b hb
    obtain ⟨hb, hbh⟩ := mem_filter.1 hb
    have hbh : b.height = f.height := of_decide_eq_true hbh
    rcases hfirst b hb with rfl | h | ⟨-, h | ⟨h, -⟩⟩ <;> omega
  have hmem : f ∈ hs.filter (fun c => c.height = f.height) := by simp [hf]
  have hne : hs.length ≠ 0 := (length_pos_of_mem hf).ne'
  have hsplit : hs.filter (fun b => b.height = f.height ∧ b.plen = f.plen) =
      (hs.filter fun b => b.height = f.height).filter fun b => b.plen = f.plen := by
    rw [filter_filter]
    exact filter_congr fun b _ => by simp [Bool.and_comm]
  rw [selectSpinesByMaxHeight, if_neg hne, selectByMax_eq hf hheight, hsplit]
  split
  case isTrue => exact selectByMax_eq hmem hplen
  case isFalse hlen =>
    rw [eq_singleton_of_mem hmem (not_lt.1 hlen)]
    simp

theorem takeWhile_eq_filter (h : (f :: rest).Pairwise Block.Before) :
    (f :: rest).takeWhile (fun b => b.height = f.height ∧ b.plen = f.plen) =
      (f :: rest).filter fun b => b.height = f.height ∧ b.plen = f.plen := by
  obtain ⟨hf, hrest⟩ := pairwise_cons.1 h
  rw [takeWhile_cons_of_pos (by simp), filter_cons_of_pos (by simp)]
  congr 1
  clear h
  induction rest with
  | nil => rfl
  | cons b rest ih =>
    obtain ⟨hb, hrest⟩ := pairwise_cons.1 hrest
    by_cases hk : b.height = f.height ∧ b.plen = f.plen
    · rw [takeWhile_cons_of_pos (by simp [hk]), filter_cons_of_pos (by simp [hk]),
        ih (fun c hc => hf c (by simp [hc])) hrest]
    · -- a block that has fallen behind stays before the ones after it
      rw [takeWhile_cons_of_neg (by simpa using hk),
        filter_cons_of_neg (by simpa using hk)]
      refine (filter_eq_nil_iff.2 fun c hc => ?_).symm
      have hfb := hf b (by simp)
      have hbc := hb c hc
      rw [decide_eq_true_eq]
      rcases hfb with h₁ | ⟨h₁, h₁ | ⟨h₁, -⟩⟩ <;> rcases hbc with h₂ | ⟨h₂, h₂ | ⟨h₂, -⟩⟩ <;> omega

/-- `CalculateOptimisticSpines` returns the longest part of the order that has one height and one
    number of parents. -/
theorem calculateOptimisticSpines_eq (s : SliceSort headerLess) (hn : (hs.map hash).Nodup)
    (hperm : (f :: rest).Perm hs) (hsorted : (f :: rest).Pairwise Block.Before) :
    calculateOptimisticSpines s hs =
      ((f :: rest).takeWhile fun b => b.height = f.height ∧ b.plen = f.plen).map hash := by
  have hfirst : ∀ b ∈ hs, b = f ∨ f.Before b := by
    intro b hb
    rcases mem_cons.1 (hperm.mem_iff.2 hb) with rfl | hb
    · exact .inl rfl
    · exact .inr ((pairwise_cons.1 hsorted).1 b hb)
  have hf : f ∈ hs := hperm.mem_iff.1 (by simp)
  unfold calculateOptimisticSpines
  dsimp only
  rw [selections_eq hf hfirst, takeWhile_eq_filter hsorted]
  congr 1
  have hpermF := hperm.filter fun b => b.height = f.height ∧ b.plen = f.plen
  have hkey : ∀ b ∈ hs.filter (fun b => b.height = f.height ∧ b.plen = f.plen),
      b.height = f.height ∧ b.plen = f.plen := fun b hb => by
    simpa using (mem_filter.1 hb).2
  have hnodup : ((hs.filter fun b => b.height = f.height ∧ b.plen = f.plen).map
      hash).Nodup := hn.sublist (filter_sublist.map _)
  revert hpermF hkey hnodup
  generalize hs.filter (fun b => b.height = f.height ∧ b.plen = f.plen) = sel
  intro hpermF hkey hnodup
  split
  case isTrue =>
    refine eq_of_perm_of_before ?_ (hsorted.filter _) ((s.perm sel).trans hpermF.symm)
    have hnodup' : ((s.sort sel).map hash).Nodup :=
      ((s.perm sel).map hash).nodup_iff.2 hnodup
    refine ((s.sorted sel).and (pairwise_map.1 hnodup')).imp_of_mem ?_
    intro a b ha hb hab
    obtain ⟨hah, hap⟩ := hkey a ((s.perm sel).mem_iff.1 ha)
    obtain ⟨hbh, hbp⟩ := hkey b ((s.perm sel).mem_iff.1 hb)
    exact .inr ⟨hah.trans hbh.symm, .inr ⟨hap.trans hbp.symm,
      lt_of_le_of_ne (le_of_hashLess hab.1) hab.2⟩⟩
  case isFalse hlen =>
    have hsel : sel = [f] :=
      eq_singleton_of_mem (hpermF.mem_iff.1 (by simp)) (not_lt.1 hlen)
    refine eq_of_perm_of_before ?_ (hsorted.filter _) hpermF.symm
    rw [hsel]
    exact pairwise_singleton _ _

/-! ## The spines -/

theorem spineSortBlocks_nil (o : SortOrder) : spineSortBlocks o [] = [] :=
  eq_nil_of_subset_nil spineSortBlocks_subset

theorem lookup_foldl_first (sorted : ℕ → List Block) (slots : List ℕ) (spines : GoMap ℕ Block)
    (sl : ℕ) :
    (slots.foldl (fun spines slot =>
      match sorted slot with
      | [] => spines
      | first :: _ => spines.insert slot first) spines).lookup sl =
      if sl ∈ slots then (sorted sl).head?.or (spines.lookup sl) else spines.lookup sl := by
  induction slots generalizing spines with
  | nil => simp
  | cons slot slots ih =>
    rw [foldl_cons, ih]
    by_cases hsl : sl = slot
    · subst hsl
      cases sorted sl <;> simp
    · cases sorted slot with
      | nil => simp [hsl]
      | cons first rest => simp [hsl, lookup_insert_ne hsl]

/-- `CalculateSpines` has a spine for the slots after the last finalized one: the first of the
    sorted blocks of the slot. -/
theorem lookup_calculateSpines (o : SpineOrder) (blocks : List Block) (lastFinSlot sl : ℕ) :
    (calculateSpines o blocks lastFinSlot).lookup sl =
      if lastFinSlot < sl then
        (spineSortBlocks (o.sortSlot sl) (blocks.filter fun b => b.slot = sl)).head?
      else none := by
  unfold calculateSpines
  rw [lookup_foldl_first fun slot =>
    spineSortByString (o.sortSlot slot) (((groupBySlot blocks).lookup slot).getD [])]
  simp only [mem_sortAsc, mem_filter, Shuffle.mem_order, mem_keys_groupBySlot,
    decide_eq_true_eq, spineSortByString_eq, getD_lookup_groupBySlot, lookup_empty,
    Option.or_none]
  by_cases hlt : lastFinSlot < sl
  · by_cases hex : ∃ b ∈ blocks, b.slot = sl
    · rw [if_pos ⟨hex, hlt⟩, if_pos hlt]
    · have hnil : blocks.filter (fun b => b.slot = sl) = [] := by
        refine filter_eq_nil_iff.2 fun b hb => ?_
        simpa using fun h => hex ⟨b, hb, h⟩
      rw [if_neg (fun h => hex h.1), if_pos hlt, hnil, spineSortBlocks_nil]
      rfl
  · rw [if_neg (fun h => hlt h.2), if_neg hlt]

/-- The orderings of one slot agree: distinct blocks of a slot have one finalization order, which
    `SpineSortBlocks` and `OptimisticSortSlotHeaders` return, whose longest part of equal height
    and number of parents `CalculateOptimisticSpines` returns and whose first block is the spine
    of `CalculateSpines`, for every order of the input, of the maps and of ties. -/
theorem slotOrderings_agree {blocks : List Block} {slot : ℕ} (hne : blocks ≠ [])
    (hdistinct : (blocks.map hash).Nodup) (hslot : ∀ b ∈ blocks, b.slot = slot) :
    ∃ first rest, (first :: rest).Perm blocks ∧ (first :: rest).Pairwise Block.Before ∧
      ∀ input : List Block, input.Perm blocks →
        (∀ o, spineSortByString o input = first :: rest) ∧
        (∀ o s, optimisticSortSlotHeaders o s input = (first :: rest).map hash) ∧
        (∀ s, calculateOptimisticSpines s input = ((first :: rest).takeWhile fun b =>
          b.height = first.height ∧ b.plen = first.plen).map hash) ∧
        ∀ o lastFinSlot sl, (calculateSpines o input lastFinSlot).lookup sl =
          if sl = slot ∧ lastFinSlot < slot then some first else none := by
  have hperm := spineSortBlocks_perm default hdistinct
  have hsorted := spineSortBlocks_pairwise default blocks
  obtain ⟨first, rest, horder⟩ : ∃ first rest,
      spineSortBlocks default blocks = first :: rest := by
    refine exists_cons_of_ne_nil fun hnil => hne ?_
    rw [hnil] at hperm
    exact hperm.nil_eq.symm
  rw [horder] at hperm hsorted
  refine ⟨first, rest, hperm, hsorted, fun input hinput => ?_⟩
  have hn : (input.map hash).Nodup := (hinput.map hash).nodup_iff.2 hdistinct
  have hp : (first :: rest).Perm input := hperm.trans hinput.symm
  have hspine : ∀ o, spineSortBlocks o input = first :: rest := fun o =>
    eq_of_perm_of_before (spineSortBlocks_pairwise o input) hsorted
      ((spineSortBlocks_perm o hn).trans hp.symm)
  refine ⟨fun o => ?_, fun o s => ?_, fun s => ?_, fun o lastFinSlot sl => ?_⟩
  · rw [spineSortByString_eq, hspine]
  · exact optimisticSortSlotHeaders_eq o s hn hp hsorted
  · exact calculateOptimisticSpines_eq s hn hp hsorted
  · have hslot' : ∀ b ∈ input, b.slot = slot := fun b hb => hslot b (hinput.mem_iff.1 hb)
    rw [lookup_calculateSpines]
    by_cases hsl : sl = slot
    · subst hsl
      rw [filter_eq_self.2 fun b hb => decide_eq_true (hslot' b hb), hspine]
      simp
    · have hnil : input.filter (fun b => b.slot = sl) = [] := by
        refine filter_eq_nil_iff.2 fun b hb => ?_
        simpa [hslot' b hb] using Ne.symm hsl
      rw [hnil, spineSortBlocks_nil, List.head?_nil, ite_self, if_neg fun h => hsl h.1]

/-- Two blocks of one height in slot 3, the second with more parents. -/
def slotPair : List Block := [⟨7, [1], 3, 2⟩, ⟨9, [1, 2], 3, 2⟩]

theorem slotOrderings_agree_pair :
    (slotPair ≠ [] ∧ (slotPair.map hash).Nodup ∧ ∀ b ∈ slotPair, b.slot = 3) ∧
    ∃ first rest, (first :: rest).Perm slotPair ∧ (first :: rest).Pairwise Block.Before ∧
      ∀ input : List Block, input.Perm slotPair →
        (∀ o, spineSortByString o input = first :: rest) ∧
        (∀ o s, optimisticSortSlotHeaders o s input = (first :: rest).map hash) ∧
        (∀ s, calculateOptimisticSpines s input = ((first :: rest).takeWhile fun b =>
          b.height = first.height ∧ b.plen = first.plen).map hash) ∧
        ∀ o lastFinSlot sl, (calculateSpines o input lastFinSlot).lookup sl =
          if sl = 3 ∧ lastFinSlot < 3 then some first else none :=
  ⟨⟨by decide, by decide, by decide⟩,
    slotOrderings_agree (by decide) (by decide) (by decide)⟩

end Gwat
