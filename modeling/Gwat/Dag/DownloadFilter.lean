/-
  The headers of a peer that are kept for download (`filterConsistentParentsChains` in
  `eth/downloader/downloader.go`).
-/
import Gwat.Dag.Block

namespace Gwat

open GoLib List

variable {order : Shuffle Hash} {nilHash : Hash} {stored : Hash → Bool}
variable {headers : List (Option Block)} {hdr : Block} {ph x : Hash}

/-- The `parentsHdrMap`: the headers of a batch by their parents. -/
def parentsHdrMap (headers : List (Option Block)) : GoMap Hash (List Hash) :=
  (headers.reduceOption.flatMap fun hdr => hdr.parentHashes.map (·, hdr.hash)).foldl
    (fun m e => m.insert e.1 ((m.lookup e.1).getD [] ++ [e.2])) ∅

/-- `filterConsistentParentsChains`: the kept entries, the failed ones and the unknown parents.  A
    missing entry is no header, and its `Hash` is that of an empty encoding; the map of the
    parents is read in some order. -/
def filterConsistentParentsChains (order : Shuffle Hash) (nilHash : Hash) (stored : Hash → Bool)
    (headers : List (Option Block)) :
    List (Option Block) × List (Option Block) × List Hash :=
  let knownHeaders := headers.reduceOption.map Block.hash
  let parents := parentsHdrMap headers
  let unknownParents := (order.order parents.keys).filter fun ph =>
    ph ∉ knownHeaders ∧ stored ph = false
  let failedHeaders := unknownParents.flatMap fun unph => (parents.lookup unph).getD []
  let isFailed (hdr : Option Block) : Bool := (hdr.map Block.hash).getD nilHash ∈ failedHeaders
  (headers.filter (! isFailed ·), headers.filter isFailed, unknownParents)

/-- The hash is that of a header of the batch with a parent that is neither in the batch nor
    stored. -/
def Orphaned (stored : Hash → Bool) (headers : List (Option Block)) (x : Hash) : Prop :=
  ∃ g ∈ headers.reduceOption, g.hash = x ∧
    ∃ q ∈ g.parentHashes, q ∉ headers.reduceOption.map Block.hash ∧ stored q = false

/-! ## The failed headers -/

theorem mem_parentsHdrMap : x ∈ ((parentsHdrMap headers).lookup ph).getD [] ↔
    ∃ hdr ∈ headers.reduceOption, ph ∈ hdr.parentHashes ∧ hdr.hash = x := by
  have hpairs : ∀ l : List (Hash × Hash), x ∈ ((l.foldl (fun m e =>
      m.insert e.1 ((m.lookup e.1).getD [] ++ [e.2])) (∅ : GoMap Hash (List Hash))).lookup
        ph).getD [] ↔ (ph, x) ∈ l := by
    intro l
    induction l using List.reverseRecOn with
    | nil => simp
    | append_singleton l e ih =>
      obtain ⟨k, y⟩ := e
      by_cases hk : ph = k
      · subst hk
        simp [ih]
      · simp [AList.lookup_insert_ne hk, ih, hk]
  rw [parentsHdrMap, hpairs]
  simp [mem_flatMap]

theorem mem_failedHeaders : (x ∈ ((order.order (parentsHdrMap headers).keys).filter fun ph =>
      ph ∉ headers.reduceOption.map Block.hash ∧ stored ph = false).flatMap fun unph =>
        ((parentsHdrMap headers).lookup unph).getD []) ↔ Orphaned stored headers x := by
  simp only [mem_flatMap, mem_filter, Shuffle.mem_order, decide_eq_true_eq, mem_parentsHdrMap]
  constructor
  · rintro ⟨q, ⟨-, hq⟩, g, hg, hqg, rfl⟩
    exact ⟨g, hg, rfl, q, hqg, hq⟩
  · rintro ⟨g, hg, rfl, q, hqg, hq⟩
    refine ⟨q, ⟨?_, hq⟩, g, hg, hqg, rfl⟩
    -- the list of the children is not empty, so the parent is a key
    have hmem := mem_parentsHdrMap.2 ⟨g, hg, hqg, rfl⟩
    cases hl : (parentsHdrMap headers).lookup q with
    | none => simp [hl] at hmem
    | some l => exact mem_keys_of_lookup hl

theorem mem_kept : some hdr ∈ (filterConsistentParentsChains order nilHash stored headers).1 ↔
    some hdr ∈ headers ∧ ¬ Orphaned stored headers hdr.hash := by
  rw [filterConsistentParentsChains, mem_filter, ← @mem_failedHeaders order]
  simp

theorem mem_failed : some hdr ∈ (filterConsistentParentsChains order nilHash stored headers).2.1 ↔
    some hdr ∈ headers ∧ Orphaned stored headers hdr.hash := by
  rw [filterConsistentParentsChains, mem_filter, ← @mem_failedHeaders order]
  simp

/-! ## Closed batches -/

/-- Every header is in one of the two groups, and a parent of a kept header is kept or stored. -/
structure ClosedFilter (order : Shuffle Hash) (nilHash : Hash) (stored : Hash → Bool)
    (headers : List (Option Block)) : Prop where
  one : ∀ hdr, some hdr ∈ headers →
    Xor (some hdr ∈ (filterConsistentParentsChains order nilHash stored headers).1)
      (some hdr ∈ (filterConsistentParentsChains order nilHash stored headers).2.1)
  parents : ∀ hdr, some hdr ∈ (filterConsistentParentsChains order nilHash stored headers).1 →
    ∀ ph ∈ hdr.parentHashes, stored ph = true ∨
      ∃ g, some g ∈ (filterConsistentParentsChains order nilHash stored headers).1 ∧ g.hash = ph

/-- The kept headers are closed exactly if every header on a parent of the batch that is not
    stored and has an unknown parent has an unknown parent, too. -/
theorem closedFilter_iff : ClosedFilter order nilHash stored headers ↔
    ∀ hdr, some hdr ∈ headers → ∀ ph ∈ hdr.parentHashes,
      Orphaned stored headers ph → stored ph = true ∨ Orphaned stored headers hdr.hash := by
  constructor
  · intro h hdr hmem ph hph horphan
    by_contra hno
    rw [not_or] at hno
    rcases h.parents hdr (mem_kept.2 ⟨hmem, hno.2⟩) ph hph with hstored | ⟨g, hg, rfl⟩
    · exact hno.1 hstored
    · exact (mem_kept.1 hg).2 horphan
  · intro h
    refine ⟨fun hdr hmem => ?_, fun hdr hkept ph hph => ?_⟩
    · rw [mem_kept, mem_failed]
      by_cases horphan : Orphaned stored headers hdr.hash
      · exact .inr ⟨⟨hmem, horphan⟩, fun hkept => hkept.2 horphan⟩
      · exact .inl ⟨⟨hmem, horphan⟩, fun hfailed => horphan hfailed.2⟩
    · obtain ⟨hmem, hfree⟩ := mem_kept.1 hkept
      by_cases hstored : stored ph = true
      · exact .inl hstored
      · refine .inr ?_
        -- a parent that is not stored is in the batch, or the header would have failed
        have hknown : ph ∈ headers.reduceOption.map Block.hash := by
          by_contra hunknown
          exact hfree ⟨hdr, reduceOption_mem_iff.2 hmem, rfl, ph, hph, hunknown,
            Bool.eq_false_iff.2 hstored⟩
        obtain ⟨g, hg, rfl⟩ := mem_map.1 hknown
        refine ⟨g, mem_kept.2 ⟨reduceOption_mem_iff.1 hg, fun horphan => ?_⟩, rfl⟩
        exact (h hdr hmem g.hash hph horphan).elim hstored hfree

/-- Block 11 is kept, and its parent 10, which has an unknown parent, is not. -/
theorem child_of_failed_kept :
    filterConsistentParentsChains .stored 0 (fun _ => false)
        [some ⟨10, [99], 1, 1⟩, none, some ⟨11, [10], 2, 2⟩] =
      ([none, some ⟨11, [10], 2, 2⟩], [some ⟨10, [99], 1, 1⟩], [99]) := by
  decide +kernel

end Gwat
