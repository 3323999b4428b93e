/-
  Writes to the stored headers, numbers and ancestor lists (`core/rawdb/accessors_chain.go`).
-/
import Gwat.Dag.HeaderChain

namespace Gwat

open GoLib List Function

namespace HeaderChain

theorem hash_not_mem {hc : HeaderChain} {h : Hash} (hn : hc.getHeader h = none) :
    h ∉ hc.headers.map fun b => b.hash := by
  intro hm
  obtain ⟨b, hb, rfl⟩ := mem_map.1 hm
  rw [getHeader_of_mem hb] at hn
  cases hn

/-- `rawdb.WriteBlock`; a known block is written again unchanged. -/
def writeBlock (hc : HeaderChain) (b : Header) : HeaderChain :=
  if h : hc.getHeader b.hash = none then
    { hc with
      headers := b :: hc.headers
      nodup := nodup_cons.2 ⟨hash_not_mem h, hc.nodup⟩ }
  else hc

/-- Sets or deletes the finalized number of a block. -/
def writeNumber (hc : HeaderChain) (h : Hash) (nr : Option ℕ) : HeaderChain :=
  { hc with number := update hc.number h nr }

/-- Deletes a block and its number. -/
def deleteBlock (hc : HeaderChain) (h : Hash) : HeaderChain :=
  { hc with
    headers := hc.headers.filter fun b => b.hash ≠ h
    nodup := (filter_sublist.map _).nodup hc.nodup
    number := update hc.number h none }

variable {hc : HeaderChain} {b c : Header} {h x : Hash} {nr : Option ℕ}

theorem getHeader_writeBlock (hx : (hc.getHeader x).isSome) :
    (hc.writeBlock b).getHeader x = hc.getHeader x := by
  unfold writeBlock
  split_ifs with hnew
  · have hne : b.hash ≠ x := by
      rintro rfl
      rw [hnew] at hx
      cases hx
    simp [getHeader, hne]
  · rfl

theorem mem_writeBlock (hc' : c ∈ (hc.writeBlock b).headers) :
    c = b ∧ hc.getHeader b.hash = none ∨ c ∈ hc.headers := by
  unfold writeBlock at hc'
  split_ifs at hc' with hnew
  · exact (mem_cons.1 hc').imp_left fun h => ⟨h, hnew⟩
  · exact .inr hc'

theorem getHeader_writeBlock_self : ((hc.writeBlock b).getHeader b.hash).isSome := by
  unfold writeBlock
  split_ifs with hnew
  · simp [getHeader]
  · exact Option.isSome_iff_ne_none.2 hnew

theorem number_writeBlock : (hc.writeBlock b).number x = hc.number x := by
  unfold writeBlock
  split_ifs <;> rfl

theorem blockDag_writeBlock : (hc.writeBlock b).blockDag x = hc.blockDag x := by
  unfold writeBlock
  split_ifs <;> rfl

@[simp] theorem nr_writeBlock : (hc.writeBlock b).nr x = hc.nr x := by
  unfold writeBlock
  split_ifs <;> rfl

@[simp] theorem genesis_writeBlock : (hc.writeBlock b).genesis = hc.genesis := by
  unfold writeBlock
  split_ifs <;> rfl

theorem nr_writeNumber_of_ne (hne : x ≠ h) : (hc.writeNumber h nr).nr x = hc.nr x := by
  simp [HeaderChain.nr, writeNumber, update_of_ne hne]

theorem nr_writeNumber_self : (hc.writeNumber h nr).nr h = nr.getD 0 := by
  simp [HeaderChain.nr, writeNumber]

theorem getHeader_deleteBlock (hne : x ≠ h) : (hc.deleteBlock h).getHeader x = hc.getHeader x := by
  show (hc.headers.filter _).find? _ = hc.headers.find? _
  rw [List.find?_filter]
  congr 1
  funext c
  by_cases hcx : c.hash = x
  · simp [hcx, hne]
  · simp [hcx]

theorem nr_deleteBlock_of_ne (hne : x ≠ h) : (hc.deleteBlock h).nr x = hc.nr x := by
  simp [HeaderChain.nr, deleteBlock, update_of_ne hne]

/-- `hc.SaveBlockDag` -/
def saveBlockDag (hc : HeaderChain) (h : Hash) (d : BlockDag) : HeaderChain :=
  { hc with blockDag := update hc.blockDag h (some d) }

/-! ## Ancestors in a complete DAG -/

theorem getHeader_writeBlock_new (hb : hc.getHeader b.hash = none) :
    (hc.writeBlock b).getHeader b.hash = some b := by
  rw [writeBlock, dif_pos hb]
  simp [getHeader]

theorem parent_writeBlock (hx : (hc.getHeader x).isSome) :
    (hc.writeBlock b).Parent x h ↔ hc.Parent x h := by
  rw [Parent, Parent, getHeader_writeBlock hx]

theorem ancestor_iff (hb : b ∈ hc.headers) :
    hc.Ancestor b.hash x ↔ ∃ p ∈ b.parentHashes, x = p ∨ hc.Ancestor p x := by
  constructor
  · intro ha
    obtain ⟨p, hbp, hpx⟩ := Relation.TransGen.head'_iff.1 ha
    exact ⟨p, (parent_iff hb).1 hbp, Relation.reflTransGen_iff_eq_or_transGen.1 hpx⟩
  · rintro ⟨p, hp, rfl | hpx⟩
    · exact .single ((parent_iff hb).2 hp)
    · exact .head ((parent_iff hb).2 hp) hpx

theorem Complete.isSome_of_ancestor (hcl : hc.Complete) (ha : hc.Ancestor x h) :
    (hc.getHeader h).isSome := by
  obtain ⟨y, -, c, hg, hp⟩ := Relation.TransGen.tail'_iff.1 ha
  exact hcl c (getHeader_eq_some.1 hg).1 h hp

theorem Complete.ancestor_writeBlock (hcl : hc.Complete) (hx : (hc.getHeader x).isSome) :
    (hc.writeBlock b).Ancestor x h ↔ hc.Ancestor x h := by
  constructor
  · intro ha
    induction ha with
    | single hp => exact .single ((parent_writeBlock hx).1 hp)
    | tail _ hp ih => exact ih.tail ((parent_writeBlock (hcl.isSome_of_ancestor ih)).1 hp)
  · intro ha
    induction ha with
    | single hp => exact .single ((parent_writeBlock hx).2 hp)
    | tail hanc hp ih => exact ih.tail ((parent_writeBlock (hcl.isSome_of_ancestor hanc)).2 hp)

end HeaderChain

end Gwat
