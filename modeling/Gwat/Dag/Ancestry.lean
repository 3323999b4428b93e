/-
  Questions about the DAG that are answered from the stored lists: whether a block is an ancestor
  of another, and which blocks are not finalized (`core/blockchain.go`).
-/
import Gwat.Dag.AncestorCache
import Gwat.Dag.Collectors
import Gwat.Dag.Tips

namespace Gwat

open GoLib List

inductive AncestorError
  | insertUncompletedDag
  | collect (e : CollectError)
  deriving DecidableEq, Repr

/-- `bc.CollectAncestorsAftCpByParents` -/
def CollectState.collectAncestorsAftCpByParents (s : CollectState) (rank : Hash → ℕ)
    (parents : List Hash) (cpHash : Hash) : Except CollectError AncestorsResult :=
  match s.chain.getHeader cpHash with
  | none => .error .cpNotFinalized
  | some cpHeader =>
    if s.chain.Unfinalized cpHeader then .error .cpNotFinalized
    else
      let r := (s.query rank parents cpHeader).1
      match r.err with
      | some e => .error e
      | none => .ok r

/-- `bc.IsAncestorRecursive` -/
def CollectState.isAncestorRecursive (s : CollectState) (rank : Hash → ℕ) (header : Header)
    (ancestorHash : Hash) : Except AncestorError Bool :=
  if header.hash = ancestorHash then .ok false
  else if s.chain.genesis = ancestorHash then .ok true
  else if ancestorHash ∈ header.parentHashes then .ok true
  else
    match s.chain.getHeader ancestorHash with
    | none => .error .insertUncompletedDag
    | some _ =>
      if 0 < s.chain.nr ancestorHash ∧ s.chain.nr ancestorHash < header.cpNumber then .ok true
      else do
        let r ← (s.collectAncestorsAftCpByParents rank header.parentHashes
          header.cpHash).mapError .collect
        failIf (r.unloaded ≠ []) .insertUncompletedDag
        return decide (ancestorHash ∈ r.ancestors)

namespace HeaderChain

variable {hc : HeaderChain} {rank : Hash → ℕ} {b : Header} {d : BlockDag} {h q x : Hash} {n k : ℕ}

/-! ## Checkpoints -/

/-- The list of a block names the block's checkpoint, which is not older than the checkpoints of
    its parents. -/
structure CpOrder (hc : HeaderChain) : Prop where
  own : ∀ b ∈ hc.headers, b.hash ≠ hc.genesis → ∀ d ∈ hc.blockDag b.hash, d.cpHash = b.cpHash
  newer : ∀ b ∈ hc.headers, ∀ p ∈ b.parentHashes, ∀ d ∈ hc.blockDag p,
    hc.SettledUpTo b.cpHash d.cpHash

theorem CpOrder.insert (ho : hc.CpOrder) (hs : Built rank hc) (hb : InsertAllowed rank hc b)
    (hd : (hc.writeBlock b).newBlockDag b = .ok d) : (hc.insertBlock b d).CpOrder := by
  have hcp : d.cpHash = b.cpHash := by
    obtain ⟨_, _, _, hj⟩ := joined_of_newBlockDag hd
    exact hj.cpHash
  have hsettled : ∀ {c x}, hc.SettledUpTo c x → (hc.insertBlock b d).SettledUpTo c x := by
    rintro c x ⟨n, hn, m, hm, hnm⟩
    exact ⟨n, number_writeBlock.trans hn, m, number_writeBlock.trans hm, hnm⟩
  have hmem : ∀ c ∈ (hc.insertBlock b d).headers, c.hash = b.hash → c = b := by
    intro c hcm heq
    rcases mem_writeBlock hcm with ⟨rfl, -⟩ | hold
    · rfl
    · exact hb.insertable.known c (heq ▸ getHeader_of_mem hold)
  refine ⟨fun c hcm hne dc hdc => ?_, fun c hcm p hp dp hdp => ?_⟩
  · by_cases heq : c.hash = b.hash
    · rw [heq, blockDag_insertBlock_self] at hdc
      cases hdc
      rw [hmem c hcm heq, hcp]
    · rw [blockDag_insertBlock_of_ne heq] at hdc
      have hold := (mem_writeBlock hcm).resolve_left fun h => heq (by rw [h.1])
      exact ho.own c hold (fun h => hne (h.trans genesis_writeBlock.symm)) dc hdc
  · rcases mem_writeBlock hcm with ⟨rfl, -⟩ | hold
    · have hne : p ≠ c.hash := fun h => lt_irrefl _ (h ▸ hb.rank p hp)
      rw [blockDag_insertBlock_of_ne hne] at hdp
      exact hsettled (hb.newer p hp dp hdp)
    · by_cases heq : p = b.hash
      · -- the list of a known block is replaced by one with the same checkpoint
        subst heq
        rw [blockDag_insertBlock_self] at hdp
        cases hdp
        obtain ⟨d', hd', -⟩ := hs.recorded.listed_of_isSome (hs.recorded.complete c hold _ hp)
        obtain ⟨b', hg⟩ := Option.isSome_iff_exists.1 (hs.recorded.complete c hold _ hp)
        obtain rfl := hb.insertable.known b' hg
        have hsame := ho.own b' (getHeader_eq_some.1 hg).1
          (hs.recorded.hash_ne_genesis hb.insertable) d' hd'
        rw [hcp, ← hsame]
        exact hsettled (ho.newer c hold _ hp d' hd')
      · rw [blockDag_insertBlock_of_ne heq] at hdp
        exact hsettled (ho.newer c hold p hp dp hdp)

theorem CpOrder.finalize (ho : hc.CpOrder) (ha : hc.Assignable h n) :
    (hc.writeNumber h (some n)).CpOrder where
  own := ho.own
  newer b hb p hp d hd := by
    obtain ⟨n, hn, m, hm, hnm⟩ := ho.newer b hb p hp d hd
    exact ⟨n, ha.number hn, m, ha.number hm, hnm⟩

theorem Reachable.cpOrder (hreach : Reachable rank hc) : hc.CpOrder := by
  obtain ⟨g, hp, hh, hrun⟩ := hreach
  induction hrun with
  | refl =>
    refine ⟨fun b hb hne => ?_, fun b hb p hpb => ?_⟩
    · exact absurd (by rw [eq_of_mem_ofGenesis hb]; rfl) hne
    · rw [eq_of_mem_ofGenesis hb, hp] at hpb
      cases hpb
  | tail hprev hstep ih =>
    cases hstep with
    | insert hb hd => exact ih.insert (Reachable.built ⟨g, hp, hh, hprev⟩) hb hd
    | finalize ha => exact ih.finalize ha

/-! ## Ancestors -/

/-- The genesis block is an ancestor of every other block. -/
theorem Built.ancestor_genesis (hs : Built rank hc) (hb : b ∈ hc.headers)
    (hne : b.hash ≠ hc.genesis) : hc.Ancestor b.hash hc.genesis := by
  induction hn : rank b.hash using Nat.strong_induction_on generalizing b with
  | _ n ih =>
    have hpar : b.parentHashes ≠ [] := fun h => hne (hs.recorded.roots b hb h)
    obtain ⟨p, hp⟩ := exists_mem_of_ne_nil _ hpar
    obtain ⟨c, hcm, rfl⟩ := isSome_getHeader.1 (hs.recorded.complete b hb p hp)
    refine (ancestor_iff hb).2 ⟨c.hash, hp, ?_⟩
    by_cases hgen : c.hash = hc.genesis
    · exact .inl hgen.symm
    · exact .inr (ih _ (hn ▸ hs.ranked b hb _ hp) hcm hgen rfl)

/-- The checkpoint of a block is an ancestor of the block. -/
theorem Built.ancestor_cpHash (hs : Built rank hc) (ho : hc.CpOrder) (hb : b ∈ hc.headers)
    (hne : b.hash ≠ hc.genesis) (hcp : b.hash ≠ b.cpHash) : hc.Ancestor b.hash b.cpHash := by
  obtain ⟨d, hd, hl⟩ := hs.recorded.listed b hb
  have hown := ho.own b hb hne d hd
  rcases hl.cp with heq | ha
  · exact absurd (heq.symm.trans hown) hcp
  · rwa [hown] at ha

theorem Recorded.number_of_nr (hr : hc.Recorded) (hne : x ≠ hc.genesis)
    (hlow : ¬ (0 < hc.nr x ∧ hc.nr x < k)) : ∀ j ∈ hc.number x, k ≤ j := by
  intro j hj
  rw [nr_eq hj] at hlow
  have hj0 : j ≠ 0 := fun h => hne (hr.unique _ _ 0 (h ▸ hj) hr.root)
  omega

section

variable (hs : Built rank hc) (ho : hc.CpOrder) (hb : b ∈ hc.headers)
  (hfin : hc.number b.cpHash = some b.cpNumber) {cache : AncestorCache}
include hs ho hb hfin

/-- Where neither the numbers nor the parents decide, both functions look for the block among the
    ancestors without the checkpoint. -/
theorem Built.collected_iff (hcache : Lru.All (Right rank hc) cache) (hgen : q ≠ hc.genesis)
    (hlow : ¬ (0 < hc.nr q ∧ hc.nr q < b.cpNumber)) :
    ∃ r r', hc.collectAncestorsAftCpByTips b.parentHashes b.cpHash = .ok r ∧ r.unloaded = [] ∧
      CollectState.collectAncestorsAftCpByParents ⟨hc, cache⟩ rank b.parentHashes b.cpHash =
        .ok r' ∧ r'.unloaded = [] ∧ (q ∈ r.ancestors ↔ hc.Ancestor b.hash q ∧ q ≠ b.cpHash) ∧
      (q ∈ r'.ancestors ↔ hc.Ancestor b.hash q ∧ q ≠ b.cpHash) := by
  obtain ⟨hr, hrank, hcov⟩ := id hs
  obtain ⟨cp, hcpm, hcph⟩ := isSome_getHeader.1 (hr.stored b.cpHash (by rw [hfin]; rfl))
  rw [← hcph] at hfin
  obtain ⟨cpD, hcpD, hl⟩ := hr.listed cp hcpm
  have hp := hr.complete b hb
  obtain ⟨r, hrun, hunl, -, hanc⟩ := hr.byTips hfin hcpD hl hp
  obtain ⟨herr', hunl', -, hanc'⟩ := hr.plain_found hrank hfin hcpm hp
  have hnum := hr.number_of_nr hgen hlow
  have hcollect : CollectState.collectAncestorsAftCpByParents ⟨hc, cache⟩ rank b.parentHashes
      b.cpHash = .ok (hc.plainAncestorsAftCpByParents rank b.parentHashes cp) := by
    have hsound : CollectState.Sound rank ⟨hc, cache⟩ := ⟨hrank, hr.complete, hcache⟩
    have hquery := (hsound.query_eq hcpm b.parentHashes).1
    rw [CollectState.collectAncestorsAftCpByParents, ← hcph, getHeader_of_mem hcpm]
    dsimp only
    rw [if_neg (hr.finalized hcpm hfin), hquery, herr']
  -- the block is not finalized, is the checkpoint or was finalized after it
  have hafter : hc.After b.cpNumber q ↔ q ≠ b.cpHash := by
    constructor
    · rintro ha rfl
      exact lt_irrefl _ (ha _ (hcph ▸ hfin))
    · intro hne j hj
      refine lt_of_le_of_ne (hnum j hj) ?_
      rintro rfl
      exact hne (hr.unique _ _ _ hj (hcph ▸ hfin))
  rw [hcph] at hrun hanc
  refine ⟨r, _, hrun, hunl, hcollect, hunl', ?_, ?_⟩
  · rw [hanc, ancestor_iff hb]
    constructor
    · rintro ⟨⟨p, hpm, dp, hdp, hx⟩, hne, -⟩
      exact ⟨⟨p, hpm, hx.imp_right ((hr.listed_eq (hp p hpm) hdp).sub q)⟩, hne⟩
    · rintro ⟨⟨p, hpm, hx⟩, hne⟩
      obtain ⟨dp, hdp, -⟩ := hr.listed_of_isSome (hp p hpm)
      refine ⟨⟨p, hpm, dp, hdp, hx.imp_right fun hx => ?_⟩, hne, fun hin => ?_⟩
      · refine (hs.listed_or_settled (hp p hpm) hdp (ho.newer b hb p hpm dp hdp)
          (hcph ▸ hfin) hx).resolve_right ?_
        rintro ⟨j, hj, hle, -⟩
        exact absurd (hafter.2 hne j hj) (not_lt.2 hle)
      · obtain ⟨j, hj, hlt⟩ := hr.number_lt (hl.sub q hin) _ hfin
        exact absurd (hnum j hj) (not_le.2 hlt)
  · rw [hanc', ancestor_iff hb, hafter]

/-- Both functions answer yes for the genesis block, the parents, the blocks finalized before the
    checkpoint and all other ancestors but the checkpoint. -/
theorem Built.isAncestor_eq (hq : (hc.getHeader q).isSome) (hne : b.hash ≠ q) :
    ∃ r, hc.isAncestorByTips b q = .ok r ∧ (∀ cache, Lru.All (Right rank hc) cache →
        CollectState.isAncestorRecursive ⟨hc, cache⟩ rank b q = .ok r) ∧
      (r = true ↔ hc.genesis = q ∨ q ∈ b.parentHashes ∨
        (0 < hc.nr q ∧ hc.nr q < b.cpNumber) ∨ hc.Ancestor b.hash q ∧ q ≠ b.cpHash) := by
  obtain ⟨c, hg⟩ := Option.isSome_iff_exists.1 hq
  unfold isAncestorByTips CollectState.isAncestorRecursive
  simp only [if_neg hne, hg]
  by_cases hgen : hc.genesis = q
  · exact ⟨true, if_pos hgen, fun _ _ => if_pos hgen, by simp [hgen]⟩
  simp only [if_neg hgen]
  by_cases hpar : q ∈ b.parentHashes
  · exact ⟨true, if_pos hpar, fun _ _ => if_pos hpar, by simp [hpar]⟩
  simp only [if_neg hpar]
  by_cases hlow : 0 < hc.nr q ∧ hc.nr q < b.cpNumber
  · exact ⟨true, if_pos hlow, fun _ _ => if_pos hlow, by simp [hlow]⟩
  simp only [if_neg hlow]
  have hcollected := fun cache hcache =>
    hs.collected_iff ho hb hfin (hcache : Lru.All (Right rank hc) cache) (Ne.symm hgen) hlow
  obtain ⟨r, -, hrun, hunl, -, -, hanc, -⟩ :=
    hcollected ∅ fun x hx => absurd hx (Lru.not_mem_empty x)
  refine ⟨decide (q ∈ r.ancestors), ?_, fun cache hcache => ?_, ?_⟩
  · rw [hrun, ok_bind, failIf_of_not (not_not.2 hunl)]
    rfl
  · obtain ⟨-, r', -, -, hrun', hunl', -, hanc'⟩ := hcollected cache hcache
    have hsame : decide (q ∈ r'.ancestors) = decide (q ∈ r.ancestors) := by
      rw [decide_eq_decide, hanc, hanc']
    rw [hrun']
    show (do failIf (r'.unloaded ≠ []) _; return decide (q ∈ r'.ancestors)) = _
    rw [failIf_of_not (not_not.2 hunl'), hsame]
    rfl
  · rw [decide_eq_true_eq, hanc]
    simp [hgen, hpar, hlow]

end

/-- `IsAncestorByTips` and `IsAncestorRecursive` give the same answer, and it is right exactly if
    the other block is an ancestor wherever it was finalized before the checkpoint, and is not the
    checkpoint itself (unless this is a parent or the genesis block). -/
theorem isAncestor_iff (rank : Hash → ℕ) (hc : HeaderChain) (hs : Built rank hc) (ho : hc.CpOrder)
    (b : Header) (hb : b ∈ hc.headers) (hfin : hc.number b.cpHash = some b.cpNumber) (q : Hash)
    (hq : (hc.getHeader q).isSome) (hne : b.hash ≠ q) :
    ∃ r, hc.isAncestorByTips b q = .ok r ∧
      (∀ cache, Lru.All (Right rank hc) cache →
        CollectState.isAncestorRecursive ⟨hc, cache⟩ rank b q = .ok r) ∧
      ((r = true ↔ hc.Ancestor b.hash q) ↔
        (0 < hc.nr q ∧ hc.nr q < b.cpNumber → hc.Ancestor b.hash q) ∧
        ¬ (b.hash ≠ hc.genesis ∧ hc.Overlooked b q)) := by
  obtain ⟨r, htips, hrec, hr⟩ := hs.isAncestor_eq ho hb hfin hq hne
  refine ⟨r, htips, hrec, ?_⟩
  rw [hr]
  by_cases ha : hc.Ancestor b.hash q
  · have hbg : b.hash ≠ hc.genesis := fun h => hs.recorded.not_ancestor_genesis (h ▸ ha)
    have hcp : q = b.cpHash → ¬ (0 < hc.nr q ∧ hc.nr q < b.cpNumber) := by
      rintro rfl ⟨-, hlt⟩
      exact absurd hlt (by rw [nr_eq hfin]; exact lt_irrefl _)
    simp only [ha, hbg, Overlooked, iff_true, true_and, implies_true, ne_eq, not_false_eq_true]
    rw [not_and_or, not_and_or, not_not, not_not, @eq_comm _ q hc.genesis]
    constructor
    · rintro (h | h | h | h)
      · exact .inr (.inr h)
      · exact .inr (.inl h)
      · exact .inl fun hq => hcp hq h
      · exact .inl h
    · rintro (h | h | h)
      · exact .inr (.inr (.inr h))
      · exact .inr (.inl h)
      · exact .inl h
  · have hbg : hc.genesis = q → b.hash = hc.genesis := fun hgen => by
      by_contra hbg
      exact ha (hgen ▸ hs.ancestor_genesis hb hbg)
    have hpar : q ∉ b.parentHashes := fun hpar => ha (.single ((parent_iff hb).2 hpar))
    have hover : ¬ (b.hash ≠ hc.genesis ∧ hc.Overlooked b q) := by
      rintro ⟨hb₁, rfl, -⟩
      exact ha (hs.ancestor_cpHash ho hb hb₁ hne)
    have hgen : hc.genesis ≠ q := fun hgen => hne ((hbg hgen).trans hgen)
    simp only [ha, hgen, hpar, hover, false_and, or_false, false_or, iff_false, imp_false,
      not_false_eq_true, and_true]

/-! ### Blocks on the fork -/

/-- Block 5 on block 4 and block 6 on block 3, both with block 3 as checkpoint. -/
def forkedOn : HeaderChain :=
  (forked.insertBlock (plainHeader 5 [4] 3 4 3 2) ⟨3, 3, 1, [2, 4]⟩).insertBlock
    (plainHeader 6 [3] 3 2 3 2) ⟨3, 3, 1, []⟩

theorem forkedOn_reachable : Reachable byValue forkedOn := by
  obtain ⟨g, hp, hh, hrun⟩ := forked_reachable
  have h₅ : DagStep byValue forked _ :=
    .insert (b := plainHeader 5 [4] 3 4 3 2) (d := ⟨3, 3, 1, [2, 4]⟩)
      ⟨⟨by decide, by decide, by decide, by decide⟩, by decide, by decide, by decide⟩
      (by decide +kernel)
  have h₆ : DagStep byValue _ forkedOn :=
    .insert ⟨⟨by decide, by decide, by decide, by decide⟩, by decide, by decide, by decide⟩
      (by decide +kernel)
  exact ⟨g, hp, hh, (hrun.tail h₅).tail h₆⟩

theorem isAncestor_iff_forkedOn :
    Reachable byValue forkedOn ∧
    ∃ r, forkedOn.isAncestorByTips (plainHeader 5 [4] 3 4 3 2) 2 = .ok r ∧
      ((r = true ↔ forkedOn.Ancestor 5 2) ↔
        (0 < forkedOn.nr 2 ∧ forkedOn.nr 2 < 2 → forkedOn.Ancestor 5 2) ∧
        ¬ ((5 : Hash) ≠ 1 ∧ forkedOn.Overlooked (plainHeader 5 [4] 3 4 3 2) 2)) := by
  obtain ⟨r, hr, -, hiff⟩ := isAncestor_iff byValue forkedOn forkedOn_reachable.built
    forkedOn_reachable.cpOrder (plainHeader 5 [4] 3 4 3 2) (by decide) (by decide) 2 (by decide)
    (by decide)
  exact ⟨forkedOn_reachable, r, hr, hiff⟩

/-- Block 3 is an ancestor of block 5, which is denied; block 2 is none of block 6, which is
    affirmed. -/
theorem isAncestor_wrong :
    Reachable byValue forkedOn ∧
    forkedOn.isAncestorByTips (plainHeader 5 [4] 3 4 3 2) 3 = .ok false ∧ forkedOn.Ancestor 5 3 ∧
    forkedOn.isAncestorByTips (plainHeader 6 [3] 3 2 3 2) 2 = .ok true ∧
      ¬ forkedOn.Ancestor 6 2 := by
  refine ⟨forkedOn_reachable, by decide +kernel, ?_, by decide +kernel, fun h => ?_⟩
  · have h4 : forkedOn.Parent 5 4 := ⟨plainHeader 5 [4] 3 4 3 2, by decide, by decide⟩
    have h3 : forkedOn.Parent 4 3 := ⟨plainHeader 4 [2, 3] 2 3 1 0, by decide, by decide⟩
    exact .tail (.single h4) h3
  · have h6 : plainHeader 6 [3] 3 2 3 2 ∈ forkedOn.headers := by decide
    have h3 : plainHeader 3 [1] 1 1 1 0 ∈ forkedOn.headers := by decide
    obtain ⟨p, hp, h⟩ := (ancestor_iff h6).1 h
    obtain rfl := mem_singleton.1 hp
    obtain ⟨p, hp, h⟩ := (ancestor_iff h3).1 (h.resolve_left (by decide))
    obtain rfl := mem_singleton.1 hp
    exact forkedOn_reachable.built.recorded.not_ancestor_genesis (h.resolve_left (by decide))

end HeaderChain

/-! ## The blocks that are not finalized -/

namespace TipsState

open HeaderChain

variable {s : TipsState} {x : Hash}

/-- The tip whose ancestors `GetDagHashes` leaves out. -/
def SkipsTip (s : TipsState) (t : Hash × BlockDag) : Prop :=
  t.1 = t.2.cpHash ∨ 0 < s.chain.nr t.1 ∨ t.1 = s.chain.genesis

instance (s : TipsState) (t : Hash × BlockDag) : Decidable (s.SkipsTip t) :=
  inferInstanceAs (Decidable (_ ∨ _))

/-- `bc.GetDagHashes` -/
def getDagHashes (s : TipsState) : Except TipsError (List Hash) := do
  let tips := s.getTips.1
  failIf (∃ t ∈ tips, t.1 ≠ t.2.cpHash ∧ (s.chain.getHeader t.1).isNone) .nilPointer
  let ancHashes :=
    ((tips.filter fun t => ¬ s.SkipsTip t).flatMap fun t => t.2.orderedAncestorsHashes).dedup
  failIf (∃ h ∈ ancHashes, (s.chain.getHeader h).isNone) .nilPointer
  -- what is kept here are the finalized ancestors
  let dag := ancHashes.filter fun h =>
    (s.chain.getHeader h).any fun hdr => 0 < s.chain.nr h ∧ 0 < hdr.height
  return sortAsc (dag ++ tips.getHashes).dedup

theorem Sound.mem_dagHashes (hs : s.Sound) :
    ∃ dag, s.getDagHashes = .ok dag ∧ dag.Pairwise (· < ·) ∧ ∀ x, x ∈ dag ↔
      x ∈ s.shown.getHashes ∨ (∃ t ∈ s.shown, ¬ s.SkipsTip t ∧ x ∈ t.2.orderedAncestorsHashes) ∧
        s.chain.number x ≠ none := by
  have hlisted : ∀ t ∈ s.shown, s.chain.Listed t.1 t.2 := fun t ht => by
    have hstored := hs.shown.stored t.1 (mem_getHashes.2 ⟨t.2, ht⟩)
    exact hs.recorded.listed_eq hstored (hs.records t (mem_of_mem_shown ht))
  have hanc : ∀ {x}, x ∈ ((s.shown.filter fun t => ¬ s.SkipsTip t).flatMap
      fun t => t.2.orderedAncestorsHashes).dedup ↔
      ∃ t ∈ s.shown, ¬ s.SkipsTip t ∧ x ∈ t.2.orderedAncestorsHashes := by
    simp [and_assoc]
  have hstored : ∀ {x}, (∃ t ∈ s.shown, ¬ s.SkipsTip t ∧ x ∈ t.2.orderedAncestorsHashes) →
      (s.chain.getHeader x).isSome ∧ x ≠ s.chain.genesis := by
    rintro x ⟨t, ht, -, hx⟩
    refine ⟨hs.recorded.complete.isSome_of_ancestor ((hlisted t ht).sub x hx), ?_⟩
    rintro rfl
    exact (hlisted t ht).root hx
  have hrun : s.getDagHashes = .ok (sortAsc (((s.shown.filter fun t => ¬ s.SkipsTip t).flatMap
      fun t => t.2.orderedAncestorsHashes).dedup.filter (fun h => (s.chain.getHeader h).any
        fun hdr => 0 < s.chain.nr h ∧ 0 < hdr.height) ++ s.shown.getHashes).dedup) := by
    rw [getDagHashes, getTips_eq]
    dsimp only
    rw [failIf_of_not, failIf_of_not]
    · rfl
    · rintro ⟨x, hx, hnone⟩
      have := (hstored (hanc.1 hx)).1
      simp_all
    · rintro ⟨t, ht, -, hnone⟩
      have := hs.shown.stored t.1 (mem_getHashes.2 ⟨t.2, ht⟩)
      simp_all
  refine ⟨_, hrun, sortAsc_pairwise_lt (nodup_dedup _), fun x => ?_⟩
  rw [mem_sortAsc, mem_dedup, mem_append, mem_filter, hanc, or_comm]
  refine or_congr_right (and_congr_right fun hx => ?_)
  obtain ⟨hsome, hgen⟩ := hstored hx
  obtain ⟨hdr, hm, rfl⟩ := isSome_getHeader.1 hsome
  have hheight : 0 < hdr.height :=
    Nat.pos_of_ne_zero fun h => hgen ((hs.recorded.heights hdr hm).1 h)
  rw [getHeader_of_mem hm, Option.any_some, decide_eq_true_eq]
  cases hn : s.chain.number hdr.hash with
  | none => simp [nr, hn]
  | some j =>
    have hj : j ≠ 0 := fun h => hgen (hs.recorded.unique _ _ 0 (h ▸ hn) hs.recorded.root)
    simp [nr_eq hn, hheight, Nat.pos_of_ne_zero hj]

/-- The hashes are listed once each, in ascending order.  They are the tips and their ancestors
    that are not finalized exactly if no tip has such an ancestor, and the lists of the tips that
    are not finalized are empty. -/
theorem dagHashes_iff (s : TipsState) (hs : s.Sound) :
    (∃ dag, s.getDagHashes = .ok dag ∧ dag.Pairwise (· < ·) ∧ ∀ x, x ∈ dag ↔
      x ∈ s.getTips.1.getHashes ∨
        (∃ h ∈ s.getTips.1.getHashes, s.chain.Ancestor h x) ∧ s.chain.number x = none) ↔
    (∀ h ∈ s.getTips.1.getHashes, ∀ x, s.chain.Ancestor h x → s.chain.number x ≠ none) ∧
      ∀ t ∈ s.getTips.1, ¬ s.SkipsTip t → t.2.orderedAncestorsHashes = [] := by
  rw [getTips_eq]
  obtain ⟨dag, hdag, hsorted, hmem⟩ := hs.mem_dagHashes
  -- an ancestor of a tip is no tip
  have hno : ∀ {h x}, h ∈ s.shown.getHashes → s.chain.Ancestor h x → x ∉ s.shown.getHashes :=
    fun hh ha hx => hs.shown.antichain _ hh _ hx ha
  constructor
  · rintro ⟨dag', hdag', -, hright⟩
    obtain rfl : dag = dag' := Except.ok.inj (hdag.symm.trans hdag')
    have hfin : ∀ h ∈ s.shown.getHashes, ∀ x, s.chain.Ancestor h x → s.chain.number x ≠ none := by
      intro h hh x ha hn
      rcases (hmem x).1 ((hright x).2 (.inr ⟨⟨h, hh, ha⟩, hn⟩)) with htip | ⟨-, hsome⟩
      · exact hno hh ha htip
      · exact hsome hn
    refine ⟨hfin, fun t ht hskip => eq_nil_iff_forall_not_mem.2 fun x hx => ?_⟩
    have hh := mem_getHashes.2 ⟨t.2, ht⟩
    have ha : s.chain.Ancestor t.1 x :=
      (hs.recorded.listed_eq (hs.shown.stored _ hh) (hs.records t (mem_of_mem_shown ht))).sub x hx
    have hsome := hfin t.1 hh x ha
    rcases (hright x).1 ((hmem x).2 (.inr ⟨⟨t, ht, hskip, hx⟩, hsome⟩)) with htip | ⟨-, hn⟩
    · exact hno hh ha htip
    · exact hsome hn
  · rintro ⟨hfin, hempty⟩
    refine ⟨dag, hdag, hsorted, fun x => (hmem x).trans (or_congr_right ?_)⟩
    refine iff_of_false ?_ ?_
    · rintro ⟨⟨t, ht, hskip, hx⟩, -⟩
      rw [hempty t ht hskip] at hx
      cases hx
    · rintro ⟨⟨h, hh, ha⟩, hn⟩
      exact hfin h hh x ha hn

/-- Block 2 is finalized, and the blocks 3 and 4 are built on it with it as checkpoint. -/
def twoTips : List TipsOp :=
  [.insert (plainHeader 2 [1] 1 1 1 0), .finalize 2 1, .finalizeTips 2 1,
    .insert (plainHeader 3 [2] 2 2 2 1), .insert (plainHeader 4 [2] 3 2 2 1)]

theorem twoTips_sound : ((ofGenesis (plainHeader 1 [] 0 0 0 0)).run twoTips).Sound := by
  refine (sound_ofGenesis rfl rfl (by decide)).run ⟨?_, ?_, ?_, ?_, ?_, trivial⟩
    ⟨?_, trivial, trivial, ?_, ?_, trivial⟩
  · constructor <;> decide +kernel
  · constructor <;> decide +kernel
  · show Option.isSome _ = true
    decide +kernel
  · constructor <;> decide +kernel
  · constructor <;> decide +kernel
  all_goals exact ⟨by decide +kernel, by decide +kernel, by decide +kernel, by decide +kernel⟩

/-- The two tips are returned, and their finalized ancestors are not. -/
theorem dagHashes_twoTips :
    let s := (ofGenesis (plainHeader 1 [] 0 0 0 0)).run twoTips
    s.Sound ∧ s.getTips.1.getHashes = [3, 4] ∧ s.chain.Ancestor 3 2 ∧ ∃ dag,
      s.getDagHashes = .ok dag ∧ dag.Pairwise (· < ·) ∧ ∀ x, x ∈ dag ↔ x ∈ s.getTips.1.getHashes ∨
        (∃ h ∈ s.getTips.1.getHashes, s.chain.Ancestor h x) ∧ s.chain.number x = none := by
  intro s
  have hs : s.Sound := twoTips_sound
  have htips : s.getTips.1.getHashes = [3, 4] := by decide +kernel
  have hother : ∀ b ∈ s.chain.headers, b.hash ∈ s.getTips.1.getHashes ∨
      s.chain.number b.hash ≠ none := by decide +kernel
  refine ⟨hs, htips, .single ⟨plainHeader 3 [2] 2 2 2 1, by decide +kernel, by decide⟩,
    (dagHashes_iff s hs).2 ⟨fun h hh x ha => ?_, by decide +kernel⟩⟩
  obtain ⟨b, hb, rfl⟩ := isSome_getHeader.1 (hs.recorded.complete.isSome_of_ancestor ha)
  rw [getTips_eq] at hh hother
  exact (hother b hb).resolve_left fun hx => hs.shown.antichain h hh _ hx ha

/-- Block 3 is the tip, and its parent 2, which is not finalized, is left out. -/
theorem unfinalized_parent_left_out :
    let s := (ofGenesis (plainHeader 1 [] 0 0 0 0)).run twoBlocks
    s.Sound ∧ s.getTips.1.getHashes = [3] ∧ s.chain.Ancestor 3 2 ∧ s.chain.number 2 = none ∧
      s.getDagHashes = .ok [3] := by
  refine ⟨(sound_ofGenesis rfl rfl (by decide)).run twoBlocks_possible twoBlocks_harmless,
    by decide +kernel, .single ⟨plainHeader 3 [2] 2 2 1 0, by decide +kernel, by decide⟩,
    by decide +kernel, by decide +kernel⟩

end TipsState

end Gwat
