/-
  The two ways to collect ancestors, compared (`CollectAncestorsAftCpByTips` and
  `CollectAncestorsAftCpByParents` in `core/headerchain.go`).
-/
import Gwat.Dag.Ancestors
import Gwat.Dag.Records

namespace Gwat

open GoLib List AncestorsResult

namespace HeaderChain

variable {hc : HeaderChain} {rank : Hash → ℕ} {cp c : Header} {h x : Hash} {k : ℕ}

/-! ## What the recursion finds -/

/-- The block was not finalized up to the number `k`. -/
def After (hc : HeaderChain) (k : ℕ) (x : Hash) : Prop := ∀ j ∈ hc.number x, k < j

theorem nr_eq (hn : hc.number x = some k) : hc.nr x = k := by simp [nr, hn]

namespace Recorded

theorem finalizedBefore_iff (hr : hc.Recorded) (hk : hc.number cp.hash = some k)
    (hcm : c ∈ hc.headers) : hc.FinalizedBefore cp c ↔ ∃ j ∈ hc.number c.hash, j < k := by
  rw [FinalizedBefore, nr_eq hk, Unfinalized]
  constructor
  · rintro ⟨hfin, hlt⟩
    cases hn : hc.number c.hash with
    | some j => exact ⟨j, rfl, nr_eq hn ▸ hlt⟩
    | none =>
      -- only the genesis block counts as finalized with the number zero
      have hzero : c.height = 0 := by
        by_contra h0
        exact hfin ⟨Nat.pos_of_ne_zero h0, by simp [nr, hn]⟩
      rw [(hr.heights c hcm).1 hzero, hr.root] at hn
      cases hn
  · rintro ⟨j, hj, hlt⟩
    rw [nr_eq hj]
    refine ⟨?_, hlt⟩
    rintro ⟨hpos, hj0⟩
    exact hpos.ne' ((hr.heights c hcm).2 (hr.unique _ _ 0 (hj0 ▸ hj) hr.root))

/-- What the recursion finds from the block `h`. -/
structure Found (hc : HeaderChain) (cpHash : Hash) (k : ℕ) (h : Hash) (r : AncestorsResult) :
    Prop where
  err : r.err = none
  unloaded : r.unloaded = []
  isCpAncestor : r.isCpAncestor = true ↔ h = cpHash ∨ hc.Ancestor h cpHash
  ancestors : ∀ x, x ∈ r.ancestors ↔ (x = h ∨ hc.Ancestor h x) ∧ hc.After k x

theorem found_of_le (hr : hc.Recorded) (hk : hc.number cp.hash = some k) {j : ℕ}
    (hj : hc.number h = some j) (hjk : j ≤ k) :
    Found hc cp.hash k h ⟨decide (h = cp.hash), ∅, [], none⟩ where
  err := rfl
  unloaded := rfl
  isCpAncestor := by
    rw [decide_eq_true_eq]
    refine ⟨.inl, fun hcp => hcp.resolve_right fun ha => ?_⟩
    obtain ⟨i, hi, hij⟩ := hr.number_lt ha j hj
    have hik : i = k := Option.some.inj (hi.symm.trans hk)
    omega
  ancestors x := by
    refine iff_of_false (Finset.notMem_empty x) ?_
    rintro ⟨rfl | ha, hafter⟩
    · have := hafter j hj
      omega
    · obtain ⟨i, hi, hij⟩ := hr.number_lt ha j hj
      have := hafter i hi
      omega

theorem finalized (hr : hc.Recorded) (hcp : cp ∈ hc.headers) (hk : hc.number cp.hash = some k) :
    ¬ hc.Unfinalized cp := by
  rintro ⟨hpos, h0⟩
  rw [nr_eq hk] at h0
  exact hpos.ne' ((hr.heights cp hcp).2 (hr.unique _ _ 0 (h0 ▸ hk) hr.root))

theorem found (hr : hc.Recorded) (hrank : hc.Ranked rank) (hk : hc.number cp.hash = some k)
    (hcp : cp ∈ hc.headers) (hh : (hc.getHeader h).isSome) :
    Found hc cp.hash k h (hc.ancestorsBelow rank cp h) := by
  induction hn : rank h using Nat.strong_induction_on generalizing h with
  | _ n ih =>
    obtain ⟨c, hcm, rfl⟩ := isSome_getHeader.1 hh
    rw [hrank.ancestorsBelow_eq, visit, if_neg (hr.finalized hcp hk), getHeader_of_mem hcm]
    dsimp only
    split_ifs with hself hbef hnil hgen
    · have := hr.found_of_le hk (hself ▸ hk) le_rfl
      rwa [decide_eq_true hself] at this
    · obtain ⟨j, hj, hjk⟩ := (hr.finalizedBefore_iff hk hcm).1 hbef
      have := hr.found_of_le hk hj hjk.le
      rwa [decide_eq_false hself] at this
    · -- the genesis block is the checkpoint or finalized before it
      rw [hr.finalizedBefore_iff hk hcm] at hbef
      have hk0 : k = 0 := by
        by_contra h0
        exact hbef ⟨0, hgen ▸ hr.root, Nat.pos_of_ne_zero h0⟩
      exact absurd (hr.unique _ _ 0 (hgen ▸ hr.root) (hk0 ▸ hk)) hself
    · exact absurd (hr.roots c hcm hnil) hgen
    · have hsub : ∀ p ∈ c.parentHashes, Found hc cp.hash k p (hc.ancestorsBelow rank cp p) :=
        fun p hp => ih (rank p) (hn ▸ hrank c hcm p hp) (hr.complete c hcm p hp) rfl
      have hafter : hc.After k c.hash := by
        intro j hj
        rw [hr.finalizedBefore_iff hk hcm] at hbef
        rcases lt_trichotomy k j with hlt | rfl | hlt
        · exact hlt
        · exact absurd (hr.unique _ _ k hj hk) hself
        · exact absurd ⟨j, hj, hlt⟩ hbef
      obtain ⟨hanc, hisCp, hunl, herr⟩ := foldl_merge c.parentHashes (hc.ancestorsBelow rank cp)
        ⟨false, {c.hash}, [], none⟩
      refine ⟨herr rfl fun p hp => (hsub p hp).err, hunl rfl fun p hp => (hsub p hp).unloaded,
        hisCp.trans ?_, fun x => (hanc x).trans ?_⟩
      · rw [ancestor_iff hcm]
        constructor
        · rintro (hfalse | ⟨p, hp, hcpp⟩)
          · cases hfalse
          · exact .inr ⟨p, hp, ((hsub p hp).isCpAncestor.1 hcpp).imp_left Eq.symm⟩
        · rintro (heq | ⟨p, hp, hcpp⟩)
          · exact absurd heq hself
          · exact .inr ⟨p, hp, (hsub p hp).isCpAncestor.2 (hcpp.imp_left Eq.symm)⟩
      · rw [ancestor_iff hcm, Finset.mem_singleton]
        constructor
        · rintro (rfl | ⟨p, hp, hx⟩)
          · exact ⟨.inl rfl, hafter⟩
          · obtain ⟨hx, hxa⟩ := ((hsub p hp).ancestors x).1 hx
            exact ⟨.inr ⟨p, hp, hx⟩, hxa⟩
        · rintro ⟨rfl | ⟨p, hp, hx⟩, hxa⟩
          · exact .inl rfl
          · exact .inr ⟨p, hp, ((hsub p hp).ancestors x).2 ⟨hx, hxa⟩⟩

theorem loop_found (hr : hc.Recorded) (hrank : hc.Ranked rank) (hk : hc.number cp.hash = some k)
    (hcp : cp ∈ hc.headers) {l : List Hash} (hl : ∀ p ∈ l, (hc.getHeader p).isSome)
    {acc : AncestorsResult} (herr : acc.err = none) (hunl : acc.unloaded = []) :
    let r := Id.run (collectLoop (fun h => hc.ancestorsBelow rank cp h) l acc)
    r.err = none ∧ r.unloaded = [] ∧
      (r.isCpAncestor = true ↔ acc.isCpAncestor = true ∨
        ∃ p ∈ l, p = cp.hash ∨ hc.Ancestor p cp.hash) ∧
      ∀ x, x ∈ r.ancestors ↔ x ∈ acc.ancestors ∨
        (∃ p ∈ l, x = p ∨ hc.Ancestor p x) ∧ hc.After k x := by
  induction l generalizing acc with
  | nil => simp [collectLoop, herr, hunl]
  | cons p l ih =>
    have hf := hr.found hrank hk hcp (hl p (by simp))
    have hstep : Id.run (collectLoop (fun h => hc.ancestorsBelow rank cp h) (p :: l) acc) =
        Id.run (collectLoop (fun h => hc.ancestorsBelow rank cp h) l
          (acc.join (hc.ancestorsBelow rank cp p))) := by
      show Id.run (if (hc.ancestorsBelow rank cp p).err.isSome then _ else _) = _
      rw [hf.err]
      rfl
    have hunl' : (acc.join (hc.ancestorsBelow rank cp p)).unloaded = [] := by
      simp [join, hunl, hf.unloaded]
    have herr' : (acc.join (hc.ancestorsBelow rank cp p)).err = none := hf.err
    obtain ⟨h₁, h₂, h₃, h₄⟩ := ih (fun q hq => hl q (by simp [hq])) herr' hunl'
    rw [hstep]
    refine ⟨h₁, h₂, h₃.trans ?_, fun x => (h₄ x).trans ?_⟩
    · simp [join, hf.isCpAncestor, or_assoc]
    · simp only [join, Finset.mem_union, hf.ancestors x, exists_mem_cons_iff]
      rw [or_assoc, ← or_and_right]

theorem plain_found (hr : hc.Recorded) (hrank : hc.Ranked rank) (hk : hc.number cp.hash = some k)
    (hcp : cp ∈ hc.headers) {parents : List Hash}
    (hp : ∀ p ∈ parents, (hc.getHeader p).isSome) :
    let r := hc.plainAncestorsAftCpByParents rank parents cp
    r.err = none ∧ r.unloaded = [] ∧
      (r.isCpAncestor = true ↔ ∃ p ∈ parents, p = cp.hash ∨ hc.Ancestor p cp.hash) ∧
      ∀ x, x ∈ r.ancestors ↔ (∃ p ∈ parents, x = p ∨ hc.Ancestor p x) ∧ hc.After k x := by
  obtain ⟨h₁, h₂, h₃, h₄⟩ := hr.loop_found hrank hk hcp hp
    (show AncestorsResult.nothing.err = none from rfl) rfl
  refine ⟨h₁, h₂, h₃.trans ?_, fun x => (h₄ x).trans ?_⟩
  · simp [nothing]
  · simp [nothing]

end Recorded

/-! ## What the lists give -/

/-- The ancestor was finalized, no later than the checkpoint. -/
def SettledUpTo (hc : HeaderChain) (cpHash x : Hash) : Prop :=
  ∃ n ∈ hc.number x, ∃ m ∈ hc.number cpHash, n ≤ m

instance (cpHash x : Hash) : Decidable (hc.SettledUpTo cpHash x) :=
  inferInstanceAs (Decidable (∃ n ∈ hc.number x, ∃ m ∈ hc.number cpHash, n ≤ m))

variable {parents : List Hash}
variable {d cpD : BlockDag}

theorem Recorded.listed_eq (hr : hc.Recorded) (hh : (hc.getHeader h).isSome)
    (hd : hc.blockDag h = some d) : hc.Listed h d := by
  obtain ⟨d', hd', hl⟩ := hr.listed_of_isSome hh
  rwa [Option.some.inj (hd.symm.trans hd')]

/-- A block is kept unless it is the checkpoint or in its list. -/
theorem Recorded.kept_iff (hr : hc.Recorded) (hcpD : hc.Listed cp.hash cpD)
    (hk : hc.number cp.hash = some k) (hx : (hc.getHeader x).isSome) :
    hc.kept cp.hash cpD.orderedAncestorsHashes x = true ↔
      x ≠ cp.hash ∧ x ∉ cpD.orderedAncestorsHashes := by
  obtain ⟨b, hb, rfl⟩ := isSome_getHeader.1 hx
  rw [kept, getHeader_of_mem hb, decide_eq_true_eq]
  refine and_congr_right fun _ => ⟨fun hns hin => hns ⟨?_, ?_, hin⟩, fun hout hs => hout hs.2.2⟩
  · refine Nat.pos_of_ne_zero fun h0 => hcpD.root ?_
    rwa [← (hr.heights b hb).1 h0]
  · obtain ⟨j, hj, -⟩ := hr.number_lt (hcpD.sub _ hin) k hk
    rw [nr_eq hj]
    refine Nat.pos_of_ne_zero fun h0 => hcpD.root ?_
    rwa [← hr.unique _ _ 0 (h0 ▸ hj) hr.root]

/-- What `CollectAncestorsAftCpByTips` returns if the lists of the parents and of the checkpoint
    are stored. -/
theorem Recorded.byTips (hr : hc.Recorded) (hk : hc.number cp.hash = some k)
    (hcpD : hc.blockDag cp.hash = some cpD) (hl : hc.Listed cp.hash cpD)
    (hp : ∀ p ∈ parents, (hc.getHeader p).isSome) :
    ∃ r, hc.collectAncestorsAftCpByTips parents cp.hash = .ok r ∧ r.unloaded = [] ∧
      (r.isCpAncestor = true ↔ ∃ p ∈ parents, ∃ d, hc.blockDag p = some d ∧
        (d.cpHash = cp.hash ∨ cp.hash ∈ d.orderedAncestorsHashes)) ∧
      ∀ x, x ∈ r.ancestors ↔ (∃ p ∈ parents, ∃ d, hc.blockDag p = some d ∧
        (x = p ∨ x ∈ d.orderedAncestorsHashes)) ∧ x ≠ cp.hash ∧ x ∉ cpD.orderedAncestorsHashes := by
  have htips : ∀ t : Hash × BlockDag, t ∈ hc.tips parents ↔
      t.1 ∈ parents ∧ hc.blockDag t.1 = some t.2 := by
    rintro ⟨p, d⟩
    simp only [tips, mem_filterMap, Option.map_eq_some_iff, Prod.mk.injEq]
    constructor
    · rintro ⟨q, hq, e, he, rfl, rfl⟩
      exact ⟨hq, he⟩
    · rintro ⟨hq, he⟩
      exact ⟨p, hq, d, he, rfl, rfl⟩
  refine ⟨_, by rw [collectAncestorsAftCpByTips, cpAncestors, hcpD]; rfl, ?_, ?_, fun x => ?_⟩
  · refine filter_eq_nil_iff.2 fun p hpm => ?_
    obtain ⟨d, hd, -⟩ := hr.listed_of_isSome (hp p hpm)
    simp [hd]
  · simp only [any_eq_true, decide_eq_true_eq, htips, Prod.exists]
    exact ⟨fun ⟨p, d, ⟨hpm, hd⟩, h⟩ => ⟨p, hpm, d, hd, h⟩,
      fun ⟨p, hpm, d, hd, h⟩ => ⟨p, d, ⟨hpm, hd⟩, h⟩⟩
  · simp only [mem_filter, mem_dedup, mem_flatMap, htips, Prod.exists,
      mem_append, mem_singleton]
    constructor
    · rintro ⟨⟨p, d, ⟨hpm, hd⟩, hx⟩, hkept⟩
      have hsome : (hc.getHeader x).isSome := by
        unfold kept at hkept
        split at hkept
        · cases hkept
        · rename_i hg
          rw [hg]
          rfl
      exact ⟨⟨p, hpm, d, hd, hx.symm⟩, (hr.kept_iff hl hk hsome).1 hkept⟩
    · rintro ⟨⟨p, hpm, d, hd, hx⟩, hkept⟩
      have hsome : (hc.getHeader x).isSome := by
        rcases hx with rfl | hx
        · exact hp _ hpm
        · exact hr.complete.isSome_of_ancestor ((hr.listed_eq (hp p hpm) hd).sub x hx)
      exact ⟨⟨p, d, ⟨hpm, hd⟩, hx.symm⟩, (hr.kept_iff hl hk hsome).2 hkept⟩

/-! ## Building the DAG -/

/-- The block is inserted on stored parents, with a finalized checkpoint that is not older than
    theirs. -/
structure InsertAllowed (rank : Hash → ℕ) (hc : HeaderChain) (b : Header) : Prop where
  insertable : hc.Insertable b
  rank : ∀ p ∈ b.parentHashes, rank p < rank b.hash
  cp : (hc.number b.cpHash).isSome
  newer : ∀ p ∈ b.parentHashes, ∀ d ∈ hc.blockDag p, hc.SettledUpTo b.cpHash d.cpHash

/-- The database after a step that succeeds. -/
inductive DagStep (rank : Hash → ℕ) : HeaderChain → HeaderChain → Prop
  | insert {hc b d} (hb : InsertAllowed rank hc b) (hd : (hc.writeBlock b).newBlockDag b = .ok d) :
    DagStep rank hc (hc.insertBlock b d)
  | finalize {hc h n} (ha : hc.Assignable h n) : DagStep rank hc (hc.writeNumber h (some n))

/-- The databases that are built from a genesis block. -/
def Reachable (rank : Hash → ℕ) (hc : HeaderChain) : Prop :=
  ∃ g : Header, g.parentHashes = [] ∧ g.height = 0 ∧
    Relation.ReflTransGen (DagStep rank) (ofGenesis g) hc

theorem SettledUpTo.trans {c c' : Hash} (hc' : hc.SettledUpTo c' c) (hx : hc.SettledUpTo c x) :
    hc.SettledUpTo c' x := by
  obtain ⟨n, hn, m, hm, hnm⟩ := hx
  obtain ⟨m', hm', l, hl, hml⟩ := hc'
  obtain rfl : m = m' := Option.some.inj (hm.symm.trans hm')
  exact ⟨n, hn, l, hl, hnm.trans hml⟩

theorem Recorded.settledUpTo_ancestor (hr : hc.Recorded) {c y : Hash} (hy : hc.SettledUpTo c y)
    (ha : hc.Ancestor y x) : hc.SettledUpTo c x := by
  obtain ⟨n, hn, m, hm, hnm⟩ := hy
  obtain ⟨j, hj, hjn⟩ := hr.number_lt ha n hn
  exact ⟨j, hj, m, hm, hjn.le.trans hnm⟩

/-- What holds of every database that is built: the lists are about ancestors, and leave out only
    those that their checkpoints settle. -/
structure Built (rank : Hash → ℕ) (hc : HeaderChain) : Prop where
  recorded : hc.Recorded
  ranked : hc.Ranked rank
  covered : hc.Covered hc.SettledUpTo

theorem Built.insert (hs : Built rank hc) {b : Header} (hb : InsertAllowed rank hc b)
    (hd : (hc.writeBlock b).newBlockDag b = .ok d) :
    Built rank (hc.insertBlock b d) where
  recorded := hs.recorded.insert hb.insertable hd
  ranked := by
    intro c hcm p hp
    rcases mem_writeBlock hcm with ⟨rfl, -⟩ | hcm
    · exact hb.rank p hp
    · exact hs.ranked c hcm p hp
  covered := by
    have hr := hs.recorded
    obtain ⟨m, hm⟩ := Option.isSome_iff_exists.1 hb.cp
    have hself : hc.SettledUpTo b.cpHash b.cpHash := ⟨m, hm, m, hm, le_rfl⟩
    refine Covered.mono (Q := hc.SettledUpTo) ?_ ?_
    · refine hs.covered.insert hr hb.insertable hd ?_ hself ⟨0, hr.root, m, hm, Nat.zero_le m⟩ ?_
      · intro y x hy ha
        have hstored : (hc.getHeader y).isSome := by
          obtain ⟨n, hn, -⟩ := hy
          exact hr.stored y (by rw [hn]; rfl)
        exact hr.settledUpTo_ancestor hy ((hr.complete.ancestor_writeBlock hstored).1 ha)
      · intro p hp bdag hbdag x hx
        exact (hb.newer p hp bdag hbdag).trans hx
    · rintro c x ⟨n, hn, m, hm, hnm⟩
      exact ⟨n, number_writeBlock.trans hn, m, number_writeBlock.trans hm, hnm⟩

theorem Built.finalize (hs : Built rank hc) {n : ℕ} (ha : hc.Assignable h n) :
    Built rank (hc.writeNumber h (some n)) where
  recorded := hs.recorded.finalize ha
  ranked := hs.ranked
  covered := by
    intro b hb d hd x hx
    refine (hs.covered b hb d hd x hx).imp_right ?_
    rintro ⟨n, hn, m, hm, hnm⟩
    exact ⟨n, ha.number hn, m, ha.number hm, hnm⟩

theorem built_ofGenesis {g : Header} (hp : g.parentHashes = []) (hh : g.height = 0) :
    Built rank (ofGenesis g) where
  recorded := recorded_ofGenesis hp hh
  ranked := by
    intro b hb p hpb
    rw [eq_of_mem_ofGenesis hb, hp] at hpb
    cases hpb
  covered := covered_ofGenesis hp

theorem Reachable.built (h : Reachable rank hc) : Built rank hc := by
  obtain ⟨g, hp, hh, hrun⟩ := h
  induction hrun with
  | refl => exact built_ofGenesis hp hh
  | tail _ hstep ih =>
    cases hstep with
    | insert hb hd => exact ih.insert hb hd
    | finalize ha => exact ih.finalize ha

/-- An ancestor of a block that is not in its list was finalized no later than a checkpoint that
    is not older than the block's own. -/
theorem Built.listed_or_settled (hs : Built rank hc) {cpHash : Hash}
    (hh : (hc.getHeader h).isSome) (hd : hc.blockDag h = some d)
    (hnew : hc.SettledUpTo cpHash d.cpHash) (hk : hc.number cpHash = some k)
    (hx : hc.Ancestor h x) :
    x ∈ d.orderedAncestorsHashes ∨ ∃ n ∈ hc.number x, n ≤ k ∧ (n = k → d.cpHash = cpHash) := by
  obtain ⟨c, hcm, rfl⟩ := isSome_getHeader.1 hh
  refine (hs.covered c hcm d hd x hx).imp_right ?_
  rintro ⟨n, hn, m, hm, hnm⟩
  obtain ⟨m', hm', k', hk', hmk⟩ := hnew
  obtain rfl : m = m' := Option.some.inj (hm.symm.trans hm')
  obtain rfl : k = k' := Option.some.inj (hk.symm.trans hk')
  refine ⟨n, hn, hnm.trans hmk, ?_⟩
  rintro rfl
  exact hs.recorded.unique _ _ m hm (le_antisymm hnm hmk ▸ hk)

/-! ## The two collectors -/

/-- The blocks that the lists of the parents give. -/
def ListedBy (hc : HeaderChain) (parents : List Hash) (x : Hash) : Prop :=
  ∃ p ∈ parents, ∃ d, hc.blockDag p = some d ∧ (x = p ∨ x ∈ d.orderedAncestorsHashes)

/-- A fork: a block finalized before the checkpoint that the list of the checkpoint does not
    contain. -/
def Fork (hc : HeaderChain) (cpHash x : Hash) : Prop :=
  (∃ j ∈ hc.number x, j < hc.nr cpHash) ∧
    ∀ d, hc.blockDag cpHash = some d → x ∉ d.orderedAncestorsHashes

/-- In a DAG that is built block by block, for parents whose checkpoints are not newer than the
    given one, the stored lists give what the recursion over the parents gives, and besides it
    the forks finalized before the checkpoint.  The checkpoint is an ancestor in the recursion
    exactly if it is in the lists or one of the parents. -/
theorem collectors_up_to_forks (h : Reachable rank hc) (hcp : cp ∈ hc.headers)
    (hfin : (hc.number cp.hash).isSome) (hp : ∀ p ∈ parents, (hc.getHeader p).isSome)
    (hnew : ∀ p ∈ parents, ∀ d ∈ hc.blockDag p, hc.SettledUpTo cp.hash d.cpHash) :
    ∃ r, hc.collectAncestorsAftCpByTips parents cp.hash = .ok r ∧
      let r' := hc.plainAncestorsAftCpByParents rank parents cp
      r.unloaded = [] ∧ r'.unloaded = [] ∧ r'.err = none ∧
      (∀ x, x ∈ r.ancestors ↔
        x ∈ r'.ancestors ∨ hc.ListedBy parents x ∧ hc.Fork cp.hash x) ∧
      (r'.isCpAncestor = true ↔ r.isCpAncestor = true ∨ cp.hash ∈ parents) := by
  have hs := h.built
  obtain ⟨hr, hrank, -⟩ := id hs
  obtain ⟨k, hk⟩ := Option.isSome_iff_exists.1 hfin
  obtain ⟨cpD, hcpD, hl⟩ := hr.listed cp hcp
  obtain ⟨r, hrun, hunl, hisCp, hanc⟩ := hr.byTips hk hcpD hl hp
  obtain ⟨herr', hunl', hisCp', hanc'⟩ := hr.plain_found hrank hk hcp hp
  have hlisted : ∀ p ∈ parents, ∀ d, hc.blockDag p = some d → hc.Listed p d :=
    fun p hpm _ hd => hr.listed_eq (hp p hpm) hd
  have hsettled : ∀ p ∈ parents, ∀ d, hc.blockDag p = some d → ∀ x, hc.Ancestor p x →
      x ∈ d.orderedAncestorsHashes ∨ ∃ n ∈ hc.number x, n ≤ k ∧ (n = k → d.cpHash = cp.hash) :=
    fun p hpm d hd _ => hs.listed_or_settled (hp p hpm) hd (hnew p hpm d hd) hk
  refine ⟨r, hrun, hunl, hunl', herr', fun x => ?_, ?_⟩
  · rw [hanc, hanc']
    constructor
    · rintro ⟨⟨p, hpm, d, hd, hx⟩, hne, hout⟩
      by_cases hafter : hc.After k x
      · exact .inl ⟨⟨p, hpm, hx.imp_right ((hlisted p hpm d hd).sub x)⟩, hafter⟩
      · unfold After at hafter
        push Not at hafter
        obtain ⟨j, hj, hjk⟩ := hafter
        have hjk : j ≠ k := fun heq => hne (hr.unique _ _ k (heq ▸ hj) hk)
        refine .inr ⟨⟨p, hpm, d, hd, hx⟩, ⟨j, hj, by rw [nr_eq hk]; omega⟩, ?_⟩
        rintro d' hd'
        obtain rfl : cpD = d' := Option.some.inj (hcpD.symm.trans hd')
        exact hout
    · rintro (⟨⟨p, hpm, hx⟩, hafter⟩ | ⟨hx, ⟨j, hj, hjk⟩, hout⟩)
      · obtain ⟨d, hd, -⟩ := hr.listed_of_isSome (hp p hpm)
        refine ⟨⟨p, hpm, d, hd, ?_⟩, ?_, fun hin => ?_⟩
        · refine hx.imp_right fun hx => (hsettled p hpm d hd x hx).resolve_right ?_
          rintro ⟨n, hn, hnk, -⟩
          exact absurd (hafter n hn) (not_lt.2 hnk)
        · rintro rfl
          exact lt_irrefl k (hafter k hk)
        · obtain ⟨j, hj, hjk⟩ := hr.number_lt (hl.sub x hin) k hk
          exact absurd (hafter j hj) (not_lt.2 hjk.le)
      · refine ⟨hx, ?_, hout cpD hcpD⟩
        rintro rfl
        rw [nr_eq hk, Option.some.inj (hj.symm.trans hk)] at hjk
        exact lt_irrefl k hjk
  · rw [hisCp', hisCp]
    constructor
    · rintro ⟨p, hpm, rfl | hx⟩
      · exact .inr hpm
      · obtain ⟨d, hd, -⟩ := hr.listed_of_isSome (hp p hpm)
        refine .inl ⟨p, hpm, d, hd, ?_⟩
        rcases hsettled p hpm d hd _ hx with hin | ⟨n, hn, -, heq⟩
        · exact .inr hin
        · exact .inl (heq (Option.some.inj (hn.symm.trans hk)))
    · rintro (⟨p, hpm, d, hd, hcpd | hin⟩ | hcpp)
      · have hl' := (hlisted p hpm d hd).cp
        rw [hcpd] at hl'
        exact ⟨p, hpm, hl'.imp_left Eq.symm⟩
      · exact ⟨p, hpm, .inr ((hlisted p hpm d hd).sub _ hin)⟩
      · exact ⟨_, hcpp, .inl rfl⟩

/-- Where the parents list no fork, the two collectors return the same ancestors. -/
theorem collectors_agree_without_forks (h : Reachable rank hc) (hcp : cp ∈ hc.headers)
    (hfin : (hc.number cp.hash).isSome) (hp : ∀ p ∈ parents, (hc.getHeader p).isSome)
    (hnew : ∀ p ∈ parents, ∀ d ∈ hc.blockDag p, hc.SettledUpTo cp.hash d.cpHash)
    (hfork : ∀ x, hc.ListedBy parents x → ¬ hc.Fork cp.hash x) :
    ∃ r, hc.collectAncestorsAftCpByTips parents cp.hash = .ok r ∧
      let r' := hc.plainAncestorsAftCpByParents rank parents cp
      r.unloaded = [] ∧ r'.unloaded = [] ∧ r'.err = none ∧
      (∀ x, x ∈ r.ancestors ↔ x ∈ r'.ancestors) ∧
      (r'.isCpAncestor = true ↔ r.isCpAncestor = true ∨ cp.hash ∈ parents) := by
  obtain ⟨r, hrun, hunl, hunl', herr', hanc, hisCp⟩ := collectors_up_to_forks h hcp hfin hp hnew
  refine ⟨r, hrun, hunl, hunl', herr', fun x => (hanc x).trans ?_, hisCp⟩
  exact or_iff_left fun hx => hfork x hx.1 hx.2

/-! ### A fork finalized before a checkpoint -/

def forked₁ : HeaderChain := ofGenesis (plainHeader 1 [] 0 0 0 0)

/-- Block 2 on it. -/
def forked₂ : HeaderChain := forked₁.insertBlock (plainHeader 2 [1] 1 1 1 0) ⟨1, 1, 0, []⟩

/-- Block 3 beside block 2. -/
def forked₃ : HeaderChain := forked₂.insertBlock (plainHeader 3 [1] 1 1 1 0) ⟨1, 1, 0, []⟩

/-- Block 4 on both. -/
def forked₄ : HeaderChain := forked₃.insertBlock (plainHeader 4 [2, 3] 2 3 1 0) ⟨2, 1, 0, [2, 3]⟩

/-- Blocks 2 and 3 are finalized, in this order. -/
def forked : HeaderChain := (forked₄.writeNumber 2 (some 1)).writeNumber 3 (some 2)

theorem forked_reachable : Reachable byValue forked := by
  have h₂ : DagStep byValue forked₁ forked₂ :=
    .insert ⟨⟨by decide, by decide, by decide, by decide⟩, by decide, by decide, by decide⟩
      (by decide +kernel)
  have h₃ : DagStep byValue forked₂ forked₃ :=
    .insert ⟨⟨by decide, by decide, by decide, by decide⟩, by decide, by decide, by decide⟩
      (by decide +kernel)
  have h₄ : DagStep byValue forked₃ forked₄ :=
    .insert ⟨⟨by decide, by decide, by decide, by decide⟩, by decide, by decide, by decide⟩
      (by decide +kernel)
  have h₅ : DagStep byValue forked₄ (forked₄.writeNumber 2 (some 1)) :=
    .finalize ⟨by decide, by decide, by decide⟩
  have h₆ : DagStep byValue (forked₄.writeNumber 2 (some 1)) forked :=
    .finalize ⟨by decide, by decide, by decide⟩
  exact ⟨_, rfl, rfl, .tail (.tail (.tail (.tail (.tail .refl h₂) h₃) h₄) h₅) h₆⟩

/-- With block 2 as checkpoint block 3 is finalized later and is no fork. -/
theorem forked_without_forks (x : Hash) (hx : forked.ListedBy [4] x) : ¬ forked.Fork 2 x := by
  obtain ⟨p, hp, d, hd, hx⟩ := hx
  obtain rfl : p = 4 := mem_singleton.1 hp
  have hd4 : forked.blockDag 4 = some ⟨2, 1, 0, [2, 3]⟩ := by decide
  obtain rfl := Option.some.inj (hd4.symm.trans hd)
  have hmem : x ∈ [(4 : Hash), 2, 3] := mem_cons.2 hx
  have hnum : ∀ y ∈ [(4 : Hash), 2, 3], ∀ j ∈ forked.number y, ¬ j < forked.nr 2 := by decide
  rintro ⟨⟨j, hj, hlt⟩, -⟩
  exact hnum x hmem j hj hlt

/-- With block 2 as checkpoint, both collectors go from block 4 to the blocks 3 and 4. -/
theorem collectors_agree_forked :
    Reachable byValue forked ∧ forked.collectAncestorsAftCpByTips [4] 2 = .ok ⟨true, [3, 4], []⟩ ∧
    ∃ r, forked.collectAncestorsAftCpByTips [4] 2 = .ok r ∧ ∀ x, x ∈ r.ancestors ↔
      x ∈ (forked.plainAncestorsAftCpByParents byValue [4] (plainHeader 2 [1] 1 1 1 0)).ancestors := by
  have hcp : plainHeader 2 [1] 1 1 1 0 ∈ forked.headers := by decide
  have hp : ∀ p ∈ [(4 : Hash)], (forked.getHeader p).isSome := by decide
  obtain ⟨r, hr, -, -, -, hanc, -⟩ := collectors_agree_without_forks forked_reachable hcp
    (by decide) hp (by decide) forked_without_forks
  exact ⟨forked_reachable, by decide +kernel, r, hr, hanc⟩

/-- With block 3 as checkpoint, the list of block 4 gives block 2, which was finalized before the
    checkpoint and is not its ancestor; the recursion leaves it out.  For the checkpoint as the
    only parent, the recursion meets it and the list does not. -/
theorem collectors_disagree_on_fork :
    Reachable byValue forked ∧
    forked.collectAncestorsAftCpByTips [4] 3 = .ok ⟨true, [2, 4], []⟩ ∧
    forked.plainAncestorsAftCpByParents byValue [4] (plainHeader 3 [1] 1 1 1 0) =
      ⟨true, {4}, [], none⟩ ∧
    forked.collectAncestorsAftCpByTips [3] 3 = .ok ⟨false, [], []⟩ ∧
    forked.plainAncestorsAftCpByParents byValue [3] (plainHeader 3 [1] 1 1 1 0) =
      ⟨true, ∅, [], none⟩ :=
  ⟨forked_reachable, by decide +kernel, by decide +kernel, by decide +kernel, by decide +kernel⟩

end HeaderChain

end Gwat
