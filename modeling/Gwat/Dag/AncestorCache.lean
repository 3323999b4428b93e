/-
  The ancestor cache over the life of a node (`core/headerchain.go`, `core/blockchain.go`).
-/
import Gwat.Dag.Ancestors
import Gwat.Dag.HeaderStore

namespace Gwat

open GoLib

namespace HeaderChain

variable {hc : HeaderChain} {b : Header} {h x : Hash} {nr : Option ℕ}

/-! ## Results that stay right -/

variable {rank : Hash → ℕ} {hc' : HeaderChain} {cp : Header} {e : CollectAncestorsResult}

theorem Right.of_agree (hR : Right rank hc x e) (hx : hc'.getHeader x = hc.getHeader x)
    (hcpg : hc'.getHeader e.cpHash = hc.getHeader e.cpHash)
    (hcpu : ∀ cp, hc.getHeader e.cpHash = some cp → (hc'.Unfinalized cp ↔ hc.Unfinalized cp))
    (hag : ∀ cp, hc.getHeader e.cpHash = some cp → ¬ hc.Unfinalized cp →
      ∃ S, S x ∧ Agree hc hc' cp S) : Right rank hc' x e := by
  obtain ⟨hstored, cp, hg, hfin, hres⟩ := hR
  obtain ⟨S, hSx, ha⟩ := hag cp hg hfin
  exact ⟨hx ▸ hstored, cp, hcpg.trans hg, fun hu => hfin ((hcpu cp hg).1 hu),
    hres.trans (ha.ancestorsBelow_eq hSx).symm⟩

theorem Right.writeBlock (hcl : hc.Complete) (hR : Right rank hc x e) :
    Right rank (hc.writeBlock b) x e := by
  have hun : ∀ c, (hc.writeBlock b).Unfinalized c ↔ hc.Unfinalized c := by simp [Unfinalized]
  have hcp : (hc.getHeader e.cpHash).isSome := by
    obtain ⟨-, cp, hg, -⟩ := hR
    rw [hg]
    rfl
  refine hR.of_agree (getHeader_writeBlock hR.1) (getHeader_writeBlock hcp) (fun cp _ => hun cp)
    fun cp _ _ => ⟨fun y => (hc.getHeader y).isSome, hR.1, fun y hy => ?_, fun y _ c hg p hp => ?_⟩
  · exact visit_congr (hun cp) (getHeader_writeBlock hy) genesis_writeBlock fun c _ => by
      simp [FinalizedBefore, hun]
  · exact hcl c (getHeader_eq_some.1 hg).1 p hp

/-- A changed number is not seen below a checkpoint if it is above the checkpoint, or absent,
    before and after. -/
theorem Right.writeNumber (hcl : hc.Complete) (hR : Right rank hc x e)
    (hne : e.cpHash ≠ h) (hcut : ∀ cp b, hc.getHeader e.cpHash = some cp → hc.getHeader h = some b →
      ¬ hc.FinalizedBefore cp b ∧ ¬ (hc.writeNumber h nr).FinalizedBefore cp b) :
    Right rank (hc.writeNumber h nr) x e := by
  have hcpu : ∀ cp, hc.getHeader e.cpHash = some cp →
      ((hc.writeNumber h nr).Unfinalized cp ↔ hc.Unfinalized cp) := by
    intro cp hg
    obtain ⟨-, hcp⟩ := getHeader_eq_some.1 hg
    rw [Unfinalized, Unfinalized, nr_writeNumber_of_ne (hcp ▸ hne)]
  refine hR.of_agree rfl rfl hcpu fun cp hg _ =>
    ⟨fun y => (hc.getHeader y).isSome, hR.1, fun y hy => ?_, fun y _ c hg p hp => ?_⟩
  · refine visit_congr (hcpu cp hg) rfl rfl fun c hgc => ?_
    by_cases hyh : y = h
    · subst hyh
      obtain ⟨h₁, h₂⟩ := hcut cp c hg hgc
      exact iff_of_false h₂ h₁
    · obtain ⟨-, hcp⟩ := getHeader_eq_some.1 hg
      obtain ⟨-, hch⟩ := getHeader_eq_some.1 hgc
      rw [FinalizedBefore, FinalizedBefore, Unfinalized, Unfinalized,
        nr_writeNumber_of_ne (hch ▸ hyh), nr_writeNumber_of_ne (hcp ▸ hne)]
  · exact hcl c (getHeader_eq_some.1 hg).1 p hp

theorem Right.deleteBlock (hcl : hc.Complete) (hleaf : ∀ b ∈ hc.headers, h ∉ b.parentHashes)
    (hR : Right rank hc x e) (hx : x ≠ h) (hne : e.cpHash ≠ h) :
    Right rank (hc.deleteBlock h) x e := by
  have hun : ∀ c : Header, c.hash ≠ h → ((hc.deleteBlock h).Unfinalized c ↔ hc.Unfinalized c) :=
    fun c hc' => by rw [Unfinalized, Unfinalized, nr_deleteBlock_of_ne hc']
  have hcph : ∀ cp, hc.getHeader e.cpHash = some cp → cp.hash ≠ h := fun cp hg =>
    (getHeader_eq_some.1 hg).2 ▸ hne
  refine hR.of_agree (getHeader_deleteBlock hx) (getHeader_deleteBlock hne)
    (fun cp hg => hun cp (hcph cp hg)) fun cp hg _ =>
    ⟨fun y => (hc.getHeader y).isSome ∧ y ≠ h, ⟨hR.1, hx⟩, fun y hy => ?_, fun y _ c hg p hp => ?_⟩
  · refine visit_congr (hun cp (hcph cp hg)) (getHeader_deleteBlock hy.2) rfl fun c hgc => ?_
    have hch : c.hash ≠ h := (getHeader_eq_some.1 hgc).2 ▸ hy.2
    rw [FinalizedBefore, FinalizedBefore, hun c hch, nr_deleteBlock_of_ne hch,
      nr_deleteBlock_of_ne (hcph cp hg)]
  · have hcm := (getHeader_eq_some.1 hg).1
    exact ⟨hcl c hcm p hp, fun hph => hleaf c hcm (hph ▸ hp)⟩

end HeaderChain

/-! ## Runs -/

/-- The database and the ancestor cache. -/
structure CollectState where
  chain : HeaderChain
  ancestorCache : AncestorCache

/-- What happens to them: `insertBlocks` writes a block, finalization and rollback write and
    delete a number, `rmBlockData` deletes a block, `SetHead` clears the cache, and a query asks
    for ancestors. -/
inductive CollectOp
  | insertBlock (b : Header)
  | finalizeBlock (h : Hash) (nr : ℕ)
  | rollbackBlockFinalization (h : Hash)
  | rmBlockData (h : Hash)
  | purge
  | query (parents : List Hash) (cpHash : Hash)

namespace CollectState

open HeaderChain

variable (rank : Hash → ℕ)

/-- One query: what it returns, and the cache after it. -/
def query (s : CollectState) (parents : List Hash) (cp : Header) : AncestorsResult × AncestorCache :=
  (s.chain.collectAncestorsAftCpByParents rank parents cp).run s.ancestorCache

def apply (s : CollectState) : CollectOp → CollectState
  | .insertBlock b => { s with chain := s.chain.writeBlock b }
  | .finalizeBlock h nr => { s with chain := s.chain.writeNumber h (some nr) }
  | .rollbackBlockFinalization h => { s with chain := s.chain.writeNumber h none }
  | .rmBlockData h => ⟨s.chain.deleteBlock h, s.ancestorCache.remove h⟩
  | .purge => { s with ancestorCache := ∅ }
  | .query parents cpHash =>
    match s.chain.getHeader cpHash with
    | none => s
    | some cp => { s with ancestorCache := (s.query rank parents cp).2 }

/-- What the code sees to: the hash of a block is computed from its parents, and the children of
    a block are removed before it. -/
def Possible (s : CollectState) : CollectOp → Prop
  | .insertBlock b => ∀ p ∈ b.parentHashes, rank p < rank b.hash
  | .rmBlockData h => ∀ b ∈ s.chain.headers, h ∉ b.parentHashes
  | _ => True

instance (s : CollectState) : DecidablePred (s.Possible rank)
  | .insertBlock b => inferInstanceAs (Decidable (∀ p ∈ b.parentHashes, _))
  | .rmBlockData _ => inferInstanceAs (Decidable (∀ b ∈ s.chain.headers, _))
  | .finalizeBlock _ _ | .rollbackBlockFinalization _ | .purge | .query _ _ =>
    inferInstanceAs (Decidable True)

/-- The number is above every checkpoint with a cached result. -/
def AboveCached (s : CollectState) (nr : ℕ) : Prop :=
  ∀ x ∈ s.ancestorCache, s.chain.nr x.2.cpHash < nr

instance (s : CollectState) (nr : ℕ) : Decidable (s.AboveCached nr) :=
  inferInstanceAs (Decidable (∀ x ∈ s.ancestorCache, _))

/-- The block is not at height zero. -/
def NotRoot (s : CollectState) (h : Hash) : Prop :=
  ∀ b ∈ s.chain.getHeader h, 0 < b.height

instance (s : CollectState) (h : Hash) : Decidable (s.NotRoot h) :=
  inferInstanceAs (Decidable (∀ b ∈ s.chain.getHeader h, _))

/-- Steps that do not change what the cached results are about: a block is inserted after its
    parents, and numbers are assigned and taken back above the checkpoints with cached results,
    which are not removed. -/
def Harmless (s : CollectState) : CollectOp → Prop
  | .insertBlock b => ∀ p ∈ b.parentHashes, (s.chain.getHeader p).isSome
  | .finalizeBlock h nr => s.NotRoot h ∧ s.chain.number h = none ∧ s.AboveCached nr
  | .rollbackBlockFinalization h => s.NotRoot h ∧ s.AboveCached (s.chain.nr h)
  | .rmBlockData h => ∀ x ∈ s.ancestorCache, x.2.cpHash ≠ h
  | .purge => True
  | .query _ _ => True

instance (s : CollectState) : DecidablePred s.Harmless
  | .insertBlock b => inferInstanceAs (Decidable (∀ p ∈ b.parentHashes, _))
  | .finalizeBlock _ _ => inferInstanceAs (Decidable (_ ∧ _ ∧ _))
  | .rollbackBlockFinalization _ => inferInstanceAs (Decidable (_ ∧ _))
  | .rmBlockData _ => inferInstanceAs (Decidable (∀ x ∈ s.ancestorCache, _))
  | .purge | .query _ _ => inferInstanceAs (Decidable True)

/-- A run of steps that are possible. -/
def Run (s : CollectState) : List CollectOp → Prop
  | [] => True
  | op :: ops => s.Possible rank op ∧ Run (s.apply rank op) ops

instance decidableRun (s : CollectState) : DecidablePred (s.Run rank)
  | [] => inferInstanceAs (Decidable True)
  | op :: ops =>
    have := decidableRun (s.apply rank op) ops
    inferInstanceAs (Decidable (_ ∧ _))

/-- Every step of the run is harmless. -/
def HarmlessRun (s : CollectState) : List CollectOp → Prop
  | [] => True
  | op :: ops => s.Harmless op ∧ HarmlessRun (s.apply rank op) ops

instance decidableHarmlessRun (s : CollectState) : DecidablePred (s.HarmlessRun rank)
  | [] => inferInstanceAs (Decidable True)
  | op :: ops =>
    have := decidableHarmlessRun (s.apply rank op) ops
    inferInstanceAs (Decidable (_ ∧ _))

def run (s : CollectState) (ops : List CollectOp) : CollectState := ops.foldl (apply rank) s

/-- A node that starts with a complete DAG and an empty cache. -/
structure Fresh (s : CollectState) : Prop where
  ranked : s.chain.Ranked rank
  complete : s.chain.Complete
  empty : s.ancestorCache = ∅

/-- The DAG is complete and every cached result is right. -/
structure Sound (s : CollectState) : Prop where
  ranked : s.chain.Ranked rank
  complete : s.chain.Complete
  right : Lru.All (Right rank s.chain) s.ancestorCache

variable {rank} {s : CollectState} {b cp : Header} {h : Hash} {nr : ℕ}

theorem Sound.insertBlock (hs : s.Sound rank) (hp : ∀ p ∈ b.parentHashes, rank p < rank b.hash)
    (hstored : ∀ p ∈ b.parentHashes, (s.chain.getHeader p).isSome) :
    (s.apply rank (.insertBlock b)).Sound rank where
  ranked := by
    intro c hc p hpc
    rcases mem_writeBlock hc with ⟨rfl, -⟩ | hc
    · exact hp p hpc
    · exact hs.ranked c hc p hpc
  complete := by
    intro c hc p hpc
    have hsome : (s.chain.getHeader p).isSome := by
      rcases mem_writeBlock hc with ⟨rfl, -⟩ | hc
      · exact hstored p hpc
      · exact hs.complete c hc p hpc
    show ((s.chain.writeBlock b).getHeader p).isSome
    rwa [getHeader_writeBlock hsome]
  right x hx := (hs.right x hx).writeBlock hs.complete

theorem Sound.writeNumber (hs : s.Sound rank) {nr : Option ℕ}
    (hcut : ∀ x ∈ s.ancestorCache, ∀ cp, s.chain.getHeader x.2.cpHash = some cp →
      ¬ s.chain.Unfinalized cp → x.2.cpHash ≠ h ∧ ∀ b, s.chain.getHeader h = some b →
        ¬ s.chain.FinalizedBefore cp b ∧ ¬ (s.chain.writeNumber h nr).FinalizedBefore cp b) :
    (CollectState.mk (s.chain.writeNumber h nr) s.ancestorCache).Sound rank where
  ranked := hs.ranked
  complete := hs.complete
  right := by
    intro x hx
    obtain ⟨-, cp, hg, hfin, -⟩ := hs.right x hx
    obtain ⟨hne, hcut⟩ := hcut x hx cp hg hfin
    refine (hs.right x hx).writeNumber hs.complete hne fun cp' b hg' hb => ?_
    obtain rfl : cp = cp' := Option.some.inj (hg.symm.trans hg')
    exact hcut b hb

theorem Sound.finalizeBlock (hs : s.Sound rank) (hroot : s.NotRoot h)
    (hnone : s.chain.number h = none) (habove : s.AboveCached nr) :
    (s.apply rank (.finalizeBlock h nr)).Sound rank := by
  have hzero : s.chain.nr h = 0 := by simp [HeaderChain.nr, hnone]
  refine hs.writeNumber fun x hx cp hg hfin => ?_
  obtain ⟨-, hcp⟩ := getHeader_eq_some.1 hg
  have hne : x.2.cpHash ≠ h := by
    rintro rfl
    exact hfin ⟨hroot cp hg, hcp ▸ hzero⟩
  refine ⟨hne, fun b hb => ?_⟩
  obtain ⟨-, rfl⟩ := getHeader_eq_some.1 hb
  refine ⟨fun hbef => hbef.1 ⟨hroot b hb, hzero⟩, fun hbef => ?_⟩
  have hlt := hbef.2
  rw [nr_writeNumber_self, nr_writeNumber_of_ne (hcp ▸ hne), hcp] at hlt
  exact absurd (habove x hx) (not_lt.2 hlt.le)

theorem Sound.rollback (hs : s.Sound rank) (hroot : s.NotRoot h)
    (habove : s.AboveCached (s.chain.nr h)) :
    (s.apply rank (.rollbackBlockFinalization h)).Sound rank := by
  refine hs.writeNumber fun x hx cp hg _ => ?_
  obtain ⟨-, hcp⟩ := getHeader_eq_some.1 hg
  have hlt := habove x hx
  refine ⟨fun heq => absurd hlt (by rw [heq]; exact lt_irrefl _), fun b hb => ?_⟩
  obtain ⟨-, rfl⟩ := getHeader_eq_some.1 hb
  refine ⟨fun hbef => ?_, fun hbef => hbef.1 ⟨hroot b hb, nr_writeNumber_self⟩⟩
  rw [← hcp] at hlt
  exact absurd hbef.2 (not_lt.2 hlt.le)

theorem Sound.rmBlockData (hs : s.Sound rank) (hleaf : ∀ b ∈ s.chain.headers, h ∉ b.parentHashes)
    (hcp : ∀ x ∈ s.ancestorCache, x.2.cpHash ≠ h) :
    (s.apply rank (.rmBlockData h)).Sound rank where
  ranked b hb := hs.ranked b (List.mem_filter.1 hb).1
  complete := by
    intro b hb p hp
    have hbm := (List.mem_filter.1 hb).1
    have hph : p ≠ h := fun heq => hleaf b hbm (heq ▸ hp)
    show ((s.chain.deleteBlock h).getHeader p).isSome
    rw [getHeader_deleteBlock hph]
    exact hs.complete b hbm p hp
  right := by
    intro x hx
    obtain ⟨hx, hxh⟩ := Lru.mem_remove.1 hx
    exact (hs.right x hx).deleteBlock hs.complete hleaf hxh (hcp x hx)

theorem Sound.query_eq (hs : s.Sound rank) (hcp : cp ∈ s.chain.headers) (parents : List Hash) :
    (s.query rank parents cp).1 = s.chain.plainAncestorsAftCpByParents rank parents cp ∧
      Lru.All (Right rank s.chain) (s.query rank parents cp).2 :=
  hs.ranked.collect_transparent hs.complete hcp parents s.ancestorCache hs.right

theorem Sound.apply (hs : s.Sound rank) {op : CollectOp} (hp : s.Possible rank op)
    (hh : s.Harmless op) : (s.apply rank op).Sound rank := by
  cases op with
  | insertBlock b => exact hs.insertBlock hp hh
  | finalizeBlock h nr => exact hs.finalizeBlock hh.1 hh.2.1 hh.2.2
  | rollbackBlockFinalization h => exact hs.rollback hh.1 hh.2
  | rmBlockData h => exact hs.rmBlockData hp hh
  | purge => exact ⟨hs.ranked, hs.complete, fun x hx => absurd hx (Lru.not_mem_empty x)⟩
  | query parents cpHash =>
    show (match s.chain.getHeader cpHash with
      | none => s
      | some cp => { s with ancestorCache := (s.query rank parents cp).2 }).Sound rank
    cases hg : s.chain.getHeader cpHash with
    | none => exact hs
    | some cp =>
      exact ⟨hs.ranked, hs.complete, (hs.query_eq (getHeader_eq_some.1 hg).1 parents).2⟩

/-- A whole run. -/
theorem Sound.run (hs : s.Sound rank) {ops : List CollectOp} (hr : s.Run rank ops)
    (hh : s.HarmlessRun rank ops) : (s.run rank ops).Sound rank := by
  induction ops generalizing s with
  | nil => exact hs
  | cons op ops ih => exact ih (hs.apply hr.1 hh.1) hr.2 hh.2

theorem Fresh.sound (hs : s.Fresh rank) : s.Sound rank :=
  ⟨hs.ranked, hs.complete, fun x hx => absurd (hs.empty ▸ hx) (Lru.not_mem_empty x)⟩

/-- After every run of harmless steps, the cache is transparent: a query returns what the
    recursion over the database returns. -/
theorem cache_transparent (hs : s.Fresh rank) {ops : List CollectOp} (hr : s.Run rank ops)
    (hh : s.HarmlessRun rank ops) {cp : Header} (hcp : cp ∈ (s.run rank ops).chain.headers)
    (parents : List Hash) :
    ((s.run rank ops).query rank parents cp).1 =
      (s.run rank ops).chain.plainAncestorsAftCpByParents rank parents cp :=
  ((hs.sound.run hr hh).query_eq hcp parents).1

/-! ### A genesis block and three blocks above it -/

abbrev genesisHeader : Header := plainHeader 1 [] 0 0 0 0

/-- The genesis block 1, and nothing cached. -/
def genesisOnly : CollectState where
  chain :=
    { headers := [genesisHeader]
      nodup := by decide
      genesis := 1
      number h := if h = 1 then some 0 else none
      blockDag _ := none
      collected _ := none }
  ancestorCache := ∅

/-- A block on one parent, with the genesis block as checkpoint. -/
def onGenesis (hash parent : Hash) (height : ℕ) : Header :=
  plainHeader hash [parent] height height 1 0

theorem genesisOnly_fresh : genesisOnly.Fresh byValue where
  ranked := by decide
  complete := by decide
  empty := rfl

/-- The blocks are inserted in order, with a query and a finalization between. -/
def inOrder : List CollectOp :=
  [.insertBlock (onGenesis 2 1 1), .insertBlock (onGenesis 3 2 2), .query [3] 1,
    .finalizeBlock 2 1, .insertBlock (onGenesis 4 3 3)]

/-- Inserted in order, the blocks are found with the cache as they are without it. -/
theorem cache_transparent_inOrder :
    genesisOnly.Fresh byValue ∧ genesisOnly.Run byValue inOrder ∧
    genesisOnly.HarmlessRun byValue inOrder ∧
    ((genesisOnly.run byValue inOrder).query byValue [4] genesisHeader).1 =
      (genesisOnly.run byValue inOrder).chain.plainAncestorsAftCpByParents byValue [4]
        genesisHeader := by
  have hrun : genesisOnly.Run byValue inOrder := by decide +kernel
  have hharm : genesisOnly.HarmlessRun byValue inOrder := by decide +kernel
  exact ⟨genesisOnly_fresh, hrun, hharm,
    cache_transparent genesisOnly_fresh hrun hharm (by decide +kernel) [4]⟩

/-- Block 2 is inserted after its descendants 3 and 4, and after a query. -/
def parentLast : List CollectOp :=
  [.insertBlock (onGenesis 3 2 2), .insertBlock (onGenesis 4 3 3), .query [4] 1,
    .insertBlock (onGenesis 2 1 1)]

/-- The cached result for block 3 still lists block 2 as missing after it was inserted. -/
theorem cached_block_stays_missing :
    genesisOnly.Fresh byValue ∧ genesisOnly.Run byValue parentLast ∧
    genesisHeader ∈ (genesisOnly.run byValue parentLast).chain.headers ∧
    ((genesisOnly.run byValue parentLast).query byValue [4] genesisHeader).1 =
      ⟨false, {3, 4}, [2], none⟩ ∧
    (genesisOnly.run byValue parentLast).chain.plainAncestorsAftCpByParents byValue [4]
      genesisHeader = ⟨true, {2, 3, 4}, [], none⟩ :=
  ⟨genesisOnly_fresh, by decide +kernel, by decide +kernel, by decide +kernel,
    by decide +kernel⟩

end CollectState

end Gwat
