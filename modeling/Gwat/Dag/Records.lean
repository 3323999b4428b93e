/-
  The stored ancestor lists of a DAG that is built block by block.
-/
import Gwat.Dag.Insert

namespace Gwat

open GoLib List

namespace HeaderChain

/-- The database of a DAG on one genesis block. -/
structure Recorded (hc : HeaderChain) : Prop where
  complete : hc.Complete
  acyclic : ∀ x, ¬ hc.Ancestor x x
  listed : ∀ b ∈ hc.headers, ∃ d, hc.blockDag b.hash = some d ∧ hc.Listed b.hash d
  root : hc.number hc.genesis = some 0
  roots : ∀ b ∈ hc.headers, b.parentHashes = [] → b.hash = hc.genesis
  heights : ∀ b ∈ hc.headers, b.height = 0 ↔ b.hash = hc.genesis
  stored : ∀ x, (hc.number x).isSome → (hc.getHeader x).isSome
  numbers : ∀ b ∈ hc.headers, ∀ k ∈ hc.number b.hash, ∀ p ∈ b.parentHashes,
    ∃ j ∈ hc.number p, j < k
  unique : ∀ x y, ∀ n ∈ hc.number x, n ∈ hc.number y → x = y

/-- Every ancestor of a block is in the block's list, or `Q` holds of it and the checkpoint. -/
def Covered (Q : Hash → Hash → Prop) (hc : HeaderChain) : Prop :=
  ∀ b ∈ hc.headers, ∀ d, hc.blockDag b.hash = some d →
    ∀ x, hc.Ancestor b.hash x → x ∈ d.orderedAncestorsHashes ∨ Q d.cpHash x

variable {hc : HeaderChain} {b : Header} {d d' : BlockDag} {h x y : Hash} {n k : ℕ}
  {Q Q' : Hash → Hash → Prop}

namespace Recorded

theorem number_lt (hr : hc.Recorded) (ha : hc.Ancestor y x) :
    ∀ k ∈ hc.number y, ∃ j ∈ hc.number x, j < k := by
  have hstep : ∀ {u v}, hc.Parent u v → ∀ k ∈ hc.number u, ∃ j ∈ hc.number v, j < k := by
    rintro u v ⟨c, hg, hp⟩ k hk
    obtain ⟨hc', rfl⟩ := getHeader_eq_some.1 hg
    exact hr.numbers c hc' k hk v hp
  induction ha with
  | single hp => exact hstep hp
  | tail _ hp ih =>
    intro k hk
    obtain ⟨j, hj, hjk⟩ := ih k hk
    obtain ⟨i, hi, hij⟩ := hstep hp j hj
    exact ⟨i, hi, hij.trans hjk⟩

theorem not_ancestor_genesis (hr : hc.Recorded) : ¬ hc.Ancestor hc.genesis x := by
  intro ha
  obtain ⟨j, -, hj⟩ := hr.number_lt ha 0 hr.root
  exact absurd hj (Nat.not_lt_zero j)

theorem not_ancestor_genesis_writeBlock (hr : hc.Recorded) (x : Hash) :
    ¬ (hc.writeBlock b).Ancestor (hc.writeBlock b).genesis x := by
  rw [genesis_writeBlock, hr.complete.ancestor_writeBlock (hr.stored _ (by rw [hr.root]; rfl))]
  exact hr.not_ancestor_genesis

theorem listed_of_isSome (hr : hc.Recorded) (hx : (hc.getHeader x).isSome) :
    ∃ d, hc.blockDag x = some d ∧ hc.Listed x d := by
  obtain ⟨c, hc', rfl⟩ := isSome_getHeader.1 hx
  exact hr.listed c hc'

end Recorded

theorem Covered.mono (hcov : hc.Covered Q) (hQ : ∀ c x, Q c x → Q' c x) : hc.Covered Q' :=
  fun b hb d hd x hx => (hcov b hb d hd x hx).imp_right (hQ _ x)

/-! ## Insertion -/

/-- A block that may be inserted: it is new or known, and its parents are stored. -/
structure Insertable (hc : HeaderChain) (b : Header) : Prop where
  known : ∀ c ∈ hc.getHeader b.hash, c = b
  nonempty : b.parentHashes ≠ []
  parents : ∀ p ∈ b.parentHashes, (hc.getHeader p).isSome
  height : 0 < b.height

theorem Listed.writeBlock (hcl : hc.Complete) (hx : (hc.getHeader x).isSome) (hl : hc.Listed x d) :
    (hc.writeBlock b).Listed x d where
  cp := hl.cp.imp_right (hcl.ancestor_writeBlock hx).2
  sub y hy := (hcl.ancestor_writeBlock hx).2 (hl.sub y hy)
  root := by rw [genesis_writeBlock]; exact hl.root
  nodup := hl.nodup

theorem Insertable.mem (hb : hc.Insertable b) : b ∈ (hc.writeBlock b).headers := by
  obtain ⟨c, hcm, heq⟩ := isSome_getHeader.1 (@getHeader_writeBlock_self hc b)
  rcases mem_writeBlock hcm with ⟨rfl, -⟩ | hold
  · exact hcm
  · have hcb : c = b := hb.known c (by rw [← heq]; exact getHeader_of_mem hold)
    exact hcb ▸ hcm

/-- The block is written, and its list is stored. -/
def insertBlock (hc : HeaderChain) (b : Header) (d : BlockDag) : HeaderChain :=
  (hc.writeBlock b).saveBlockDag b.hash d

theorem Listed.insertBlock (hl : (hc.writeBlock b).Listed x d') :
    (hc.insertBlock b d).Listed x d' :=
  ⟨hl.cp, hl.sub, hl.root, hl.nodup⟩

theorem blockDag_insertBlock_of_ne (hne : x ≠ b.hash) :
    (hc.insertBlock b d).blockDag x = hc.blockDag x := by
  simp [insertBlock, saveBlockDag, Function.update_of_ne hne, blockDag_writeBlock]

theorem blockDag_insertBlock_self : (hc.insertBlock b d).blockDag b.hash = some d := by
  simp [insertBlock, saveBlockDag]

namespace Recorded

variable (hr : hc.Recorded) (hb : hc.Insertable b) {base : Hash} {out cpAnc : List Hash}
include hr hb

theorem complete_writeBlock : (hc.writeBlock b).Complete := by
  intro c hcm p hp
  have hsome : (hc.getHeader p).isSome := by
    rcases mem_writeBlock hcm with ⟨rfl, -⟩ | hcm
    · exact hb.parents p hp
    · exact hr.complete c hcm p hp
  rwa [getHeader_writeBlock hsome]

theorem parentsListed : (hc.writeBlock b).ParentsListed b := by
  intro p hp
  obtain ⟨bdag, hbdag, hl⟩ := hr.listed_of_isSome (hb.parents p hp)
  exact ⟨bdag, by rwa [blockDag_writeBlock], hl.writeBlock hr.complete (hb.parents p hp)⟩

theorem hash_ne_genesis : b.hash ≠ hc.genesis := by
  intro heq
  obtain ⟨c, hcm, hch⟩ := isSome_getHeader.1 (hr.stored hc.genesis (by rw [hr.root]; rfl))
  obtain rfl : c = b := hb.known c (getHeader_eq_some.2 ⟨hcm, hch.trans heq.symm⟩)
  exact hb.height.ne' ((hr.heights c hcm).2 hch)

theorem acyclic_writeBlock (x : Hash) : ¬ (hc.writeBlock b).Ancestor x x := by
  intro ha
  by_cases hx : (hc.getHeader x).isSome
  · exact hr.acyclic x ((hr.complete.ancestor_writeBlock hx).1 ha)
  · have hxb : x = b.hash := by
      obtain ⟨y, ⟨c, hg, -⟩, -⟩ := Relation.TransGen.head'_iff.1 ha
      obtain ⟨hcm, rfl⟩ := getHeader_eq_some.1 hg
      rcases mem_writeBlock hcm with ⟨rfl, -⟩ | hold
      · rfl
      · exact absurd (isSome_getHeader.2 ⟨c, hold, rfl⟩) hx
    subst hxb
    obtain ⟨p, hp, heq | hpb⟩ := (ancestor_iff hb.mem).1 ha
    · exact hx (heq ▸ hb.parents p hp)
    · rw [hr.complete.ancestor_writeBlock (hb.parents p hp)] at hpb
      exact hx (hr.complete.isSome_of_ancestor hpb)

theorem insert (hd : (hc.writeBlock b).newBlockDag b = .ok d) : (hc.insertBlock b d).Recorded := by
  obtain ⟨base, out, cpAnc, hj⟩ := joined_of_newBlockDag hd
  have hgen : (hc.insertBlock b d).genesis = hc.genesis := genesis_writeBlock
  have hnum : ∀ x, (hc.insertBlock b d).number x = hc.number x := fun x => number_writeBlock
  refine ⟨hr.complete_writeBlock hb, hr.acyclic_writeBlock hb, ?_, ?_, ?_, ?_, ?_, ?_, ?_⟩
  · intro c hcm
    by_cases hch : c.hash = b.hash
    · rw [hch]
      exact ⟨d, blockDag_insertBlock_self,
        (hj.listed hb.mem hb.nonempty (hr.parentsListed hb)
          hr.not_ancestor_genesis_writeBlock).insertBlock⟩
    · have hold : c ∈ hc.headers :=
        (mem_writeBlock hcm).resolve_left fun h => hch (by rw [h.1])
      obtain ⟨dc, hdc, hl⟩ := hr.listed c hold
      refine ⟨dc, by rw [blockDag_insertBlock_of_ne hch, hdc], ?_⟩
      exact (hl.writeBlock hr.complete (isSome_getHeader.2 ⟨_, hold, rfl⟩)).insertBlock
  · rw [hgen, hnum, hr.root]
  · intro c hcm hnil
    rw [hgen]
    rcases mem_writeBlock hcm with ⟨rfl, -⟩ | hold
    · exact absurd hnil hb.nonempty
    · exact hr.roots c hold hnil
  · intro c hcm
    rw [hgen]
    rcases mem_writeBlock hcm with ⟨rfl, -⟩ | hold
    · exact iff_of_false hb.height.ne' (hr.hash_ne_genesis hb)
    · exact hr.heights c hold
  · intro x hx
    rw [hnum] at hx
    have hsome := hr.stored x hx
    show ((hc.writeBlock b).getHeader x).isSome
    rwa [getHeader_writeBlock hsome]
  · intro c hcm k hk p hp
    rw [hnum] at hk
    simp only [hnum]
    rcases mem_writeBlock hcm with ⟨rfl, hnew⟩ | hold
    · have hsome := hr.stored c.hash (by rw [hk]; rfl)
      rw [hnew] at hsome
      cases hsome
    · exact hr.numbers c hold k hk p hp
  · intro x y n hx hy
    rw [hnum] at hx hy
    exact hr.unique x y n hx hy

theorem base_stored (hj : (hc.writeBlock b).Joined b d base out cpAnc) :
    (hc.getHeader base).isSome := by
  have hdag : ∀ p ∈ b.parentHashes, ∀ bdag, (hc.writeBlock b).parentBlockDag p = .ok bdag →
      hc.Listed p bdag := by
    intro p hp bdag hbdag
    obtain ⟨bdag', hbdag', hl⟩ := hr.listed_of_isSome (hb.parents p hp)
    have hw : (hc.writeBlock b).blockDag p = some bdag' := blockDag_writeBlock.trans hbdag'
    obtain rfl : bdag' = bdag := by simpa [parentBlockDag_eq hw] using hbdag
    exact hl
  rcases commonCp_cases hj.common with ⟨hnot, rfl, -⟩ | ⟨hmem, bdag, hbdag, rfl, -⟩
  · obtain ⟨p, hpm⟩ := exists_mem_of_ne_nil _ hb.nonempty
    have hpcp : p ≠ b.cpHash := fun heq => hnot (heq ▸ hpm)
    obtain ⟨bdag, hbdag, hsees⟩ := hj.parent p hpm hpcp
    have hl := hdag p hpm bdag hbdag
    rcases hsees hpcp with heq | hin
    · rcases hl.cp with hself | hanc
      · exact absurd (heq ▸ hself).symm hpcp
      · exact heq ▸ hr.complete.isSome_of_ancestor hanc
    · exact hr.complete.isSome_of_ancestor (hl.sub _ hin)
  · rcases (hdag _ hmem bdag hbdag).cp with hself | hanc
    · exact hself ▸ hb.parents _ hmem
    · exact hr.complete.isSome_of_ancestor hanc

theorem base_ancestors (hj : (hc.writeBlock b).Joined b d base out cpAnc) :
    ∀ x ∈ cpAnc, (hc.writeBlock b).Ancestor base x := by
  intro x hx
  have hsome := hr.base_stored hb hj
  obtain ⟨dB, hdB, hl⟩ := hr.listed_of_isSome hsome
  obtain ⟨cpD, hcpD, rfl⟩ := hj.baseDag
  have hw : (hc.writeBlock b).blockDag base = some dB := blockDag_writeBlock.trans hdB
  obtain rfl : dB = cpD := by simpa [cpBlockDag_eq hw] using hcpD
  exact (hl.writeBlock hr.complete hsome).sub x hx

end Recorded

/-! ## Lists that can be made -/

/-- The checkpoint above which the lists of the parents of a block are joined. -/
def joinCp (hc : HeaderChain) (b : Header) : Hash :=
  if b.cpHash ∈ b.parentHashes then
    match hc.blockDag b.cpHash with
    | some d => d.cpHash
    | none => b.cpHash
  else b.cpHash

/-- The block is the checkpoint, or its list starts at the checkpoint or contains it. -/
def Sees (hc : HeaderChain) (cp p : Hash) : Prop :=
  p = cp ∨ ∃ d ∈ hc.blockDag p, d.cpHash = cp ∨ cp ∈ d.orderedAncestorsHashes

instance (cp p : Hash) : Decidable (hc.Sees cp p) := inferInstanceAs (Decidable (_ ∨ _))

/-- Every other parent of the block sees the checkpoint above which their lists are joined. -/
def Fits (hc : HeaderChain) (b : Header) : Prop :=
  ∀ p ∈ b.parentHashes, p ≠ b.cpHash → hc.Sees (hc.joinCp b) p

instance (b : Header) : Decidable (hc.Fits b) :=
  inferInstanceAs (Decidable (∀ p ∈ b.parentHashes, p ≠ b.cpHash → _))

namespace Recorded

theorem commonCp_eq (hr : hc.Recorded) (hcp : (hc.getHeader b.cpHash).isSome) :
    ∃ out, (hc.writeBlock b).commonCp b = .ok (hc.joinCp b, out) := by
  obtain ⟨d, hd, -⟩ := hr.listed_of_isSome hcp
  have hw : (hc.writeBlock b).blockDag b.cpHash = some d := blockDag_writeBlock.trans hd
  unfold commonCp joinCp
  split_ifs with hmem
  · exact ⟨_, by rw [parentBlockDag_eq hw, hd]; rfl⟩
  · exact ⟨[], rfl⟩

theorem joinCp_stored (hr : hc.Recorded) (hcp : (hc.getHeader b.cpHash).isSome) :
    (hc.getHeader (hc.joinCp b)).isSome := by
  obtain ⟨d, hd, hl⟩ := hr.listed_of_isSome hcp
  unfold joinCp
  split_ifs
  · rw [hd]
    rcases hl.cp with heq | hanc
    · exact heq ▸ hcp
    · exact hr.complete.isSome_of_ancestor hanc
  · exact hcp

theorem tipAncestors_eq_ok (hr : hc.Recorded) {cp p : Hash} {cpAnc : List Hash}
    (hd : hc.blockDag p = some d) (hl : hc.Listed p d) (hsees : hc.Sees cp p) :
    ∃ l, (hc.writeBlock b).tipAncestors cp cpAnc (p, (hc.writeBlock b).withoutGenesis d) = .ok l := by
  unfold tipAncestors
  split_ifs with hself hcp hout
  · exact ⟨[], rfl⟩
  · exact ⟨_, rfl⟩
  · dsimp only
    rw [failIf_of_not]
    · exact ⟨_, rfl⟩
    · rw [any_eq_true]
      rintro ⟨x, hx, hnone⟩
      have hxd := (mem_filter.1 (mem_dedup.1 (mem_filter.1 hx).1)).1
      have hsome := hr.complete.isSome_of_ancestor (hl.sub x hxd)
      rw [getHeader_writeBlock hsome, Option.isNone_iff_eq_none] at hnone
      rw [hnone] at hsome
      cases hsome
  · -- the genesis block, which is taken out of the list, is not in it
    refine absurd ?_ hout
    rcases hsees with heq | ⟨d', hd', heq | hin⟩
    · exact absurd heq hself
    · obtain rfl : d = d' := Option.some.inj (hd.symm.trans hd')
      exact absurd heq hcp
    · obtain rfl : d = d' := Option.some.inj (hd.symm.trans hd')
      refine mem_dedup.2 (mem_filter.2 ⟨hin, decide_eq_true ?_⟩)
      rintro rfl
      exact hl.root (genesis_writeBlock (b := b) ▸ hin)

/-- The list of a block whose parents and checkpoint are stored can be made if the parents see
    the checkpoint above which it is joined. -/
theorem newBlockDag_ok (hr : hc.Recorded) (hb : hc.Insertable b)
    (hcp : (hc.getHeader b.cpHash).isSome) (hfits : hc.Fits b) :
    ∃ d, (hc.writeBlock b).newBlockDag b = .ok d := by
  obtain ⟨out, hcommon⟩ := hr.commonCp_eq hcp
  have hdag : ∀ p ∈ b.parentHashes, ∃ d, hc.blockDag p = some d ∧ hc.Listed p d ∧
      (hc.writeBlock b).parentBlockDag p = .ok d := by
    intro p hp
    obtain ⟨d, hd, hl⟩ := hr.listed_of_isSome (hb.parents p hp)
    exact ⟨d, hd, hl, parentBlockDag_eq (blockDag_writeBlock.trans hd)⟩
  obtain ⟨tips, htips⟩ : ∃ tips, (hc.writeBlock b).tmpTips b = .ok tips := by
    refine exists_mapM_eq_ok fun p hp => ?_
    obtain ⟨d, -, -, hd⟩ := hdag p (mem_dedup.1 (mem_filter.1 hp).1)
    exact ⟨_, tmpTip_eq_ok.2 ⟨d, hd, rfl⟩⟩
  obtain ⟨cpD, hcpD, -⟩ := hr.listed_of_isSome (hr.joinCp_stored hcp)
  obtain ⟨ls, hls⟩ : ∃ ls, tips.mapM ((hc.writeBlock b).tipAncestors (hc.joinCp b)
      cpD.orderedAncestorsHashes) = .ok ls := by
    refine exists_mapM_eq_ok fun t ht => ?_
    obtain ⟨p, hp, hne, bdag, hbdag, rfl⟩ := (mem_tmpTips htips).1 ht
    obtain ⟨bdag', hd', hl, hbdag'⟩ := hdag p hp
    obtain rfl : bdag = bdag' := Except.ok.inj (hbdag.symm.trans hbdag')
    exact hr.tipAncestors_eq_ok hd' hl (hfits p hp hne)
  obtain ⟨cpHeader, hg⟩ := Option.isSome_iff_exists.1 hcp
  have hg' : (hc.writeBlock b).getHeader b.cpHash = some cpHeader :=
    (getHeader_writeBlock hcp).trans hg
  refine ⟨⟨b.slot, b.cpHash, cpHeader.height, ls.flatten.dedup.filter (· ∉ out)⟩, ?_⟩
  rw [newBlockDag, hcommon, ok_bind]
  dsimp only
  rw [htips, ok_bind, collectAncestorsHashesByTips,
    cpBlockDag_eq (blockDag_writeBlock.trans hcpD), ok_bind, hls, ok_bind, pure_eq_ok, ok_bind, hg']
  rfl

end Recorded

/-- Lists that cover the ancestors up to `Q` lead to a list that does. -/
theorem Covered.insert (hcov : hc.Covered Q) (hr : hc.Recorded) (hb : hc.Insertable b)
    (hd : (hc.writeBlock b).newBlockDag b = .ok d)
    (hQ : ∀ y x, Q b.cpHash y → (hc.writeBlock b).Ancestor y x → Q b.cpHash x)
    (hcp : Q b.cpHash b.cpHash) (hgen : Q b.cpHash hc.genesis)
    (hmono : ∀ p ∈ b.parentHashes, ∀ bdag, hc.blockDag p = some bdag →
      ∀ x, Q bdag.cpHash x → Q b.cpHash x) : (hc.insertBlock b d).Covered Q := by
  obtain ⟨base, out, cpAnc, hj⟩ := joined_of_newBlockDag hd
  intro c hcm dc hdc x hx
  by_cases hch : c.hash = b.hash
  · rw [hch, blockDag_insertBlock_self] at hdc
    cases hdc
    rw [hj.cpHash]
    rw [hch] at hx
    refine hj.covers hb.mem (hr.complete_writeBlock hb) (hr.parentsListed hb)
      (hr.base_ancestors hb hj) hQ hcp (by rwa [genesis_writeBlock]) ?_ hx
    intro p hp bdag hbdag y hy
    rw [blockDag_writeBlock] at hbdag
    have hsome := hb.parents p hp
    obtain ⟨cp, hcpm, rfl⟩ := isSome_getHeader.1 hsome
    exact (hcov cp hcpm bdag hbdag y ((hr.complete.ancestor_writeBlock hsome).1 hy)).imp_right
      (hmono _ hp bdag hbdag y)
  · have hold : c ∈ hc.headers := (mem_writeBlock hcm).resolve_left fun h => hch (by rw [h.1])
    rw [blockDag_insertBlock_of_ne hch] at hdc
    exact hcov c hold dc hdc x
      ((hr.complete.ancestor_writeBlock (isSome_getHeader.2 ⟨_, hold, rfl⟩)).1 hx)

/-! ## Finalization -/

/-- A number that may be assigned: the block is stored without one, its parents have smaller
    ones, and the number is new. -/
structure Assignable (hc : HeaderChain) (h : Hash) (n : ℕ) : Prop where
  none : hc.number h = none
  header : ∃ b ∈ hc.headers, b.hash = h ∧ ∀ p ∈ b.parentHashes, ∃ j ∈ hc.number p, j < n
  fresh : ∀ b ∈ hc.headers, hc.number b.hash ≠ some n

theorem number_writeNumber_self : (hc.writeNumber h (some n)).number h = some n := by
  simp [writeNumber]

theorem number_writeNumber_of_ne (hne : x ≠ h) :
    (hc.writeNumber h (some n)).number x = hc.number x := by
  simp [writeNumber, Function.update_of_ne hne]

theorem Assignable.number (ha : hc.Assignable h n) (hk : hc.number x = some k) :
    (hc.writeNumber h (some n)).number x = some k := by
  rw [number_writeNumber_of_ne, hk]
  rintro rfl
  rw [ha.none] at hk
  cases hk

theorem Recorded.finalize (hr : hc.Recorded) (ha : hc.Assignable h n) :
    (hc.writeNumber h (some n)).Recorded where
  complete := hr.complete
  acyclic := hr.acyclic
  listed b hb := by
    obtain ⟨d, hd, hl⟩ := hr.listed b hb
    exact ⟨d, hd, hl.cp, hl.sub, hl.root, hl.nodup⟩
  root := ha.number hr.root
  roots := hr.roots
  heights := hr.heights
  stored x hx := by
    by_cases hxh : x = h
    · obtain ⟨b, hb, hbh, -⟩ := ha.header
      show (hc.getHeader x).isSome
      rw [hxh, ← hbh, getHeader_of_mem hb]
      rfl
    · rw [number_writeNumber_of_ne hxh] at hx
      exact hr.stored x hx
  numbers b hb k hk p hp := by
    by_cases hbh : b.hash = h
    · rw [hbh, number_writeNumber_self] at hk
      cases hk
      obtain ⟨c, hcm, hch, hpar⟩ := ha.header
      obtain rfl : b = c := inj_on_of_nodup_map hc.nodup hb hcm (hbh.trans hch.symm)
      obtain ⟨j, hj, hjn⟩ := hpar p hp
      exact ⟨j, ha.number hj, hjn⟩
    · rw [number_writeNumber_of_ne hbh] at hk
      obtain ⟨j, hj, hjk⟩ := hr.numbers b hb k hk p hp
      exact ⟨j, ha.number hj, hjk⟩
  unique x y k hx hy := by
    have hcase : ∀ z, k ∈ (hc.writeNumber h (some n)).number z →
        z = h ∧ k = n ∨ k ∈ hc.number z := by
      intro z hz
      by_cases hzh : z = h
      · rw [hzh, number_writeNumber_self] at hz
        exact .inl ⟨hzh, (Option.some.inj hz).symm⟩
      · exact .inr (number_writeNumber_of_ne hzh ▸ hz)
    have hfresh : ∀ z, n ∉ hc.number z := by
      intro z hz
      obtain ⟨c, hcm, rfl⟩ := isSome_getHeader.1 (hr.stored z (by rw [hz]; rfl))
      exact ha.fresh c hcm hz
    rcases hcase x hx with ⟨rfl, rfl⟩ | hx' <;> rcases hcase y hy with ⟨rfl, hk⟩ | hy'
    · rfl
    · exact absurd hy' (hfresh y)
    · exact absurd (hk ▸ hx') (hfresh x)
    · exact hr.unique x y k hx' hy'

/-! ## The genesis block -/

/-- The database with the genesis block alone. -/
def ofGenesis (g : Header) : HeaderChain where
  headers := [g]
  nodup := by simp
  genesis := g.hash
  number h := if h = g.hash then some 0 else none
  blockDag h := if h = g.hash then some ⟨0, g.hash, 0, []⟩ else none
  collected _ := none

variable {g : Header}

theorem eq_of_mem_ofGenesis (hb : b ∈ (ofGenesis g).headers) : b = g := mem_singleton.1 hb

theorem number_ofGenesis (hn : n ∈ (ofGenesis g).number x) : x = g.hash ∧ n = 0 := by
  have hn : (if x = g.hash then some 0 else none) = some n := hn
  split_ifs at hn with hx
  exact ⟨hx, (Option.some.inj hn).symm⟩

theorem not_ancestor_ofGenesis (hp : g.parentHashes = []) : ¬ (ofGenesis g).Ancestor y x := by
  intro ha
  obtain ⟨z, ⟨c, hg, hz⟩, -⟩ := Relation.TransGen.head'_iff.1 ha
  rw [eq_of_mem_ofGenesis (getHeader_eq_some.1 hg).1, hp] at hz
  cases hz

theorem recorded_ofGenesis (hp : g.parentHashes = []) (hh : g.height = 0) :
    (ofGenesis g).Recorded where
  complete b hb p hpb := by
    rw [eq_of_mem_ofGenesis hb, hp] at hpb
    cases hpb
  acyclic x := not_ancestor_ofGenesis hp
  listed b hb := by
    rw [eq_of_mem_ofGenesis hb]
    exact ⟨⟨0, g.hash, 0, []⟩, if_pos rfl, .inl rfl, by simp, by simp, by simp⟩
  root := if_pos rfl
  roots b hb _ := by rw [eq_of_mem_ofGenesis hb]; rfl
  heights b hb := by
    rw [eq_of_mem_ofGenesis hb]
    exact iff_of_true hh rfl
  stored x hx := by
    obtain ⟨n, hn⟩ := Option.isSome_iff_exists.1 hx
    rw [(number_ofGenesis hn).1]
    simp [ofGenesis, getHeader]
  numbers b hb k _ p hpb := by
    rw [eq_of_mem_ofGenesis hb, hp] at hpb
    cases hpb
  unique x y n hx hy := by rw [(number_ofGenesis hx).1, (number_ofGenesis hy).1]

theorem covered_ofGenesis (hp : g.parentHashes = []) : (ofGenesis g).Covered Q :=
  fun _ _ _ _ _ hx => absurd hx (not_ancestor_ofGenesis hp)

end HeaderChain

end Gwat
