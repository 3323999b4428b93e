/-
  The ancestor list of an inserted block (`insertBlocks` and `CollectAncestorsHashesByTips` in
  `core/blockchain.go`).
-/
import Gwat.Dag.HeaderStore

namespace Gwat

open GoLib List

inductive InsertError
  | insertUncompletedDag
  | collectAncestors
  | badTips (cpHash tip : Hash)
  | nilPointer
  deriving DecidableEq, Repr

/-- `types.Tips`: blocks with their lists. -/
abbrev Tips := List (Hash × BlockDag)

namespace HeaderChain

/-- The list of a parent, which is collected anew if it is not stored. -/
def parentBlockDag (hc : HeaderChain) (h : Hash) : Except InsertError BlockDag :=
  match hc.blockDag h with
  | some bdag => .ok bdag
  | none =>
    match hc.getHeader h with
    | none => .error .insertUncompletedDag
    | some parentBlock =>
      match if parentBlock.height = 0 then some parentBlock else hc.getHeader parentBlock.cpHash with
      | none => .error .insertUncompletedDag
      | some cpHeader =>
        match hc.collected h with
        | none => .error .collectAncestors
        | some (anc, []) => .ok ⟨parentBlock.slot, cpHeader.hash, cpHeader.height, anc⟩
        | some (_, _ :: _) => .error .insertUncompletedDag

/-- `cpBlDag`: the list of a checkpoint, which is collected anew if it is not stored. -/
def cpBlockDag (hc : HeaderChain) (cpHash : Hash) : Except InsertError BlockDag :=
  match hc.blockDag cpHash with
  | some bdag => .ok bdag
  | none =>
    match hc.getHeader cpHash with
    | none => .error .nilPointer
    | some cpHeader =>
      match hc.collected cpHash, hc.getHeader cpHeader.cpHash with
      | none, _ => .error .collectAncestors
      | some _, none => .error .nilPointer
      | some (anc, _), some cpCp => .ok ⟨cpHeader.slot, cpHeader.cpHash, cpCp.height, anc⟩

/-- What one tip adds to the ancestors after the checkpoint. -/
def tipAncestors (hc : HeaderChain) (cpHash : Hash) (cpAnc : List Hash) (tip : Hash × BlockDag) :
    Except InsertError (List Hash) :=
  if tip.1 = cpHash then .ok []
  else if tip.2.cpHash = cpHash then .ok (tip.2.orderedAncestorsHashes ++ [tip.1])
  else if cpHash ∉ tip.2.orderedAncestorsHashes then .error (.badTips cpHash tip.1)
  else do
    let ancHashes := tip.2.orderedAncestorsHashes.filter (· ≠ cpHash)
    failIf (ancHashes.any fun h => (hc.getHeader h).isNone) .nilPointer
    return ancHashes.filter (hc.kept cpHash cpAnc) ++ [tip.1]

/-- `bc.CollectAncestorsHashesByTips` -/
def collectAncestorsHashesByTips (hc : HeaderChain) (tips : Tips) (cpHash : Hash) :
    Except InsertError (List Hash) := do
  let cpBlDag ← hc.cpBlockDag cpHash
  let ancestorsHashes ← tips.mapM (hc.tipAncestors cpHash cpBlDag.orderedAncestorsHashes)
  return ancestorsHashes.flatten.dedup

/-- The checkpoint above which the lists of the parents are joined, and the ancestors to leave
    out: if the checkpoint of the block is one of its parents, the checkpoint of the checkpoint. -/
def commonCp (hc : HeaderChain) (block : Header) : Except InsertError (Hash × List Hash) :=
  if block.cpHash ∈ block.parentHashes then do
    let bdag ← hc.parentBlockDag block.cpHash
    return (bdag.cpHash, bdag.orderedAncestorsHashes ++ [bdag.cpHash])
  else .ok (block.cpHash, [])

/-- `bdag.OrderedAncestorsHashes.Difference(common.HashArray{bc.Genesis().Hash()})` -/
def withoutGenesis (hc : HeaderChain) (bdag : BlockDag) : BlockDag :=
  { bdag with
    orderedAncestorsHashes := (bdag.orderedAncestorsHashes.filter (· ≠ hc.genesis)).dedup }

/-- The list of a parent is not stored, and neither is the parent's checkpoint. -/
def parentCpMissing (hc : HeaderChain) (h : Hash) : Prop :=
  hc.blockDag h = none ∧ ∃ parentBlock ∈ hc.getHeader h,
    parentBlock.height ≠ 0 ∧ hc.getHeader parentBlock.cpHash = none

instance (hc : HeaderChain) (h : Hash) : Decidable (hc.parentCpMissing h) :=
  inferInstanceAs (Decidable (_ ∧ _))

/-- A parent with its list.  If the checkpoint of the parent is missing, the message that is logged
    reads its hash. -/
def tmpTip (hc : HeaderChain) (h : Hash) : Except InsertError (Hash × BlockDag) := do
  failIf (hc.parentCpMissing h) .nilPointer
  let bdag ← hc.parentBlockDag h
  return (h, hc.withoutGenesis bdag)

/-- `tmpTips`: the parents other than the checkpoint, with their lists.  A repeated parent is one
    entry. -/
def tmpTips (hc : HeaderChain) (block : Header) : Except InsertError Tips :=
  (block.parentHashes.dedup.filter (· ≠ block.cpHash)).mapM hc.tmpTip

/-- `dagBlock`: the list that `insertBlocks` makes for a block. -/
def newBlockDag (hc : HeaderChain) (block : Header) : Except InsertError BlockDag := do
  let (commonCpHash, cpCpAncestorsHashes) ← hc.commonCp block
  let tmpTips ← hc.tmpTips block
  let dagChainHashes ← hc.collectAncestorsHashesByTips tmpTips commonCpHash
  match hc.getHeader block.cpHash with
  | none => .error .insertUncompletedDag
  | some cpHeader =>
    return ⟨block.slot, block.cpHash, cpHeader.height,
      dagChainHashes.filter (· ∉ cpCpAncestorsHashes)⟩

/-! ## What a new list contains -/

variable {hc : HeaderChain} {block : Header} {d : BlockDag} {cpHash x p : Hash}
variable {cpAnc l : List Hash} {tip t : Hash × BlockDag} {tips : Tips} {h : Hash}

theorem mem_tipAncestors (h : hc.tipAncestors cpHash cpAnc tip = .ok l) :
    x ∈ l ↔ tip.1 ≠ cpHash ∧ (x = tip.1 ∨
      x ∈ tip.2.orderedAncestorsHashes ∧ (tip.2.cpHash = cpHash ∨ hc.kept cpHash cpAnc x = true)) := by
  unfold tipAncestors at h
  split_ifs at h with hself hcp hbad
  · cases h
    simp [hself]
  · cases h
    simp [hself, hcp, or_comm]
  · obtain ⟨u, -, h⟩ := bind_eq_ok.1 h
    cases h
    -- `kept` leaves the checkpoint out as well
    have hkept : ∀ y, hc.kept cpHash cpAnc y = true → y ≠ cpHash := by
      intro y hy
      unfold kept at hy
      split at hy
      · cases hy
      · exact (of_decide_eq_true hy).1
    simp only [mem_append, mem_filter, mem_singleton, decide_eq_true_eq, hcp, false_or]
    constructor
    · rintro (⟨⟨hx, -⟩, hk⟩ | rfl)
      · exact ⟨hself, .inr ⟨hx, hk⟩⟩
      · exact ⟨hself, .inl rfl⟩
    · rintro ⟨-, rfl | ⟨hx, hk⟩⟩
      · exact .inr rfl
      · exact .inl ⟨⟨hx, hkept x hk⟩, hk⟩

theorem mem_collectAncestorsHashesByTips (h : hc.collectAncestorsHashesByTips tips cpHash = .ok l) :
    ∃ cpD, hc.cpBlockDag cpHash = .ok cpD ∧ l.Nodup ∧ ∀ x, x ∈ l ↔ ∃ t ∈ tips, t.1 ≠ cpHash ∧
      (x = t.1 ∨ x ∈ t.2.orderedAncestorsHashes ∧
        (t.2.cpHash = cpHash ∨ hc.kept cpHash cpD.orderedAncestorsHashes x = true)) := by
  obtain ⟨cpD, hcpD, h⟩ := bind_eq_ok.1 h
  obtain ⟨ls, hls, h⟩ := bind_eq_ok.1 h
  cases h
  refine ⟨cpD, hcpD, nodup_dedup _, fun x => ?_⟩
  rw [mem_dedup, mem_flatten]
  constructor
  · rintro ⟨l, hl, hx⟩
    obtain ⟨t, ht, htl⟩ := (mem_mapM_eq_ok hls).1 hl
    exact ⟨t, ht, (mem_tipAncestors htl).1 hx⟩
  · rintro ⟨t, ht, hx⟩
    obtain ⟨l, hl⟩ := exists_of_mapM_eq_ok hls ht
    exact ⟨l, (mem_mapM_eq_ok hls).2 ⟨t, ht, hl⟩, (mem_tipAncestors hl).2 hx⟩

theorem sees_of_tipAncestors (h : hc.tipAncestors cpHash cpAnc tip = .ok l) (hne : tip.1 ≠ cpHash) :
    tip.2.cpHash = cpHash ∨ cpHash ∈ tip.2.orderedAncestorsHashes := by
  unfold tipAncestors at h
  split_ifs at h with hself hcp hin
  · exact absurd hself hne
  · exact .inl hcp
  · exact .inr hin

theorem tmpTip_eq_ok : hc.tmpTip p = .ok t ↔
    ∃ bdag, hc.parentBlockDag p = .ok bdag ∧ t = (p, hc.withoutGenesis bdag) := by
  constructor
  · intro h
    obtain ⟨-, -, h⟩ := bind_eq_ok.1 h
    obtain ⟨bdag, hbdag, h⟩ := bind_eq_ok.1 h
    exact ⟨bdag, hbdag, (Except.ok.inj h).symm⟩
  · rintro ⟨bdag, hbdag, rfl⟩
    have hpresent : ¬ hc.parentCpMissing p := by
      rintro ⟨hnone, parentBlock, hg, hheight, hcp⟩
      rw [Option.mem_def] at hg
      simp [parentBlockDag, hnone, hg, hheight, hcp] at hbdag
    rw [tmpTip, failIf_of_not hpresent, ok_bind, hbdag, ok_bind, pure_eq_ok]

theorem mem_tmpTips (h : hc.tmpTips block = .ok tips) :
    t ∈ tips ↔ ∃ p ∈ block.parentHashes, p ≠ block.cpHash ∧
      ∃ bdag, hc.parentBlockDag p = .ok bdag ∧ t = (p, hc.withoutGenesis bdag) := by
  rw [mem_mapM_eq_ok h]
  simp [tmpTip_eq_ok, and_assoc]

/-- The list `d` of a block is joined from those of its parents above the checkpoint `base`,
    whose ancestors are `cpAnc`, without the blocks of `out`. -/
structure Joined (hc : HeaderChain) (block : Header) (d : BlockDag) (base : Hash)
    (out cpAnc : List Hash) : Prop where
  common : hc.commonCp block = .ok (base, out)
  baseDag : ∃ cpD, hc.cpBlockDag base = .ok cpD ∧ cpD.orderedAncestorsHashes = cpAnc
  cpHash : d.cpHash = block.cpHash
  nodup : d.orderedAncestorsHashes.Nodup
  parent : ∀ p ∈ block.parentHashes, p ≠ block.cpHash → ∃ bdag, hc.parentBlockDag p = .ok bdag ∧
    (p ≠ base → bdag.cpHash = base ∨ base ∈ bdag.orderedAncestorsHashes)
  mem : ∀ x, x ∈ d.orderedAncestorsHashes ↔ x ∉ out ∧ ∃ p ∈ block.parentHashes,
    p ≠ block.cpHash ∧ p ≠ base ∧ ∃ bdag, hc.parentBlockDag p = .ok bdag ∧ (x = p ∨
      x ∈ bdag.orderedAncestorsHashes ∧ x ≠ hc.genesis ∧
        (bdag.cpHash = base ∨ hc.kept base cpAnc x = true))

theorem joined_of_newBlockDag (h : hc.newBlockDag block = .ok d) :
    ∃ base out cpAnc, hc.Joined block d base out cpAnc := by
  obtain ⟨⟨base, out⟩, hbase, h⟩ := bind_eq_ok.1 h
  obtain ⟨tips, htips, h⟩ := bind_eq_ok.1 h
  obtain ⟨l, hl, h⟩ := bind_eq_ok.1 h
  obtain ⟨cpD, hcpD, hnodup, hmem⟩ := mem_collectAncestorsHashesByTips hl
  split at h
  · cases h
  cases h
  refine ⟨base, out, cpD.orderedAncestorsHashes, hbase, ⟨cpD, hcpD, rfl⟩, rfl, hnodup.filter _, ?_,
    fun x => ?_⟩
  · intro p hp hne
    obtain ⟨t, ht⟩ := exists_of_mapM_eq_ok htips (mem_filter.2 ⟨mem_dedup.2 hp, decide_eq_true hne⟩)
    obtain ⟨bdag, hbdag, -⟩ := tmpTip_eq_ok.1 ht
    refine ⟨bdag, hbdag, fun hpb => ?_⟩
    have htip := (mem_tmpTips htips).2 ⟨p, hp, hne, bdag, hbdag, rfl⟩
    obtain ⟨cpD', -, hl⟩ := bind_eq_ok.1 hl
    obtain ⟨ls, hls, -⟩ := bind_eq_ok.1 hl
    obtain ⟨lt, hlt⟩ := exists_of_mapM_eq_ok hls htip
    refine (sees_of_tipAncestors hlt hpb).imp_right fun hin => ?_
    exact (mem_filter.1 (mem_dedup.1 hin)).1
  · rw [mem_filter, hmem, and_comm, decide_eq_true_eq]
    refine and_congr_right fun _ => ?_
    constructor
    · rintro ⟨t, ht, hne, hx⟩
      obtain ⟨p, hp, hpcp, bdag, hbdag, rfl⟩ := (mem_tmpTips htips).1 ht
      exact ⟨p, hp, hpcp, hne, bdag, hbdag, by simpa [withoutGenesis, and_assoc] using hx⟩
    · rintro ⟨p, hp, hpcp, hne, bdag, hbdag, hx⟩
      exact ⟨_, (mem_tmpTips htips).2 ⟨p, hp, hpcp, bdag, hbdag, rfl⟩, hne,
        by simpa [withoutGenesis, and_assoc] using hx⟩

/-! ## New lists are right if those of the parents are -/

/-- The list `d` of the block `h` is about its ancestors: its checkpoint is one, unless it is the
    block itself, and so are the blocks it lists, once each, without the genesis block. -/
structure Listed (hc : HeaderChain) (h : Hash) (d : BlockDag) : Prop where
  cp : d.cpHash = h ∨ hc.Ancestor h d.cpHash
  sub : ∀ x ∈ d.orderedAncestorsHashes, hc.Ancestor h x
  root : hc.genesis ∉ d.orderedAncestorsHashes
  nodup : d.orderedAncestorsHashes.Nodup

/-- Every parent of the block has a stored list that is about its ancestors. -/
def ParentsListed (hc : HeaderChain) (block : Header) : Prop :=
  ∀ p ∈ block.parentHashes, ∃ bdag, hc.blockDag p = some bdag ∧ hc.Listed p bdag

theorem parentBlockDag_eq (hd : hc.blockDag h = some d) : hc.parentBlockDag h = .ok d := by
  simp [parentBlockDag, hd]

theorem cpBlockDag_eq (hd : hc.blockDag h = some d) : hc.cpBlockDag h = .ok d := by
  simp [cpBlockDag, hd]

variable {base : Hash} {out cpAnc : List Hash}
variable {Q : Hash → Prop}

/-- The checkpoint above which the lists are joined is the checkpoint of the block, or, if that is
    a parent, the checkpoint of it. -/
theorem commonCp_cases (h : hc.commonCp block = .ok (base, out)) :
    block.cpHash ∉ block.parentHashes ∧ base = block.cpHash ∧ out = [] ∨
    block.cpHash ∈ block.parentHashes ∧ ∃ bdag, hc.parentBlockDag block.cpHash = .ok bdag ∧
      base = bdag.cpHash ∧ out = bdag.orderedAncestorsHashes ++ [bdag.cpHash] := by
  unfold commonCp at h
  split_ifs at h with hmem
  · obtain ⟨bdag, hbdag, h⟩ := bind_eq_ok.1 h
    cases h
    exact .inr ⟨hmem, bdag, hbdag, rfl, rfl⟩
  · cases h
    exact .inl ⟨hmem, rfl, rfl⟩

theorem Joined.listed (hj : hc.Joined block d base out cpAnc) (hb : block ∈ hc.headers)
    (hne : block.parentHashes ≠ []) (hp : hc.ParentsListed block)
    (hroot : ∀ x, ¬ hc.Ancestor hc.genesis x) : hc.Listed block.hash d where
  cp := by
    rw [hj.cpHash]
    right
    rcases commonCp_cases hj.common with ⟨hnot, rfl, -⟩ | ⟨hmem, -⟩
    · -- a parent that is joined above the checkpoint has it among its ancestors
      obtain ⟨p, hpm⟩ := exists_mem_of_ne_nil _ hne
      have hpcp : p ≠ block.cpHash := fun heq => hnot (heq ▸ hpm)
      obtain ⟨bdag, hbdag, hl⟩ := hp p hpm
      obtain ⟨bdag', hbdag', hsees⟩ := hj.parent p hpm hpcp
      obtain rfl : bdag = bdag' := by simpa [parentBlockDag_eq hbdag] using hbdag'
      have hpar := (parent_iff hb).2 hpm
      rcases hsees hpcp with heq | hin
      · rcases hl.cp with hself | hanc
        · exact absurd (heq ▸ hself).symm hpcp
        · exact .head hpar (heq ▸ hanc)
      · exact .head hpar (hl.sub _ hin)
    · exact .single ((parent_iff hb).2 hmem)
  sub := by
    intro x hx
    obtain ⟨-, p, hpm, -, -, bdag, hbdag, hx⟩ := (hj.mem x).1 hx
    obtain ⟨bdag', hbdag', hl⟩ := hp p hpm
    obtain rfl : bdag' = bdag := by simpa [parentBlockDag_eq hbdag'] using hbdag
    have hpar := (parent_iff hb).2 hpm
    rcases hx with rfl | ⟨hx, -⟩
    · exact .single hpar
    · exact .head hpar (hl.sub x hx)
  root := by
    intro hx
    obtain ⟨-, p, hpm, hpcp, hpb, bdag, hbdag, rfl | ⟨-, hne', -⟩⟩ := (hj.mem _).1 hx
    · -- the genesis block is its own checkpoint, so it is skipped or rejected
      obtain ⟨bdag', hbdag', hl⟩ := hp _ hpm
      obtain ⟨bdag, hbdag, hsees⟩ := hj.parent _ hpm hpcp
      obtain rfl : bdag' = bdag := by simpa [parentBlockDag_eq hbdag'] using hbdag
      rcases hsees hpb with heq | hin
      · exact hl.cp.elim (fun hself => hpb (hself.symm.trans heq)) (hroot _)
      · exact hroot _ (hl.sub _ hin)
    · exact hne' rfl
  nodup := hj.nodup

theorem eq_or_mem_of_not_kept (hx : (hc.getHeader x).isSome)
    (hk : ¬ hc.kept cpHash cpAnc x = true) : x = cpHash ∨ x ∈ cpAnc := by
  obtain ⟨b, hb⟩ := Option.isSome_iff_exists.1 hx
  rw [kept, hb] at hk
  by_contra hno
  push Not at hno
  exact hk (decide_eq_true ⟨hno.1, fun hs => hno.2 hs.2.2⟩)

theorem Joined.out_of_cp (hj : hc.Joined block d base out cpAnc) (hp : hc.ParentsListed block)
    (hQ : ∀ y x, Q y → hc.Ancestor y x → Q x) (hcp : Q block.cpHash) : Q base ∧ ∀ x ∈ out, Q x := by
  rcases commonCp_cases hj.common with ⟨-, rfl, rfl⟩ | ⟨hmem, bdag, hbdag, rfl, rfl⟩
  · exact ⟨hcp, by simp⟩
  · obtain ⟨bdag', hbdag', hl⟩ := hp _ hmem
    obtain rfl : bdag' = bdag := by simpa [parentBlockDag_eq hbdag'] using hbdag
    have hbase : Q bdag'.cpHash := by
      rcases hl.cp with heq | hanc
      · exact heq ▸ hcp
      · exact hQ _ _ hcp hanc
    refine ⟨hbase, fun x hx => ?_⟩
    rcases mem_append.1 hx with hx | hx
    · exact hQ _ _ hcp (hl.sub x hx)
    · exact mem_singleton.1 hx ▸ hbase

/-- Let `Q` hold of the checkpoint of a block and of the genesis block, and of the ancestors of
    every block it holds of.  If it holds of the ancestors that the lists of the parents do not
    contain, it holds of those that the new list does not contain. -/
theorem Joined.covers (hj : hc.Joined block d base out cpAnc) (hb : block ∈ hc.headers)
    (hcl : hc.Complete) (hp : hc.ParentsListed block) (hanc : ∀ x ∈ cpAnc, hc.Ancestor base x)
    (hQ : ∀ y x, Q y → hc.Ancestor y x → Q x) (hcp : Q block.cpHash)
    (hgen : Q hc.genesis) (hpar : ∀ p ∈ block.parentHashes, ∀ bdag, hc.blockDag p = some bdag →
      ∀ x, hc.Ancestor p x → x ∈ bdag.orderedAncestorsHashes ∨ Q x)
    (hx : hc.Ancestor block.hash x) : x ∈ d.orderedAncestorsHashes ∨ Q x := by
  obtain ⟨hbase, hout⟩ := hj.out_of_cp hp hQ hcp
  obtain ⟨p, hbp, hpx⟩ := Relation.TransGen.head'_iff.1 hx
  rw [parent_iff hb] at hbp
  obtain ⟨bdag, hbdag, -⟩ := hp p hbp
  by_contra hno
  push Not at hno
  obtain ⟨hnot, hnQ⟩ := hno
  have hxout : x ∉ out := fun h => hnQ (hout x h)
  have hup : ∀ y, Q y → y ≠ p := by
    rintro _ hy rfl
    rcases Relation.reflTransGen_iff_eq_or_transGen.1 hpx with rfl | hpx
    · exact hnQ hy
    · exact hnQ (hQ _ _ hy hpx)
  have hmem := fun h => hnot ((hj.mem x).2 ⟨hxout, p, hbp, (hup _ hcp).symm, (hup _ hbase).symm,
    bdag, parentBlockDag_eq hbdag, h⟩)
  rcases Relation.reflTransGen_iff_eq_or_transGen.1 hpx with rfl | hpx
  · exact hmem (.inl rfl)
  · have hxp := (hpar p hbp bdag hbdag x hpx).resolve_right hnQ
    refine hmem (.inr ⟨hxp, fun heq => hnQ (heq ▸ hgen), .inr ?_⟩)
    by_contra hk
    rcases eq_or_mem_of_not_kept (hcl.isSome_of_ancestor hpx) hk with rfl | hin
    · exact hnQ hbase
    · exact hnQ (hQ _ _ hbase (hanc x hin))

end HeaderChain

end Gwat
