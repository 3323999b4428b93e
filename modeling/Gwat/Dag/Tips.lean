/-
  The tips of the DAG (`core/headerchain.go`, `core/types/block_dag.go`).
-/
import Gwat.Dag.Records

namespace Gwat

open GoLib List

/-- `tips.Add`, which replaces an item with the same hash. -/
def Tips.add (tips : Tips) (h : Hash) (d : BlockDag) : Tips :=
  tips.filter (fun t => t.1 ≠ h) ++
    [(h, { d with orderedAncestorsHashes := d.orderedAncestorsHashes.dedup })]

/-- `tips.GetHashes` -/
def Tips.getHashes (tips : Tips) : List Hash := tips.map Prod.fst

theorem Tips.mem_getHashes_add {tips : Tips} {h x : Hash} {d : BlockDag} :
    x ∈ (tips.add h d).getHashes ↔ x = h ∨ x ∈ tips.getHashes := by
  simp only [Tips.add, Tips.getHashes, map_append, mem_append, map_cons, map_nil,
    mem_singleton, mem_map, mem_filter, decide_eq_true_eq]
  grind

/-- The stored blocks, the tips in memory and the hashes of the tips in the database. -/
structure TipsState where
  chain : HeaderChain
  tips : Tips
  tipsHashes : List Hash

inductive TipsError
  | tipsMissing
  | headerNotFound
  | blockDagNotFound
  | nilPointer
  deriving DecidableEq, Repr

namespace TipsState

/-- `hc.GetTips`: drops the finalized tips, unless all are finalized. -/
def getTips (s : TipsState) : Tips × TipsState :=
  let cpy := s.tips.filter fun t => (s.chain.number t.1).isNone
  let finTips := s.tips.filter fun t => (s.chain.number t.1).isSome
  if cpy = [] then (finTips, s) else (cpy, { s with tips := cpy })

/-- `hc.AddTips` -/
def addTips (s : TipsState) (h : Hash) (d : BlockDag) : TipsState :=
  { s.getTips.2 with tips := s.getTips.1.add h d }

/-- `hc.RemoveTips` -/
def removeTips (s : TipsState) (hashes : List Hash) : TipsState :=
  { s.getTips.2 with tips := s.getTips.1.filter fun t => t.1 ∉ hashes }

/-- `hc.writeCurrentTips` -/
def writeCurrentTips (s : TipsState) : TipsState :=
  { s.getTips.2 with
    chain := s.getTips.1.foldl (fun hc t => hc.saveBlockDag t.1 t.2) s.chain
    tipsHashes := s.getTips.1.getHashes }

/-- `insertBlocks` for one block.  The block is written before its list is made, and stays if
    that fails. -/
def insertBlock (s : TipsState) (block : Header) : TipsState × Option InsertError :=
  let s := { s with chain := s.chain.writeBlock block }
  match s.chain.newBlockDag block with
  | .error e => (s, some e)
  | .ok dagBlock =>
    (((s.addTips block.hash dagBlock).removeTips dagBlock.orderedAncestorsHashes).writeCurrentTips,
      none)

/-- Whether `FinalizeTips` keeps a tip: it is not finalized, or after the last finalized block. -/
def keepsTip (hc : HeaderChain) (lastFinNr : ℕ) (tHeader : Header) : Bool :=
  hc.nr tHeader.hash = 0 ∧ 0 < tHeader.height ∨ lastFinNr < hc.nr tHeader.hash

/-- The list of the last finalized block, which is collected anew if it is not stored. -/
def lastFinBlockDag (hc : HeaderChain) (lastFinHash : Hash) : Except TipsError BlockDag :=
  match hc.blockDag lastFinHash with
  | some bdag => .ok bdag
  | none =>
    match hc.getHeader lastFinHash with
    | none => .error .nilPointer
    | some tHeader =>
      match hc.getHeader tHeader.cpHash with
      | none => .error .nilPointer
      | some cpHeader =>
        .ok ⟨tHeader.slot, tHeader.cpHash, cpHeader.height,
          ((hc.collected lastFinHash).map Prod.fst).getD []⟩

/-- The tips that `FinalizeTips` leaves: the last finalized block if no other is left. -/
def finalizedTips (hc : HeaderChain) (tips : Tips) (lastFinHash : Hash) (lastFinNr : ℕ) :
    Except TipsError Tips :=
  match tips.filter fun t => (hc.getHeader t.1).all (keepsTip hc lastFinNr) with
  | [] => (Tips.add [] lastFinHash) <$> lastFinBlockDag hc lastFinHash
  | tips => .ok tips

/-- `hc.FinalizeTips` -/
def finalizeTips (s : TipsState) (lastFinHash : Hash) (lastFinNr : ℕ) :
    Except TipsError TipsState := do
  failIf (s.getTips.1.any fun t => (s.chain.getHeader t.1).isNone) .nilPointer
  let tips ← finalizedTips s.chain s.getTips.1 lastFinHash lastFinNr
  return { s.getTips.2 with tips := tips }.writeCurrentTips

/-- One tip that `loadTips` reads from the database. -/
def loadTip (hc : HeaderChain) (tips : Tips) (th : Hash) : Except TipsError Tips :=
  if th = 0 then .ok tips
  else
    match hc.getHeader th, hc.blockDag th with
    | none, _ => .error .headerNotFound
    | some _, none => .error .blockDagNotFound
    | some _, some bdag => .ok (tips.add th bdag)

/-- `hc.loadTips` -/
def loadTips (s : TipsState) : Except TipsError TipsState := do
  failIf (s.tipsHashes = []) .tipsMissing
  let curTips ← s.tipsHashes.foldlM (loadTip s.chain) []
  let ancestors := curTips.flatMap fun t => t.2.orderedAncestorsHashes
  return { s with tips := curTips.filter fun t => t.1 ∉ ancestors }.writeCurrentTips

end TipsState

/-! ## The frontier -/

namespace HeaderChain

variable {hc : HeaderChain} {hs hs' : List Hash} {b : Header} {d : BlockDag} {h x y : Hash} {n : ℕ}

/-- The blocks are the frontier of the DAG: no one is an ancestor of another, and every stored
    block that is not finalized is one of them or an ancestor of one. -/
structure Frontier (hc : HeaderChain) (hs : List Hash) : Prop where
  stored : ∀ h ∈ hs, (hc.getHeader h).isSome
  antichain : ∀ h ∈ hs, ∀ h' ∈ hs, ¬ hc.Ancestor h h'
  cover : ∀ b ∈ hc.headers, hc.number b.hash = none →
    b.hash ∈ hs ∨ ∃ h ∈ hs, hc.Ancestor h b.hash

theorem Recorded.number_eq_none (hr : hc.Recorded) (ha : hc.Ancestor y x)
    (hx : hc.number x = none) : hc.number y = none := by
  by_contra hy
  obtain ⟨k, hk⟩ := Option.ne_none_iff_exists'.1 hy
  obtain ⟨j, hj, -⟩ := hr.number_lt ha k hk
  simp [hx] at hj

namespace Frontier

/-- A frontier may lose finalized blocks. -/
theorem of_subset (hf : hc.Frontier hs) (hr : hc.Recorded) (hsub : ∀ h ∈ hs', h ∈ hs)
    (hkeep : ∀ h ∈ hs, hc.number h = none → h ∈ hs') : hc.Frontier hs' where
  stored h hh := hf.stored h (hsub h hh)
  antichain h hh h' hh' := hf.antichain h (hsub h hh) h' (hsub h' hh')
  cover b hb hn := by
    rcases hf.cover b hb hn with hin | ⟨h, hh, ha⟩
    · exact .inl (hkeep _ hin hn)
    · exact .inr ⟨h, hkeep h hh (hr.number_eq_none ha hn), ha⟩

theorem filter {tips : Tips} (hf : hc.Frontier tips.getHashes) (hr : hc.Recorded)
    {p : Hash × BlockDag → Bool} (hkeep : ∀ t ∈ tips, hc.number t.1 = none → p t = true) :
    hc.Frontier (Tips.getHashes (tips.filter p)) := by
  refine hf.of_subset hr ?_ ?_ <;> simp only [Tips.getHashes, mem_map, mem_filter]
  · rintro _ ⟨t, ht, rfl⟩
    exact ⟨t, ht.1, rfl⟩
  · rintro _ ⟨t, ht, rfl⟩ hn
    exact ⟨t, ⟨ht, hkeep t ht hn⟩, rfl⟩

/-- If all blocks of a frontier are finalized, every stored block is. -/
theorem isSome (hf : hc.Frontier hs) (hr : hc.Recorded) (hfin : ∀ h ∈ hs, hc.number h ≠ none)
    (hb : b ∈ hc.headers) : hc.number b.hash ≠ none := by
  intro hn
  rcases hf.cover b hb hn with hin | ⟨h, hh, ha⟩
  · exact hfin _ hin hn
  · exact hfin h hh (hr.number_eq_none ha hn)

theorem insert (hf : hc.Frontier hs) (hr : hc.Recorded) (hu : ∀ h ∈ hs, hc.number h = none)
    (hb : hc.Insertable b) (hnew : hc.getHeader b.hash = none)
    (hd : (hc.writeBlock b).newBlockDag b = .ok d)
    (hcov : (hc.insertBlock b d).Covered fun _ x => (hc.number x).isSome)
    (hmem : ∀ h, h ∈ hs' ↔ h = b.hash ∨ h ∈ hs ∧ h ∉ d.orderedAncestorsHashes) :
    (hc.insertBlock b d).Frontier hs' := by
  have hr' := hr.insert hb hd
  have hbm : b ∈ (hc.insertBlock b d).headers := hb.mem
  have hold : ∀ {u v}, (hc.getHeader u).isSome →
      ((hc.insertBlock b d).Ancestor u v ↔ hc.Ancestor u v) :=
    fun hu => hr.complete.ancestor_writeBlock hu
  have hlist : ∀ x ∈ d.orderedAncestorsHashes, (hc.insertBlock b d).Ancestor b.hash x := by
    obtain ⟨d', hd', hl⟩ := hr'.listed b hbm
    rw [blockDag_insertBlock_self] at hd'
    cases hd'
    exact hl.sub
  refine ⟨fun h hh => ?_, fun h hh h' hh' ha => ?_, fun c hcm hn => ?_⟩
  · rcases (hmem h).1 hh with rfl | ⟨hin, -⟩
    · rw [getHeader_of_mem hbm]
      rfl
    · show ((hc.writeBlock b).getHeader h).isSome
      rw [getHeader_writeBlock (hf.stored h hin)]
      exact hf.stored h hin
  · rcases (hmem h).1 hh with rfl | ⟨hin, -⟩
    · rcases (hmem h').1 hh' with rfl | ⟨hin', hout'⟩
      · exact hr'.acyclic _ ha
      · -- an ancestor that is not in the list of the new block is finalized
        have hsome : (hc.number h').isSome :=
          (hcov b hbm d blockDag_insertBlock_self h' ha).resolve_left hout'
        simp [hu h' hin'] at hsome
    · rw [hold (hf.stored h hin)] at ha
      rcases (hmem h').1 hh' with rfl | ⟨hin', -⟩
      · simpa [hnew] using hr.complete.isSome_of_ancestor ha
      · exact hf.antichain h hin h' hin' ha
  · rcases mem_writeBlock hcm with ⟨rfl, -⟩ | hcold
    · exact .inl ((hmem _).2 (.inl rfl))
    have hbtip : b.hash ∈ hs' := (hmem _).2 (.inl rfl)
    have hn' : hc.number c.hash = none := number_writeBlock.symm.trans hn
    rcases hf.cover c hcold hn' with hin | ⟨u, hu', ha⟩
    · by_cases hl : c.hash ∈ d.orderedAncestorsHashes
      · exact .inr ⟨b.hash, hbtip, hlist _ hl⟩
      · exact .inl ((hmem _).2 (.inr ⟨hin, hl⟩))
    · rw [← hold (hf.stored u hu')] at ha
      by_cases hl : u ∈ d.orderedAncestorsHashes
      · exact .inr ⟨b.hash, hbtip, (hlist u hl).trans ha⟩
      · exact .inr ⟨u, (hmem u).2 (.inr ⟨hu', hl⟩), ha⟩

theorem finalize (hf : hc.Frontier hs) (ha : hc.Assignable h n) :
    (hc.writeNumber h (some n)).Frontier hs where
  stored := hf.stored
  antichain := hf.antichain
  cover b hb hn := by
    refine hf.cover b hb ?_
    by_contra hsome
    obtain ⟨k, hk⟩ := Option.ne_none_iff_exists'.1 hsome
    simp [ha.number hk] at hn

end Frontier

end HeaderChain

namespace TipsState

open HeaderChain

variable {s : TipsState} {b : Header} {d : BlockDag} {h : Hash} {n : ℕ}
variable {t : Hash × BlockDag}

/-! ## What the operations leave -/

/-- The tips that `GetTips` returns and leaves. -/
def shown (s : TipsState) : Tips :=
  if ∀ t ∈ s.tips, (s.chain.number t.1).isSome then s.tips
  else s.tips.filter fun t => (s.chain.number t.1).isNone

theorem getTips_eq (s : TipsState) : s.getTips = (s.shown, { s with tips := s.shown }) := by
  have hnil : (s.tips.filter fun t => (s.chain.number t.1).isNone) = [] ↔
      ∀ t ∈ s.tips, (s.chain.number t.1).isSome := by
    simp only [filter_eq_nil_iff, Bool.not_eq_true, Option.isNone_eq_false_iff]
  simp only [getTips, shown, hnil]
  split_ifs with hall
  · rw [filter_eq_self.2 hall]
  · rfl

theorem mem_of_mem_shown (ht : t ∈ s.shown) : t ∈ s.tips := by
  unfold shown at ht
  split_ifs at ht <;> simp_all

theorem mem_shown_of_none (ht : t ∈ s.tips) (hn : s.chain.number t.1 = none) : t ∈ s.shown := by
  unfold shown
  split_ifs <;> simp [ht, hn]

/-- If some tip is not finalized, exactly such tips are returned. -/
theorem shown_of_none (ht : t ∈ s.tips) (hn : s.chain.number t.1 = none) :
    s.shown = s.tips.filter fun t => (s.chain.number t.1).isNone := by
  refine if_neg fun hall => ?_
  simpa [hn] using hall t ht

theorem filter_shown : (s.shown.filter fun t => (s.chain.number t.1).isNone) =
    s.tips.filter fun t => (s.chain.number t.1).isNone := by
  unfold shown
  split_ifs <;> simp

theorem shown_eq_self (hall : ∀ t ∈ s.tips, s.chain.number t.1 = none) : s.shown = s.tips := by
  unfold shown
  split_ifs
  · rfl
  · exact filter_eq_self.2 (by simpa using hall)

theorem foldl_saveBlockDag {hc : HeaderChain} {l : Tips}
    (hl : ∀ t ∈ l, hc.blockDag t.1 = some t.2) :
    l.foldl (fun hc t => hc.saveBlockDag t.1 t.2) hc = hc := by
  induction l with
  | nil => rfl
  | cons t l ih =>
    have hsave : hc.saveBlockDag t.1 t.2 = hc := by
      rw [saveBlockDag, ← hl t (by simp), Function.update_eq_self]
    rw [foldl_cons, hsave]
    exact ih fun t ht => hl t (by simp [ht])

/-! ## The invariant -/

/-- The tips, in memory and in the database, are the frontier of a DAG whose lists leave out
    finalized ancestors only. -/
structure Sound (s : TipsState) : Prop where
  recorded : s.chain.Recorded
  covered : s.chain.Covered fun _ x => (s.chain.number x).isSome
  records : ∀ t ∈ s.tips, s.chain.blockDag t.1 = some t.2
  frontier : s.chain.Frontier s.tips.getHashes
  saved : s.chain.Frontier s.tipsHashes
  nonzero : ∀ b ∈ s.chain.headers, b.hash ≠ 0

theorem mem_getHashes {tips : Tips} : h ∈ tips.getHashes ↔ ∃ d, (h, d) ∈ tips := by
  simp [Tips.getHashes]

theorem Sound.shown (hs : s.Sound) : s.chain.Frontier s.shown.getHashes := by
  unfold TipsState.shown
  split_ifs
  · exact hs.frontier
  · exact hs.frontier.filter hs.recorded (by simp)

theorem Sound.getTips (hs : s.Sound) : s.getTips.2.Sound := by
  rw [getTips_eq]
  exact ⟨hs.recorded, hs.covered, fun t ht => hs.records t (mem_of_mem_shown ht), hs.shown, hs.saved,
    hs.nonzero⟩

theorem Sound.writeCurrentTips (hs : s.Sound) : s.writeCurrentTips.Sound := by
  have hchain : s.shown.foldl (fun hc t => hc.saveBlockDag t.1 t.2) s.chain = s.chain :=
    foldl_saveBlockDag fun t ht => hs.records t (mem_of_mem_shown ht)
  have hw : s.writeCurrentTips = ⟨s.chain, s.shown, s.shown.getHashes⟩ := by
    rw [TipsState.writeCurrentTips, getTips_eq, hchain]
  rw [hw]
  exact ⟨hs.recorded, hs.covered, fun t ht => hs.records t (mem_of_mem_shown ht), hs.shown, hs.shown,
    hs.nonzero⟩

/-! ## Insertion -/

/-- The tips after the block `h` with the list `d` is inserted. -/
def tipsAfter (s : TipsState) (h : Hash) (d : BlockDag) : Tips :=
  (s.tips.filter fun t => (s.chain.number t.1).isNone && t.1 ∉ d.orderedAncestorsHashes) ++ [(h, d)]

theorem removeTips_addTips (hfresh : ∀ t ∈ s.tips, t.1 ≠ h) (hnum : s.chain.number h = none)
    (hnodup : d.orderedAncestorsHashes.Nodup) (hself : h ∉ d.orderedAncestorsHashes) :
    (s.addTips h d).removeTips d.orderedAncestorsHashes =
      ⟨s.chain, s.tipsAfter h d, s.tipsHashes⟩ := by
  have hother : s.shown.filter (fun t => t.1 ≠ h) = s.shown :=
    filter_eq_self.2 fun t ht => decide_eq_true (hfresh t (mem_of_mem_shown ht))
  have hadd : s.addTips h d = ⟨s.chain, s.shown ++ [(h, d)], s.tipsHashes⟩ := by
    rw [addTips, getTips_eq, Tips.add, hother, hnodup.dedup]
  have hshown : (s.addTips h d).shown =
      (s.tips.filter fun t => (s.chain.number t.1).isNone) ++ [(h, d)] := by
    rw [hadd, @shown_of_none ⟨s.chain, s.shown ++ [(h, d)], s.tipsHashes⟩ (h, d) (by simp) hnum,
      filter_append]
    dsimp only
    rw [filter_shown]
    simp [hnum]
  rw [removeTips, getTips_eq, hshown, hadd, filter_append, filter_filter, tipsAfter]
  simp [hself, Bool.and_comm]

theorem shown_tipsAfter (hnum : s.chain.number h = none) :
    TipsState.shown ⟨s.chain, s.tipsAfter h d, s.tipsHashes⟩ = s.tipsAfter h d := by
  refine shown_eq_self fun t ht => ?_
  simp only [tipsAfter, mem_append, mem_filter, mem_singleton] at ht
  rcases ht with ⟨-, ht⟩ | rfl
  · simp_all
  · exact hnum

theorem Sound.hash_ne (hs : s.Sound) (hnew : s.chain.getHeader b.hash = none) :
    ∀ t ∈ s.tips, t.1 ≠ b.hash := by
  rintro ⟨_, d⟩ ht rfl
  simpa [hnew] using hs.frontier.stored b.hash (mem_getHashes.2 ⟨d, ht⟩)

/-- A new block with the list `d` becomes a tip, and the blocks of its list are no more. -/
theorem Sound.insertBlock_eq (hs : s.Sound) (hb : s.chain.Insertable b)
    (hnew : s.chain.getHeader b.hash = none) (hd : (s.chain.writeBlock b).newBlockDag b = .ok d) :
    s.insertBlock b = (⟨s.chain.insertBlock b d, s.tipsAfter b.hash d,
      (s.tipsAfter b.hash d).getHashes⟩, none) := by
  obtain ⟨d', hd', hl⟩ := (hs.recorded.insert hb hd).listed b hb.mem
  rw [blockDag_insertBlock_self] at hd'
  cases hd'
  have hself : b.hash ∉ d.orderedAncestorsHashes := fun hin =>
    (hs.recorded.insert hb hd).acyclic _ (hl.sub _ hin)
  have hnum : (s.chain.writeBlock b).number b.hash = none := by
    rw [number_writeBlock]
    by_contra hsome
    simpa [hnew] using hs.recorded.stored b.hash (Option.isSome_iff_ne_none.2 hsome)
  have hafter : TipsState.tipsAfter ⟨s.chain.writeBlock b, s.tips, s.tipsHashes⟩ b.hash d =
      s.tipsAfter b.hash d := by
    simp only [tipsAfter, number_writeBlock]
  have hsaved : (s.tipsAfter b.hash d).foldl (fun hc t => hc.saveBlockDag t.1 t.2)
      (s.chain.writeBlock b) = s.chain.insertBlock b d := by
    have hold : ∀ t ∈ s.tips.filter fun t => (s.chain.number t.1).isNone &&
        t.1 ∉ d.orderedAncestorsHashes, (s.chain.writeBlock b).blockDag t.1 = some t.2 :=
      fun t ht => blockDag_writeBlock.trans (hs.records t (mem_filter.1 ht).1)
    rw [tipsAfter, foldl_append, foldl_saveBlockDag hold]
    rfl
  rw [TipsState.insertBlock]
  rw [hd]
  dsimp only
  rw [@removeTips_addTips ⟨s.chain.writeBlock b, s.tips, s.tipsHashes⟩ d b.hash (hs.hash_ne hnew) hnum
    hl.nodup hself, hafter, TipsState.writeCurrentTips, getTips_eq, ← hafter,
    @shown_tipsAfter ⟨s.chain.writeBlock b, s.tips, s.tipsHashes⟩ d b.hash hnum, hafter, hsaved]

/-- The block is inserted on stored parents, with a finalized checkpoint that the parents see. -/
structure InsertAllowed (hc : HeaderChain) (b : Header) : Prop where
  insertable : hc.Insertable b
  new : hc.getHeader b.hash = none
  nonzero : b.hash ≠ 0
  cp : (hc.number b.cpHash).isSome
  fits : hc.Fits b

theorem InsertAllowed.ok (hb : InsertAllowed s.chain b) (hr : s.chain.Recorded) :
    ∃ d, (s.chain.writeBlock b).newBlockDag b = .ok d :=
  hr.newBlockDag_ok hb.insertable (hr.stored _ hb.cp) hb.fits

theorem Sound.insertBlock (hs : s.Sound) (hb : InsertAllowed s.chain b) :
    (s.insertBlock b).1.Sound := by
  have hr := hs.recorded
  obtain ⟨d, hd⟩ := hb.ok hr
  rw [hs.insertBlock_eq hb.insertable hb.new hd]
  have hcov : (s.chain.insertBlock b d).Covered fun _ x => (s.chain.number x).isSome := by
    refine hs.covered.insert hr hb.insertable hd ?_ hb.cp (by rw [hr.root]; rfl) fun _ _ _ _ _ => id
    intro y x hy ha
    obtain ⟨k, hk⟩ := Option.isSome_iff_exists.1 hy
    rw [hr.complete.ancestor_writeBlock (hr.stored y hy)] at ha
    obtain ⟨j, hj, -⟩ := hr.number_lt ha k hk
    exact Option.isSome_iff_exists.2 ⟨j, hj⟩
  let pending : Tips := s.tips.filter fun t => (s.chain.number t.1).isNone
  have hmem : ∀ h, h ∈ (s.tipsAfter b.hash d).getHashes ↔ h = b.hash ∨
      h ∈ pending.getHashes ∧ h ∉ d.orderedAncestorsHashes := by
    simp only [tipsAfter, mem_getHashes, pending, mem_append, mem_singleton, mem_filter,
      Bool.and_eq_true, decide_eq_true_eq, Prod.mk.injEq]
    grind
  have hold : s.chain.Frontier pending.getHashes := hs.frontier.filter hr (by simp)
  have hopen : ∀ h ∈ pending.getHashes, s.chain.number h = none := by
    intro h hh
    obtain ⟨d, hd⟩ := mem_getHashes.1 hh
    simpa using (mem_filter.1 hd).2
  have hf := hold.insert hr hopen hb.insertable hb.new hd hcov hmem
  refine ⟨hr.insert hb.insertable hd, hcov.mono fun _ x hx => ?_, fun t ht => ?_, hf, hf,
    fun c hcm => ?_⟩
  · show ((s.chain.writeBlock b).number x).isSome
    rwa [number_writeBlock]
  · rcases mem_append.1 ht with ht | ht
    · have htm := (mem_filter.1 ht).1
      rw [blockDag_insertBlock_of_ne (hs.hash_ne hb.new t htm)]
      exact hs.records t htm
    · rw [mem_singleton.1 ht]
      exact blockDag_insertBlock_self
  · rcases mem_writeBlock hcm with ⟨rfl, -⟩ | hold
    · exact hb.nonzero
    · exact hs.nonzero c hold

/-! ## Finalization -/

theorem Sound.writeNumber (hs : s.Sound) (ha : s.chain.Assignable h n) :
    Sound { s with chain := s.chain.writeNumber h (some n) } where
  recorded := hs.recorded.finalize ha
  covered := fun b hb d hd x hx => (hs.covered b hb d hd x hx).imp_right fun hsome => by
    obtain ⟨k, hk⟩ := Option.isSome_iff_exists.1 hsome
    exact Option.isSome_iff_exists.2 ⟨k, ha.number hk⟩
  records := hs.records
  frontier := hs.frontier.finalize ha
  saved := hs.saved.finalize ha
  nonzero := hs.nonzero

/-- `FinalizeTips` keeps the tips that are not finalized. -/
theorem keepsTip_of_none (hr : s.chain.Recorded) (hb : b ∈ s.chain.headers)
    (hn : s.chain.number b.hash = none) : keepsTip s.chain n b = true := by
  refine decide_eq_true (.inl ⟨by rw [nr, hn]; rfl, Nat.pos_of_ne_zero fun h0 => ?_⟩)
  rw [(hr.heights b hb).1 h0, hr.root] at hn
  cases hn

theorem Sound.finalizedTips (hs : s.Sound) (hfin : (s.chain.number h).isSome) (n : ℕ) :
    ∃ tips, finalizedTips s.chain s.shown h n = .ok tips ∧
      (∀ t ∈ tips, s.chain.blockDag t.1 = some t.2) ∧ s.chain.Frontier tips.getHashes := by
  have hr := hs.recorded
  have hkept : ∀ t ∈ s.shown, s.chain.number t.1 = none →
      (s.chain.getHeader t.1).all (keepsTip s.chain n) = true := by
    rintro ⟨_, d⟩ ht hn
    obtain ⟨c, hcm, rfl⟩ := isSome_getHeader.1 (hs.shown.stored _ (mem_getHashes.2 ⟨d, ht⟩))
    rw [getHeader_of_mem hcm]
    exact keepsTip_of_none hr hcm hn
  unfold TipsState.finalizedTips
  split
  · rename_i hnil
    have hstored := hr.stored h hfin
    obtain ⟨d, hd, hl⟩ := hr.listed_of_isSome hstored
    refine ⟨[(h, d)], ?_, by simpa using hd, by simpa [Tips.getHashes] using hstored,
      by simpa [Tips.getHashes] using hr.acyclic h, ?_⟩
    · rw [lastFinBlockDag, hd]
      simp [Tips.add, hl.nodup.dedup]
    · -- all tips are finalized, and so is every other block
      intro c hcm hn
      refine absurd hn (hs.shown.isSome hr (fun x hx hn => ?_) hcm)
      obtain ⟨d, hd⟩ := mem_getHashes.1 hx
      exact filter_eq_nil_iff.1 hnil _ hd (hkept _ hd hn)
  · exact ⟨_, rfl, fun t ht => hs.records t (mem_of_mem_shown (mem_filter.1 ht).1),
      hs.shown.filter hr hkept⟩

/-- `FinalizeTips` after a block was finalized succeeds and keeps the invariant, whatever number it
    is given (`updateTips` gives it the height of the block). -/
theorem Sound.finalizeTips (hs : s.Sound) (hfin : (s.chain.number h).isSome) (n : ℕ) :
    ∃ s', s.finalizeTips h n = .ok s' ∧ s'.Sound := by
  obtain ⟨tips, htips, hrec, hf⟩ := hs.finalizedTips hfin n
  have hnil : ¬ (s.shown.any fun t => (s.chain.getHeader t.1).isNone) = true := by
    rw [any_eq_true]
    rintro ⟨⟨x, d⟩, ht, hnone⟩
    simpa [Option.isNone_iff_eq_none.1 hnone] using hs.shown.stored x (mem_getHashes.2 ⟨d, ht⟩)
  have hnew : Sound { s with tips := tips } :=
    ⟨hs.recorded, hs.covered, hrec, hf, hs.saved, hs.nonzero⟩
  refine ⟨_, ?_, hnew.writeCurrentTips⟩
  rw [TipsState.finalizeTips, getTips_eq, failIf_of_not hnil, ok_bind]
  rw [htips]
  rfl

/-! ## Loading -/

theorem Sound.foldlM_loadTip (hs : s.Sound) {l : List Hash} (hl : ∀ h ∈ l, h ∈ s.tipsHashes)
    {acc : Tips} (hacc : ∀ t ∈ acc, s.chain.blockDag t.1 = some t.2) :
    ∃ tips, l.foldlM (loadTip s.chain) acc = .ok tips ∧
      (∀ t ∈ tips, s.chain.blockDag t.1 = some t.2) ∧
      ∀ h, h ∈ tips.getHashes ↔ h ∈ l ∨ h ∈ acc.getHashes := by
  induction l generalizing acc with
  | nil => exact ⟨acc, rfl, hacc, by simp⟩
  | cons th l ih =>
    have hstored := hs.saved.stored th (hl th (by simp))
    obtain ⟨d, hd, hlist⟩ := hs.recorded.listed_of_isSome hstored
    obtain ⟨c, hg⟩ := Option.isSome_iff_exists.1 hstored
    have hzero : th ≠ 0 := by
      obtain ⟨hcm, rfl⟩ := getHeader_eq_some.1 hg
      exact hs.nonzero c hcm
    have hload : loadTip s.chain acc th = .ok (acc.filter (fun t => t.1 ≠ th) ++ [(th, d)]) := by
      rw [loadTip, if_neg hzero, hg, hd]
      dsimp only
      rw [Tips.add, hlist.nodup.dedup]
    obtain ⟨tips, htips, hrec, hmem⟩ :=
      @ih (fun x hx => hl x (by simp [hx])) (acc.filter (fun t => t.1 ≠ th) ++ [(th, d)]) (by grind)
    refine ⟨tips, by rw [foldlM_cons, hload, ok_bind, htips], hrec, fun x => ?_⟩
    rw [hmem, mem_cons, mem_getHashes, mem_getHashes]
    grind

theorem Sound.loadTips (hs : s.Sound) (hne : s.tipsHashes ≠ []) :
    ∃ s', s.loadTips = .ok s' ∧ s'.Sound := by
  obtain ⟨tips, htips, hrec, hmem⟩ := hs.foldlM_loadTip (fun h (hh : h ∈ s.tipsHashes) => hh)
    fun t (ht : t ∈ ([] : Tips)) => absurd ht not_mem_nil
  simp only [mem_getHashes, not_mem_nil, exists_false, or_false] at hmem
  -- no tip is in the list of another
  have hall : tips.filter (fun t => t.1 ∉ tips.flatMap fun t => t.2.orderedAncestorsHashes) = tips := by
    refine filter_eq_self.2 fun t ht => decide_eq_true fun hin => ?_
    obtain ⟨t', ht', hin⟩ := mem_flatMap.1 hin
    have hm := (hmem t.1).1 ⟨t.2, ht⟩
    have hm' := (hmem t'.1).1 ⟨t'.2, ht'⟩
    obtain ⟨d, hd, hl⟩ := hs.recorded.listed_of_isSome (hs.saved.stored _ hm')
    obtain rfl : t'.2 = d := Option.some.inj ((hrec t' ht').symm.trans hd)
    exact hs.saved.antichain _ hm' _ hm (hl.sub _ hin)
  have hf : s.chain.Frontier tips.getHashes := by
    refine hs.saved.of_subset hs.recorded (fun x hx => ?_) fun x hx _ => ?_
    · exact (hmem x).1 (mem_getHashes.1 hx)
    · exact mem_getHashes.2 ((hmem x).2 hx)
  have hnew : Sound { s with tips := tips } :=
    ⟨hs.recorded, hs.covered, hrec, hf, hs.saved, hs.nonzero⟩
  refine ⟨_, ?_, hnew.writeCurrentTips⟩
  rw [TipsState.loadTips, failIf_of_not hne, ok_bind, htips, ok_bind]
  dsimp only
  rw [hall]
  rfl

/-! ## Runs -/

end TipsState

/-- What happens to the tips: a block is inserted, a block is finalized, `FinalizeTips` is called
    with the last finalized block, the tips are read or loaded from the database. -/
inductive TipsOp
  | insert (block : Header)
  | finalize (h : Hash) (nr : ℕ)
  | finalizeTips (lastFinHash : Hash) (lastFinNr : ℕ)
  | getTips
  | loadTips

namespace TipsState

open HeaderChain

variable {s : TipsState} {op : TipsOp} {ops : List TipsOp} {g : Header}

/-- A failed `FinalizeTips` or `loadTips` leaves the tips as they were. -/
def apply (s : TipsState) : TipsOp → TipsState
  | .insert block => (s.insertBlock block).1
  | .finalize h nr => { s with chain := s.chain.writeNumber h (some nr) }
  | .finalizeTips h nr => (s.finalizeTips h nr).toOption.getD s
  | .getTips => s.getTips.2
  | .loadTips => s.loadTips.toOption.getD s

def run (s : TipsState) (ops : List TipsOp) : TipsState := ops.foldl apply s

/-- A step that the node takes: a block is finalized after its parents with a new number, and
    `FinalizeTips` is called with a finalized block. -/
def Possible (s : TipsState) : TipsOp → Prop
  | .insert block => s.chain.Insertable block
  | .finalize h nr => s.chain.Assignable h nr
  | .finalizeTips h _ => (s.chain.number h).isSome
  | _ => True

/-- A block is inserted once, with a nonzero hash, with a finalized checkpoint, and its parents
    see the checkpoint above which their lists are joined. -/
def Harmless (s : TipsState) : TipsOp → Prop
  | .insert block => s.chain.getHeader block.hash = none ∧ block.hash ≠ 0 ∧
      (s.chain.number block.cpHash).isSome ∧ s.chain.Fits block
  | _ => True

/-- Every step of the run is one that the node takes. -/
def PossibleRun (s : TipsState) : List TipsOp → Prop
  | [] => True
  | op :: ops => s.Possible op ∧ (s.apply op).PossibleRun ops

/-- Every step of the run is harmless. -/
def HarmlessRun (s : TipsState) : List TipsOp → Prop
  | [] => True
  | op :: ops => s.Harmless op ∧ (s.apply op).HarmlessRun ops

/-- The node with the genesis block alone. -/
def ofGenesis (g : Header) : TipsState :=
  ⟨HeaderChain.ofGenesis g, [(g.hash, ⟨0, g.hash, 0, []⟩)], [g.hash]⟩

theorem Sound.apply (hs : s.Sound) (hp : s.Possible op) (hh : s.Harmless op) :
    (s.apply op).Sound := by
  cases op with
  | insert block =>
    obtain ⟨hnew, hzero, hcp, hfits⟩ := hh
    exact hs.insertBlock ⟨hp, hnew, hzero, hcp, hfits⟩
  | finalize h nr => exact hs.writeNumber hp
  | finalizeTips h nr =>
    obtain ⟨s', hs', hsound⟩ := hs.finalizeTips hp nr
    show ((s.finalizeTips h nr).toOption.getD s).Sound
    rw [hs']
    exact hsound
  | getTips => exact hs.getTips
  | loadTips =>
    show (s.loadTips.toOption.getD s).Sound
    by_cases hne : s.tipsHashes = []
    · rw [TipsState.loadTips, failIf_of hne]
      exact hs
    · obtain ⟨s', hs', hsound⟩ := hs.loadTips hne
      rw [hs']
      exact hsound

theorem Sound.run (hs : s.Sound) (hp : s.PossibleRun ops) (hh : s.HarmlessRun ops) :
    (s.run ops).Sound := by
  induction ops generalizing s with
  | nil => exact hs
  | cons op ops ih => exact ih (hs.apply hp.1 hh.1) hp.2 hh.2

theorem sound_ofGenesis (hp : g.parentHashes = []) (hh : g.height = 0) (h0 : g.hash ≠ 0) :
    (ofGenesis g).Sound := by
  have hf : (HeaderChain.ofGenesis g).Frontier [g.hash] := by
    refine ⟨by simp [HeaderChain.ofGenesis, getHeader],
      fun x _ y _ => not_ancestor_ofGenesis hp, fun b hb _ => ?_⟩
    simp [eq_of_mem_ofGenesis hb]
  refine ⟨recorded_ofGenesis hp hh, covered_ofGenesis hp, fun t ht => ?_, hf, hf,
    fun b hb => eq_of_mem_ofGenesis hb ▸ h0⟩
  rw [mem_singleton.1 ht]
  exact if_pos rfl

/-- If every block is inserted once, with a finalized checkpoint that its parents see, then after
    every run of insertions, finalizations and tip loads the tips are the frontier of the DAG. -/
theorem tips_frontier (hp : g.parentHashes = []) (hh : g.height = 0) (h0 : g.hash ≠ 0)
    (hpos : (ofGenesis g).PossibleRun ops) (hrun : (ofGenesis g).HarmlessRun ops) :
    ((ofGenesis g).run ops).chain.Frontier ((ofGenesis g).run ops).getTips.1.getHashes := by
  rw [getTips_eq]
  exact ((sound_ofGenesis hp hh h0).run hpos hrun).shown

/-! ### A block that is inserted again -/

/-- The blocks 2 and 3, one on the other, on the genesis block 1. -/
def twoBlocks : List TipsOp :=
  [.insert (plainHeader 2 [1] 1 1 1 0), .insert (plainHeader 3 [2] 2 2 1 0)]

theorem twoBlocks_possible : (ofGenesis (plainHeader 1 [] 0 0 0 0)).PossibleRun twoBlocks :=
  ⟨by constructor <;> decide, by constructor <;> decide +kernel, trivial⟩

theorem twoBlocks_harmless : (ofGenesis (plainHeader 1 [] 0 0 0 0)).HarmlessRun twoBlocks :=
  ⟨⟨by decide, by decide, by decide, by decide⟩,
    ⟨by decide +kernel, by decide +kernel, by decide +kernel, by decide +kernel⟩, trivial⟩

theorem tips_frontier_twoBlocks :
    let s := (ofGenesis (plainHeader 1 [] 0 0 0 0)).run twoBlocks
    s.chain.Frontier [3] ∧ s.getTips.1.getHashes = [3] := by
  have hf := tips_frontier rfl rfl (by decide) twoBlocks_possible twoBlocks_harmless
  have htips : ((ofGenesis (plainHeader 1 [] 0 0 0 0)).run twoBlocks).getTips.1.getHashes = [3] := by
    decide +kernel
  rw [htips] at hf
  exact ⟨hf, htips⟩

/-- The known block 2 is inserted again: it is a tip next to its child 3. -/
theorem inserted_again_tip :
    let s := (ofGenesis (plainHeader 1 [] 0 0 0 0)).run
      (twoBlocks ++ [.insert (plainHeader 2 [1] 1 1 1 0)])
    (ofGenesis (plainHeader 1 [] 0 0 0 0)).PossibleRun
      (twoBlocks ++ [.insert (plainHeader 2 [1] 1 1 1 0)]) ∧
    s.getTips.1.getHashes = [3, 2] ∧ s.chain.Ancestor 3 2 := by
  exact ⟨⟨twoBlocks_possible.1, twoBlocks_possible.2.1, by constructor <;> decide +kernel, trivial⟩,
    by decide +kernel, .single ⟨plainHeader 3 [2] 2 2 1 0, by decide +kernel, by decide⟩⟩

end TipsState

end Gwat
