/-
  Skipping spines that are finalized already (`forwardFinalization`,
  `dag/finalizer/finalizer.go`).
-/
import Gwat.Dag.Segment

namespace Gwat

open GoLib List Block Numbering

/-- The errors of `forwardFinalization`. -/
inductive ForwardError where
  | invalidBaseSpine
  | headerNotFound
  deriving DecidableEq, Repr

namespace FinChain

/-- The loop of `forwardFinalization` over `k` numbers from `nr` on, with the slot reached
    and the spines that are left. -/
def forwardLoop (c : FinChain) :
    ℕ → ℕ → ℕ → List Hash → Hash → Except ForwardError (List Hash × Hash)
  | 0, _, _, spines, baseSpine => .ok (spines, baseSpine)
  | _ + 1, _, _, [], baseSpine => .ok ([], baseSpine)
  | k + 1, nr, curSlot, curSpine :: rest, baseSpine =>
    match c.getBlockByNumber nr with
    | none => .error .headerNotFound
    | some header =>
      -- each increase of the slot has to correspond to the next spine
      if curSlot < header.slot then
        if curSpine ≠ header.hash then .ok (curSpine :: rest, baseSpine)
        else forwardLoop c k (nr + 1) header.slot rest curSpine
      else forwardLoop c k (nr + 1) curSlot (curSpine :: rest) baseSpine

def forwardFinalization (c : FinChain) (spines : List Hash) (baseSpine : Hash) :
    Except ForwardError (List Hash × Hash) :=
  if spines = [] then .ok (spines, baseSpine)
  else match c.store.get baseSpine with
    | none => .error .invalidBaseSpine
    | some baseHeader =>
      if 0 < baseHeader.height ∧ c.nr baseSpine = 0 then .error .invalidBaseSpine
      else c.forwardLoop (c.nr c.head - c.nr baseSpine) (c.nr baseSpine + 1) baseHeader.slot spines
        baseSpine

/-! ## What the loop skips -/

/-- The blocks whose slot exceeds `slot` and all slots before them. -/
def slotRecords : ℕ → List Block → List Block
  | _, [] => []
  | slot, b :: bs => if slot < b.slot then b :: slotRecords b.slot bs else slotRecords slot bs

/-- The blocks of the chain after `base` at which the slot grows. -/
def records (c : FinChain) (base : Block) : List Block :=
  slotRecords base.slot (c.segment (c.nr base.hash) (c.nr c.head - c.nr base.hash))

/-- Remove the longest common prefix of the spines and the records; its last block becomes
    the base. -/
def dropCommon : List Block → List Block → Block → List Block × Block
  | s :: rest, r :: rs, base => if s = r then dropCommon rest rs r else (s :: rest, base)
  | spines, _, base => (spines, base)

theorem dropCommon_nil_left (rs : List Block) (base : Block) :
    dropCommon [] rs base = ([], base) := by cases rs <;> rfl

theorem dropCommon_nil_right (spines : List Block) (base : Block) :
    dropCommon spines [] base = (spines, base) := by cases spines <;> rfl

theorem slotRecords_cons {slot : ℕ} {r : Block} {rs : List Block} :
    ∀ {bs : List Block}, slotRecords slot bs = r :: rs →
      ∃ xs ys, bs = xs ++ r :: ys ∧ rs = slotRecords r.slot ys
  | b :: bs, h => by
    unfold slotRecords at h
    split_ifs at h
    · obtain ⟨rfl, rfl⟩ := List.cons.inj h
      exact ⟨[], bs, rfl, rfl⟩
    · obtain ⟨xs, ys, rfl, hrs⟩ := slotRecords_cons h
      exact ⟨b :: xs, ys, rfl, hrs⟩

variable {env env' : FinEnv} {process : Process} {c c' d e : FinChain} {m n k j i : ℕ}
variable {base r spine s : Block} {rs rest chain : List Block}

theorem Numbered.forwardLoop_eq (hc : c.Numbered m) : ∀ (k : ℕ) {n slot : ℕ} {spines : List Block}
    {base : Block}, n + k ≤ m → (∀ s ∈ spines, s ∈ c.store.blocks) →
    c.forwardLoop k (n + 1) slot (spines.map hash) base.hash =
      .ok ((dropCommon spines (slotRecords slot (c.segment n k)) base).1.map hash,
        (dropCommon spines (slotRecords slot (c.segment n k)) base).2.hash)
  | 0, n, slot, spines, base, _, _ => by
    show _ = Except.ok ((dropCommon spines [] base).1.map hash, (dropCommon spines [] base).2.hash)
    rw [dropCommon_nil_right]; rfl
  | k + 1, _, _, [], _, _, _ => rfl
  | k + 1, n, slot, s :: rest, base, hle, hst => by
    obtain ⟨hs, hrest⟩ := forall_mem_cons.1 hst
    obtain ⟨b, hb, hseg⟩ := @Numbered.segment_succ c m n k hc (by omega)
    have hbs := (getBlockByNumber_eq_some.1 hb).1
    rw [hseg, map_cons, forwardLoop, hb]
    simp only
    unfold slotRecords
    split_ifs with hslot hne
    · have hsb : s ≠ b := fun he => hne (he ▸ rfl)
      simp [dropCommon, hsb]
    · obtain rfl : s = b :=
        inj_on_of_nodup_map c.store.nodup hs hbs (not_not.1 hne)
      rw [Numbered.forwardLoop_eq hc k (by omega) hrest]
      simp [dropCommon]
    · rw [← map_cons (f := hash), Numbered.forwardLoop_eq hc k (by omega) hst]

/-- The records of the chain after `base`, when there are any: the first one, and those
    after it. -/
theorem Valid.records_cons (hc : c.Valid) (hb : c.index.numOf base.hash = some n)
    (h : c.records base = r :: rs) :
    ∃ j, c.index.numOf r.hash = some (n + (j + 1)) ∧ r ∈ c.store.blocks ∧ rs = c.records r := by
  have hle := hc.numbered.upTo.le hb
  unfold records at h
  rw [nr_eq hb] at h
  obtain ⟨xs, ys, hbs, rfl⟩ := slotRecords_cons h
  obtain ⟨hnum, hst, -, hys⟩ := hc.numbered.segment_split (by omega) hbs
  refine ⟨xs.length, hnum, hst, ?_⟩
  rw [hys, records, nr_eq hnum]
  congr 2
  omega

/-! ## Chains that agree are extended alike -/

theorem spineGetDagChain_finalized {o : SpineOrder} (h : (c.index.numOf spine.hash).isSome) :
    spineGetDagChain c.dag o spine = .ok [] := by
  have hne : c.dag.number spine ≠ none := Option.isSome_iff_ne_none.1 h
  have hwalk : spineProcessBlock c.dag o (c.dag.store.blocks.length + 1) spine ∅ [] = .ok (∅, []) := by
    rw [spineProcessBlock, if_pos (.inr hne)]
  have horder : orderBlocks o [] = [] := by
    have hkeys : o.slots.order (groupBySlot []).keys = [] := perm_nil.1 (o.slots.perm _)
    simp [orderBlocks, hkeys, sortAsc]
  unfold spineGetDagChain
  rw [hwalk, ok_bind]
  simp only [horder]
  rfl

theorem Agree.sameChain (ha : Agree c c') (hdag : c.DagOk) (hs : spine ∈ c.store.blocks)
    (o o' : SpineOrder) : ∃ chain, spineGetDagChain c.dag o spine = .ok chain ∧
      spineGetDagChain c'.dag o' spine = .ok chain ∧
      (c.index.numOf spine.hash = none → IsDagChain c.dag spine.hash chain) := by
  cases hn : c.index.numOf spine.hash with
  | some k =>
    have hsome : (c.index.numOf spine.hash).isSome := by rw [hn]; rfl
    exact ⟨[], spineGetDagChain_finalized hsome, spineGetDagChain_finalized (ha.index ▸ hsome), by simp⟩
  | none =>
    obtain ⟨chain, hchain, hdc⟩ := hdag.isDagChain hs hn o
    obtain ⟨chain', hchain', hdc'⟩ := hdag.isDagChain hs hn o'
    obtain rfl := hdc.unique hdc'
    exact ⟨chain, hchain, by rw [ha.dag, hchain'], fun _ => hdc⟩

/-- The loop of `Finalize` does the same on chains that agree, whether it succeeds or fails. -/
theorem Agree.finalizeOn (hproc : env'.process = env.process) : ∀ (spines : List Block)
    {c c' : FinChain}, Agree c c' → c.Valid → c.DagOk → (∀ s ∈ spines, s ∈ c.store.blocks) →
    Agree (c.finalizeOn env spines).2 (c'.finalizeOn env' spines).2
  | [], _, _, ha, _, _, _ => ha
  | spine :: rest, c, c', ha, hc, hdag, hst => by
    obtain ⟨hs, hrest⟩ := forall_mem_cons.1 hst
    obtain ⟨chain, hchain, hchain', hdc⟩ :=
      ha.sameChain hdag hs (env.order spine.hash) (env'.order spine.hash)
    obtain ⟨hlen, hagree⟩ := @Agree.advanceHead env.process c c' ha hc chain
    obtain ⟨e, hrun⟩ := hc.finalizeOn_cons hs hchain rest
    obtain ⟨e', hrun'⟩ := (ha.valid hc).finalizeOn_cons (ha.store ▸ hs) hchain' rest
    rw [hrun, hrun', hproc, hlen]
    split_ifs with hnil hfull
    · exact Agree.finalizeOn hproc rest ha hc hdag hrest
    · have hfresh := spineGetDagChain_fresh hs hchain
      have hext := hc.extended hfresh hnil (Prod.ext hfull rfl)
      have hn : c.index.numOf spine.hash = none := by
        by_contra hsome
        exact hnil (hfresh.nil.2 (Option.isSome_iff_ne_none.2 hsome))
      exact Agree.finalizeOn hproc rest hagree hext.valid (hdag.extended (hdc hn) hext)
        (by rw [hext.store]; exact hrest)
    · exact hagree

theorem Agree.refl (c : FinChain) : Agree c c := ⟨rfl, rfl, rfl, rfl, rfl, fun _ _ => rfl⟩

/-! ## Skipped spines that fit -/

/-- The blocks of the chain after `base` up to `s` are ancestors of `s`, in the finalization
    order. -/
def Fits (c : FinChain) (base s : Block) : Prop :=
  (∀ b ∈ c.segment (c.nr base.hash) (c.nr s.hash - c.nr base.hash),
      c.dag.AncestorOrSelf s.hash b.hash) ∧
    (c.segment (c.nr base.hash) (c.nr s.hash - c.nr base.hash)).Pairwise Block.FinBefore

/-- Each of the spines fits on the one before. -/
def FitsAll (c : FinChain) : Block → List Block → Prop
  | _, [] => True
  | base, s :: ss => c.Fits base s ∧ FitsAll c s ss

/-- The requested spines at which the slot grows in the chain fit, from the first one on for
    as long as the two lists agree. -/
def SkippedFit (c : FinChain) (base : Block) (spines : List Block) : Prop :=
  ∀ ss, ss <+: spines → ss <+: c.records base → c.FitsAll base ss

theorem skippedFit_of_ne (hrec : c.records base = r :: rs) (hne : s ≠ r) :
    c.SkippedFit base (s :: rest) := by
  rintro (_ | ⟨x, xs⟩) h₁ h₂
  · trivial
  · rw [hrec] at h₂
    have hx := (cons_prefix_cons.1 h₁).1
    have hx' := (cons_prefix_cons.1 h₂).1
    exact absurd (hx.symm.trans hx') hne

theorem skippedFit_cons (hrec : c.records base = s :: c.records s) :
    c.SkippedFit base (s :: rest) ↔ c.Fits base s ∧ c.SkippedFit s rest := by
  constructor
  · intro h
    refine ⟨(h [s] (by simp) (by simp [hrec])).1, fun ss h₁ h₂ => ?_⟩
    exact (h (s :: ss) (cons_prefix_cons.2 ⟨rfl, h₁⟩) (hrec ▸ cons_prefix_cons.2 ⟨rfl, h₂⟩)).2
  · rintro ⟨hfit, h⟩ (_ | ⟨x, xs⟩) h₁ h₂
    · trivial
    · obtain ⟨rfl, hxs⟩ := cons_prefix_cons.1 h₁
      rw [hrec] at h₂
      exact ⟨hfit, h xs hxs (cons_prefix_cons.1 h₂).2⟩

theorem Numbered.getElem?_segment (hc : c.Numbered m) : ∀ (k : ℕ) {n i : ℕ}, n + k ≤ m → i < k →
    ((c.segment n k).map hash)[i]? = c.index.keyAt (n + 1 + i)
  | k + 1, n, i, hle, hi => by
    obtain ⟨b, hb, hseg⟩ := @Numbered.segment_succ c m n k hc (by omega)
    rw [hseg]
    cases i with
    | zero => exact (getBlockByNumber_eq_some.1 hb).2.symm
    | succ i =>
      rw [map_cons, List.getElem?_cons_succ, Numbered.getElem?_segment hc k (by omega) (by omega)]
      congr 1; omega

theorem Numbered.eq_segment (hd : d.Numbered m) (hle : k + j ≤ m)
    (hst : ∀ b ∈ chain, b ∈ d.store.blocks) (hlen : chain.length = j) {I : Numbering Hash}
    (hI : I.pushAll (k + 1) (chain.map hash) = d.index.truncate (k + j)) :
    chain = d.segment k j := by
  have hmap : chain.map hash = (d.segment k j).map hash := by
    refine ext_getElem? fun i => ?_
    by_cases hi : i < j
    · rw [hd.getElem?_segment j hle hi,
        ← keyAt_pushAll _ I (k + 1) i (by rw [length_map]; omega), hI]
      exact if_pos (by omega)
    · have hseg := hd.length_segment hle
      rw [getElem?_eq_none (by rw [length_map]; omega),
        getElem?_eq_none (by rw [length_map]; omega)]
  have h₁ := mapM_get_hash hst
  have h₂ := mapM_get_hash fun b (hb : b ∈ d.segment k j) => (mem_segment.1 hb).choose_spec.2.2.1
  rw [hmap] at h₁
  exact Option.some.inj (h₁.symm.trans h₂)

theorem numOf_of_unfinished (hdc : IsDagChain e.dag s.hash chain) (hlast : chain.getLast? = some s)
    (hn : e.index.numOf s.hash = none) (hadv : e.advanceHead process chain = (i, d))
    (hlt : i < chain.length) : d.index.numOf s.hash = none := by
  have hindex : d.index = e.index.pushAll (e.nr e.head + 1) ((chain.take i).map hash) := by
    have := @advance_advanced process chain (e.nr e.head + 1) e.head e
    rw [show advance process (e.nr e.head + 1) e.head chain e = (i, d) from hadv] at this
    exact this.index
  obtain ⟨xs, rfl⟩ := getLast?_eq_some_iff.1 hlast
  have hnd := hdc.nodup_hash
  rw [length_append, length_singleton] at hlt
  rw [map_append, nodup_append] at hnd
  rw [← Option.not_isSome_iff_eq_none, hindex, isSome_pushAll, hn,
    take_append_of_le_length (by omega)]
  rintro (hin | hin)
  · exact hnd.2.2 s.hash ((take_sublist i xs).map _ |>.subset hin) s.hash (by simp) rfl
  · cases hin

section Skip

variable {base s : Block} {j : ℕ} (h : Replayable process n d)
  (hb : d.index.numOf base.hash = some k) (hn : n ≤ k) (hs : s ∈ d.store.blocks)
  (hj : d.index.numOf s.hash = some (k + (j + 1)))

include h hb hn hj in
theorem fits_iff_isDagChain :
    d.Fits base s ↔ IsDagChain (d.rolledBackTo base.hash).dag s.hash (d.segment k (j + 1)) := by
  rw [h.isDagChain_segment_iff hb hn hj, Fits, nr_eq hb, nr_eq hj,
    show k + (j + 1) - k = j + 1 by omega]

include hb hj in
theorem numOf_rolledBackTo_eq_none : (d.rolledBackTo base.hash).index.numOf s.hash = none := by
  show (d.index.truncate (d.nr base.hash)).numOf s.hash = none
  by_contra hne
  obtain ⟨i, hi⟩ := Option.ne_none_iff_exists'.1 hne
  obtain ⟨hi, hle⟩ := Numbering.numOf_truncate.1 hi
  rw [nr_eq hb] at hle
  obtain rfl : k + (j + 1) = i := Option.some.inj (hj.symm.trans hi)
  omega

include h hb hn hs hj in
/-- On the chain up to `base`, a spine that fits is finalized by the stretch that leads to it,
    with the chain up to `s` as the result. -/
theorem finalizeOn_of_fits (hproc : env'.process = process) (hfit : d.Fits base s)
    (hst : ∀ x ∈ rest, x ∈ d.store.blocks) :
    ((d.rolledBackTo base.hash).finalizeOn env' (s :: rest)).2.index =
      ((d.rolledBackTo s.hash).finalizeOn env' rest).2.index := by
  have hbase := h.rolledBackTo hb hn
  have hs' := h.rolledBackTo hj (by omega)
  have hnone := numOf_rolledBackTo_eq_none hb hj
  obtain ⟨chain, hchain, hdc⟩ := hbase.dagOk.isDagChain hs hnone (env'.order s.hash)
  obtain rfl := hdc.unique ((fits_iff_isDagChain h hb hn hj).1 hfit)
  obtain ⟨hlen, hagree⟩ := h.advanceHead hb hn hj
  have hlen' := h.valid.numbered.length_segment (h.valid.numbered.upTo.le hj)
  obtain ⟨e, hrun⟩ := hbase.valid.finalizeOn_cons hs hchain rest
  have hne := ne_nil_of_chain (c := d.rolledBackTo base.hash) hs hnone hchain
  rw [hrun, if_neg hne, hproc, if_pos (hlen.trans hlen'.symm)]
  exact (Agree.finalizeOn rfl rest hagree hs'.valid hs'.dagOk hst).index

include h hb hn hs hj in
theorem finalizeOn_of_not_fits (hfit : ¬ d.Fits base s) (hst : ∀ x ∈ rest, x ∈ d.store.blocks)
    {I : Numbering Hash} (hI : I.truncate (k + (j + 1)) = d.index.truncate (k + (j + 1))) :
    ((d.rolledBackTo base.hash).finalizeOn env' (s :: rest)).2.index ≠ I := by
  intro heq
  have hbase := h.rolledBackTo hb hn
  have hnone := numOf_rolledBackTo_eq_none hb hj
  have hhead := nr_head_rolledBackTo hb
  have hIs : I.numOf s.hash = some (k + (j + 1)) := by
    have := Numbering.numOf_truncate.2 ⟨hj, le_rfl⟩
    rw [← hI] at this
    exact (Numbering.numOf_truncate.1 this).1
  obtain ⟨chain, hchain, hdc⟩ := hbase.dagOk.isDagChain hs hnone (env'.order s.hash)
  have hlast := hdc.getLast hbase.slots hs hnone
    (DagChain.ancestorsStored_of_closed hbase.complete hs)
  have hne := ne_nil_of_chain (c := d.rolledBackTo base.hash) hs hnone hchain
  have hle : ((d.rolledBackTo base.hash).advanceHead env'.process chain).1 ≤ chain.length :=
    (advance_advanced chain _ _ _).le
  obtain ⟨e, hrun⟩ := hbase.valid.finalizeOn_cons hs hchain rest
  rw [hrun, if_neg hne] at heq
  split_ifs at heq with hfull
  · obtain ⟨d₁, hadv⟩ : ∃ d₁, (d.rolledBackTo base.hash).advanceHead env'.process chain =
      (chain.length, d₁) := ⟨_, Prod.ext hfull rfl⟩
    have hext := hbase.valid.extended_of_chain hs hnone hchain hadv
    rw [hadv] at heq
    have hold := (@finalizeOn_outcome env' rest d₁ hext.valid (by rw [hext.store]; exact hst)).old
    have hall : Advanced (d.rolledBackTo base.hash) (k + 1) chain chain.length d₁ := by
      rw [advanceHead, hhead] at hadv
      exact advanced_of_eq hadv
    -- the spine has the number it has in the chain, so what is before it is the same
    have hnum : d₁.nr d₁.head = k + (j + 1) := by
      have hh := numOf_of_truncate_eq hold hext.valid.head
      rw [heq, hext.head, hIs] at hh
      rw [hext.head]
      exact (Option.some.inj hh).symm
    have hindex : d₁.index = d.index.truncate (k + (j + 1)) := by
      rw [← hold, heq, hnum, hI]
    have hlen : chain.length = j + 1 := by
      have hup := hext.valid.numbered.upTo
      have hpush := hbase.valid.numbered.upTo.pushAll (chain.map hash) hdc.nodup_hash (by
        intro x hx
        obtain ⟨b, hb, rfl⟩ := mem_map.1 hx
        exact ((hdc.mem b).1 hb).2.2)
      rw [hhead, ← hall.index_eq, length_map] at hpush
      have := hpush.top_unique hup
      omega
    have hseg := h.valid.numbered.eq_segment (h.valid.numbered.upTo.le hj)
      (fun b hb => hdc.mem_store hb) hlen (by rw [← hindex]; exact hall.index_eq.symm)
    exact hfit ((fits_iff_isDagChain h hb hn hj).2 (hseg ▸ hdc))
  · subst heq
    have hs₁ := numOf_of_unfinished hdc hlast hnone rfl (lt_of_le_of_ne hle hfull)
    cases hIs.symm.trans hs₁

end Skip

/-! ## The shortened request -/

variable {base : Hash} {spines : List Block}

theorem Valid.numOf_dropCommon (hc : c.Valid) : ∀ (spines : List Block) {base : Block} {k : ℕ},
    c.index.numOf base.hash = some k →
    ∃ k', c.index.numOf (dropCommon spines (c.records base) base).2.hash = some k' ∧ k ≤ k'
  | [], base, k, hb => ⟨k, by rwa [dropCommon_nil_left], le_rfl⟩
  | s :: rest, base, k, hb => by
    cases hrec : c.records base with
    | nil => exact ⟨k, hb, le_rfl⟩
    | cons r rs =>
      unfold dropCommon
      split_ifs with hsr
      · obtain ⟨j, hj, -, rfl⟩ := hc.records_cons hb hrec
        obtain ⟨k', hk', hle⟩ := Valid.numOf_dropCommon hc rest hj
        exact ⟨k', hk', by omega⟩
      · exact ⟨k, hb, le_rfl⟩

/-- From the chain up to the base, the full request gives a numbering that keeps the skipped
    part of the chain exactly when all skipped spines fit and the shortened request gives it
    from where they end. -/
theorem finalizeOn_eq_iff (h : Replayable env.process n d) (hproc : env'.process = env.process) :
    ∀ (spines : List Block) {base : Block} {k k' : ℕ}, (∀ s ∈ spines, s ∈ d.store.blocks) →
      d.index.numOf base.hash = some k → n ≤ k →
      d.index.numOf (dropCommon spines (d.records base) base).2.hash = some k' →
      ∀ {I : Numbering Hash}, I.truncate k' = d.index.truncate k' →
      (((d.rolledBackTo base.hash).finalizeOn env' spines).2.index = I ↔
        d.SkippedFit base spines ∧
          ((d.rolledBackTo (dropCommon spines (d.records base) base).2.hash).finalizeOn env
            (dropCommon spines (d.records base) base).1).2.index = I)
  | [], base, k, k', _, hb, _, _, I, _ => by
    have hfit : d.SkippedFit base [] := by
      intro ss h₁ _
      obtain rfl := prefix_nil.1 h₁
      trivial
    exact (and_iff_right hfit).symm
  | s :: rest, base, k, k', hst, hb, hn, hk', I, hI => by
    obtain ⟨hs, hrest⟩ := forall_mem_cons.1 hst
    have hbase := h.rolledBackTo hb hn
    -- nothing is skipped: the two requests are the same
    have hsame : ((d.rolledBackTo base.hash).finalizeOn env' (s :: rest)).2.index =
        ((d.rolledBackTo base.hash).finalizeOn env (s :: rest)).2.index :=
      (Agree.finalizeOn hproc (s :: rest) (Agree.refl _) hbase.valid hbase.dagOk hst).index
    cases hrec : d.records base with
    | nil =>
      have hfit : d.SkippedFit base (s :: rest) := by
        intro ss _ h₂
        rw [hrec] at h₂
        obtain rfl := prefix_nil.1 h₂
        trivial
      rw [dropCommon_nil_right, hsame]
      exact (and_iff_right hfit).symm
    | cons r rs =>
      by_cases hsr : s = r
      · subst hsr
        obtain ⟨j, hj, -, rfl⟩ := h.valid.records_cons hb hrec
        have hdrop : dropCommon (s :: rest) (s :: d.records s) base =
            dropCommon rest (d.records s) s := if_pos rfl
        rw [hrec, hdrop] at hk'
        obtain ⟨i, hi, hle⟩ := h.valid.numOf_dropCommon rest hj
        obtain rfl : k' = i := Option.some.inj (hk'.symm.trans hi)
        rw [hdrop, skippedFit_cons hrec, and_assoc]
        have hIs : I.truncate (k + (j + 1)) = d.index.truncate (k + (j + 1)) := by
          rw [← truncate_truncate hle, hI, truncate_truncate hle]
        by_cases hfit : d.Fits base s
        · rw [finalizeOn_of_fits h hb hn hs hj hproc hfit hrest,
            finalizeOn_eq_iff h hproc rest hrest hj (by omega) hk' hI]
          exact (and_iff_right hfit).symm
        · exact iff_of_false (finalizeOn_of_not_fits h hb hn hs hj hfit hrest hIs)
            fun hc => hfit hc.1
      · have hdrop : dropCommon (s :: rest) (r :: rs) base = (s :: rest, base) := if_neg hsr
        rw [hdrop, hsame]
        exact (and_iff_right (skippedFit_of_ne hrec hsr)).symm

theorem dropCommon_suffix : ∀ (spines rs : List Block) (base : Block),
    (dropCommon spines rs base).1 <:+ spines
  | [], rs, base => by rw [dropCommon_nil_left]
  | s :: rest, [], base => by rw [dropCommon_nil_right]
  | s :: rest, r :: rs, base => by
    unfold dropCommon
    split_ifs
    · exact (dropCommon_suffix rest rs r).trans (suffix_cons s rest)
    · exact suffix_refl _

theorem dropCommon_fst_eq_nil : ∀ (spines rs : List Block) (base : Block),
    (dropCommon spines rs base).1 = [] ↔ spines <+: rs
  | [], rs, base => by rw [dropCommon_nil_left]; simp
  | s :: rest, [], base => by rw [dropCommon_nil_right]; simp
  | s :: rest, r :: rs, base => by
    unfold dropCommon
    split_ifs with hsr
    · rw [dropCommon_fst_eq_nil rest rs r]; simp [hsr]
    · simp [hsr]

theorem dropCommon_snd_of_prefix : ∀ (spines rs : List Block) (base : Block), spines <+: rs →
    (base :: spines).getLast? = some (dropCommon spines rs base).2
  | [], rs, base, _ => by rfl
  | s :: rest, r :: rs, base, h => by
    obtain ⟨rfl, hrest⟩ := cons_prefix_cons.1 h
    unfold dropCommon
    rw [if_pos rfl, List.getLast?_cons_cons]
    exact dropCommon_snd_of_prefix rest rs s hrest

/-- Nothing is rolled back exactly when the base is the head. -/
theorem Valid.index_rolledBackTo_eq_iff (hc : c.Valid) (hb : c.index.numOf base = some k) :
    (c.rolledBackTo base).index = c.index ↔ base = c.head := by
  constructor
  · intro heq
    have hup := (hc.rolledBackTo hb).numbered.upTo
    rw [heq, nr_head_rolledBackTo hb] at hup
    have htop := hup.top_unique hc.numbered.upTo
    exact hc.numbered.upTo.injective hb (htop ▸ hc.head)
  · intro heq
    rw [heq]
    exact hc.numbered.upTo.truncate_self

/-- `Finalize` on a base whose rollback finds its checkpoint. -/
theorem finalize_of_base (h : Replayable process n d) (hb : d.index.numOf base = some k)
    (hcp : env.hasCp base) (hne : spines ≠ []) (hst : ∀ s ∈ spines, s ∈ d.store.blocks)
    (hslots : spines.Pairwise (·.slot < ·.slot)) :
    d.finalize env false (spines.map hash) (some base) =
      (d.rolledBackTo base).finalizeOn env spines := by
  obtain ⟨r, hroll, hr⟩ := @rollbackFinalization_running env d h.valid h.running base k hb
  rw [finalize_eq hne hst hslots, hroll, hr hcp, andThen_ok]

theorem Valid.forwardFinalization_eq (hc : c.Valid) {base : Block}
    (hgen : ∀ g, c.store.get c.genesis = some g → g.height = 0) (hbs : base ∈ c.store.blocks)
    (hb : c.index.numOf base.hash = some k) (hst : ∀ s ∈ spines, s ∈ c.store.blocks) :
    c.forwardFinalization (spines.map hash) base.hash =
      .ok ((dropCommon spines (c.records base) base).1.map hash,
        (dropCommon spines (c.records base) base).2.hash) := by
  unfold forwardFinalization
  by_cases hne : spines = []
  · subst hne
    rfl
  · have hle := hc.numbered.upTo.le hb
    rw [if_neg (by simpa using hne), BlockStore.get_of_mem hbs]
    simp only
    rw [if_neg, hc.numbered.forwardLoop_eq _ (by rw [nr_eq hb]; omega) hst]
    · rfl
    · -- only the genesis block has the number zero
      rintro ⟨hpos, hzero⟩
      rw [nr_eq hb] at hzero
      subst hzero
      have hbg := hc.numbered.upTo.injective hb hc.numbered.genesis
      have := hgen base (hbg ▸ BlockStore.get_of_mem hbs)
      omega

/-- The shortened request gives the same numbers as the full one exactly when the skipped
    spines fit, and the whole request is not skipped unless it ends at the head.  Here `d` was
    finalized on top of `c` through the spines `earlier`, on a running chain on which rollbacks
    find their checkpoint, and `base` is a block finalized since. -/
theorem forwardFinalization_same_iff (env env' : FinEnv) (c d : FinChain)
    (earlier spines : List Block) (base : Block) (hc : c.Valid) (hp : c.permits = none)
    (hdag : c.DagOk) (hgen : ∀ g, c.store.get c.genesis = some g → g.height = 0)
    (hproc : env'.process = env.process) (hrun : FinalizedBy env.process c earlier d)
    (hcp : ∀ x, (d.index.numOf x).isSome → env.hasCp x ∧ env'.hasCp x)
    (hbs : base ∈ d.store.blocks) (hb : (d.index.numOf base.hash).isSome)
    (hle : c.nr c.head ≤ d.nr base.hash) (hst : ∀ s ∈ spines, s ∈ d.store.blocks)
    (hslots : spines.Pairwise (·.slot < ·.slot)) :
    ∃ rest base', d.forwardFinalization (spines.map hash) base.hash = .ok (rest, base') ∧
      ((d.finalize env false rest (some base')).2.index =
          (d.finalize env' false (spines.map hash) (some base.hash)).2.index ↔
        d.SkippedFit base spines ∧
          (spines ≠ [] → spines <+: d.records base →
            (spines.map hash).getLast? = some d.head)) := by
  have hgrows := grows_of_finalizedBy hrun hc hdag
  have hkept := hgrows.kept hc hdag
  have h : Replayable env.process (c.nr c.head) d := hgrows.replayable (hc.replayable hdag hp)
  obtain ⟨k, hk⟩ := Option.isSome_iff_exists.1 hb
  rw [nr_eq hk] at hle
  have hfwd := h.valid.forwardFinalization_eq (by rw [hkept.store, hkept.genesis]; exact hgen) hbs hk hst
  refine ⟨_, _, hfwd, ?_⟩
  by_cases hne : spines = []
  · -- `Finalize` does nothing either way
    subst hne
    rw [dropCommon_nil_left]
    refine iff_of_true rfl ⟨?_, fun h => absurd rfl h⟩
    intro ss h₁ _
    obtain rfl := prefix_nil.1 h₁
    trivial
  obtain ⟨k', hk', hle'⟩ := h.valid.numOf_dropCommon spines hk
  have hfull := finalize_of_base h hk (hcp _ hb).2 hne hst hslots
  have hsuf := dropCommon_suffix spines (d.records base) base
  generalize hdrop : dropCommon spines (d.records base) base = r at hk' hsuf
  have hiff : ∀ I : Numbering Hash, I.truncate k' = d.index.truncate k' →
      (((d.rolledBackTo base.hash).finalizeOn env' spines).2.index = I ↔
        d.SkippedFit base spines ∧ ((d.rolledBackTo r.2.hash).finalizeOn env r.1).2.index = I) := by
    intro I hI
    rw [← hdrop] at hk' ⊢
    exact finalizeOn_eq_iff h hproc spines hst hk hle hk' hI
  rw [hfull, eq_comm]
  by_cases hr : r.1 = []
  · -- the whole request is skipped: the chain stays as it is
    have hprefix : spines <+: d.records base := (dropCommon_fst_eq_nil _ _ _).1 (by rw [hdrop, hr])
    have hlast : (spines.map hash).getLast? = some r.2.hash := by
      have := dropCommon_snd_of_prefix spines _ base hprefix
      obtain ⟨s, rest, rfl⟩ := exists_cons_of_ne_nil hne
      rw [hdrop, List.getLast?_cons_cons] at this
      rw [List.getLast?_map, this]; rfl
    have hshort : d.finalize env false (r.1.map hash) (some r.2.hash) = (.ok (), d) := by
      rw [hr]; rfl
    rw [hshort, hiff d.index rfl, hr, hlast, Option.some.injEq]
    refine and_congr_right fun _ => ?_
    rw [finalizeOn_nil, h.valid.index_rolledBackTo_eq_iff hk']
    exact ⟨fun heq _ _ => heq, fun himp => himp hne hprefix⟩
  · have hst' : ∀ s ∈ r.1, s ∈ d.store.blocks := fun s hs => hst s (hsuf.subset hs)
    have hshort := finalize_of_base h hk' (hcp _ (by rw [hk']; rfl)).1 hr hst'
      (hslots.sublist hsuf.sublist)
    have hold := (@finalizeOn_outcome env r.1 _ (h.valid.rolledBackTo hk') hst').old
    rw [nr_head_rolledBackTo hk'] at hold
    rw [hshort, hiff _ (by rw [hold, ← nr_eq hk']; rfl)]
    have hnot : ¬ spines <+: d.records base := fun hpre => hr (by
      rw [← hdrop]; exact (dropCommon_fst_eq_nil _ _ _).2 hpre)
    exact ⟨fun hs => ⟨hs.1, fun _ hpre => absurd hpre hnot⟩, fun hs => ⟨hs.1, rfl⟩⟩

/-- A spine with a block beside it, a block on top of the spine, and a later spine on top of
    both. -/
def lateSide : FinChain :=
  fromGenesis ⟨[⟨1, [], 0, 0⟩, ⟨2, [1], 1, 1⟩, ⟨4, [1], 1, 1⟩, ⟨3, [2], 2, 2⟩, ⟨5, [3, 4], 3, 3⟩,
    ⟨6, [5], 4, 4⟩], by decide⟩ 1

/-- It after two calls, for the spines 2 and 5. -/
def lateSideDone : FinChain :=
  ((lateSide.finalize (failingOn []) false [2] (some 1)).2.finalize (failingOn []) false [5] (some 2)).2

theorem lateSide_finalizedBy : FinalizedBy (failingOn []).process lateSide
    ([⟨2, [1], 1, 1⟩] ++ [⟨5, [3, 4], 3, 3⟩]) lateSideDone := by
  have hfirst : FinalizedBy (failingOn []).process lateSide ([] ++ [⟨2, [1], 1, 1⟩])
      (lateSide.finalize (failingOn []) false [2] (some 1)).2 :=
    .call (failingOn []) .refl rfl (by simp) (by decide) (by decide) (by simp) (Prod.ext rfl rfl)
  exact .call (failingOn []) hfirst rfl (by simp) (by decide) (by decide) (by simp) (Prod.ext rfl rfl)

/-- Block 3 was finalized as a member of the chain of spine 5, after the side block 4.  A
    request for the spines 3, 5 and 6 on the base 2 skips 3 and 5 and leaves block 3 the number
    3; the full request gives it the number 2, before the side block. -/
theorem forwardFinalization_differs :
    FinalizedBy (failingOn []).process lateSide
        ([⟨2, [1], 1, 1⟩] ++ [⟨5, [3, 4], 3, 3⟩]) lateSideDone ∧
      lateSideDone.forwardFinalization [3, 5, 6] 2 = .ok ([6], 5) ∧
      (lateSideDone.finalize (failingOn []) false [6] (some 5)).2.index.numOf 3 = some 3 ∧
      (lateSideDone.finalize (failingOn []) false [6] (some 5)).2.index.numOf 4 = some 2 ∧
      (lateSideDone.finalize (failingOn []) false [3, 5, 6] (some 2)).2.index.numOf 3 = some 2 ∧
      (lateSideDone.finalize (failingOn []) false [3, 5, 6] (some 2)).2.index.numOf 4 = some 3 :=
  ⟨lateSide_finalizedBy, rfl, rfl, rfl, rfl, rfl⟩

theorem FitsAll.append_left : ∀ {ss ts : List Block} {base : Block}, c.FitsAll base (ss ++ ts) →
    c.FitsAll base ss
  | [], _, _, _ => trivial
  | _ :: _, _, _, h => ⟨h.1, FitsAll.append_left h.2⟩

/-- The chain of `sideBlock`, where both spines were finalized as spines: skipping them is
    right. -/
theorem forwardFinalization_same_sideBlock :
    ∃ rest base', sideBlockDone.forwardFinalization [2, 3] 1 = .ok (rest, base') ∧
      (sideBlockDone.finalize (failingOn []) false rest (some base')).2.index =
        (sideBlockDone.finalize (failingOn []) false [2, 3] (some 1)).2.index := by
  obtain ⟨rest, base', hfwd, hiff⟩ := forwardFinalization_same_iff (failingOn []) (failingOn [])
    sideBlock sideBlockDone _ [⟨2, [1], 1, 1⟩, ⟨3, [2, 4], 2, 2⟩] ⟨1, [], 0, 0⟩
    (fromGenesis_valid (by decide)) rfl sideBlock_dagOk (by decide) rfl sideBlock_finalizedBy
    (fun _ _ => ⟨rfl, rfl⟩) (by decide) rfl (Nat.zero_le _) (by decide) (by decide)
  refine ⟨rest, base', hfwd, hiff.2 ⟨?_, fun _ _ => rfl⟩⟩
  have hseg : sideBlockDone.segment 1 2 = [⟨4, [1], 1, 1⟩, ⟨3, [2, 4], 2, 2⟩] := rfl
  have hparent : sideBlockDone.dag.Parent 3 4 := ⟨⟨3, [2, 4], 2, 2⟩, rfl, by decide⟩
  have hall : sideBlockDone.FitsAll ⟨1, [], 0, 0⟩ [⟨2, [1], 1, 1⟩, ⟨3, [2, 4], 2, 2⟩] := by
    refine ⟨⟨?_, pairwise_singleton _ _⟩, ⟨?_, ?_⟩, trivial⟩
    · intro b hb
      obtain rfl : b = ⟨2, [1], 1, 1⟩ := mem_singleton.1 hb
      exact .refl
    · intro b hb
      change b ∈ sideBlockDone.segment 1 2 at hb
      rw [hseg, mem_cons, mem_singleton] at hb
      rcases hb with rfl | rfl
      · exact .single hparent
      · exact .refl
    · change (sideBlockDone.segment 1 2).Pairwise Block.FinBefore
      rw [hseg]
      exact pairwise_pair.2 (.inl (by decide))
  rintro ss ⟨ts, hts⟩ _
  rw [← hts] at hall
  exact hall.append_left

end FinChain

end Gwat
