/-
  A rollback followed by the same finalization gives the numbering back.
-/
import Gwat.Dag.Canonical
import Gwat.Dag.FinIndex

namespace Gwat

open GoLib List Numbering DagChain

namespace FinChain

variable {env env' : FinEnv} {process : Process} {c c' d d' : FinChain}
variable {spine b : Block} {chain ys spines xs : List Block} {e : FinChain} {o : SpineOrder}

/-! ## Chains that differ in unfinalized headers -/

/-- The same chain up to the state roots of blocks that are not finalized. -/
structure Agree (c c' : FinChain) : Prop where
  store : c'.store = c.store
  genesis : c'.genesis = c.genesis
  index : c'.index = c.index
  head : c'.head = c.head
  permits : c'.permits = c.permits
  root : ∀ h, (c.index.numOf h).isSome → c'.root h = c.root h

theorem Agree.dag (h : Agree c c') : c'.dag = c.dag := by
  unfold FinChain.dag; rw [h.store, h.index]

theorem Agree.nr (h : Agree c c') (x : Hash) : c'.nr x = c.nr x := by
  unfold FinChain.nr; rw [h.index]

theorem Agree.valid (h : Agree c c') (hc : c.Valid) : c'.Valid := by
  have hnr : c'.nr c'.head = c.nr c.head := by rw [h.nr, h.head]
  refine ⟨?_, by rw [hnr, h.head, h.index]; exact hc.head⟩
  rw [hnr]
  exact hc.numbered.congr h.index h.store h.genesis

theorem Agree.tryLock (h : Agree c c') : c.tryLock = none ∧ c'.tryLock = none ∨
      c.tryLock = some (c.spend 1) ∧ c'.tryLock = some (c'.spend 1) := by
  by_cases hp : c.permits = some 0
  · exact .inl ⟨tryLock_stopped hp, tryLock_stopped (h.permits.trans hp)⟩
  · have hl : c.CanLock 1 := fun p hp' => Nat.one_le_iff_ne_zero.2 fun he => hp (he ▸ hp')
    exact .inr ⟨tryLock_eq hl, tryLock_eq (fun p hp' => hl p (h.permits ▸ hp'))⟩

theorem Agree.assign (h : Agree c c') (x root : Hash) (n : ℕ) (isHead : Bool) :
    Agree (((c.setRoot x root).spend 1).assign n x isHead)
      (((c'.setRoot x root).spend 1).assign n x isHead) where
  store := h.store
  genesis := h.genesis
  index := congrArg (fun I : Numbering Hash => I.set n x) h.index
  head := by cases isHead <;> simp [FinChain.assign, spend, setRoot, h.head]
  permits := congrArg (Option.map (· - 1)) h.permits
  root y hy := by
    simp only [FinChain.assign, spend, setRoot, Function.update_apply] at hy ⊢
    split_ifs with hyx
    · rfl
    · exact h.root y ((Numbering.isSome_set.1 hy).resolve_left hyx)

theorem Agree.advance : ∀ (bs : List Block) (n : ℕ) (prev : Hash) {c c' : FinChain}, Agree c c' →
    c'.root prev = c.root prev →
    (FinChain.advance process n prev bs c').1 = (FinChain.advance process n prev bs c).1 ∧
      Agree (FinChain.advance process n prev bs c).2 (FinChain.advance process n prev bs c').2
  | [], _, _, _, _, h, _ => ⟨rfl, h⟩
  | b :: bs, n, prev, c, c', h, hprev => by
    unfold FinChain.advance updateFinalizingState
    rw [hprev]
    cases process (c.root prev) b with
    | error e => exact ⟨rfl, h⟩
    | ok root =>
      have hroot : Agree (c.setRoot b.hash root) (c'.setRoot b.hash root) := by
        refine ⟨h.store, h.genesis, h.index, h.head, h.permits, fun y hy => ?_⟩
        simp only [setRoot, Function.update_apply]
        split_ifs
        · rfl
        · exact h.root y hy
      rcases hroot.tryLock with ⟨hl, hl'⟩ | ⟨hl, hl'⟩
      · simp only [hl, hl']
        exact ⟨trivial, hroot⟩
      · simp only [hl, hl']
        obtain ⟨hk, ha⟩ := Agree.advance bs (n + 1) b.hash (h.assign b.hash root n bs.isEmpty)
          (by simp [FinChain.assign, spend, setRoot])
        exact ⟨congrArg (· + 1) hk, ha⟩

theorem Agree.advanceHead (h : Agree c c') (hc : c.Valid) (chain : List Block) :
    (c'.advanceHead process chain).1 = (c.advanceHead process chain).1 ∧
      Agree (c.advanceHead process chain).2 (c'.advanceHead process chain).2 := by
  unfold FinChain.advanceHead
  rw [h.nr, h.head]
  exact Agree.advance chain _ _ h (h.root _ (by rw [hc.head]; rfl))

/-! ## Chains that grow spine by spine -/

/-- A complete DAG with increasing slots whose finalized blocks are closed under parents. -/
structure DagOk (c : FinChain) : Prop where
  slots : c.dag.SlotOrdered
  closed : c.dag.FinClosed
  complete : ∀ b ∈ c.store.blocks, ∀ p ∈ b.parentHashes, (c.store.get p).isSome

theorem DagOk.isDagChain (h : c.DagOk) (hs : spine ∈ c.store.blocks)
    (hn : c.index.numOf spine.hash = none) (o : SpineOrder) :
    ∃ chain, spineGetDagChain c.dag o spine = .ok chain ∧ IsDagChain c.dag spine.hash chain :=
  spineGetDagChain_isDagChain h.slots h.closed hs hn
    (ancestorsStored_of_closed h.complete hs) o

theorem DagOk.extended (h : c.DagOk) {spine : Hash} (hchain : IsDagChain c.dag spine chain)
    (hext : Extended c spine chain d) : d.DagOk := by
  have hstore : d.dag.store = c.dag.store := hext.store
  have hparent : ∀ x p, d.dag.Parent x p → c.dag.Parent x p := fun x p ⟨b, hb, hp⟩ =>
    ⟨b, hstore ▸ hb, hp⟩
  refine ⟨?_, fun x p hxp hx => ?_, by rw [hext.store]; exact h.complete⟩
  · intro b hb q hq
    exact h.slots b (hstore ▸ hb) q (hstore ▸ hq)
  · rcases (hext.isSome_iff x).1 hx with hx | hx
    · obtain ⟨b, hb, rfl⟩ := mem_map.1 hx
      obtain ⟨hbs, hanc, -⟩ := (hchain.mem b).1 hb
      refine (hext.isSome_iff p).2 ?_
      cases hp : c.index.numOf p with
      | some n => exact .inr rfl
      | none =>
        have hmem : p ∈ b.parentHashes := (parent_iff hbs).1 (hparent _ _ hxp)
        obtain ⟨q, hq⟩ := Option.isSome_iff_exists.1 (h.complete b hbs p hmem)
        obtain ⟨hqs, rfl⟩ := BlockStore.get_eq_some.1 hq
        exact .inl (mem_map_of_mem ((hchain.mem q).2 ⟨hqs, hanc.tail (hparent _ _ hxp), hp⟩))
    · exact (hext.isSome_iff p).2 (.inr (h.closed x p (hparent x p hxp) hx))

/-- `d` is reached from `c` by finalizing the chains of the spines one after the other. -/
inductive Grows (process : Process) : FinChain → List Block → FinChain → Prop
  | nil (c : FinChain) : Grows process c [] c
  | cons {c d e : FinChain} {spine : Block} {rest chain : List Block} {o : SpineOrder}
      (hs : spine ∈ c.store.blocks) (hn : c.index.numOf spine.hash = none)
      (hchain : spineGetDagChain c.dag o spine = .ok chain)
      (hadv : c.advanceHead process chain = (chain.length, d)) (hrest : Grows process d rest e) :
      Grows process c (spine :: rest) e

theorem Grows.append (h : Grows process c xs d) (h' : Grows process d ys e) :
    Grows process c (xs ++ ys) e := by
  induction h with
  | nil c => exact h'
  | cons hs hn hchain hadv _ ih => exact .cons hs hn hchain hadv (ih h')

theorem Grows.split : ∀ {xs : List Block} {c : FinChain},
    Grows process c (xs ++ ys) e → ∃ d, Grows process c xs d ∧ Grows process d ys e
  | [], c, h => ⟨c, .nil c, h⟩
  | _ :: _, _, .cons hs hn hchain hadv hrest => by
    obtain ⟨d, h₁, h₂⟩ := Grows.split hrest
    exact ⟨d, .cons hs hn hchain hadv h₁, h₂⟩

theorem ne_nil_of_chain (hs : spine ∈ c.store.blocks) (hn : c.index.numOf spine.hash = none)
    (hchain : spineGetDagChain c.dag o spine = .ok chain) : chain ≠ [] := by
  intro he
  have hsome : (c.index.numOf spine.hash).isSome := (spineGetDagChain_fresh hs hchain).nil.1 he
  simp [hn] at hsome

theorem Valid.extended_of_chain (hc : c.Valid) (hs : spine ∈ c.store.blocks)
    (hn : c.index.numOf spine.hash = none) (hchain : spineGetDagChain c.dag o spine = .ok chain)
    (hadv : c.advanceHead process chain = (chain.length, d)) : Extended c spine.hash chain d :=
  hc.extended (spineGetDagChain_fresh hs hchain) (ne_nil_of_chain hs hn hchain) hadv

/-- What a growing chain keeps. -/
structure Kept (c : FinChain) (spines : List Block) (d : FinChain) : Prop where
  valid : d.Valid
  dagOk : d.DagOk
  store : d.store = c.store
  genesis : d.genesis = c.genesis
  old : d.index.truncate (c.nr c.head) = c.index
  root : ∀ h, (c.index.numOf h).isSome → d.root h = c.root h
  running : c.permits = none → d.permits = none
  head : (c.head :: spines.map Block.hash).getLast? = some d.head
  stored : ∀ s ∈ spines, s ∈ c.store.blocks

theorem Grows.kept (h : Grows process c spines d) (hc : c.Valid) (hdag : c.DagOk) :
    Kept c spines d := by
  induction h with
  | nil c =>
    exact ⟨hc, hdag, rfl, rfl, hc.numbered.upTo.truncate_self, fun _ _ => rfl, id, rfl, by simp⟩
  | @cons c d e spine rest chain o hs hn hchain hadv _ ih =>
    have hext := hc.extended_of_chain hs hn hchain hadv
    obtain ⟨chain', hchain', hdc⟩ := hdag.isDagChain hs hn o
    obtain rfl : chain' = chain := Except.ok.inj (hchain'.symm.trans hchain)
    have ih := ih hext.valid (hdag.extended hdc hext)
    have hsome : ∀ h, (c.index.numOf h).isSome → (d.index.numOf h).isSome := fun h hh =>
      (hext.isSome_iff h).2 (.inr hh)
    refine ⟨ih.valid, ih.dagOk, ih.store.trans hext.store, ih.genesis.trans hext.genesis, ?_,
      fun h hh => (ih.root h (hsome h hh)).trans (hext.root h hh),
      fun hp => ih.running (hext.running hp), ?_, forall_mem_cons.2 ⟨hs, ?_⟩⟩
    · rw [← truncate_truncate (hext.nr_le hc), ih.old, hext.old]
    · rw [← ih.head, hext.head, map_cons, List.getLast?_cons_cons]
    · rw [← hext.store]; exact ih.stored

/-! ## Calls of `Finalize` -/

/-- The chains that `Finalize` reaches from `c`: a series of successful calls, each on top of
    the head, that together finalized the given spines. -/
inductive FinalizedBy (process : Process) (c : FinChain) : List Block → FinChain → Prop
  | refl : FinalizedBy process c [] c
  | call {spines new : List Block} {d e : FinChain} (env : FinEnv)
      (hprev : FinalizedBy process c spines d) (henv : env.process = process) (hne : new ≠ [])
      (hst : ∀ b ∈ new, b ∈ d.store.blocks) (hnew : ∀ b ∈ new, d.index.numOf b.hash = none)
      (hslots : new.Pairwise (·.slot < ·.slot))
      (hcall : d.finalize env false (new.map Block.hash) (some d.head) = (.ok (), e)) :
      FinalizedBy process c (spines ++ new) e

theorem DagOk.numOf_later (h : c.DagOk) (hs : spine ∈ c.store.blocks)
    (hchain : IsDagChain c.dag spine.hash chain) (hext : Extended c spine.hash chain d)
    (hb : b ∈ c.store.blocks) (hlt : spine.slot < b.slot) (hn : c.index.numOf b.hash = none) :
    d.index.numOf b.hash = none := by
  by_contra hne
  have hmem := (hext.isSome_iff b.hash).1 (Option.ne_none_iff_isSome.1 hne)
  rcases hmem with hmem | hsome
  · obtain ⟨x, hx, hxb⟩ := mem_map.1 hmem
    obtain ⟨hxs, hanc, -⟩ := (hchain.mem x).1 hx
    obtain rfl : x = b := inj_on_of_nodup_map c.store.nodup hxs hb hxb
    have hst : c.dag.AncestorsStored spine.hash :=
      ancestorsStored_of_closed h.complete hs
    rcases slot_lt_of_ancestor h.slots hs hst hanc x hxs rfl with rfl | hlt'
    · omega
    · omega
  · simp [hn] at hsome

theorem grows_of_finalizeOn : ∀ (spines : List Block) {c : FinChain}, c.Valid → c.DagOk →
    (∀ b ∈ spines, b ∈ c.store.blocks) → (∀ b ∈ spines, c.index.numOf b.hash = none) →
    spines.Pairwise (·.slot < ·.slot) → c.finalizeOn env spines = (.ok (), d) →
    Grows env.process c spines d
  | [], c, _, _, _, _, _, hrun => by
    obtain rfl : c = d := congrArg Prod.snd hrun
    exact .nil c
  | spine :: rest, c, hc, hdag, hst, hnew, hslots, hrun => by
    obtain ⟨hs, hst⟩ := forall_mem_cons.1 hst
    obtain ⟨hn, hnew⟩ := forall_mem_cons.1 hnew
    obtain ⟨hlt, hslots⟩ := pairwise_cons.1 hslots
    cases @Valid.round env c hc spine hs rest with
    | failed e _ hres => rw [hres] at hrun; cases hrun
    | skipped _ hnum _ => simp [hn] at hnum
    | unfinished _ _ _ e _ _ _ _ _ _ _ hres => rw [hres] at hrun; cases hrun
    | finished chain d₁ hchain hne hadv hext hres =>
      obtain ⟨chain', hchain', hdc⟩ := hdag.isDagChain hs hn (env.order spine.hash)
      obtain rfl : chain' = chain := Except.ok.inj (hchain'.symm.trans hchain)
      rw [hres] at hrun
      exact .cons hs hn hchain hadv (grows_of_finalizeOn rest hext.valid (hdag.extended hdc hext)
        (by rw [hext.store]; exact hst)
        (fun b hb => hdag.numOf_later hs hdc hext (hst b hb) (hlt b hb) (hnew b hb)) hslots hrun)

theorem grows_of_finalizedBy (h : FinalizedBy process c spines d) (hc : c.Valid) (hdag : c.DagOk) :
    Grows process c spines d := by
  induction h with
  | refl => exact .nil c
  | @call spines new d e env _ henv hne hst hnew hslots hcall ih =>
    have hkept := ih.kept hc hdag
    rw [finalize_eq hne hst hslots, rollbackFinalization_head hkept.valid, andThen_ok] at hcall
    exact ih.append (henv ▸ grows_of_finalizeOn new hkept.valid hkept.dagOk hst hnew hslots hcall)

/-- On a chain that agrees with the one it grew from, the loop of `Finalize` makes the same
    chain grow again, in whatever order it ranges over its maps. -/
theorem Grows.replay (h : Grows env.process c spines d) (hc : c.Valid) (hdag : c.DagOk)
    (ha : Agree c c') : ∃ d', c'.finalizeOn env spines = (.ok (), d') ∧ Agree d d' := by
  induction h generalizing c' with
  | nil c => exact ⟨c', rfl, ha⟩
  | @cons c d e spine rest chain o hs hn hchain hadv _ ih =>
    have hext := hc.extended_of_chain hs hn hchain hadv
    obtain ⟨chain₁, hchain₁, hdc⟩ := hdag.isDagChain hs hn o
    obtain rfl : chain₁ = chain := Except.ok.inj (hchain₁.symm.trans hchain)
    -- the chain of the spine does not depend on the order of the maps
    obtain ⟨chain₂, hchain₂, hdc₂⟩ := hdag.isDagChain hs hn (env.order spine.hash)
    obtain rfl : chain₁ = chain₂ := hdc.unique hdc₂
    rw [← ha.dag] at hchain₂
    obtain ⟨hk, hagree⟩ := @Agree.advanceHead env.process c c' ha hc chain₁
    rw [hadv] at hk hagree
    obtain ⟨e, hrun⟩ := (ha.valid hc).finalizeOn_cons (ha.store ▸ hs) hchain₂ rest
    rw [hrun, if_neg (ne_nil_of_chain hs hn hchain), if_pos hk]
    exact ih hext.valid (hdag.extended hdc hext) hagree

/-! ## The rollback -/

/-- A rollback on a running chain fails at most for want of a checkpoint, and then it has
    been made already. -/
theorem rollbackFinalization_running (hc : c.Valid) (hp : c.permits = none) {base : Hash} {n : ℕ}
    (hn : c.index.numOf base = some n) :
    ∃ r, c.rollbackFinalization env base (c.nr c.head) = (r, c.rolledBackTo base) ∧
      (env.hasCp base → r = .ok ()) := by
  by_cases hb : base = c.head
  · subst hb
    refine ⟨.ok (), ?_, fun _ => rfl⟩
    rw [rollbackFinalization_head hc, rolledBackTo, hc.numbered.rolledBack_self]
  · refine ⟨if env.hasCp base then .ok () else .error .cpNotFound, ?_, fun hcp => if_pos hcp⟩
    rw [rollbackFinalization_eq hc hn hb (canLock_of_running hp _),
      @spend_running (c.rolledBackTo base) hp]

theorem Kept.agree (h : Kept c spines d) (hc : c.Valid) (hp : c.permits = none) :
    Agree c (d.rolledBackTo c.head) := by
  have hnr : d.nr c.head = c.nr c.head := nr_eq (numOf_of_truncate_eq h.old hc.head)
  refine ⟨h.store, h.genesis, ?_, rfl, (h.running hp).trans hp.symm, fun x hx => ?_⟩
  · rw [← h.old, ← hnr]; rfl
  · obtain ⟨n, hn⟩ := Option.isSome_iff_exists.1 hx
    have hle : ¬ d.nr c.head < d.nr x := by
      rw [hnr, nr_eq (numOf_of_truncate_eq h.old hn), Nat.not_lt]
      exact hc.numbered.upTo.le hn
    rw [← h.root x hx]
    exact if_neg hle

/-- Rollback and re-finalization are the identity on the numbering.  Let a series of calls
    finalize the spines `pre ++ post` on a running chain, and let `base` be the last spine of
    `pre`, or the head before the calls.  A rollback to `base` removes exactly the numbers above
    its own, in both directions of the index, and makes it the head; finalizing `post` again, with
    any order of the maps, gives every block its number back and restores the head. -/
theorem rollback_refinalize (env : FinEnv) (c d : FinChain) (pre post : List Block) (base : Hash)
    (hc : c.Valid) (hp : c.permits = none) (hdag : c.DagOk)
    (hrun : FinalizedBy env.process c (pre ++ post) d)
    (hslots : (pre ++ post).Pairwise (·.slot < ·.slot))
    (hbase : (c.head :: pre.map Block.hash).getLast? = some base) :
    ∃ r c₂, d.rollbackFinalization env base (d.nr d.head) = (r, c₂) ∧
      (env.hasCp base → r = .ok ()) ∧
      (∀ h n, c₂.index.numOf h = some n ↔ d.index.numOf h = some n ∧ n ≤ d.nr base) ∧
      (∀ n h, c₂.index.keyAt n = some h ↔ d.index.keyAt n = some h ∧ n ≤ d.nr base) ∧
      c₂.head = base ∧
      ∃ d₂, c₂.finalize env false (post.map Block.hash) (some base) = (.ok (), d₂) ∧
        d₂.index = d.index ∧ d₂.head = d.head := by
  obtain ⟨b, hpre, hpost⟩ := Grows.split (grows_of_finalizedBy hrun hc hdag)
  have hb := hpre.kept hc hdag
  have hd := hpost.kept hb.valid hb.dagOk
  obtain rfl : base = b.head := Option.some.inj (hbase.symm.trans hb.head)
  obtain ⟨r, hroll, hr⟩ := @rollbackFinalization_running env d hd.valid
    (hd.running (hb.running hp)) b.head _ (numOf_of_truncate_eq hd.old hb.valid.head)
  have hagree := hd.agree hb.valid (hb.running hp)
  refine ⟨r, d.rolledBackTo b.head, hroll, hr, fun h n => numOf_truncate,
    fun n h => keyAt_truncate, rfl, ?_⟩
  obtain ⟨d₂, hloop, ha⟩ := hpost.replay hb.valid hb.dagOk hagree
  refine ⟨d₂, ?_, ha.index, ha.head⟩
  by_cases hne : post = []
  · subst hne; exact hloop
  · have hst : ∀ x ∈ post, x ∈ (d.rolledBackTo b.head).store.blocks := fun x hx => by
      rw [hagree.store]; exact hd.stored x hx
    rw [finalize_eq hne hst (pairwise_append.1 hslots).2.1]
    have hhead := @rollbackFinalization_head env _ (hagree.valid hb.valid)
    rw [show (d.rolledBackTo b.head).head = b.head from rfl] at hhead ⊢
    rw [hhead, andThen_ok, hloop]

/-- The genesis block, a spine with a block beside it, and a spine on top of both. -/
def sideBlock : FinChain :=
  fromGenesis ⟨[⟨1, [], 0, 0⟩, ⟨2, [1], 1, 1⟩, ⟨4, [1], 1, 1⟩, ⟨3, [2, 4], 2, 2⟩], by decide⟩ 1

theorem sideBlock_dagOk : sideBlock.DagOk :=
  ⟨by unfold DagChain.SlotOrdered; decide, by rw [finClosed_iff]; decide, by decide⟩

/-- Two calls on it, for the spines 2 and 3. -/
def sideBlockDone : FinChain :=
  ((sideBlock.finalize (failingOn []) false [2] (some 1)).2.finalize (failingOn []) false [3] (some 2)).2

theorem sideBlock_finalizedBy : FinalizedBy (failingOn []).process sideBlock
    ([⟨2, [1], 1, 1⟩] ++ [⟨3, [2, 4], 2, 2⟩]) sideBlockDone := by
  have hfirst : FinalizedBy (failingOn []).process sideBlock ([] ++ [⟨2, [1], 1, 1⟩])
      (sideBlock.finalize (failingOn []) false [2] (some 1)).2 :=
    .call (failingOn []) .refl rfl (by simp) (by decide) (by decide) (by simp) (Prod.ext rfl rfl)
  exact .call (failingOn []) hfirst rfl (by simp) (by decide) (by decide) (by simp) (Prod.ext rfl rfl)

theorem rollback_refinalize_sideBlock :
    sideBlockDone.index.numOf 4 = some 2 ∧ sideBlockDone.head = 3 ∧
    ∃ c₂ d₂, sideBlockDone.rollbackFinalization (failingOn []) 2 3 = (.ok (), c₂) ∧
      c₂.index.numOf 4 = none ∧ c₂.head = 2 ∧
      c₂.finalize (failingOn []) false [3] (some 2) = (.ok (), d₂) ∧
      d₂.index.numOf 4 = some 2 ∧ d₂.head = 3 := by
  obtain ⟨r, c₂, hroll, hr, hnum, -, hhead, d₂, hfin, hindex, hhead₂⟩ := rollback_refinalize (failingOn [])
    sideBlock sideBlockDone [⟨2, [1], 1, 1⟩] [⟨3, [2, 4], 2, 2⟩] 2
    (fromGenesis_valid (by decide)) rfl sideBlock_dagOk sideBlock_finalizedBy (by decide) rfl
  have hfour : sideBlockDone.index.numOf 4 = some 2 := rfl
  refine ⟨hfour, rfl, c₂, d₂, by rw [← hr rfl]; exact hroll, ?_, hhead, hfin, by rw [hindex]; rfl,
    by rw [hhead₂]; rfl⟩
  by_contra hne
  obtain ⟨n, hn⟩ := Option.ne_none_iff_exists'.1 hne
  obtain ⟨h₁, h₂⟩ := (hnum 4 n).1 hn
  obtain rfl : 2 = n := Option.some.inj (hfour.symm.trans h₁)
  have : sideBlockDone.nr 2 = 1 := rfl
  omega

end FinChain

end Gwat
