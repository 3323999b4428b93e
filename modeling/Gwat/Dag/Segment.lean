/-
  Stretches of the finalized chain and what they remember of their finalization.
-/
import Gwat.Dag.AllOrNothing
import Gwat.Dag.Rollback

namespace Gwat

open GoLib List BlockStore Numbering Function

namespace FinChain

variable {process : Process} {c d e : FinChain} {m n k : ℕ}
variable {b spine : Block} {x base prev a : Hash} {bs xs ys chain spines : List Block} {j : ℕ}

/-! ## Blocks by number -/

/-- The `k` blocks with the numbers after `n`. -/
def segment (c : FinChain) (n k : ℕ) : List Block :=
  (List.range' (n + 1) k).filterMap c.getBlockByNumber

theorem segment_add (c : FinChain) (n j k : ℕ) :
    c.segment n (j + k) = c.segment n j ++ c.segment (n + j) k := by
  unfold segment
  rw [← filterMap_append, Nat.add_right_comm, range'_append_1]

theorem getBlockByNumber_eq_some :
    c.getBlockByNumber n = some b ↔ b ∈ c.store.blocks ∧ c.index.keyAt n = some b.hash := by
  unfold getBlockByNumber
  rw [Option.bind_eq_some_iff]
  constructor
  · rintro ⟨h, hk, hb⟩
    obtain ⟨hst, rfl⟩ := BlockStore.get_eq_some.1 hb
    exact ⟨hst, hk⟩
  · rintro ⟨hb, hk⟩
    exact ⟨b.hash, hk, BlockStore.get_of_mem hb⟩

theorem Numbered.segment_succ (hc : c.Numbered m) (hn : n < m) :
    ∃ b, c.getBlockByNumber (n + 1) = some b ∧ c.segment n (k + 1) = b :: c.segment (n + 1) k := by
  obtain ⟨b, hb, -⟩ := hc.getBlockByNumber hn
  refine ⟨b, hb, ?_⟩
  unfold segment
  rw [range'_succ, filterMap_cons, hb]

theorem Numbered.length_segment (hc : c.Numbered m) (h : n + k ≤ m) : (c.segment n k).length = k := by
  induction k generalizing n with
  | zero => rfl
  | succ k ih =>
    obtain ⟨b, -, hb⟩ := @Numbered.segment_succ c m n k hc (by omega)
    rw [hb, length_cons, ih (by omega)]

theorem mem_segment : b ∈ c.segment n k ↔
    ∃ j, n < j ∧ j ≤ n + k ∧ b ∈ c.store.blocks ∧ c.index.keyAt j = some b.hash := by
  unfold segment
  simp only [mem_filterMap, mem_range'_1, getBlockByNumber_eq_some]
  constructor
  · rintro ⟨j, hj, hb⟩; exact ⟨j, by omega, by omega, hb⟩
  · rintro ⟨j, h₁, h₂, hb⟩; exact ⟨j, by omega, hb⟩

theorem Numbered.segment_split (hc : c.Numbered m) (h : n + k ≤ m)
    (hs : c.segment n k = xs ++ b :: ys) :
    c.index.numOf b.hash = some (n + xs.length + 1) ∧ b ∈ c.store.blocks ∧
      xs ++ [b] = c.segment n (xs.length + 1) ∧
      ys = c.segment (n + xs.length + 1) (k - (xs.length + 1)) := by
  have hlen : k = xs.length + (ys.length + 1) := by
    rw [← hc.length_segment h, hs, length_append, length_cons]
  obtain ⟨x, hx, hcons⟩ := @Numbered.segment_succ c m (n + xs.length) ys.length hc (by omega)
  have hxs := @Numbered.length_segment c m n xs.length hc (by omega)
  rw [hlen, segment_add, hcons] at hs
  obtain ⟨h₁, h₂⟩ := append_inj hs hxs
  obtain ⟨rfl, hys⟩ := cons.inj h₂
  obtain ⟨hst, hkey⟩ := getBlockByNumber_eq_some.1 hx
  obtain ⟨z, hz, hone⟩ := @Numbered.segment_succ c m (n + xs.length) 0 hc (by omega)
  obtain rfl : x = z := Option.some.inj (hx.symm.trans hz)
  refine ⟨(hc.upTo.inverse _ _).2 hkey, hst, ?_, ?_⟩
  · rw [segment_add, hone, h₁]; rfl
  · rw [show k - (xs.length + 1) = ys.length by omega, hys]

/-! ## Chains that can be replayed -/

/-- What the finalization of the blocks above the number `n` left behind. -/
structure Replayable (process : Process) (n : ℕ) (c : FinChain) : Prop where
  valid : c.Valid
  slots : c.dag.SlotOrdered
  complete : ∀ b ∈ c.store.blocks, ∀ p ∈ b.parentHashes, (c.store.get p).isSome
  running : c.permits = none
  /-- Parents have smaller numbers, or numbers from before. -/
  parents : ∀ b ∈ c.store.blocks, ∀ k, c.index.numOf b.hash = some k → ∀ p ∈ b.parentHashes,
    ∃ j, c.index.numOf p = some j ∧ (j < k ∨ j ≤ n)
  /-- Each block was processed on the state of the one before. -/
  linked : ∀ k, n ≤ k → ∀ p b, c.index.keyAt k = some p → c.getBlockByNumber (k + 1) = some b →
    process (c.root p) b = .ok (c.root b.hash)

/-- The chain that started from `c` above its head. -/
theorem Valid.replayable (hc : c.Valid) (hdag : c.DagOk) (hp : c.permits = none) :
    Replayable process (c.nr c.head) c where
  valid := hc
  slots := hdag.slots
  complete := hdag.complete
  running := hp
  parents b hb k hk p hpar := by
    have hsome := hdag.closed b.hash p ((DagChain.parent_iff hb).2 hpar)
      (show (c.index.numOf b.hash).isSome by rw [hk]; rfl)
    obtain ⟨j, hj⟩ := Option.isSome_iff_exists.1 hsome
    exact ⟨j, hj, .inr (hc.numbered.upTo.le hj)⟩
  linked k hk p b _ hb := by
    have := hc.numbered.upTo.keyAt_eq_none (Nat.lt_succ_of_le hk)
    rw [getBlockByNumber, this] at hb
    cases hb

theorem Replayable.dagOk (h : Replayable process n c) : c.DagOk where
  slots := h.slots
  closed := by
    rintro x p ⟨b, hb, hp⟩ hx
    obtain ⟨hbs, rfl⟩ := BlockStore.get_eq_some.1 hb
    obtain ⟨k, hk⟩ := Option.isSome_iff_exists.1 hx
    obtain ⟨j, hj, -⟩ := h.parents b hbs k hk p hp
    show (c.index.numOf p).isSome
    rw [hj]; rfl
  complete := h.complete

theorem Replayable.ancestor (h : Replayable process n c) (ha : c.dag.AncestorOrSelf x a)
    (hx : c.index.numOf x = some k) : ∃ j, c.index.numOf a = some j ∧ (j ≤ k ∨ j ≤ n) := by
  induction ha with
  | refl => exact ⟨k, hx, .inl le_rfl⟩
  | @tail y z _ hp ih =>
    obtain ⟨j, hj, hle⟩ := ih
    obtain ⟨b, hb, hz⟩ := hp
    obtain ⟨hbs, rfl⟩ := BlockStore.get_eq_some.1 hb
    obtain ⟨i, hi, hlt⟩ := h.parents b hbs j hj z hz
    exact ⟨i, hi, by omega⟩

theorem nr_head_rolledBackTo (hk : c.index.numOf base = some k) :
    (c.rolledBackTo base).nr (c.rolledBackTo base).head = k :=
  nr_eq (Numbering.numOf_truncate.2 ⟨hk, (nr_eq hk).ge⟩)

theorem Replayable.rolledBackTo (h : Replayable process n c) (hk : c.index.numOf base = some k)
    (hn : n ≤ k) : Replayable process n (c.rolledBackTo base) := by
  have hnr : c.nr base = k := nr_eq hk
  refine ⟨h.valid.rolledBackTo hk, h.slots, h.complete, h.running, ?_, ?_⟩
  · intro b hb i hi p hp
    obtain ⟨hi, hle⟩ := Numbering.numOf_truncate.1 hi
    obtain ⟨j, hj, hlt⟩ := h.parents b hb i hi p hp
    exact ⟨j, Numbering.numOf_truncate.2 ⟨hj, by omega⟩, hlt⟩
  · intro i hi p b hp hb
    obtain ⟨hbs, hkey⟩ := getBlockByNumber_eq_some.1 hb
    obtain ⟨hp, -⟩ := Numbering.keyAt_truncate.1 hp
    obtain ⟨hkey, hle⟩ := Numbering.keyAt_truncate.1 hkey
    have hroot : ∀ x j, c.index.keyAt j = some x → j ≤ c.nr base →
        (c.rolledBackTo base).root x = c.root x := by
      intro x j hx hj
      refine if_neg ?_
      rw [nr_eq ((h.valid.numbered.upTo.inverse x j).2 hx)]
      exact Nat.not_lt.2 hj
    rw [hroot p i hp (by omega), hroot b.hash (i + 1) hkey hle]
    exact h.linked i hi p b hp (getBlockByNumber_eq_some.2 ⟨hbs, hkey⟩)

/-! ## Finalizing a chain leaves it replayable -/

theorem advance_cons_eq {x : Block}
    (h : advance process n prev (x :: bs) c = ((x :: bs).length, d)) :
    ∃ root, process (c.root prev) x = .ok root ∧ advance process (n + 1) x.hash bs
        (((c.setRoot x.hash root).spend 1).assign n x.hash bs.isEmpty) = (bs.length, d) := by
  unfold advance at h
  split at h
  · cases h
  · next c₁ hs =>
    obtain ⟨root, hproc, rfl⟩ := updateFinalizingState_eq_ok hs
    refine ⟨root, hproc, ?_⟩
    split at h
    · cases h
    · next c₂ hl =>
      obtain rfl := tryLock_eq_some hl
      rw [Prod.mk.injEq, length_cons, Nat.add_right_cancel_iff] at h
      exact Prod.ext h.1 h.2

theorem advanced_of_eq (h : advance process n prev bs c = (bs.length, d)) :
    Advanced c n bs bs.length d := by
  have := @advance_advanced process bs n prev c
  rwa [h] at this

theorem Advanced.index_eq (h : Advanced c n bs bs.length d) :
    d.index = c.index.pushAll n (bs.map Block.hash) := by
  rw [h.index, take_length]

theorem advance_linked : ∀ (bs : List Block) (n : ℕ) (prev : Hash) {c d : FinChain},
    c.index.UpTo n → c.index.keyAt n = some prev → (bs.map Block.hash).Nodup →
    (∀ b ∈ bs, b ∈ c.store.blocks ∧ c.index.numOf b.hash = none) →
    advance process (n + 1) prev bs c = (bs.length, d) → ∀ k, n ≤ k → ∀ p b,
    d.index.keyAt k = some p → d.getBlockByNumber (k + 1) = some b →
    process (d.root p) b = .ok (d.root b.hash)
  | [], n, prev, c, d, hup, _, _, _, hadv, k, hk, p, b, _, hb => by
    obtain rfl : c = d := congrArg Prod.snd hadv
    have := hup.keyAt_eq_none (Nat.lt_succ_of_le hk)
    rw [getBlockByNumber, this] at hb
    cases hb
  | x :: bs, n, prev, c, d, hup, hprev, hnd, hmem, hadv, k, hk, p, b, hp, hb => by
    have hall := advanced_of_eq hadv
    obtain ⟨root, hproc, hrest⟩ := advance_cons_eq hadv
    obtain ⟨hx, hnd'⟩ := nodup_cons.1 hnd
    obtain ⟨⟨hxs, hxn⟩, hmem'⟩ := forall_mem_cons.1 hmem
    rcases Nat.eq_or_lt_of_le hk with rfl | hlt
    · -- the block `x` itself, processed on the state of `prev`
      obtain ⟨hbs, hkey⟩ := getBlockByNumber_eq_some.1 hb
      rw [hall.index_eq, keyAt_pushAll_of_lt _ _ (Nat.lt_succ_self n), hprev] at hp
      rw [hall.index_eq, ← Nat.add_zero (n + 1), keyAt_pushAll _ _ _ 0 (by simp)] at hkey
      obtain rfl := Option.some.inj hp
      obtain rfl : x = b := inj_on_of_nodup_map c.store.nodup hxs (by rwa [← hall.store])
        (Option.some.inj hkey)
      have hprevn : prev ∉ (x :: bs).map Block.hash := by
        intro hin
        obtain ⟨y, hy, rfl⟩ := mem_map.1 hin
        have := (hup.inverse _ n).2 hprev
        rw [(hmem y hy).2] at this
        cases this
      rw [hall.root prev hprevn, hproc, (advanced_of_eq hrest).root x.hash hx]
      exact congrArg Except.ok (update_self x.hash root c.root).symm
    · refine advance_linked bs (n + 1) x.hash (hup.set_succ hxn) (update_self ..) hnd' ?_
        hrest k hlt p b hp hb
      intro y hy
      have hne : y.hash ≠ x.hash := fun he => hx (he ▸ mem_map_of_mem hy)
      exact ⟨(hmem' y hy).1, (update_of_ne hne _ _).trans (hmem' y hy).2⟩

theorem Replayable.extend (h : Replayable process n c) {o : SpineOrder}
    (hs : spine ∈ c.store.blocks) (hn : c.index.numOf spine.hash = none)
    (hchain : spineGetDagChain c.dag o spine = .ok chain)
    (hadv : c.advanceHead process chain = (chain.length, d)) : Replayable process n d := by
  have hext := h.valid.extended_of_chain hs hn hchain hadv
  have hfresh := spineGetDagChain_fresh hs hchain
  obtain ⟨chain', hchain', hdc⟩ := h.dagOk.isDagChain hs hn o
  obtain rfl : chain' = chain := Except.ok.inj (hchain'.symm.trans hchain)
  have hdag := h.dagOk.extended hdc hext
  have hall := advanced_of_eq hadv
  have hup := hext.valid.numbered.upTo
  have hkey := (h.valid.numbered.upTo.inverse _ _).1 h.valid.head
  -- the numbers of the chain
  have hnum : ∀ i (hi : i < chain'.length),
      d.index.numOf chain'[i].hash = some (c.nr c.head + 1 + i) := by
    intro i hi
    rw [hup.inverse, hall.index_eq, keyAt_pushAll _ _ _ i (by simpa using hi)]
    simp [hi]
  refine ⟨hext.valid, hdag.slots, hdag.complete, hext.running h.running, ?_, ?_⟩
  · intro b hb k hk p hp
    rw [hext.store] at hb
    cases hbn : c.index.numOf b.hash with
    | some i =>
      obtain ⟨j, hj, hlt⟩ := h.parents b hb i hbn p hp
      obtain rfl : i = k :=
        Option.some.inj ((numOf_of_truncate_eq hext.old hbn).symm.trans hk)
      exact ⟨j, numOf_of_truncate_eq hext.old hj, hlt⟩
    | none =>
      have hbc : b ∈ chain' := by
        have := (hext.isSome_iff b.hash).1 (by rw [hk]; rfl)
        rcases this with hin | hin
        · obtain ⟨y, hy, hyb⟩ := mem_map.1 hin
          obtain rfl := inj_on_of_nodup_map c.store.nodup (hfresh.mem y hy).1 hb hyb
          exact hy
        · simp [hbn] at hin
      obtain ⟨i, hi, rfl⟩ := getElem_of_mem hbc
      obtain rfl : c.nr c.head + 1 + i = k := Option.some.inj ((hnum i hi).symm.trans hk)
      cases hpn : c.index.numOf p with
      | some j =>
        have := h.valid.numbered.upTo.le hpn
        exact ⟨j, numOf_of_truncate_eq hext.old hpn, .inl (by omega)⟩
      | none =>
        -- an unfinalized parent stands before its child
        obtain ⟨q, hq⟩ := Option.isSome_iff_exists.1 (h.complete _ hb p hp)
        obtain ⟨hqs, rfl⟩ := BlockStore.get_eq_some.1 hq
        obtain ⟨-, hanc, -⟩ := (hdc.mem _).1 hbc
        have hqc : q ∈ chain' :=
          (hdc.mem q).2 ⟨hqs, hanc.tail ((DagChain.parent_iff hb).2 hp), hpn⟩
        obtain ⟨j, hj, rfl⟩ := getElem_of_mem hqc
        exact ⟨_, hnum j hj, .inl (by have := hdc.parent_lt h.slots hj hi hp; omega)⟩
  · intro k hk p b hp hb
    rcases Nat.lt_or_ge k (c.nr c.head) with hlt | hge
    · -- both blocks were finalized before
      have hold : ∀ j, j ≤ c.nr c.head → d.index.keyAt j = c.index.keyAt j := by
        intro j hj
        rw [hall.index_eq, keyAt_pushAll_of_lt _ _ (Nat.lt_succ_of_le hj)]
      obtain ⟨hbs, hbk⟩ := getBlockByNumber_eq_some.1 hb
      rw [hold _ (by omega)] at hp hbk
      have hroot : ∀ j x, c.index.keyAt j = some x → d.root x = c.root x := fun j x hx =>
        hext.root x (by rw [(h.valid.numbered.upTo.inverse x j).2 hx]; rfl)
      rw [hroot _ _ hp, hroot _ _ hbk]
      exact h.linked k hk p b hp (getBlockByNumber_eq_some.2 ⟨hext.store ▸ hbs, hbk⟩)
    · exact advance_linked chain' _ _ h.valid.numbered.upTo hkey hfresh.nodup hfresh.mem hadv k hge p b
        hp hb

theorem Grows.replayable (hg : Grows process c spines d) (h : Replayable process n c) :
    Replayable process n d := by
  induction hg with
  | nil c => exact h
  | cons hs hn hchain hadv _ ih => exact ih (h.extend hs hn hchain hadv)

/-! ## Replaying a stretch -/

/-- `e` is the chain `c` up to the number `n`, with its state roots; the heads may differ. -/
structure Matches (c : FinChain) (n : ℕ) (e : FinChain) : Prop where
  store : e.store = c.store
  genesis : e.genesis = c.genesis
  running : e.permits = none
  index : e.index = c.index.truncate n
  root : ∀ h j, c.index.numOf h = some j → j ≤ n → e.root h = c.root h

theorem Replayable.matches_rolledBackTo (h : Replayable process n c)
    (hk : c.index.numOf base = some k) : Matches c k (c.rolledBackTo base) where
  store := rfl
  genesis := rfl
  running := h.running
  index := by rw [← nr_eq hk]; rfl
  root x j hx hj := if_neg (by rw [nr_eq hk, nr_eq hx]; exact Nat.not_lt.2 hj)

theorem Matches.assign (hm : Matches c k e) (hup : c.index.UpTo m) (isHead : Bool)
    (hb : c.index.keyAt (k + 1) = some b.hash) : Matches c (k + 1)
      (((e.setRoot b.hash (c.root b.hash)).spend 1).assign (k + 1) b.hash isHead) := by
  have hnum := (hup.inverse _ _).2 hb
  have hk : k + 1 ≤ m := hup.le hnum
  refine ⟨hm.store, hm.genesis, ?_, ?_, ?_⟩
  · show e.permits.map (· - 1) = none
    rw [hm.running]; rfl
  · have htop := (hup.truncate hk).erase_top (Numbering.keyAt_truncate.2 ⟨hb, le_rfl⟩)
    rw [truncate_truncate (Nat.le_succ k), ← hm.index] at htop
    show e.index.set (k + 1) b.hash = _
    rw [← htop]
    simp only [Numbering.set, Numbering.erase, update_idem]
    have hset := (hup.truncate hk).set_self (Numbering.numOf_truncate.2 ⟨hnum, le_rfl⟩)
    exact hset
  · intro x j hx hj
    simp only [FinChain.assign, spend, setRoot, update_apply]
    split_ifs with hxb
    · rw [hxb]
    · refine hm.root x j hx ?_
      have hne : j ≠ k + 1 := fun he => hxb (hup.injective (he ▸ hx) hnum)
      omega

theorem Replayable.advance (h : Replayable process n c) : ∀ (j : ℕ) {k : ℕ} {prev : Hash}
    {e : FinChain}, Matches c k e → n ≤ k → k + j ≤ c.nr c.head → c.index.keyAt k = some prev →
    (FinChain.advance process (k + 1) prev (c.segment k j) e).1 = j ∧
      Matches c (k + j) (FinChain.advance process (k + 1) prev (c.segment k j) e).2
  | 0, _, _, _, hm, _, _, _ => ⟨rfl, hm⟩
  | j + 1, k, prev, e, hm, hn, hle, hprev => by
    obtain ⟨b, hb, hseg⟩ := @Numbered.segment_succ c _ k j h.valid.numbered (by omega)
    obtain ⟨-, hkey⟩ := getBlockByNumber_eq_some.1 hb
    have hup := h.valid.numbered.upTo
    -- the processing succeeds with the state root that the chain has
    have hproc : process (e.root prev) b = .ok (c.root b.hash) := by
      rw [hm.root prev k ((hup.inverse _ _).2 hprev) le_rfl]
      exact h.linked k hn prev b hprev hb
    obtain ⟨hlen, hmatch⟩ := Replayable.advance h j (hm.assign hup (c.segment (k + 1) j).isEmpty hkey)
      (by omega) (by omega) hkey
    have hlock : (e.setRoot b.hash (c.root b.hash)).tryLock =
        some ((e.setRoot b.hash (c.root b.hash)).spend 1) :=
      tryLock_eq (canLock_of_running hm.running 1)
    rw [hseg]
    unfold FinChain.advance updateFinalizingState
    simp only [hproc, hlock]
    exact ⟨congrArg (· + 1) hlen, by rw [show k + (j + 1) = k + 1 + j by omega]; exact hmatch⟩

/-- A block of the chain is finalized again by the stretch that leads to it. -/
theorem Replayable.advanceHead (h : Replayable process n c) (hbase : c.index.numOf base = some k)
    (hn : n ≤ k) (hx : c.index.numOf x = some (k + (j + 1))) :
    ((c.rolledBackTo base).advanceHead process (c.segment k (j + 1))).1 = j + 1 ∧
      Agree (c.rolledBackTo x)
        ((c.rolledBackTo base).advanceHead process (c.segment k (j + 1))).2 := by
  have hup := h.valid.numbered.upTo
  have hle := hup.le hx
  have hhead := nr_head_rolledBackTo hbase
  obtain ⟨hlen, hm⟩ := h.advance (j + 1) (h.matches_rolledBackTo hbase) hn hle
    ((hup.inverse _ _).1 hbase)
  unfold FinChain.advanceHead
  rw [hhead]
  change (FinChain.advance process (k + 1) base (c.segment k (j + 1)) (c.rolledBackTo base)).1 = _ ∧
    Agree _ (FinChain.advance process (k + 1) base (c.segment k (j + 1)) (c.rolledBackTo base)).2
  refine ⟨hlen, hm.store, hm.genesis, ?_, ?_, hm.running.trans h.running.symm, ?_⟩
  · rw [hm.index, ← nr_eq hx]; rfl
  · -- the last block of the stretch becomes the head
    obtain ⟨b, hb, hkey⟩ := h.valid.numbered.getBlockByNumber hle
    have hbx : b.hash = x := hup.injective ((hup.inverse _ _).2 hkey) hx
    have hlast : (c.segment k (j + 1)).getLast? = some b := by
      obtain ⟨y, hy, hone⟩ := @Numbered.segment_succ c _ (k + j) 0 h.valid.numbered (by omega)
      obtain rfl : b = y := Option.some.inj (hb.symm.trans hy)
      rw [segment_add, hone]
      exact getLast?_concat ..
    have hadv := @advance_advanced process (c.segment k (j + 1)) (k + 1) base (c.rolledBackTo base)
    exact (hadv.head_of_eq (by rw [hlen, h.valid.numbered.length_segment hle]) b hlast).trans hbx
  · intro y hy
    obtain ⟨i, hi⟩ := Option.isSome_iff_exists.1 hy
    obtain ⟨hi, hi'⟩ := Numbering.numOf_truncate.1 hi
    rw [nr_eq hx] at hi'
    rw [hm.root y i hi hi']
    exact (if_neg (by rw [nr_eq hx, nr_eq hi]; exact Nat.not_lt.2 hi')).symm

/-! ## When a stretch is the chain of its last block -/

/-- A stretch is the chain of the block it leads to when it holds only ancestors of that
    block, in the finalization order. -/
theorem Replayable.isDagChain_segment_iff (h : Replayable process n c)
    (hbase : c.index.numOf base = some k) (hn : n ≤ k) (hx : c.index.numOf x = some (k + j)) :
    IsDagChain (c.rolledBackTo base).dag x (c.segment k j) ↔
      (∀ b ∈ c.segment k j, c.dag.AncestorOrSelf x b.hash) ∧
        (c.segment k j).Pairwise Block.FinBefore := by
  constructor
  · exact fun hd => ⟨fun b hb => ((hd.mem b).1 hb).2.1, hd.sorted⟩
  · rintro ⟨hanc, hsorted⟩
    have hup := h.valid.numbered.upTo
    refine ⟨fun b => ⟨fun hb => ?_, ?_⟩, hsorted⟩
    · obtain ⟨i, hlt, hle, hbs, hkey⟩ := mem_segment.1 hb
      refine ⟨hbs, hanc b hb, ?_⟩
      by_contra hne
      obtain ⟨i', hi'⟩ := Option.ne_none_iff_exists'.1 hne
      obtain ⟨hi', hle'⟩ := Numbering.numOf_truncate.1 hi'
      have : i' = i := Option.some.inj (hi'.symm.trans ((hup.inverse _ _).2 hkey))
      rw [nr_eq hbase] at hle'
      omega
    · rintro ⟨hbs, hb, hnone⟩
      obtain ⟨i, hi, hle⟩ := h.ancestor hb hx
      have hgt : k < i := by
        by_contra hik
        have : (c.index.truncate (c.nr base)).numOf b.hash = some i :=
          Numbering.numOf_truncate.2 ⟨hi, by rw [nr_eq hbase]; omega⟩
        rw [show (c.index.truncate (c.nr base)).numOf b.hash = none from hnone] at this
        cases this
      exact mem_segment.2 ⟨i, hgt, by omega, hbs, (hup.inverse _ _).1 hi⟩

end FinChain

end Gwat
