/-
  When `Finalize` is all-or-nothing per spine.
-/
import Gwat.Dag.FinIndex

namespace Gwat

open GoLib List

namespace FinChain

variable {env : FinEnv} {c d : FinChain} {m : ℕ}

/-- The head has the greatest number that either direction of the index holds. -/
def HeadGreatest (c : FinChain) : Prop :=
  ∃ m, c.index.numOf c.head = some m ∧ (∀ h n, c.index.numOf h = some n → n ≤ m) ∧
    ∀ n, (c.index.keyAt n).isSome → n ≤ m

/-- What a call of `Finalize` from the chain `c` should return and leave. -/
def AllOrNothing (c : FinChain) (base : Hash) (spines : List Hash) :
    Except FinError Unit × FinChain → Prop
  | (.ok (), d) =>
    (∀ s ∈ spines, (d.index.numOf s).isSome) ∧
    -- the numbers are `0, …, m` for different blocks, and those up to the base's are kept
    (∃ m, d.index.UpTo m ∧ c.nr base ≤ m) ∧
    d.index.truncate (c.nr base) = c.index.truncate (c.nr base) ∧
    spines.getLast? = some d.head
  | (.error _, d) => d.HeadGreatest ∧ d.head ∈ c.head :: base :: spines

/-- The loop of `Finalize` leaves no chain unfinished once its first block is numbered, and
    does not end with a spine that was finalized before and is not the head. -/
def SpinesClean (env : FinEnv) : List Block → FinChain → Prop
  | [], _ => True
  | spine :: rest, c =>
    match spineGetDagChain c.dag (env.order spine.hash) spine with
    | .error _ => True
    | .ok [] => (rest = [] → spine.hash = c.head) ∧ SpinesClean env rest c
    | .ok chain =>
      let (k, d) := c.advanceHead env.process chain
      (k = 0 ∨ k = chain.length) ∧ (k = chain.length → SpinesClean env rest d)

/-- The rollback to `base` is stopped neither between two of its numbers nor before it moves
    the head, and the loop over the spines that follows is clean.  A base that is not
    finalized is refused before anything is written. -/
def CleanRun (env : FinEnv) (c : FinChain) (base : Hash) (spines : List Block) : Prop :=
  ∀ n, c.index.numOf base = some n →
    if base = c.head then SpinesClean env spines c
    else
      (∀ k, c.permits = some k → k = 0 ∨ c.nr c.head - n < k) ∧
      (c.CanLock (c.nr c.head - n + 1) → env.hasCp base →
        SpinesClean env spines ((c.rolledBackTo base).spend (c.nr c.head - n + 1)))

/-! ## What every run keeps -/

theorem Numbered.headGreatest_iff (hc : c.Numbered m) {n : ℕ}
    (hn : c.index.numOf c.head = some n) : c.HeadGreatest ↔ n = m := by
  constructor
  · rintro ⟨k, hk, -, hkey⟩
    obtain rfl : n = k := Option.some.inj (hn.symm.trans hk)
    exact le_antisymm (hc.upTo.le hn) (hkey m ((hc.upTo.range m).2 le_rfl))
  · rintro rfl
    exact ⟨n, hn, fun h k hk => hc.upTo.le hk, fun k hk => (hc.upTo.range k).1 hk⟩

theorem Valid.headGreatest (hc : c.Valid) : c.HeadGreatest :=
  (hc.numbered.headGreatest_iff hc.head).2 rfl

/-- What the loop over `spines`, entered at `c`, keeps whether it succeeds or fails. -/
structure Outcome (c : FinChain) (spines : List Block) (r : Except FinError Unit)
    (d : FinChain) : Prop where
  old : d.index.truncate (c.nr c.head) = c.index
  head : d.head ∈ c.head :: spines.map Block.hash
  valid : r = .ok () → d.Valid
  done : r = .ok () → ∀ s ∈ spines, (d.index.numOf s.hash).isSome

theorem finalizeOn_outcome : ∀ (spines : List Block) {c : FinChain}, c.Valid →
    (∀ b ∈ spines, b ∈ c.store.blocks) →
    Outcome c spines (c.finalizeOn env spines).1 (c.finalizeOn env spines).2
  | [], c, hc, _ => ⟨hc.numbered.upTo.truncate_self, by simp, fun _ => hc, by simp⟩
  | spine :: rest, c, hc, hst => by
    obtain ⟨hs, hrest⟩ := forall_mem_cons.1 hst
    cases @Valid.round env c hc spine hs rest with
    | failed e _ hres =>
      rw [hres]
      exact ⟨hc.numbered.upTo.truncate_self, by simp, by simp, by simp⟩
    | skipped _ hnum hres =>
      have ih := finalizeOn_outcome rest hc hrest
      rw [hres]
      refine ⟨ih.old, ?_, ih.valid, fun hr => ?_⟩
      · have := ih.head; simp only [mem_cons, map_cons] at this ⊢; tauto
      · exact forall_mem_cons.2 ⟨isSome_of_truncate_eq ih.old hnum, ih.done hr⟩
    | finished chain d _ _ _ hext hres =>
      have ih := finalizeOn_outcome rest hext.valid (by rw [hext.store]; exact hrest)
      rw [hres]
      refine ⟨?_, ?_, ih.valid, fun hr => forall_mem_cons.2 ⟨?_, ih.done hr⟩⟩
      · rw [← Numbering.truncate_truncate (hext.nr_le hc), ih.old, hext.old]
      · have := ih.head; rw [hext.head] at this; exact mem_cons_of_mem _ this
      · refine isSome_of_truncate_eq ih.old ?_
        rw [← hext.head, hext.valid.head]; rfl
    | unfinished chain k d e _ _ _ _ _ hhead hold hres =>
      rw [hres]
      exact ⟨hold, by simp [hhead], by simp, by simp⟩

/-! ## The loop over the spines -/

/-- The last of the spines, `h` when there is none. -/
def lastSpine : Hash → List Block → Hash
  | h, [] => h
  | _, s :: rest => lastSpine s.hash rest

theorem lastSpine_of_ne_nil {spines : List Block} (hne : spines ≠ []) (h h' : Hash) :
    lastSpine h spines = lastSpine h' spines := by
  cases spines with
  | nil => exact absurd rfl hne
  | cons s rest => rfl

theorem getLast?_map_hash : ∀ {spines : List Block} (h : Hash), spines ≠ [] →
    (spines.map Block.hash).getLast? = some (lastSpine h spines)
  | [], _, hne => absurd rfl hne
  | [_], _, _ => rfl
  | b :: s :: rest, _, _ => @getLast?_map_hash (s :: rest) b.hash (by simp)

/-- The loop ends with `last` as its head or fails with the head on top. -/
def EndsWell (last : Hash) : Except FinError Unit × FinChain → Prop
  | (.ok (), d) => d.head = last
  | (.error _, d) => d.HeadGreatest

/-- The loop ends well iff it is clean. -/
theorem loop_iff : ∀ (spines : List Block) {c : FinChain}, c.Valid →
    (∀ b ∈ spines, b ∈ c.store.blocks) →
    (EndsWell (lastSpine c.head spines) (c.finalizeOn env spines) ↔ SpinesClean env spines c)
  | [], c, _, _ => ⟨fun _ => trivial, fun _ => rfl⟩
  | spine :: rest, c, hc, hst => by
    obtain ⟨hs, hrest⟩ := forall_mem_cons.1 hst
    unfold SpinesClean lastSpine
    cases @Valid.round env c hc spine hs rest with
    | failed e hchain hres =>
      rw [hchain, hres]
      exact ⟨fun _ => trivial, fun _ => hc.headGreatest⟩
    | skipped hchain hnum hres =>
      rw [hchain, hres]
      rw [← loop_iff rest hc hrest]
      by_cases hne : rest = []
      · subst hne
        exact ⟨fun h => ⟨fun _ => h.symm, rfl⟩, fun h => (h.1 rfl).symm⟩
      · rw [lastSpine_of_ne_nil hne spine.hash c.head]
        exact ⟨fun h => ⟨fun he => absurd he hne, h⟩, And.right⟩
    | finished chain d hchain hne hadv hext hres =>
      rw [hchain, hres, ← hext.head, loop_iff rest hext.valid (by rw [hext.store]; exact hrest)]
      simp only [hadv]
      exact ⟨fun h => ⟨.inr trivial, fun _ => h⟩, fun h => h.2 trivial⟩
    | unfinished chain k d e hchain hne hadv hk hd hhead hold hres =>
      have hnum : d.index.numOf d.head = some (c.nr c.head) := by
        rw [hhead]; exact numOf_of_truncate_eq hold hc.head
      rw [hchain, hres]
      simp only [hadv]
      -- the head is on top iff not even the first block of the chain was numbered
      refine (hd.headGreatest_iff hnum).trans ⟨fun h => ⟨.inl (by omega), ?_⟩, fun h => ?_⟩
      · exact fun he => absurd he (Nat.ne_of_lt hk)
      · omega

/-- The loop entered at a chain `d` that is `c` rolled back to `base`. -/
theorem allOrNothing_loop {base : Hash} {spines : List Block} (hne : spines ≠ []) (hd : d.Valid)
    (hst : ∀ b ∈ spines, b ∈ d.store.blocks) (hhead : d.head = base)
    (hidx : d.index = c.index.truncate (c.nr base)) (hnr : d.nr d.head = c.nr base) :
    AllOrNothing c base (spines.map Block.hash) (d.finalizeOn env spines) ↔
      SpinesClean env spines d := by
  rw [← loop_iff spines hd hst]
  have hout := @finalizeOn_outcome env spines d hd hst
  cases hr : d.finalizeOn env spines with
  | mk r d' =>
    rw [hr] at hout
    have hold := hout.old
    rw [hnr] at hold
    cases r with
    | error e =>
      refine ⟨And.left, fun h => ⟨h, ?_⟩⟩
      have := hout.head
      rw [hhead] at this
      exact mem_cons_of_mem _ this
    | ok _ =>
      have hv := hout.valid rfl
      have hle : c.nr base ≤ d'.nr d'.head :=
        hnr ▸ hv.numbered.upTo.le (numOf_of_truncate_eq hold hd.head)
      simp only [AllOrNothing, EndsWell, getLast?_map_hash d.head hne, Option.some.injEq]
      refine ⟨fun h => h.2.2.2.symm, fun h => ⟨?_, ⟨_, hv.numbered.upTo, hle⟩, ?_, h.symm⟩⟩
      · intro x hx
        obtain ⟨b, hb, rfl⟩ := mem_map.1 hx
        exact hout.done rfl b hb
      · rw [hold, hidx]

/-! ## The whole call -/

theorem rollbackFinalization_unnumbered (hc : c.Valid) {base : Hash}
    (hn : c.index.numOf base = none) (lfNr : ℕ) :
    ∃ e, c.rollbackFinalization env base lfNr = (.error e, c) := by
  have hg : base ≠ c.genesis := by
    rintro rfl
    simp [hc.numbered.genesis] at hn
  unfold rollbackFinalization
  cases c.store.get base with
  | none => exact ⟨_, rfl⟩
  | some _ => exact ⟨.badBlockNr, if_pos ⟨hn, hg⟩⟩

/-- A rollback that was stopped leaves the head on top only if it did nothing. -/
theorem headGreatest_stopped_iff (hc : c.Valid) {k : ℕ} (hk : k ≤ c.nr c.head) :
    ((c.rolledBack (c.nr c.head - k)).spend k).HeadGreatest ↔ k = 0 := by
  constructor
  · rintro ⟨n, hn, -⟩
    obtain ⟨hn, hle⟩ := Numbering.numOf_truncate.1 hn
    have : n = c.nr c.head := Option.some.inj (hn.symm.trans hc.head)
    omega
  · rintro rfl
    rw [Nat.sub_zero, hc.numbered.rolledBack_self, spend_zero]
    exact hc.headGreatest

/-- `Finalize`, called on known spines in increasing slot order, keeps its promise exactly when
    its run is clean: neither the rollback nor the chain of a spine is abandoned half-way, and
    the last spine is not one that was finalized below the base already. -/
theorem finalize_allOrNothing_iff (env : FinEnv) (c : FinChain) (base : Hash)
    (spines : List Block) (hc : c.Valid) (hne : spines ≠ [])
    (hst : ∀ b ∈ spines, b ∈ c.store.blocks) (hslots : spines.Pairwise (·.slot < ·.slot)) :
    c.AllOrNothing base (spines.map Block.hash)
        (c.finalize env false (spines.map Block.hash) (some base)) ↔
      c.CleanRun env base spines := by
  rw [finalize_eq hne hst hslots]
  unfold CleanRun
  cases hn : c.index.numOf base with
  | none =>
    obtain ⟨e, he⟩ := @rollbackFinalization_unnumbered env c hc base hn (c.nr c.head)
    rw [he, andThen_error]
    exact ⟨fun _ n h => (by cases h), fun _ => ⟨hc.headGreatest, by simp⟩⟩
  | some n =>
    simp only [Option.some.injEq, forall_eq']
    by_cases hb : base = c.head
    · subst hb
      rw [if_pos rfl, rollbackFinalization_head hc, andThen_ok]
      exact allOrNothing_loop hne hc hst rfl hc.numbered.upTo.truncate_self.symm rfl
    rw [if_neg hb]
    by_cases hl : c.CanLock (c.nr c.head - n + 1)
    · have hv := hc.rolledBackTo hn
      have hv' : ((c.rolledBackTo base).spend (c.nr c.head - n + 1)).Valid :=
        ⟨hv.numbered.congr rfl rfl rfl, hv.head⟩
      have hk : ∀ k, c.permits = some k → k = 0 ∨ c.nr c.head - n < k := fun k hk =>
        .inr (hl k hk)
      rw [rollbackFinalization_eq hc hn hb hl]
      cases hcp : env.hasCp base with
      | false =>
        refine ⟨fun _ => ⟨hk, fun _ h => absurd h (by simp)⟩, fun _ => ⟨hv'.headGreatest, ?_⟩⟩
        exact mem_cons_of_mem _ (mem_cons_self ..)
      | true =>
        have hnr : (c.rolledBackTo base).nr base = c.nr base := by
          rw [nr_eq hn]; exact nr_eq (Numbering.numOf_truncate.2 ⟨hn, (nr_eq hn).ge⟩)
        have hloop := @allOrNothing_loop env c _ base spines hne hv' hst rfl rfl hnr
        exact hloop.trans ⟨fun h => ⟨hk, fun _ _ => h⟩, fun h => h.2 hl rfl⟩
    · obtain ⟨k, hp, hlt⟩ : ∃ k, c.permits = some k ∧ k ≤ c.nr c.head - n := by
        unfold CanLock at hl
        push Not at hl
        obtain ⟨k, hk, hlt⟩ := hl
        exact ⟨k, hk, by omega⟩
      rw [rollbackFinalization_stopped hc hn hb hlt hp, andThen_error]
      have hiff := headGreatest_stopped_iff hc (hlt.trans (Nat.sub_le _ _))
      constructor
      · rintro ⟨hg, -⟩
        refine ⟨fun j hj => .inl ?_, fun h => absurd h hl⟩
        obtain rfl : k = j := Option.some.inj (hp.symm.trans hj)
        exact hiff.1 hg
      · rintro ⟨hk, -⟩
        exact ⟨hiff.2 ((hk k hp).resolve_right (by omega)), mem_cons_self ..⟩

/-- Two blocks over the genesis block, the second on top of the first. -/
def twoBlocks : FinChain :=
  fromGenesis ⟨[⟨1, [], 0, 0⟩, ⟨2, [1], 1, 1⟩, ⟨3, [2], 2, 2⟩], by decide⟩ 1

theorem twoBlocks_valid : twoBlocks.Valid := fromGenesis_valid (by decide)

theorem finalize_allOrNothing_twoBlocks : twoBlocks.Valid ∧
    twoBlocks.AllOrNothing 1 [3] (twoBlocks.finalize (failingOn []) false [3] (some 1)) := by
  have hchain : spineGetDagChain twoBlocks.dag ((failingOn []).order 3) ⟨3, [2], 2, 2⟩ =
      .ok [⟨2, [1], 1, 1⟩, ⟨3, [2], 2, 2⟩] := rfl
  refine ⟨twoBlocks_valid, (finalize_allOrNothing_iff (failingOn []) twoBlocks 1 [⟨3, [2], 2, 2⟩]
    twoBlocks_valid (by simp) (by decide) (by simp)).2 fun n _ => ?_⟩
  rw [if_pos (show (1 : Hash) = twoBlocks.head from rfl)]
  simp only [SpinesClean, hchain]
  exact ⟨.inr rfl, fun _ => trivial⟩

/-- The processing of the second block of a chain fails: the first block keeps its number, and
    the head stays below it. -/
theorem finalize_leaves_number :
    twoBlocks.Valid ∧
    (twoBlocks.finalize (failingOn [3]) false [3] (some 1)).1 = .error (.processing 0) ∧
    (twoBlocks.finalize (failingOn [3]) false [3] (some 1)).2.index.numOf 2 = some 1 ∧
    (twoBlocks.finalize (failingOn [3]) false [3] (some 1)).2.index.keyAt 1 = some 2 ∧
    (twoBlocks.finalize (failingOn [3]) false [3] (some 1)).2.head = 1 ∧
    (twoBlocks.finalize (failingOn [3]) false [3] (some 1)).2.index.numOf 1 = some 0 ∧
    ¬ twoBlocks.AllOrNothing 1 [3] (twoBlocks.finalize (failingOn [3]) false [3] (some 1)) := by
  have hnum : (twoBlocks.finalize (failingOn [3]) false [3] (some 1)).2.index.numOf 2 = some 1 :=
    rfl
  refine ⟨twoBlocks_valid, rfl, hnum, rfl, rfl, rfl, fun h => ?_⟩
  obtain ⟨⟨m, hm, hle, -⟩, -⟩ : HeadGreatest
      (twoBlocks.finalize (failingOn [3]) false [3] (some 1)).2 ∧ _ := h
  obtain rfl : 0 = m := Option.some.inj hm
  exact absurd (hle 2 1 hnum) (by omega)

end FinChain

end Gwat
