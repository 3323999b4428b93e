/-
  The finalization index over a run of the finalizer.

  `FinChain.Numbered c m` says that the blocks with a number carry `0, …, m`, one
  each; `FinChain.Valid c` adds that the head carries the last of them.
-/
import Gwat.Dag.Finalizer

namespace Gwat

open GoLib List Numbering Block

namespace FinChain

variable {env : FinEnv} {process : Process} {c d c' : FinChain} {m j k lo : ℕ}
variable {h x genesis base prev : Hash} {n : ℕ} {store s : BlockStore}

/-- The numbers in use are `0, …, m`, for stored blocks; the genesis block has `0`. -/
structure Numbered (c : FinChain) (m : ℕ) : Prop where
  upTo : c.index.UpTo m
  stored : ∀ h, (c.index.numOf h).isSome → (c.store.get h).isSome
  genesis : c.index.numOf c.genesis = some 0

/-- The head has the greatest number. -/
structure Valid (c : FinChain) : Prop where
  numbered : c.Numbered (c.nr c.head)
  head : c.index.numOf c.head = some (c.nr c.head)

theorem nr_eq (hn : c.index.numOf h = some n) : c.nr h = n := by simp [nr, hn]

theorem Numbered.nr_le (hc : c.Numbered m) (h : Hash) : c.nr h ≤ m := by
  unfold nr
  cases hn : c.index.numOf h with
  | none => exact Nat.zero_le m
  | some n => exact hc.upTo.le hn

theorem Numbered.congr (hc : c.Numbered m) (hi : c'.index = c.index) (hs : c'.store = c.store)
    (hg : c'.genesis = c.genesis) : c'.Numbered m :=
  ⟨hi ▸ hc.upTo, by rw [hi, hs]; exact hc.stored, by rw [hi, hg]; exact hc.genesis⟩

theorem Numbered.getBlockByNumber (hc : c.Numbered m) (hn : n ≤ m) :
    ∃ b, c.getBlockByNumber n = some b ∧ c.index.keyAt n = some b.hash := by
  obtain ⟨k, hk, hkey⟩ := hc.upTo.exists_key hn
  obtain ⟨b, hb⟩ := Option.isSome_iff_exists.1 (hc.stored k (by rw [hk]; rfl))
  refine ⟨b, ?_, by rw [hkey, BlockStore.get_hash hb]⟩
  rw [FinChain.getBlockByNumber, hkey, Option.bind_some, hb]

/-- A chain on which only the genesis block is finalized. -/
def fromGenesis (store : BlockStore) (genesis : Hash) : FinChain where
  store := store
  genesis := genesis
  index := .single genesis
  head := genesis
  root := fun _ => 0
  permits := none

theorem fromGenesis_valid (hg : (store.get genesis).isSome) :
    (fromGenesis store genesis).Valid := by
  have hnum : (fromGenesis store genesis).index.numOf genesis = some 0 := if_pos rfl
  have hnr : (fromGenesis store genesis).nr (fromGenesis store genesis).head = 0 := nr_eq hnum
  refine ⟨?_, by rw [hnr]; exact hnum⟩
  rw [hnr]
  refine ⟨upTo_single genesis, fun h hh => ?_, hnum⟩
  obtain ⟨n, hn⟩ := Option.isSome_iff_exists.1 hh
  obtain ⟨rfl, -⟩ := Option.ite_none_right_eq_some.1 hn
  exact hg

/-- Block processing that fails on the blocks of `bad`. -/
def failingOn (bad : List Hash) : FinEnv where
  process _ b := if b.hash ∈ bad then .error 0 else .ok b.hash
  hasCp _ := true
  order _ := default
  slots := default

theorem numOf_of_truncate_eq (h : d.index.truncate m = c.index) (hx : c.index.numOf x = some n) :
    d.index.numOf x = some n := by
  rw [← h] at hx
  exact (Numbering.numOf_truncate.1 hx).1

theorem isSome_of_truncate_eq (h : d.index.truncate m = c.index) (hx : (c.index.numOf x).isSome) :
    (d.index.numOf x).isSome := by
  obtain ⟨n, hn⟩ := Option.isSome_iff_exists.1 hx
  rw [numOf_of_truncate_eq h hn]; rfl

/-! ## The lock -/

/-- `k` permits of the lock are used up. -/
def spend (c : FinChain) (k : ℕ) : FinChain := { c with permits := c.permits.map (· - k) }

/-- The lock can still be taken `k` times. -/
def CanLock (c : FinChain) (k : ℕ) : Prop := ∀ p ∈ c.permits, k ≤ p

theorem canLock_of_running (h : c.permits = none) (k : ℕ) : c.CanLock k := by simp [CanLock, h]

theorem tryLock_eq (h : c.CanLock 1) : c.tryLock = some (c.spend 1) := by
  obtain ⟨store, genesis, index, head, root, permits⟩ := c
  match permits with
  | none => rfl
  | some 0 => exact absurd (h 0 rfl) (by omega)
  | some (p + 1) => rfl

theorem tryLock_stopped (h : c.permits = some 0) : c.tryLock = none := by simp [tryLock, h]

theorem spend_running (h : c.permits = none) (k : ℕ) : c.spend k = c := by
  unfold spend
  rw [h, Option.map_none, ← h]

theorem spend_zero : c.spend 0 = c := by
  unfold spend
  cases hp : c.permits <;> simp [← hp]

theorem spend_spend (j k : ℕ) : (c.spend j).spend k = c.spend (j + k) := by
  unfold spend
  cases c.permits <;> simp [Nat.sub_sub]

theorem CanLock.spend (h : c.CanLock (j + k)) : (c.spend j).CanLock k := by
  intro p hp
  obtain ⟨q, hq, rfl⟩ := Option.mem_map.1 hp
  have := h q hq
  omega

/-! ## The rollback -/

/-- The chain without the numbers above `n`. -/
def rolledBack (c : FinChain) (n : ℕ) : FinChain :=
  { c with
    index := c.index.truncate n
    root := fun h => if n < c.nr h then 0 else c.root h }

theorem Numbered.rolledBack_self (hc : c.Numbered m) : c.rolledBack m = c := by
  have hroot : ∀ h, ¬ m < c.nr h := fun h => Nat.not_lt.2 (hc.nr_le h)
  unfold rolledBack
  simp [hroot, hc.upTo.truncate_self]

theorem Numbered.rolledBack (hc : c.Numbered m) (hn : n ≤ m) :
    (c.rolledBack n).Numbered n where
  upTo := hc.upTo.truncate hn
  stored h hh := by
    obtain ⟨k, hk⟩ := Option.isSome_iff_exists.1 hh
    exact hc.stored h (by rw [(Numbering.numOf_truncate.1 hk).1]; rfl)
  genesis := Numbering.numOf_truncate.2 ⟨hc.genesis, Nat.zero_le n⟩

theorem nr_rolledBack (h : Hash) : (c.rolledBack n).nr h = if c.nr h ≤ n then c.nr h else 0 := by
  cases hn : c.index.numOf h with
  | none => simp [nr, rolledBack, truncate, hn]
  | some k => by_cases hk : k ≤ n <;> simp [nr, rolledBack, truncate, Option.filter_some, hn, hk]

theorem rolledBack_rolledBack (hn : n ≤ m) : (c.rolledBack m).rolledBack n = c.rolledBack n := by
  have hroot : ∀ h, (if n < (c.rolledBack m).nr h then 0 else (c.rolledBack m).root h) =
      (c.rolledBack n).root h := by
    intro h
    rw [nr_rolledBack]
    simp only [rolledBack]
    split_ifs <;> first | rfl | omega
  unfold rolledBack at hroot ⊢
  simp only [truncate_truncate hn, hroot]

theorem Numbered.unassign (hc : c.Numbered (m + 1)) (hk : c.index.keyAt (m + 1) = some h) :
    c.unassign (m + 1) h = c.rolledBack m := by
  have hroot : Function.update c.root h 0 = fun k => if m < c.nr k then 0 else c.root k := by
    have hn := (hc.upTo.inverse h _).2 hk
    funext k
    by_cases hkh : k = h
    · subst hkh; simp [nr, hn]
    · have hle := hc.nr_le k
      have hne : c.nr k ≠ m + 1 := by
        intro he
        unfold nr at he
        cases hk' : c.index.numOf k <;> simp [hk'] at he
        exact hkh (hc.upTo.injective (he ▸ hk') hn)
      rw [Function.update_of_ne hkh, if_neg (by omega)]
  unfold FinChain.unassign FinChain.setRoot FinChain.rolledBack
  rw [hroot, hc.upTo.erase_top hk]

theorem rollbackLoop_stopped (h : c.permits = some 0) (lo : ℕ) : ∀ i, rollbackLoop lo i c = c
  | 0 => rfl
  | i + 1 => by
    have hstep : c.rollbackBlockFinalization (i + 1) = (.error .insertionInterrupted, c) := by
      rw [rollbackBlockFinalization, tryLock_stopped h]
    unfold rollbackLoop
    split_ifs
    · rfl
    · cases c.getBlockByNumber (i + 1) with
      | none => exact rollbackLoop_stopped h lo i
      | some _ => rw [hstep]; exact rollbackLoop_stopped h lo i

theorem Numbered.rollbackBlockFinalization (hc : c.Numbered (m + 1)) (hl : c.CanLock 1) :
    c.rollbackBlockFinalization (m + 1) = (.ok (), (c.rolledBack m).spend 1) := by
  obtain ⟨b, hb, hkey⟩ := hc.getBlockByNumber le_rfl
  have hb' : (c.spend 1).getBlockByNumber (m + 1) = some b := hb
  rw [FinChain.rollbackBlockFinalization, tryLock_eq hl]
  simp only [hb']
  exact congrArg (fun c' => (Except.ok (), c'.spend 1)) (hc.unassign hkey)

/-- The loop takes away the `k` greatest numbers, where it stops after `k` steps because
    it is done or because the lock fails. -/
theorem rollbackLoop_eq : ∀ {m k : ℕ} {c : FinChain}, c.Numbered m → k ≤ m - lo →
    c.CanLock k → k = m - lo ∨ c.permits = some k →
    rollbackLoop lo m c = (c.rolledBack (m - k)).spend k
  | m, 0, c, hc, _, _, hend => by
    rw [Nat.sub_zero, hc.rolledBack_self, spend_zero]
    rcases hend with hdone | hstop
    · cases m with
      | zero => rfl
      | succ m => rw [rollbackLoop, if_pos (by omega)]
    · exact rollbackLoop_stopped hstop lo m
  | 0, k + 1, c, _, hk, _, _ => absurd hk (by omega)
  | m + 1, k + 1, c, hc, hk, hl, hend => by
    have hl₁ : c.CanLock 1 := fun p hp => by have := hl p hp; omega
    obtain ⟨b, hb, -⟩ := hc.getBlockByNumber le_rfl
    have hnum : ((c.rolledBack m).spend 1).Numbered m :=
      (hc.rolledBack (Nat.le_succ m)).congr rfl rfl rfl
    have hlock : ((c.rolledBack m).spend 1).CanLock k := CanLock.spend fun p hp => by
      have := hl p hp; omega
    have hend' : k = m - lo ∨ ((c.rolledBack m).spend 1).permits = some k := by
      rcases hend with hdone | hstop
      · exact .inl (by omega)
      · exact .inr (by simp [spend, rolledBack, hstop])
    rw [rollbackLoop, if_neg (by omega), hb, hc.rollbackBlockFinalization hl₁]
    rw [rollbackLoop_eq hnum (by omega) hlock hend', Nat.succ_sub_succ]
    -- two rollbacks in a row, and the permits they use
    change (((c.rolledBack m).rolledBack (m - k)).spend 1).spend k = _
    rw [rolledBack_rolledBack (Nat.sub_le m k), spend_spend, Nat.add_comm]

/-- The chain after a rollback to `base`. -/
def rolledBackTo (c : FinChain) (base : Hash) : FinChain :=
  { c.rolledBack (c.nr base) with head := base }

theorem Valid.rolledBackTo (hc : c.Valid) (hn : c.index.numOf base = some n) :
    (c.rolledBackTo base).Valid := by
  have hnr : c.nr base = n := nr_eq hn
  have hle : n ≤ c.nr c.head := hc.numbered.upTo.le hn
  have hbase : (c.rolledBackTo base).index.numOf base = some n := by
    rw [FinChain.rolledBackTo, hnr]
    exact Numbering.numOf_truncate.2 ⟨hn, le_rfl⟩
  have hnum := hc.numbered.rolledBack hle
  have htop : (c.rolledBackTo base).nr (c.rolledBackTo base).head = n := nr_eq hbase
  refine ⟨?_, by rw [htop]; exact hbase⟩
  rw [htop]
  rw [← hnr] at hnum ⊢
  exact hnum.congr rfl rfl rfl

section
variable (hc : c.Valid) {base : Hash} {n k : ℕ} (hn : c.index.numOf base = some n)
  (hne : base ≠ c.head)
include hc hn hne

theorem Valid.lt_head : n < c.nr c.head :=
  lt_of_le_of_ne (hc.numbered.upTo.le hn) fun he =>
    hne (hc.numbered.upTo.injective hn (he ▸ hc.head))

theorem rollbackFinalization_of_numbered : c.rollbackFinalization env base (c.nr c.head) =
    andThen ((rollbackLoop n (c.nr c.head) c).writeFinalizedBlock n base true) fun c =>
      if env.hasCp base then (.ok (), c) else (.error .cpNotFound, c) := by
  obtain ⟨b, hb⟩ := Option.isSome_iff_exists.1 (hc.numbered.stored base (by rw [hn]; rfl))
  rw [rollbackFinalization, hb]
  rw [if_neg (by simp [hn]), if_neg (fun h => hne h.1), nr_eq hn]

/-- A rollback that is not stopped makes `base` the head and removes exactly the numbers
    above its own.  It can still report that no checkpoint was found. -/
theorem rollbackFinalization_eq (hl : c.CanLock (c.nr c.head - n + 1)) :
    c.rollbackFinalization env base (c.nr c.head) =
      (if env.hasCp base then .ok () else .error .cpNotFound,
        (c.rolledBackTo base).spend (c.nr c.head - n + 1)) := by
  have hlt := hc.lt_head hn hne
  have hloop := @rollbackLoop_eq n _ _ _ hc.numbered le_rfl
    (fun p hp => (Nat.le_succ _).trans (hl p hp)) (.inl rfl)
  rw [show c.nr c.head - (c.nr c.head - n) = n by omega] at hloop
  have hnum := hc.numbered.rolledBack hlt.le
  have hbase : (c.rolledBack n).index.numOf base = some n :=
    Numbering.numOf_truncate.2 ⟨hn, le_rfl⟩
  have hzero : ¬ (n = 0 ∧
      base ≠ (((c.rolledBack n).spend (c.nr c.head - n)).spend 1).genesis) := fun ⟨h0, hg⟩ =>
    hg (hc.numbered.upTo.injective (h0 ▸ hn) hc.numbered.genesis)
  have hlock : ((c.rolledBack n).spend (c.nr c.head - n)).CanLock 1 := CanLock.spend hl
  have hassign : (((c.rolledBack n).spend (c.nr c.head - n)).spend 1).assign n base true =
      (c.rolledBackTo base).spend (c.nr c.head - n + 1) := by
    rw [spend_spend]
    unfold FinChain.assign FinChain.rolledBackTo
    rw [nr_eq hn]
    simp only [spend, if_true]
    rw [hnum.upTo.set_self hbase]
  rw [rollbackFinalization_of_numbered hc hn hne, hloop, writeFinalizedBlock, tryLock_eq hlock]
  simp only
  rw [if_neg hzero, andThen_ok, hassign]
  split_ifs <;> rfl

/-- A rollback that is stopped after `k` locks has taken away the `k` greatest numbers and
    left the head where it was. -/
theorem rollbackFinalization_stopped (hk : k ≤ c.nr c.head - n) (hp : c.permits = some k) :
    c.rollbackFinalization env base (c.nr c.head) =
      (.error .insertionInterrupted, (c.rolledBack (c.nr c.head - k)).spend k) := by
  have hloop := @rollbackLoop_eq n _ _ _ hc.numbered hk (fun p hp' => by
    rw [hp] at hp'; exact (Option.some.inj hp').le) (.inr hp)
  have hstop : ((c.rolledBack (c.nr c.head - k)).spend k).permits = some 0 := by
    simp [spend, rolledBack, hp]
  rw [rollbackFinalization_of_numbered hc hn hne, hloop, writeFinalizedBlock, tryLock_stopped hstop]
  rfl

end

variable {spine : Hash} {chain bs blocks : List Block}

theorem rollbackFinalization_head (hc : c.Valid) :
    c.rollbackFinalization env c.head (c.nr c.head) = (.ok (), c) := by
  obtain ⟨b, hb⟩ := Option.isSome_iff_exists.1 (hc.numbered.stored c.head (by rw [hc.head]; rfl))
  rw [rollbackFinalization, hb]
  simp only
  rw [if_neg (by simp [hc.head]), if_pos ⟨trivial, le_rfl⟩]

theorem rollbackFinalization_permits_zero (h : c.permits = some 0) (spine : Hash) (lfNr : ℕ) :
    (c.rollbackFinalization env spine lfNr).2 = c := by
  unfold rollbackFinalization
  cases c.store.get spine with
  | none => rfl
  | some _ =>
    simp only [rollbackLoop_stopped h, writeFinalizedBlock, tryLock_stopped h, andThen_error]
    split_ifs <;> rfl

/-! ## The chain of one spine -/

/-- How many blocks of a chain are finalized before the first failure, and the chain that
    leaves. -/
def advance (process : Process) : ℕ → Hash → List Block → FinChain → ℕ × FinChain
  | _, _, [], c => (0, c)
  | nr, lastFinBlock, b :: bs, c =>
    match c.updateFinalizingState process b lastFinBlock with
    | .error _ => (0, c)
    | .ok c =>
      match c.tryLock with
      | none => (0, c)
      | some c =>
        let r := advance process (nr + 1) b.hash bs (c.assign nr b.hash bs.isEmpty)
        (r.1 + 1, r.2)

/-- What the first `k` blocks of a chain, finalized on `c` from the number `nr` on, change. -/
structure Advanced (c : FinChain) (nr : ℕ) (bs : List Block) (k : ℕ) (d : FinChain) : Prop where
  le : k ≤ bs.length
  store : d.store = c.store
  genesis : d.genesis = c.genesis
  index : d.index = c.index.pushAll nr ((bs.take k).map hash)
  head_of_lt : k < bs.length → d.head = c.head
  head_of_eq : k = bs.length → ∀ b, bs.getLast? = some b → d.head = b.hash
  root : ∀ h ∉ bs.map hash, d.root h = c.root h
  running : c.permits = none → d.permits = none

theorem updateFinalizingState_eq_ok {b : Block}
    (h : c.updateFinalizingState process b prev = .ok d) :
    ∃ root, process (c.root prev) b = .ok root ∧ d = c.setRoot b.hash root := by
  unfold updateFinalizingState at h
  cases hr : process (c.root prev) b <;> rw [hr] at h <;> cases h
  exact ⟨_, rfl, rfl⟩

theorem tryLock_eq_some (h : c.tryLock = some d) : d = c.spend 1 := by
  obtain ⟨store, genesis, index, head, root, permits⟩ := c
  match permits with
  | none => exact (Option.some.inj h).symm
  | some 0 => cases h
  | some (p + 1) => exact (Option.some.inj h).symm

theorem tryLock_eq_none (h : c.tryLock = none) : c.permits = some 0 := by
  unfold tryLock at h
  cases hp : c.permits with
  | none => simp [hp] at h
  | some p => cases p <;> simp_all

theorem advance_advanced : ∀ (bs : List Block) (nr : ℕ) (prev : Hash) (c : FinChain),
    Advanced c nr bs (advance process nr prev bs c).1 (advance process nr prev bs c).2
  | [], _, _, c => ⟨le_rfl, rfl, rfl, rfl, fun _ => rfl, by simp, fun _ _ => rfl, id⟩
  | b :: bs, nr, prev, c => by
    unfold advance
    cases hs : c.updateFinalizingState process b prev with
    | error e =>
      exact ⟨Nat.zero_le _, rfl, rfl, rfl, fun _ => rfl, by simp, fun _ _ => rfl, id⟩
    | ok c₁ =>
      obtain ⟨root, -, rfl⟩ := updateFinalizingState_eq_ok hs
      have hroot : ∀ h ∉ (b :: bs).map hash, (c.setRoot b.hash root).root h = c.root h :=
        fun h hh => Function.update_of_ne (fun he => hh (by simp [he])) _ _
      simp only
      split
      · exact ⟨Nat.zero_le _, rfl, rfl, rfl, fun _ => rfl, by simp, hroot, id⟩
      · next c₂ hl =>
        obtain rfl := tryLock_eq_some hl
        have ih := advance_advanced bs (nr + 1) b.hash
          (((c.setRoot b.hash root).spend 1).assign nr b.hash bs.isEmpty)
        refine ⟨Nat.succ_le_succ ih.le, ih.store, ih.genesis, ?_, fun hlt => ?_, fun he x hx => ?_,
          fun h hh => ?_, fun hp => ih.running ?_⟩
        · rw [ih.index]; rfl
        · rw [length_cons, Nat.add_lt_add_iff_right] at hlt
          rw [ih.head_of_lt hlt]
          cases bs with
          | nil => simp at hlt
          | cons _ _ => rfl
        · rw [length_cons, Nat.add_right_cancel_iff] at he
          cases bs with
          | nil =>
            obtain rfl : b = x := by simpa using hx
            rfl
          | cons b' bs => exact ih.head_of_eq he x (by simpa using hx)
        · refine (ih.root h fun hb => hh ?_).trans (hroot h hh)
          exact mem_cons_of_mem _ hb
        · exact congrArg (Option.map (· - 1)) hp

theorem finalizeBlock_new (hup : c.index.UpTo m) (hn : c.index.numOf h = none) (isHead : Bool) :
    c.finalizeBlock (m + 1) h isHead =
      match c.tryLock with
      | none => (.error .insertionInterrupted, c)
      | some c => (.ok (), c.assign (m + 1) h isHead) := by
  rw [finalizeBlock, if_neg (by simp [hn]),
    if_neg (by simp [hup.keyAt_eq_none (Nat.lt_succ_self m)]), writeFinalizedBlock]
  cases c.tryLock with
  | none => rfl
  | some c' => simp

/-- Numbering distinct blocks that have no number, the loop of `Finalize` does what `advance`
    says: the rollback after a failed write changes nothing, since the lock that the write
    could not take is needed for it as well. -/
theorem finalizeBlocks_eq (success : Hash) : ∀ (bs : List Block) {m : ℕ} (prev : Hash)
    {c : FinChain}, c.index.UpTo m → (bs.map hash).Nodup →
    (∀ b ∈ bs, c.index.numOf b.hash = none) →
    ∃ r, finalizeBlocks env success (m + 1) prev bs c =
        (r, (advance env.process (m + 1) prev bs c).2) ∧
      (r = .ok () ↔ (advance env.process (m + 1) prev bs c).1 = bs.length)
  | [], _, _, _, _, _, _ => ⟨.ok (), rfl, by simp [advance]⟩
  | b :: bs, m, prev, c, hup, hnd, hnew => by
    obtain ⟨hb, hnd⟩ := nodup_cons.1 hnd
    have hnone : c.index.numOf b.hash = none := hnew b (by simp)
    unfold finalizeBlocks advance
    cases hs : c.updateFinalizingState env.process b prev with
    | error e => exact ⟨.error e, rfl, by simp⟩
    | ok c₁ =>
      obtain ⟨root, -, rfl⟩ := updateFinalizingState_eq_ok hs
      have hup₁ : (c.setRoot b.hash root).index.UpTo m := hup
      simp only [finalizeBlock_new hup₁ hnone]
      cases hl : (c.setRoot b.hash root).tryLock with
      | none =>
        obtain ⟨e, he⟩ := andThen_fail ((c.setRoot b.hash root).setSpineState env (some success)
          (m + 1)) .insertionInterrupted
        refine ⟨.error e, he.trans ?_, by simp⟩
        rw [setSpineState, rollbackFinalization_permits_zero (tryLock_eq_none hl)]
      | some c₂ =>
        obtain rfl := tryLock_eq_some hl
        have hset : (c.index.set (m + 1) b.hash).UpTo (m + 1) := hup.set_succ hnone
        have hnew' : ∀ x ∈ bs, (c.index.set (m + 1) b.hash).numOf x.hash = none := fun x hx => by
          have hne : x.hash ≠ b.hash := fun he => hb (he ▸ mem_map_of_mem hx)
          simpa [Numbering.set, hne] using hnew x (by simp [hx])
        obtain ⟨r, hr, hiff⟩ := finalizeBlocks_eq success bs b.hash
          (c := ((c.setRoot b.hash root).spend 1).assign (m + 1) b.hash bs.isEmpty) hset hnd hnew'
        exact ⟨r, hr, by rw [hiff]; simp⟩

theorem Advanced.numbered (h : Advanced c (m + 1) bs k d) (hc : c.Numbered m)
    (hf : FreshChain c.dag spine bs) : d.Numbered (m + k) ∧ d.index.truncate m = c.index := by
  have hsub : (bs.take k).Sublist bs := take_sublist k bs
  have hnd : ((bs.take k).map hash).Nodup := hf.nodup.sublist (hsub.map _)
  have hnew : ∀ x ∈ (bs.take k).map hash, c.index.numOf x = none := by
    intro x hx
    obtain ⟨b, hb, rfl⟩ := mem_map.1 hx
    exact (hf.mem b (hsub.subset hb)).2
  have hlen : ((bs.take k).map hash).length = k := by simp [h.le]
  have hup := Numbering.UpTo.pushAll _ hc.upTo hnd hnew
  have hold := Numbering.UpTo.truncate_pushAll _ hc.upTo hnd hnew
  rw [← h.index] at hup hold
  rw [hlen] at hup
  refine ⟨⟨hup, fun x hx => ?_, ?_⟩, hold⟩
  · rw [h.index, isSome_pushAll] at hx
    rw [h.store]
    rcases hx with hx | hx
    · obtain ⟨b, hb, rfl⟩ := mem_map.1 hx
      exact Option.isSome_iff_exists.2 ⟨b, BlockStore.get_of_mem (hf.mem b (hsub.subset hb)).1⟩
    · exact hc.stored x hx
  · rw [h.genesis]
    refine (Numbering.numOf_truncate.1 (?_ : (d.index.truncate m).numOf _ = _)).1
    rw [hold]; exact hc.genesis

/-! ## The loop over the spines -/

/-- The loop of `Finalize`, entered with the head of the chain in its variables. -/
def finalizeOn (env : FinEnv) (spines : List Block) (c : FinChain) :
    Except FinError Unit × FinChain :=
  finalizeSpines env spines c.head (c.nr c.head) c.head c

@[simp] theorem finalizeOn_nil : c.finalizeOn env [] = (.ok (), c) := rfl

/-- The blocks of a chain that are finalized on top of the head. -/
def advanceHead (process : Process) (chain : List Block) (c : FinChain) : ℕ × FinChain :=
  advance process (c.nr c.head + 1) c.head chain c

/-- `d` is `c` extended by the whole chain of a spine. -/
structure Extended (c : FinChain) (spine : Hash) (chain : List Block) (d : FinChain) : Prop where
  valid : d.Valid
  store : d.store = c.store
  genesis : d.genesis = c.genesis
  head : d.head = spine
  old : d.index.truncate (c.nr c.head) = c.index
  isSome_iff : ∀ h, (d.index.numOf h).isSome ↔
    h ∈ chain.map hash ∨ (c.index.numOf h).isSome
  root : ∀ h, (c.index.numOf h).isSome → d.root h = c.root h
  running : c.permits = none → d.permits = none

theorem Valid.extended (hc : c.Valid) (hf : FreshChain c.dag spine chain) (hne : chain ≠ [])
    (hadv : c.advanceHead process chain = (chain.length, d)) : Extended c spine chain d := by
  have ha : Advanced c (c.nr c.head + 1) chain chain.length d := by
    have := @advance_advanced process chain (c.nr c.head + 1) c.head c
    rwa [show advance process (c.nr c.head + 1) c.head chain c = (chain.length, d) from hadv] at this
  obtain ⟨hnum, hold⟩ := ha.numbered hc.numbered hf
  obtain ⟨init, last, rfl⟩ := (eq_nil_or_concat' chain).resolve_left hne
  have hhead : d.head = last.hash := ha.head_of_eq rfl last (by simp)
  have hindex := ha.index
  rw [take_length] at hindex
  -- the spine is the last block of its chain, so it carries the greatest number
  have hlast : d.index.numOf last.hash = some (c.nr c.head + (init ++ [last]).length) := by
    rw [hindex, map_append, map_singleton, numOf_pushAll_concat]
    simp only [length_map, length_append, length_singleton]
    congr 1; omega
  have hnr : d.nr d.head = c.nr c.head + (init ++ [last]).length := by
    rw [hhead]; exact nr_eq hlast
  refine ⟨⟨by rw [hnr]; exact hnum, by rw [hnr, hhead]; exact hlast⟩, ha.store, ha.genesis,
    hhead.trans (hf.last last (by simp)), hold, fun h => ?_, fun h hh => ha.root h fun hm => ?_,
    ha.running⟩
  · rw [hindex, isSome_pushAll]
  · obtain ⟨b, hb, rfl⟩ := mem_map.1 hm
    rw [show c.index.numOf b.hash = none from (hf.mem b hb).2] at hh
    cases hh

theorem Extended.nr_le (h : Extended c spine chain d) (hc : c.Valid) : c.nr c.head ≤ d.nr d.head :=
  h.valid.numbered.upTo.le (numOf_of_truncate_eq h.old hc.head)

/-- One round of the loop: the chain cannot be computed; the spine is finalized already; its
    chain is finalized and the spine is the new head; or its chain is left unfinished. -/
inductive Round (env : FinEnv) (c : FinChain) (spine : Block) (rest : List Block) : Prop
  | failed (e : SpineError)
      (hchain : spineGetDagChain c.dag (env.order spine.hash) spine = .error e)
      (hres : c.finalizeOn env (spine :: rest) = (.error (.calcChain e), c))
  | skipped (hchain : spineGetDagChain c.dag (env.order spine.hash) spine = .ok [])
      (hnum : (c.index.numOf spine.hash).isSome)
      (hres : c.finalizeOn env (spine :: rest) = c.finalizeOn env rest)
  | finished (chain : List Block) (d : FinChain)
      (hchain : spineGetDagChain c.dag (env.order spine.hash) spine = .ok chain)
      (hne : chain ≠ []) (hadv : c.advanceHead env.process chain = (chain.length, d))
      (hext : Extended c spine.hash chain d)
      (hres : c.finalizeOn env (spine :: rest) = d.finalizeOn env rest)
  | unfinished (chain : List Block) (k : ℕ) (d : FinChain) (e : FinError)
      (hchain : spineGetDagChain c.dag (env.order spine.hash) spine = .ok chain)
      (hne : chain ≠ []) (hadv : c.advanceHead env.process chain = (k, d)) (hk : k < chain.length)
      (hd : d.Numbered (c.nr c.head + k)) (hhead : d.head = c.head)
      (hold : d.index.truncate (c.nr c.head) = c.index)
      (hres : c.finalizeOn env (spine :: rest) = (.error e, d))

theorem Valid.round (hc : c.Valid) {spine : Block} (hs : spine ∈ c.store.blocks)
    (rest : List Block) : Round env c spine rest := by
  have hrun : c.finalizeOn env (spine :: rest) =
      finalizeSpines env (spine :: rest) c.head (c.nr c.head) c.head c := rfl
  unfold finalizeSpines at hrun
  cases hchain : spineGetDagChain c.dag (env.order spine.hash) spine with
  | error e => rw [hchain] at hrun; exact .failed e hchain hrun
  | ok chain =>
    rw [hchain] at hrun
    have hf : FreshChain c.dag spine.hash chain := spineGetDagChain_fresh hs hchain
    cases hlast : chain.getLast? with
    | none =>
      obtain rfl : chain = [] := List.getLast?_eq_none_iff.1 hlast
      exact .skipped hchain (hf.nil.1 rfl) hrun
    | some last =>
      have hne : chain ≠ [] := by rintro rfl; cases hlast
      simp only [hlast] at hrun
      obtain ⟨r, hblocks, hok⟩ := finalizeBlocks_eq c.head chain c.head hc.numbered.upTo hf.nodup
        (fun b hb => (hf.mem b hb).2)
      have hadv : Advanced c (c.nr c.head + 1) chain (c.advanceHead env.process chain).1
        (c.advanceHead env.process chain).2 := advance_advanced chain _ _ c
      obtain ⟨hnum, hold⟩ := hadv.numbered hc.numbered hf
      rw [hblocks] at hrun
      rcases Nat.lt_or_eq_of_le hadv.le with hk | hk
      · cases r with
        | ok _ => exact absurd (hok.1 rfl) (Nat.ne_of_lt hk)
        | error e =>
          exact .unfinished chain _ _ e hchain hne rfl hk hnum (hadv.head_of_lt hk) hold hrun
      · obtain rfl : r = .ok () := hok.2 hk
        have hext := hc.extended hf hne (Prod.ext hk rfl)
        refine .finished chain _ hchain hne (Prod.ext hk rfl) hext (hrun.trans ?_)
        rw [andThen_ok, hf.last last hlast, ← hext.head]
        rfl

/-- The loop of `Finalize` by the chain of its first spine. -/
theorem Valid.finalizeOn_cons (hc : c.Valid) {spine : Block} (hs : spine ∈ c.store.blocks)
    (hchain : spineGetDagChain c.dag (env.order spine.hash) spine = .ok chain) (rest : List Block) :
    ∃ e, c.finalizeOn env (spine :: rest) =
      if chain = [] then c.finalizeOn env rest
      else if (c.advanceHead env.process chain).1 = chain.length then
        (c.advanceHead env.process chain).2.finalizeOn env rest
      else (.error e, (c.advanceHead env.process chain).2) := by
  cases @Valid.round env c hc spine hs rest with
  | failed e h _ => cases hchain.symm.trans h
  | skipped h _ hres =>
    cases hchain.symm.trans h
    exact ⟨.busy, hres⟩
  | finished _ d h hne hadv _ hres =>
    cases hchain.symm.trans h
    exact ⟨.busy, by rw [if_neg hne, hadv, if_pos rfl, hres]⟩
  | unfinished _ k d e h hne hadv hk _ _ _ hres =>
    cases hchain.symm.trans h
    exact ⟨e, by rw [if_neg hne, hadv, if_neg hk.ne, hres]⟩

/-! ## `Finalize` -/

theorem rollbackBlockFinalization_store (n : ℕ) :
    (c.rollbackBlockFinalization n).2.store = c.store := by
  unfold rollbackBlockFinalization
  cases hl : c.tryLock with
  | none => rfl
  | some d =>
    obtain rfl := tryLock_eq_some hl
    simp only
    cases (c.spend 1).getBlockByNumber n <;> rfl

theorem rollbackLoop_store (lo : ℕ) : ∀ (i : ℕ) (c : FinChain),
    (rollbackLoop lo i c).store = c.store
  | 0, _ => rfl
  | i + 1, c => by
    unfold rollbackLoop
    split_ifs
    · rfl
    · cases c.getBlockByNumber (i + 1) with
      | none => exact rollbackLoop_store lo i c
      | some _ => exact (rollbackLoop_store lo i _).trans (rollbackBlockFinalization_store _)

theorem writeFinalizedBlock_store (n : ℕ) (h : Hash) (isHead : Bool) :
    (c.writeFinalizedBlock n h isHead).2.store = c.store := by
  unfold writeFinalizedBlock
  cases hl : c.tryLock with
  | none => rfl
  | some d =>
    obtain rfl := tryLock_eq_some hl
    simp only
    split_ifs <;> rfl

theorem rollbackFinalization_store (spine : Hash) (lfNr : ℕ) :
    (c.rollbackFinalization env spine lfNr).2.store = c.store := by
  unfold rollbackFinalization
  cases c.store.get spine with
  | none => rfl
  | some _ =>
    simp only
    have hw := (writeFinalizedBlock_store (c.nr spine) spine true).trans
      (rollbackLoop_store (c.nr spine) lfNr c)
    generalize (rollbackLoop (c.nr spine) lfNr c).writeFinalizedBlock (c.nr spine) spine true = w
      at hw
    obtain ⟨_ | _, d⟩ := w
    · split_ifs <;> first | rfl | exact hw
    · split_ifs <;> first | rfl | exact hw

theorem mapM_get_hash : ∀ {bs : List Block}, (∀ b ∈ bs, b ∈ s.blocks) →
    (bs.map hash).mapM s.get = some bs
  | [], _ => rfl
  | b :: bs, h => by
    obtain ⟨hb, hbs⟩ := forall_mem_cons.1 h
    rw [map_cons, mapM_cons, BlockStore.get_of_mem hb, mapM_get_hash hbs]
    rfl

/-- `Finalize` on known spines in increasing slot order: the rollback to the base, then the
    loop over the spines as they are given. -/
theorem finalize_eq (hne : blocks ≠ []) (hst : ∀ b ∈ blocks, b ∈ c.store.blocks)
    (hslots : blocks.Pairwise (·.slot < ·.slot)) :
    c.finalize env false (blocks.map hash) (some base) =
      andThen (c.rollbackFinalization env base (c.nr c.head)) fun d => d.finalizeOn env blocks := by
  have hstore := @rollbackFinalization_store env c base (c.nr c.head)
  rw [finalize, if_neg (by simp), if_neg (by simpa using hne), setSpineState]
  cases hr : c.rollbackFinalization env base (c.nr c.head) with
  | mk r d =>
    rw [hr] at hstore
    cases r with
    | error e => rfl
    | ok _ =>
      rw [andThen_ok, andThen_ok, mapM_get_hash (by rw [hstore]; exact hst)]
      simp only [sortBySlot, filterMap_lookup_indexBy hslots]
      rfl

end FinChain

end Gwat
