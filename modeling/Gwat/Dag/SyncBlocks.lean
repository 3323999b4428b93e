/-
  The insertion of fetched blocks (`WriteSyncBlocks` in `core/blockchain.go`, and the insertion
  loop of `syncWithPeerUnknownBlocksWithParents` in `eth/downloader/downloader.go`).
-/
import Gwat.Dag.Spine

namespace Gwat

open GoLib List Shuffle

/-- What `insertBlocks` answers for a list of blocks: all went through, the node stops before the
    block `k`, the DAG is incomplete at a block, or a block fails with another error. -/
inductive InsertAnswer (len : ℕ)
  | done
  | stopped (k : ℕ)
  | uncompleted (n : Fin len)
  | failed (n : Fin len)

/-- One call of `WriteSyncBlocks`: whether the chain can be locked, the order in which the map of
    slots is read, and what `insertBlocks` answers. -/
structure SyncCall where
  lock : Bool
  order : Shuffle ℕ
  answer : (blocks : List Block) → InsertAnswer blocks.length

/-- The delayed blocks (`insBlockCache`), and the blocks that `insertBlocks` has processed or
    rejected. -/
structure SyncState where
  delayed : List Block
  settled : List Block

/-- What `WriteSyncBlocks` returns: nil, an error without a block, or the failing block. -/
inductive WriteResult
  | ok
  | interrupted
  | failed (bl : Block)

/-- `Blocks.Deduplicate`: the first block of each hash. -/
def deduplicate (blocks : List Block) : List Block :=
  blocks.foldl (fun cpy b => if b.hash ∈ cpy.map Block.hash then cpy else cpy ++ [b]) []

/-- `orderedBlocks` of `WriteSyncBlocks`: grouped by slot, the slots sorted. -/
def slotOrder (o : Shuffle ℕ) (blocks : List Block) : List Block :=
  let blocksBySlot := groupBySlot blocks
  (sortAsc (o.order blocksBySlot.keys)).flatMap fun slot => (blocksBySlot.lookup slot).getD []

namespace SyncCall

/-- The blocks that are handed to `insertBlocks`. -/
def ordered (c : SyncCall) (blocks delayed : List Block) : List Block :=
  slotOrder c.order (deduplicate (blocks ++ delayed))

/-- `bc.WriteSyncBlocks` -/
def writeSyncBlocks (c : SyncCall) (s : SyncState) (blocks : List Block) :
    WriteResult × SyncState :=
  if c.lock then
    let orderedBlocks := c.ordered blocks s.delayed
    match c.answer orderedBlocks with
    | .done => (.ok, ⟨[], s.settled ++ orderedBlocks⟩)
    | .stopped k => (.ok, ⟨[], s.settled ++ orderedBlocks.take k⟩)
    | .uncompleted n =>
      (.failed (orderedBlocks.get n), ⟨orderedBlocks.drop n, s.settled ++ orderedBlocks.take n⟩)
    | .failed n =>
      (.failed (orderedBlocks.get n), ⟨[], s.settled ++ orderedBlocks.take (n + 1)⟩)
  else (.interrupted, s)

end SyncCall

/-- How the loop ends; `running` if it has not ended. -/
inductive LoopEnd
  | returned
  | panicked
  | running
  deriving DecidableEq, Repr

/-- `failedIx`: the failing block in the list, or the last index if it is not there. -/
def failedIx (insBlocks : List Block) (bl : Block) : ℕ :=
  (insBlocks.findIdx? fun b => b.hash = bl.hash).getD (insBlocks.length - 1)

/-- The insertion loop of `syncWithPeerUnknownBlocksWithParents` for at most `fuel` rounds.  When
    the writer returns an error without a block, the message that is logged reads its slot. -/
def insertLoop (calls : ℕ → SyncCall) : ℕ → ℕ → List Block → SyncState → LoopEnd × SyncState
  | 0, _, _, s => (.running, s)
  | fuel + 1, i, insBlocks, s =>
    match (calls i).writeSyncBlocks s insBlocks with
    | (.ok, s') => (.returned, s')
    | (.interrupted, s') => (.panicked, s')
    | (.failed bl, s') =>
      if failedIx insBlocks bl + 1 < insBlocks.length then
        insertLoop calls fuel (i + 1) (insBlocks.drop (failedIx insBlocks bl + 1)) s'
      else (.returned, s')

/-- The end of `syncWithPeerUnknownBlocksWithParents`, for the fetched blocks. -/
def insertUnknownBlocks (calls : ℕ → SyncCall) (o : SpineOrder) (blocks delayed : List Block) :
    LoopEnd × SyncState :=
  let insBlocks := orderBlocks o blocks
  insertLoop calls (insBlocks.length + 1) 0 insBlocks ⟨delayed, []⟩

/-! ## The order of insertion -/

section

variable {l l₁ l₂ : List Block} {b x : Block} {o : Shuffle ℕ}

theorem slotOrder_eq (o : Shuffle ℕ) (l : List Block) :
    slotOrder o l = (sortAsc (o.order (groupBySlot l).keys)).flatMap fun slot =>
      l.filter fun b => b.slot = slot := by
  simp only [slotOrder, getD_lookup_groupBySlot]

theorem mem_slotOrder : b ∈ slotOrder o l ↔ b ∈ l := by
  simp only [slotOrder_eq, mem_flatMap, mem_sortAsc, mem_order, mem_keys_groupBySlot,
    mem_filter, decide_eq_true_eq]
  constructor
  · rintro ⟨_, _, hb, _⟩
    exact hb
  · exact fun hb => ⟨b.slot, ⟨b, hb, rfl⟩, hb, rfl⟩

theorem eq_append_filter_slot {k : ℕ} (hl : l.Pairwise fun a b => a.slot ≤ b.slot)
    (hle : ∀ b ∈ l, k ≤ b.slot) :
    l = l.filter (fun b => b.slot = k) ++ l.filter fun b => b.slot ≠ k := by
  induction l with
  | nil => rfl
  | cons b l ih =>
    obtain ⟨hb, hl⟩ := pairwise_cons.1 hl
    obtain ⟨hkb, hle⟩ := forall_mem_cons.1 hle
    by_cases heq : b.slot = k
    · rw [filter_cons_of_pos (by simpa using heq),
        filter_cons_of_neg (by simpa using heq), cons_append, ← ih hl hle]
    · have hne : ∀ c ∈ b :: l, c.slot ≠ k := by grind
      rw [filter_eq_nil_iff.2 fun c hc => by simpa using hne c hc,
        filter_eq_self.2 fun c hc => by simpa using hne c hc, nil_append]

theorem flatMap_filter_slot {slots : List ℕ} (hs : slots.Pairwise (· < ·))
    (hl : l.Pairwise fun a b => a.slot ≤ b.slot) (hmem : ∀ b ∈ l, b.slot ∈ slots) :
    (slots.flatMap fun slot => l.filter fun b => b.slot = slot) = l := by
  induction slots generalizing l with
  | nil => exact (eq_nil_iff_forall_not_mem.2 fun b hb => by simpa using hmem b hb).symm
  | cons k slots ih =>
    obtain ⟨hk, hs⟩ := pairwise_cons.1 hs
    have hle : ∀ b ∈ l, k ≤ b.slot := fun b hb =>
      (mem_cons.1 (hmem b hb)).elim (·.ge) fun hin => (hk _ hin).le
    have hsplit := eq_append_filter_slot hl hle
    have hrest : ∀ slot ∈ slots, (l.filter fun b => b.slot = slot) =
        (l.filter fun b => b.slot ≠ k).filter fun b => b.slot = slot := by
      intro slot hslot
      rw [filter_filter]
      refine filter_congr fun b _ => ?_
      by_cases hb : b.slot = slot <;> simp [hb, (hk slot hslot).ne']
    rw [flatMap_cons, flatMap_congr hrest, ih hs (hl.filter _) (by grind), ← hsplit]

theorem filter_slotOrder {p : Block → Bool} (h : (l.filter p).Pairwise fun a b => a.slot ≤ b.slot) :
    (slotOrder o l).filter p = l.filter p := by
  have hslots := sortAsc_pairwise_lt (@nodup_order _ o _ (AList.keys_nodup (groupBySlot l)))
  have hcomm : ∀ slot ∈ sortAsc (o.order (groupBySlot l).keys),
      (l.filter fun b => b.slot = slot).filter p = (l.filter p).filter fun b => b.slot = slot := by
    intro slot _
    rw [filter_filter, filter_filter]
    exact filter_congr fun b _ => Bool.and_comm _ _
  rw [slotOrder_eq, filter_flatMap, flatMap_congr hcomm]
  refine flatMap_filter_slot hslots h fun b hb => ?_
  rw [mem_sortAsc, mem_order, mem_keys_groupBySlot]
  exact ⟨b, (mem_filter.1 hb).1, rfl⟩

theorem nodup_slotOrder (h : l.Nodup) : (slotOrder o l).Nodup := by
  rw [slotOrder_eq, nodup_flatMap]
  refine ⟨fun slot _ => h.filter _, ?_⟩
  refine (sortAsc_pairwise_lt (nodup_order (AList.keys_nodup _))).imp ?_
  intro a b hab c hca hcb
  grind

/-! ## Equal hashes -/

/-- The blocks are given by their hashes. -/
def ByHash (l : List Block) : Prop := ∀ a ∈ l, ∀ b ∈ l, a.hash = b.hash → a = b

theorem ByHash.mono (h : ByHash l₂) (hsub : ∀ b ∈ l₁, b ∈ l₂) : ByHash l₁ :=
  fun a ha b hb => h a (hsub a ha) b (hsub b hb)

theorem deduplicate_snoc (l : List Block) (b : Block) : deduplicate (l ++ [b]) =
    if b.hash ∈ (deduplicate l).map Block.hash then deduplicate l else deduplicate l ++ [b] := by
  unfold deduplicate
  rw [foldl_append, foldl_cons, foldl_nil]

theorem mem_of_mem_deduplicate (h : b ∈ deduplicate l) : b ∈ l := by
  induction l using reverseRecOn with
  | nil => exact h
  | append_singleton l c ih =>
    rw [deduplicate_snoc] at h
    grind

theorem mem_deduplicate (hl : ByHash l) : b ∈ deduplicate l ↔ b ∈ l := by
  refine ⟨mem_of_mem_deduplicate, fun h => ?_⟩
  induction l using reverseRecOn with
  | nil => exact h
  | append_singleton l c ih =>
    have hold := ih (hl.mono fun x hx => mem_append_left _ hx)
    rw [deduplicate_snoc]
    split_ifs with hin
    · rcases mem_append.1 h with h | h
      · exact hold h
      · obtain rfl := mem_singleton.1 h
        obtain ⟨d, hd, hhash⟩ := mem_map.1 hin
        have hdl := mem_of_mem_deduplicate hd
        rwa [← hl d (by simp [hdl]) b (by simp) hhash]
    · grind

theorem nodup_deduplicate (l : List Block) : ((deduplicate l).map Block.hash).Nodup := by
  induction l using reverseRecOn with
  | nil => exact nodup_nil
  | append_singleton l b ih =>
    rw [deduplicate_snoc]
    split_ifs with hin
    · exact ih
    · rw [map_append, nodup_append]
      grind

theorem deduplicate_append (h : (l₁.map Block.hash).Nodup) (l₂ : List Block) :
    ∃ l, deduplicate (l₁ ++ l₂) = l₁ ++ l ∧ ∀ b ∈ l, b ∉ l₁ := by
  induction l₂ using reverseRecOn with
  | nil =>
    refine ⟨[], ?_, by simp⟩
    rw [append_nil]
    induction l₁ using reverseRecOn with
    | nil => rfl
    | append_singleton l b ih =>
      rw [map_append, nodup_append] at h
      rw [deduplicate_snoc, ih h.1, if_neg fun hin => h.2.2 _ hin b.hash (by simp) rfl]
  | append_singleton l₂ b ih =>
    obtain ⟨l, heq, hnew⟩ := ih
    rw [← append_assoc, deduplicate_snoc, heq]
    split_ifs with hin
    · exact ⟨l, rfl, hnew⟩
    · exact ⟨l ++ [b], by rw [append_assoc], by grind⟩

theorem ByHash.bucket_of_mem (hl : ByHash l) (hb : b ∈ l) :
    (bucket (heightPlenMap l) b.height b.plen).lookup b.hash = some b := by
  induction l using reverseRecOn with
  | nil => cases hb
  | append_singleton l c ih =>
    rw [bucket_heightPlenMap_snoc]
    by_cases heq : b.hash = c.hash
    · obtain rfl := hl b hb c (by simp) heq
      simp
    · have hold := ih (hl.mono fun x hx => mem_append_left _ hx) (by grind)
      split_ifs
      · rwa [AList.lookup_insert_ne heq]
      · exact hold

theorem ByHash.mem_orderBlocks {so : SpineOrder} (hl : ByHash l) :
    b ∈ orderBlocks so l ↔ b ∈ l := by
  have hfil : ∀ slot, ByHash (l.filter fun b => b.slot = slot) :=
    fun slot => hl.mono fun x hx => (mem_filter.1 hx).1
  simp only [orderBlocks, mem_flatMap, mem_sortAsc, mem_order, mem_keys_groupBySlot,
    getD_lookup_groupBySlot]
  constructor
  · rintro ⟨slot, -, hb⟩
    exact (mem_filter.1 (spineSortBlocks_subset hb)).1
  · intro hb
    refine ⟨b.slot, ⟨b, hb, rfl⟩, mem_spineSortBlocks.2 ?_⟩
    exact (hfil b.slot).bucket_of_mem (mem_filter.2 ⟨hb, by simp⟩)

end

/-! ## One call -/

/-- The blocks of a batch that the loop hands over: in the order of their slots, each once. -/
structure Batch (insBlocks delayed : List Block) : Prop where
  byHash : ByHash (insBlocks ++ delayed)
  sorted : insBlocks.Pairwise fun a b => a.slot ≤ b.slot
  nodup : (insBlocks.map Block.hash).Nodup

namespace Batch

variable {insBlocks delayed pre post : List Block} {b x : Block} {c : SyncCall}

theorem mem_ordered (h : Batch insBlocks delayed) :
    x ∈ c.ordered insBlocks delayed ↔ x ∈ insBlocks ∨ x ∈ delayed := by
  rw [SyncCall.ordered, mem_slotOrder, mem_deduplicate h.byHash, mem_append]

theorem nodup_ordered : (c.ordered insBlocks delayed).Nodup :=
  nodup_slotOrder (List.Nodup.of_map _ (nodup_deduplicate _))

theorem filter_ordered (h : Batch insBlocks delayed) :
    (c.ordered insBlocks delayed).filter (· ∈ insBlocks) = insBlocks := by
  obtain ⟨l, heq, hnew⟩ := deduplicate_append h.nodup delayed
  have hfil : (deduplicate (insBlocks ++ delayed)).filter (· ∈ insBlocks) = insBlocks := by
    rw [heq, filter_append, filter_eq_self.2 fun x hx => by simpa using hx,
      filter_eq_nil_iff.2 fun x hx => by simpa using hnew x hx, append_nil]
  rw [SyncCall.ordered, filter_slotOrder (by rw [hfil]; exact h.sorted), hfil]

theorem failedIx_eq (h : Batch insBlocks delayed) (heq : insBlocks = pre ++ b :: post) :
    failedIx insBlocks b = pre.length := by
  have hpre : ∀ a ∈ pre, a.hash ≠ b.hash := by
    intro a ha
    have hn := h.nodup
    rw [heq, map_append, nodup_append] at hn
    exact hn.2.2 _ (mem_map_of_mem ha) _ (by simp)
  have hfind : pre.findIdx? (fun a => a.hash = b.hash) = none :=
    findIdx?_eq_none_iff.2 fun a ha => by simpa using hpre a ha
  rw [failedIx, heq, findIdx?_append, hfind, findIdx?_cons, if_pos (by simp)]
  simp

theorem drop_failedIx (h : Batch insBlocks delayed) (heq : insBlocks = pre ++ b :: post) :
    insBlocks.drop (failedIx insBlocks b + 1) = post := by
  rw [h.failedIx_eq heq, heq]
  simp

theorem length_le_failedIx (h : Batch insBlocks delayed) (hb : b ∈ delayed) (hn : b ∉ insBlocks) :
    insBlocks.length ≤ failedIx insBlocks b + 1 := by
  have hfind : insBlocks.findIdx? (fun a => a.hash = b.hash) = none := by
    refine findIdx?_eq_none_iff.2 fun a ha => ?_
    simp only [decide_eq_false_iff_not]
    intro heq
    have := h.byHash a (mem_append_left _ ha) b (mem_append_right _ hb) heq
    exact hn (this ▸ ha)
  rw [failedIx, hfind, Option.getD_none]
  omega

theorem mem_rest (h : Batch insBlocks delayed)
    (ho : c.ordered insBlocks delayed = pre ++ b :: post) :
    x ∈ insBlocks.drop (failedIx insBlocks b + 1) ↔ b ∈ insBlocks ∧ x ∈ insBlocks ∧ x ∈ post := by
  by_cases hb : b ∈ insBlocks
  · have hsplit : insBlocks = pre.filter (· ∈ insBlocks) ++ b :: post.filter (· ∈ insBlocks) := by
      have hfil := h.filter_ordered (c := c)
      rw [ho, filter_append, filter_cons_of_pos (by simpa using hb)] at hfil
      exact hfil.symm
    rw [h.drop_failedIx hsplit, mem_filter]
    simp [hb, and_comm]
  · have hin : b ∈ c.ordered insBlocks delayed := by simp [ho]
    have hdel : b ∈ delayed := (h.mem_ordered.1 hin).resolve_left hb
    rw [drop_eq_nil_of_le (h.length_le_failedIx hdel hb)]
    simp [hb]

end Batch

/-- With this answer no block gets lost: the node does not stop before the last block, and after an
    error other than an incomplete DAG, if blocks are left, then the failing block and those after
    it are blocks of the batch and not delayed ones. -/
def InsertAnswer.Keeps (blocks ordered : List Block) : InsertAnswer ordered.length → Prop
  | .done => True
  | .stopped k => ordered.length ≤ k
  | .uncompleted _ => True
  | .failed n => ∀ x ∈ ordered.drop (n + 1), ordered.get n ∈ blocks ∧ x ∈ blocks

instance (blocks ordered : List Block) (answer : InsertAnswer ordered.length) :
    Decidable (answer.Keeps blocks) := by
  cases answer <;> dsimp only [InsertAnswer.Keeps] <;> infer_instance

/-- No block gets lost in a call: the chain can be locked, and the answer loses no block. -/
def SyncCall.Keeps (c : SyncCall) (blocks delayed : List Block) : Prop :=
  c.lock ∧ (c.answer (c.ordered blocks delayed)).Keeps blocks

instance (c : SyncCall) (blocks delayed : List Block) : Decidable (c.Keeps blocks delayed) :=
  inferInstanceAs (Decidable (_ ∧ _))

/-- What a call of `WriteSyncBlocks` does, and when it keeps all blocks. -/
inductive CallCase (c : SyncCall) (s : SyncState) (blocks : List Block) : Prop
  | interrupted (hw : c.writeSyncBlocks s blocks = (.interrupted, s))
      (hk : ¬ c.Keeps blocks s.delayed)
  | ended (k : ℕ)
      (hw : c.writeSyncBlocks s blocks =
        (.ok, ⟨[], s.settled ++ (c.ordered blocks s.delayed).take k⟩))
      (hk : c.Keeps blocks s.delayed ↔ (c.ordered blocks s.delayed).length ≤ k)
  | delayed (pre : List Block) (b : Block) (post : List Block)
      (ho : c.ordered blocks s.delayed = pre ++ b :: post)
      (hw : c.writeSyncBlocks s blocks = (.failed b, ⟨b :: post, s.settled ++ pre⟩))
      (hk : c.Keeps blocks s.delayed)
  | rejected (pre : List Block) (b : Block) (post : List Block)
      (ho : c.ordered blocks s.delayed = pre ++ b :: post)
      (hw : c.writeSyncBlocks s blocks = (.failed b, ⟨[], s.settled ++ (pre ++ [b])⟩))
      (hk : c.Keeps blocks s.delayed ↔ ∀ x ∈ post, b ∈ blocks ∧ x ∈ blocks)

theorem split_at (l : List Block) (n : Fin l.length) :
    l = l.take n ++ l.get n :: l.drop (n + 1) := by
  rw [get_eq_getElem, cons_getElem_drop_succ, take_append_drop]

theorem callCase (c : SyncCall) (s : SyncState) (blocks : List Block) : CallCase c s blocks := by
  by_cases hl : c.lock
  · have hsplit := split_at (c.ordered blocks s.delayed)
    cases ha : c.answer (c.ordered blocks s.delayed) with
    | done =>
      refine .ended (c.ordered blocks s.delayed).length ?_ ?_ <;>
        simp [SyncCall.writeSyncBlocks, SyncCall.Keeps, InsertAnswer.Keeps, hl, ha]
    | stopped k =>
      refine .ended k ?_ ?_ <;>
        simp [SyncCall.writeSyncBlocks, SyncCall.Keeps, InsertAnswer.Keeps, hl, ha]
    | uncompleted n =>
      refine .delayed _ _ _ (hsplit n) ?_ ?_ <;>
        simp [SyncCall.writeSyncBlocks, SyncCall.Keeps, InsertAnswer.Keeps, hl, ha]
    | failed n =>
      refine .rejected _ _ _ (hsplit n) ?_ ?_ <;>
        simp [SyncCall.writeSyncBlocks, SyncCall.Keeps, InsertAnswer.Keeps, hl, ha]
  · refine .interrupted ?_ fun hk => hl hk.1
    simp only [SyncCall.writeSyncBlocks, if_neg hl]

/-! ## The loop -/

/-- The calls that the loop makes, with the batch and the delayed blocks. -/
def callsMade (calls : ℕ → SyncCall) :
    ℕ → ℕ → List Block → SyncState → List (SyncCall × List Block × List Block)
  | 0, _, _, _ => []
  | fuel + 1, i, insBlocks, s =>
    (calls i, insBlocks, s.delayed) ::
      match (calls i).writeSyncBlocks s insBlocks with
      | (.failed bl, s') =>
        if failedIx insBlocks bl + 1 < insBlocks.length then
          callsMade calls fuel (i + 1) (insBlocks.drop (failedIx insBlocks bl + 1)) s'
        else []
      | _ => []

/-- The block went through `insertBlocks` or is delayed. -/
def SyncState.Accounted (s : SyncState) (b : Block) : Prop := b ∈ s.settled ∨ b ∈ s.delayed

/-- What the loop goes on with after a block fails. -/
def afterFailed (insBlocks : List Block) (bl : Block) : List Block :=
  insBlocks.drop (failedIx insBlocks bl + 1)

section

variable {calls : ℕ → SyncCall} {fuel i : ℕ} {insBlocks delayed taken l : List Block}
  {s s' s'' : SyncState} {b x : Block} {c : SyncCall}

theorem afterFailed_eq_nil :
    afterFailed insBlocks b = [] ↔ ¬ failedIx insBlocks b + 1 < insBlocks.length := by
  rw [afterFailed, drop_eq_nil_iff, not_lt]

theorem afterFailed_sublist : (afterFailed insBlocks b).Sublist insBlocks := drop_sublist _ _

theorem length_afterFailed (h : afterFailed insBlocks b ≠ []) :
    (afterFailed insBlocks b).length < insBlocks.length := by
  have hlt := not_not.1 fun hn => h (afterFailed_eq_nil.2 hn)
  rw [afterFailed, length_drop]
  omega

theorem insertLoop_failed (hw : (calls i).writeSyncBlocks s insBlocks = (.failed b, s')) :
    insertLoop calls (fuel + 1) i insBlocks s =
      if afterFailed insBlocks b = [] then (.returned, s')
      else insertLoop calls fuel (i + 1) (afterFailed insBlocks b) s' := by
  rw [insertLoop, hw]
  simp only [afterFailed_eq_nil, ite_not]
  rfl

theorem callsMade_failed (hw : (calls i).writeSyncBlocks s insBlocks = (.failed b, s')) :
    callsMade calls (fuel + 1) i insBlocks s = (calls i, insBlocks, s.delayed) ::
      if afterFailed insBlocks b = [] then []
      else callsMade calls fuel (i + 1) (afterFailed insBlocks b) s' := by
  rw [callsMade, hw]
  simp only [afterFailed_eq_nil, ite_not]
  rfl

/-- The loop ends: each round leaves a shorter batch. -/
theorem insertLoop_ne_running (hf : insBlocks.length < fuel) :
    (insertLoop calls fuel i insBlocks s).1 ≠ .running := by
  induction fuel generalizing i insBlocks s with
  | zero => omega
  | succ fuel ih =>
    have hfailed : ∀ b s', (calls i).writeSyncBlocks s insBlocks = (.failed b, s') →
        (insertLoop calls (fuel + 1) i insBlocks s).1 ≠ .running := by
      intro b s' hw
      rw [insertLoop_failed hw]
      split_ifs with hnil
      · simp
      · have := length_afterFailed hnil
        exact ih (by omega)
    cases callCase (calls i) s insBlocks with
    | interrupted hw | ended _ hw => simp [insertLoop, hw]
    | delayed _ _ _ _ hw | rejected _ _ _ _ hw => exact hfailed _ _ hw

/-- From `s` and a batch to `s'` no settled block is forgotten and no block is invented. -/
structure Grows (s : SyncState) (insBlocks : List Block) (s' : SyncState) : Prop where
  settled : ∀ x ∈ s.settled, x ∈ s'.settled
  source : ∀ x, s'.Accounted x → x ∈ s.settled ∨ x ∈ insBlocks ∨ x ∈ s.delayed

theorem mem_of_mem_ordered (h : x ∈ c.ordered insBlocks delayed) : x ∈ insBlocks ∨ x ∈ delayed :=
  mem_append.1 (mem_of_mem_deduplicate (mem_slotOrder.1 h))

/-- A call settles some of the blocks it orders, and may delay some. -/
theorem Grows.write (ht : ∀ x ∈ taken, x ∈ c.ordered insBlocks s.delayed)
    (hd : ∀ x ∈ delayed, x ∈ c.ordered insBlocks s.delayed) :
    Grows s insBlocks ⟨delayed, s.settled ++ taken⟩ := by
  refine ⟨fun x hx => mem_append_left _ hx, ?_⟩
  rintro x (hx | hx)
  · exact (mem_append.1 hx).imp_right fun hx => mem_of_mem_ordered (ht x hx)
  · exact .inr (mem_of_mem_ordered (hd x hx))

theorem Grows.trans (h : Grows s insBlocks s') (hl : ∀ x ∈ l, x ∈ insBlocks) (h' : Grows s' l s'') :
    Grows s insBlocks s'' := by
  refine ⟨fun x hx => h'.settled x (h.settled x hx), fun x hx => ?_⟩
  rcases h'.source x hx with hx | hx | hx
  · exact h.source x (.inl hx)
  · exact .inr (.inl (hl x hx))
  · exact h.source x (.inr hx)

theorem callCase_grows (c : SyncCall) (s : SyncState) (insBlocks : List Block) :
    Grows s insBlocks (c.writeSyncBlocks s insBlocks).2 := by
  cases callCase c s insBlocks with
  | interrupted hw => exact hw ▸ ⟨fun _ h => h, fun x hx => hx.imp_right .inr⟩
  | ended k hw => exact hw ▸ .write (fun x hx => mem_of_mem_take hx) (by simp)
  | delayed pre b post ho hw | rejected pre b post ho hw =>
    exact hw ▸ .write (c := c) (by grind) (by simp_all)

theorem insertLoop_grows (calls : ℕ → SyncCall) (fuel i : ℕ) (insBlocks : List Block)
    (s : SyncState) : Grows s insBlocks (insertLoop calls fuel i insBlocks s).2 := by
  induction fuel generalizing i insBlocks s with
  | zero => exact ⟨fun _ h => h, fun x hx => hx.imp_right .inr⟩
  | succ fuel ih =>
    have hcall := callCase_grows (calls i) s insBlocks
    cases hw : (calls i).writeSyncBlocks s insBlocks with
    | mk r s' =>
      rw [hw] at hcall
      cases r with
      | ok | interrupted => simpa [insertLoop, hw] using hcall
      | failed b =>
        rw [insertLoop_failed hw]
        split_ifs with hnil
        · exact hcall
        · exact hcall.trans (fun x hx => afterFailed_sublist.mem hx) (ih ..)

end

/-! ## When the loop keeps all blocks -/

/-- The batch and the delayed blocks were not settled before. -/
structure Unsettled (insBlocks : List Block) (s : SyncState) : Prop extends
    Batch insBlocks s.delayed where
  fresh : ∀ x, x ∈ insBlocks ∨ x ∈ s.delayed → x ∉ s.settled

/-- The loop ended, and every block of the batch and every delayed block is accounted for. -/
def KeptBlocks (insBlocks : List Block) (s : SyncState) (r : LoopEnd × SyncState) : Prop :=
  r.1 = .returned ∧ ∀ x, x ∈ insBlocks ∨ x ∈ s.delayed → r.2.Accounted x

namespace Unsettled

variable {calls : ℕ → SyncCall} {fuel i : ℕ} {insBlocks taken tail delayed pre post : List Block}
  {s r : SyncState} {b x : Block} {c : SyncCall}

theorem not_settled (h : Unsettled insBlocks s)
    (ho : c.ordered insBlocks s.delayed = taken ++ tail) (hx : x ∈ tail) :
    x ∉ s.settled ++ taken := by
  have hnodup : (taken ++ tail).Nodup := ho ▸ Batch.nodup_ordered
  intro hset
  rcases mem_append.1 hset with hset | hset
  · exact h.fresh x (mem_of_mem_ordered (ho ▸ mem_append_right taken hx)) hset
  · exact (nodup_append.1 hnodup).2.2 x hset x hx rfl

theorem next (h : Unsettled insBlocks s) (ho : c.ordered insBlocks s.delayed = taken ++ tail)
    (hr : ∀ x ∈ afterFailed insBlocks b, x ∈ tail) (hd : ∀ x ∈ delayed, x ∈ tail) :
    Unsettled (afterFailed insBlocks b) ⟨delayed, s.settled ++ taken⟩ := by
  have htail : ∀ x, x ∈ afterFailed insBlocks b ∨ x ∈ delayed → x ∈ tail :=
    fun x hx => hx.elim (hr x) (hd x)
  have hsrc : ∀ x ∈ tail, x ∈ insBlocks ∨ x ∈ s.delayed :=
    fun x hx => mem_of_mem_ordered (ho ▸ mem_append_right taken hx)
  refine ⟨⟨h.byHash.mono fun x hx => ?_, h.sorted.sublist afterFailed_sublist,
    h.nodup.sublist (afterFailed_sublist.map _)⟩, fun x hx => h.not_settled ho (htail x hx)⟩
  exact mem_append.2 (hsrc x (htail x (mem_append.1 hx)))

theorem accounted_iff (h : Unsettled insBlocks s)
    (ho : c.ordered insBlocks s.delayed = taken ++ tail)
    (hset : ∀ x ∈ s.settled ++ taken, x ∈ r.settled) :
    (∀ x, x ∈ insBlocks ∨ x ∈ s.delayed → r.Accounted x) ↔ ∀ x ∈ tail, r.Accounted x := by
  constructor
  · intro hall x hx
    exact hall x (mem_of_mem_ordered (ho ▸ mem_append_right taken hx))
  · intro htail x hx
    have hin : x ∈ taken ++ tail := ho ▸ h.mem_ordered.2 hx
    rcases mem_append.1 hin with hin | hin
    · exact .inl (hset x (mem_append_right _ hin))
    · exact htail x hin

theorem ended_iff (h : Unsettled insBlocks s) (k : ℕ) : KeptBlocks insBlocks s
        (.returned, ⟨[], s.settled ++ (c.ordered insBlocks s.delayed).take k⟩) ↔
      (c.ordered insBlocks s.delayed).length ≤ k := by
  have ho := (take_append_drop k (c.ordered insBlocks s.delayed)).symm
  rw [KeptBlocks, h.accounted_iff ho fun x hx => hx, ← drop_eq_nil_iff, eq_nil_iff_forall_not_mem]
  constructor
  · rintro ⟨-, hall⟩ x hx
    rcases hall x hx with hset | hdel
    · exact h.not_settled ho hx hset
    · cases hdel
  · intro hnil
    exact ⟨rfl, fun x hx => absurd hx (hnil x)⟩

section

variable {r : LoopEnd × SyncState}

theorem delayed_iff (h : Unsettled insBlocks s)
    (ho : c.ordered insBlocks s.delayed = pre ++ b :: post)
    (hg : Grows ⟨b :: post, s.settled ++ pre⟩ (afterFailed insBlocks b) r.2) :
    KeptBlocks insBlocks s r ↔
      KeptBlocks (afterFailed insBlocks b) ⟨b :: post, s.settled ++ pre⟩ r := by
  rw [KeptBlocks, KeptBlocks, h.accounted_iff ho hg.settled]
  refine and_congr_right fun _ => ⟨fun hall x hx => hall x ?_, fun hall x hx => hall x (.inr hx)⟩
  rcases hx with hx | hx
  · exact mem_cons_of_mem _ ((h.mem_rest ho).1 hx).2.2
  · exact hx

theorem rejected_iff (h : Unsettled insBlocks s)
    (ho : c.ordered insBlocks s.delayed = pre ++ b :: post)
    (hg : Grows ⟨[], s.settled ++ (pre ++ [b])⟩ (afterFailed insBlocks b) r.2) :
    KeptBlocks insBlocks s r ↔ (∀ x ∈ post, b ∈ insBlocks ∧ x ∈ insBlocks) ∧
      KeptBlocks (afterFailed insBlocks b) ⟨[], s.settled ++ (pre ++ [b])⟩ r := by
  have ho' : c.ordered insBlocks s.delayed = (pre ++ [b]) ++ post := by
    rw [ho, append_cons]
  rw [KeptBlocks, KeptBlocks, h.accounted_iff ho' hg.settled]
  constructor
  · rintro ⟨hret, hall⟩
    refine ⟨fun x hx => ?_, hret, fun x hx => ?_⟩
    · rcases hg.source x (hall x hx) with hset | hrest | hdel
      · exact absurd hset (h.not_settled ho' hx)
      · have := (h.mem_rest ho).1 hrest
        exact ⟨this.1, this.2.1⟩
      · cases hdel
    · rcases hx with hx | hx
      · exact hall x ((h.mem_rest ho).1 hx).2.2
      · cases hx
  · rintro ⟨hin, hret, hall⟩
    refine ⟨hret, fun x hx => hall x (.inl ((h.mem_rest ho).2 ?_))⟩
    exact ⟨(hin x hx).1, (hin x hx).2, hx⟩

end

/-- The loop loses no block exactly if none of its calls does. -/
theorem insertLoop_iff (h : Unsettled insBlocks s) (hf : insBlocks.length < fuel) :
    KeptBlocks insBlocks s (insertLoop calls fuel i insBlocks s) ↔
      ∀ m ∈ callsMade calls fuel i insBlocks s, m.1.Keeps m.2.1 m.2.2 := by
  induction fuel generalizing i insBlocks s with
  | zero => omega
  | succ fuel ih =>
    -- what follows after a failing block, whether the loop goes on or not
    have hnext : ∀ b s', Unsettled (afterFailed insBlocks b) s' →
        let r := if afterFailed insBlocks b = [] then (.returned, s')
          else insertLoop calls fuel (i + 1) (afterFailed insBlocks b) s'
        Grows s' (afterFailed insBlocks b) r.2 ∧
          (KeptBlocks (afterFailed insBlocks b) s' r ↔
            ∀ m ∈ (if afterFailed insBlocks b = [] then []
              else callsMade calls fuel (i + 1) (afterFailed insBlocks b) s'),
              m.1.Keeps m.2.1 m.2.2) := by
      intro b s' hs'
      split_ifs with hnil
      · refine ⟨⟨fun _ h => h, fun x hx => hx.imp_right .inr⟩, ?_⟩
        simpa [KeptBlocks, hnil] using fun x hx => .inr hx
      · have := length_afterFailed hnil
        exact ⟨insertLoop_grows .., ih hs' (by omega)⟩
    cases callCase (calls i) s insBlocks with
    | interrupted hw hk =>
      simp [insertLoop, callsMade, hw, hk, KeptBlocks]
    | ended k hw hk =>
      simp only [insertLoop, callsMade, hw, mem_singleton, forall_eq, hk]
      exact h.ended_iff k
    | delayed pre b post ho hw hk =>
      have hs' : Unsettled (afterFailed insBlocks b) ⟨b :: post, s.settled ++ pre⟩ :=
        h.next ho (fun x hx => mem_cons_of_mem _ ((h.mem_rest ho).1 hx).2.2) fun x hx => hx
      obtain ⟨hg, hiff⟩ := hnext b _ hs'
      rw [insertLoop_failed hw, callsMade_failed hw, forall_mem_cons, h.delayed_iff ho hg, hiff]
      exact (and_iff_right hk).symm
    | rejected pre b post ho hw hk =>
      have ho' : (calls i).ordered insBlocks s.delayed = (pre ++ [b]) ++ post := by
        rw [ho, append_cons]
      have hs' : Unsettled (afterFailed insBlocks b) ⟨[], s.settled ++ (pre ++ [b])⟩ :=
        h.next ho' (fun x hx => ((h.mem_rest ho).1 hx).2.2) (by simp)
      obtain ⟨hg, hiff⟩ := hnext b _ hs'
      rw [insertLoop_failed hw, callsMade_failed hw, forall_mem_cons, h.rejected_iff ho hg, hiff]
      exact and_congr_left' hk.symm

end Unsettled

/-! ## A fetched batch -/

section

variable {calls : ℕ → SyncCall} {o : SpineOrder} {blocks delayed : List Block}

/-- The calls of `WriteSyncBlocks` for a fetched batch. -/
def unknownBlocksCalls (calls : ℕ → SyncCall) (o : SpineOrder) (blocks delayed : List Block) :
    List (SyncCall × List Block × List Block) :=
  let insBlocks := orderBlocks o blocks
  callsMade calls (insBlocks.length + 1) 0 insBlocks ⟨delayed, []⟩

theorem unsettled_orderBlocks (h : ByHash (blocks ++ delayed)) :
    Unsettled (orderBlocks o blocks) ⟨delayed, []⟩ := by
  have hblocks : ByHash blocks := h.mono fun x hx => mem_append_left _ hx
  have hpair := orderBlocks_pairwise o blocks
  refine ⟨⟨h.mono fun x hx => ?_, hpair.imp fun {a b} hab => ?_, ?_⟩, fun x _ hx => by cases hx⟩
  · simpa only [mem_append, hblocks.mem_orderBlocks] using hx
  · rcases hab with hab | ⟨hab, -⟩ <;> omega
  · refine (nodup_of_finBefore hpair).map_on fun a ha b hb heq => ?_
    exact hblocks a (hblocks.mem_orderBlocks.1 ha) b (hblocks.mem_orderBlocks.1 hb) heq

/-- The insertion of a fetched batch ends.  It returns with every block of the batch and every
    delayed block processed, rejected or delayed exactly if each of its calls keeps all blocks. -/
theorem unknownBlocks_kept_iff (calls : ℕ → SyncCall) (o : SpineOrder)
    (h : ByHash (blocks ++ delayed)) :
    (insertUnknownBlocks calls o blocks delayed).1 ≠ .running ∧
      ((insertUnknownBlocks calls o blocks delayed).1 = .returned ∧
          (∀ b ∈ blocks ++ delayed, (insertUnknownBlocks calls o blocks delayed).2.Accounted b) ↔
        ∀ m ∈ unknownBlocksCalls calls o blocks delayed, m.1.Keeps m.2.1 m.2.2) := by
  have hblocks : ByHash blocks := h.mono fun x hx => mem_append_left _ hx
  refine ⟨insertLoop_ne_running (Nat.lt_succ_self _), ?_⟩
  rw [unknownBlocksCalls, ← (unsettled_orderBlocks h).insertLoop_iff (Nat.lt_succ_self _),
    KeptBlocks]
  simp only [hblocks.mem_orderBlocks, mem_append]
  rfl

instance (l : List Block) : Decidable (ByHash l) :=
  inferInstanceAs (Decidable (∀ a ∈ l, ∀ b ∈ l, a.hash = b.hash → a = b))

instance (s : SyncState) (b : Block) : Decidable (s.Accounted b) :=
  inferInstanceAs (Decidable (b ∈ s.settled ∨ b ∈ s.delayed))

/-- A block without parents in the slot `n`. -/
def slotBlock (n : Fin (2 ^ 256)) : Block := ⟨n, [], n, n⟩

/-- `insertBlocks` answers with an error at the first block. -/
def SyncCall.atFirst (answer : (len : ℕ) → Fin len → InsertAnswer len) : SyncCall where
  lock := true
  order := default
  answer blocks := if h : 0 < blocks.length then answer _ ⟨0, h⟩ else .done

/-- Blocks 1 and 3 are fetched while block 2 is delayed.  The DAG is incomplete at block 1, and
    then complete; all blocks are kept. -/
theorem unknownBlocks_kept_delayed :
    let calls := fun i => if i = 0 then SyncCall.atFirst fun _ n => .uncompleted n
      else ⟨true, default, fun _ => .done⟩
    let blocks := [slotBlock 1, slotBlock 3]
    let r := insertUnknownBlocks calls default blocks [slotBlock 2]
    ByHash (blocks ++ [slotBlock 2]) ∧ r.1 = .returned ∧
      ∀ b ∈ blocks ++ [slotBlock 2], r.2.Accounted b := by
  intro calls blocks r
  have hb : ByHash (blocks ++ [slotBlock 2]) := by decide
  refine ⟨hb, (unknownBlocks_kept_iff calls default hb).2.2 (by decide)⟩

/-- Block 1 is fetched while block 2 is delayed.  If block 1 is rejected, block 2 is neither
    handed to `insertBlocks` nor delayed any more.  If the chain cannot be locked, the slot of a
    missing block is read. -/
theorem unknownBlocks_lost :
    (let calls := fun _ => SyncCall.atFirst fun _ n => .failed n
      let r := insertUnknownBlocks calls default [slotBlock 1] [slotBlock 2]
      r.1 = .returned ∧ ¬ r.2.Accounted (slotBlock 2)) ∧
    (insertUnknownBlocks (fun _ => ⟨false, default, fun _ => .done⟩) default [slotBlock 1] []).1 =
      .panicked := by
  decide

end

end Gwat
