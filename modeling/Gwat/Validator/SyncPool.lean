/-
  The operations of the coordinator that a node keeps until their transactions are
  processed (`core/blockchain.go`, `validator/validatorsync/validator_sync_tx.go`).
-/
import Gwat.Validator.Chain

namespace Gwat

open GoLib List Function AList

/-- What a node keeps of the operations of the coordinator: the cache and the database of saved
    operations, the not processed ones in memory (nil until they are read first), and their
    keys in the database. -/
structure SyncPool where
  cache : Hash → Option ValidatorSync
  stored : Hash → Option ValidatorSync
  notProc : Option (GoMap Hash ValidatorSync)
  storedKeys : List Hash

namespace SyncPool

/-- A new node knows no operations. -/
def empty : SyncPool := ⟨fun _ => none, fun _ => none, none, []⟩

/-! ## Saved operations -/

def getValidatorSyncData (s : SyncPool) (key : Hash) : Option ValidatorSync :=
  (s.cache key).or (s.stored key)

/-- The cache after `GetValidatorSyncData`. -/
def remember (s : SyncPool) (key : Hash) : SyncPool :=
  { s with cache := update s.cache key (s.getValidatorSyncData key) }

def writeValidatorSync (s : SyncPool) (vs : ValidatorSync) : SyncPool :=
  { s with stored := update s.stored vs.initTxHash (some vs) }

def values (m : GoMap Hash ValidatorSync) : List ValidatorSync := m.entries.map fun e => e.2

/-- `WriteNotProcessedValidatorSyncOps` -/
def writeNotProcessed (s : SyncPool) (m : GoMap Hash ValidatorSync) : SyncPool :=
  { (values m).foldl writeValidatorSync s with storedKeys := (values m).map (·.initTxHash) }

/-- The operation is written to the cache and to the database. -/
def saveOp (s : SyncPool) (vs : ValidatorSync) : SyncPool :=
  { s with
    cache := update s.cache vs.initTxHash (some vs)
    stored := update s.stored vs.initTxHash (some vs) }

/-- `SetValidatorSyncData`: an operation with a transaction is processed. -/
def setValidatorSyncData (s : SyncPool) (vs : ValidatorSync) : SyncPool :=
  match s.notProc with
  | none => s.saveOp vs
  | some m =>
    if vs.txHash ≠ none ∧ vs.initTxHash ∈ m then
      { s.saveOp vs with notProc := some (m.erase vs.initTxHash) }.writeNotProcessed
        (m.erase vs.initTxHash)
    else s.saveOp vs

/-! ## Not processed operations -/

/-- `GetNotProcessedValidatorSyncData`: the map in memory, or the operations of the database. -/
def notProcessed (s : SyncPool) : GoMap Hash ValidatorSync :=
  s.notProc.getD (indexBy (·.initTxHash) (s.storedKeys.filterMap s.stored))

/-- The map in memory after `GetNotProcessedValidatorSyncData`. -/
def loadNotProcessed (s : SyncPool) : SyncPool := { s with notProc := some s.notProcessed }

/-- One turn of the first loop of `AppendNotProcessedValidatorSyncData`: an operation is added
    when none is known, or with an earlier epoch than one that has a transaction. -/
def appendOne (acc : SyncPool × Bool) (vs : ValidatorSync) : SyncPool × Bool :=
  let s := acc.1
  if ∃ np ∈ s.notProcessed.lookup vs.initTxHash, np.procEpoch ≤ vs.procEpoch then acc
  else if ∀ saved ∈ s.getValidatorSyncData vs.initTxHash,
      vs.procEpoch < saved.procEpoch ∧ saved.txHash ≠ none then
    ({ s.remember vs.initTxHash with
        notProc := some (s.notProcessed.insert vs.initTxHash vs) }, true)
  else (s.remember vs.initTxHash, acc.2)

/-- An operation that is removed with the others: it has a transaction, and is not received
    again. -/
def isHandled (keys : List Hash) (vs : ValidatorSync) : Bool :=
  vs.txHash ≠ none ∧ vs.initTxHash ∉ keys

/-- The second loop of `AppendNotProcessedValidatorSyncData`. -/
def dropHandled (keys : List Hash) (m : GoMap Hash ValidatorSync) : GoMap Hash ValidatorSync where
  entries := m.entries.filter fun e => ¬ isHandled keys e.2
  nodupKeys := (filter_sublist.map Sigma.fst).nodup m.nodupKeys

/-- `AppendNotProcessedValidatorSyncData` -/
def appendNotProcessed (s : SyncPool) (data : List ValidatorSync) : SyncPool :=
  let keys := data.map (·.initTxHash)
  let acc := data.foldl appendOne (s.loadNotProcessed, false)
  let m := acc.1.notProcessed
  let s := { acc.1 with notProc := some (dropHandled keys m) }
  if acc.2 ∨ (values m).any (isHandled keys) then s.writeNotProcessed (dropHandled keys m) else s

/-! ## Pending operations -/

/-- One turn of the loop of `GetPendingValidatorSyncData`. -/
def pendingStep (config : ChainConfig) (slot currEpoch : UInt64)
    (acc : GoMap Hash ValidatorSync × SyncPool) (k : Hash) (vs : ValidatorSync) :
    GoMap Hash ValidatorSync × SyncPool :=
  if vs.txHash ≠ none then acc
  else
    let s := acc.2.remember vs.initTxHash
    if ∃ saved ∈ acc.2.getValidatorSyncData vs.initTxHash, saved.txHash ≠ none then (acc.1, s)
    else if vs.procEpoch = currEpoch then (acc.1.insert k vs, s)
    else if config.isForkSlotDelegate slot ∧ vs.procEpoch < currEpoch then
      -- an epoch is compared with a slot
      if vs.procEpoch < config.forkSlotDelegate then
        (acc.1, s.setValidatorSyncData { vs with txHash := some vs.initTxHash })
      else (acc.1.insert k vs, s)
    else (acc.1, s)

/-- `GetPendingValidatorSyncData` at the given slot, with an order in which the map is read. -/
def getPending (config : ChainConfig) (order : Shuffle Hash) (slot : UInt64) (s : SyncPool) :
    Except ValError (GoMap Hash ValidatorSync × SyncPool) := do
  let currEpoch ← config.slotToEpoch slot
  let m := s.notProcessed
  return (order.order m.keys).foldl (fun acc k =>
    match m.lookup k with
    | none => acc
    | some vs => pendingStep config slot currEpoch acc k vs) (∅, s.loadNotProcessed)

/-! ## Maps by key -/

/-- Every operation lies under its key. -/
def KeyedMap (m : GoMap Hash ValidatorSync) : Prop :=
  ∀ k vs, m.lookup k = some vs → vs.initTxHash = k

section

variable {m : GoMap Hash ValidatorSync} {k : Hash} {vs : ValidatorSync}

theorem mem_values : vs ∈ values m ↔ ∃ k, m.lookup k = some vs := by
  simp [values, ← Option.mem_def, mem_lookup_iff]

theorem keyedMap_indexBy (l : List ValidatorSync) : KeyedMap (indexBy (·.initTxHash) l) := by
  intro k vs h
  rw [indexBy_eq] at h
  obtain ⟨x, -, hx⟩ := mem_map.1 (mem_of_lookup_ofPairs h)
  cases hx
  rfl

theorem KeyedMap.erase (h : KeyedMap m) (key : Hash) : KeyedMap (m.erase key) := by
  intro k vs hk
  by_cases hne : k = key
  · subst hne
    simp at hk
  · exact h k vs (by simpa [hne] using hk)

theorem KeyedMap.insert (h : KeyedMap m) (vs : ValidatorSync) :
    KeyedMap (m.insert vs.initTxHash vs) := by
  intro k v hk
  by_cases hne : k = vs.initTxHash
  · subst hne
    simp_all
  · exact h k v (by simpa [hne] using hk)

theorem lookup_dropHandled {keys : List Hash} : (dropHandled keys m).lookup k = some vs ↔
    m.lookup k = some vs ∧ ¬ isHandled keys vs := by
  rw [← Option.mem_def, mem_lookup_iff, dropHandled, mem_filter, ← mem_lookup_iff]
  simp

theorem KeyedMap.dropHandled (h : KeyedMap m) (keys : List Hash) : KeyedMap (dropHandled keys m) :=
  fun k vs hk => h k vs (lookup_dropHandled.1 hk).1

theorem KeyedMap.map_values (h : KeyedMap m) : (values m).map (·.initTxHash) = m.keys := by
  rw [values, map_map]
  refine map_congr_left fun e he => ?_
  exact h e.1 e.2 (AList.mem_lookup_iff.2 he)

end

/-! ## Writes to the database -/

section

variable {s : SyncPool} {m : GoMap Hash ValidatorSync} {k : Hash} {vs : ValidatorSync}
variable {l : List ValidatorSync}

theorem stored_foldl_of_not_mem (h : k ∉ l.map (·.initTxHash)) :
    (l.foldl writeValidatorSync s).stored k = s.stored k := by
  induction l generalizing s with
  | nil => rfl
  | cons v l ih =>
    rw [map_cons, mem_cons, not_or] at h
    exact (ih h.2).trans (update_of_ne h.1 _ _)

theorem stored_foldl_of_mem (hn : (l.map (·.initTxHash)).Nodup) (h : vs ∈ l) :
    (l.foldl writeValidatorSync s).stored vs.initTxHash = some vs := by
  induction l generalizing s with
  | nil => cases h
  | cons v l ih =>
    rw [map_cons, nodup_cons] at hn
    rcases mem_cons.1 h with rfl | h
    · exact (stored_foldl_of_not_mem hn.1).trans (update_self _ _ _)
    · exact ih hn.2 h

theorem foldl_writeValidatorSync (l : List ValidatorSync) :
    (l.foldl writeValidatorSync s).cache = s.cache ∧
      (l.foldl writeValidatorSync s).notProc = s.notProc := by
  induction l generalizing s with
  | nil => exact ⟨rfl, rfl⟩
  | cons v l ih => exact ih

@[simp] theorem cache_writeNotProcessed : (s.writeNotProcessed m).cache = s.cache :=
  (foldl_writeValidatorSync _).1

@[simp] theorem notProc_writeNotProcessed : (s.writeNotProcessed m).notProc = s.notProc :=
  (foldl_writeValidatorSync _).2

theorem stored_writeNotProcessed (h : KeyedMap m) :
    (s.writeNotProcessed m).stored k = (m.lookup k).or (s.stored k) := by
  cases hk : m.lookup k with
  | none =>
    refine stored_foldl_of_not_mem ?_
    rw [h.map_values, ← AList.mem_keys, ← lookup_isSome, hk]
    simp
  | some vs =>
    obtain rfl := h k vs hk
    refine stored_foldl_of_mem ?_ (mem_values.2 ⟨_, hk⟩)
    rw [h.map_values]
    exact m.keys_nodup

end

/-! ## Operations that wait -/

/-- Every operation lies under its key, in memory and in the database. -/
structure Keyed (s : SyncPool) : Prop where
  memory : ∀ m ∈ s.notProc, KeyedMap m
  cache : ∀ k vs, s.cache k = some vs → vs.initTxHash = k
  stored : ∀ k vs, s.stored k = some vs → vs.initTxHash = k

/-- The operation is in the not processed set, and neither it nor the saved operation has a
    transaction. -/
structure Waiting (s : SyncPool) (k : Hash) (vs : ValidatorSync) : Prop where
  notProcessed : s.notProcessed.lookup k = some vs
  txHash : vs.txHash = none
  saved : ∀ saved ∈ s.getValidatorSyncData k, saved.txHash = none

section

variable {s : SyncPool} {m : GoMap Hash ValidatorSync} {k key : Hash} {vs vs' : ValidatorSync}

@[simp] theorem notProcessed_of_some (h : s.notProc = some m) : s.notProcessed = m := by
  rw [notProcessed, h, Option.getD_some]

theorem lookup_notProcessed_of_none (hk : s.Keyed) (h : s.notProc = none) :
    s.notProcessed.lookup k = if k ∈ s.storedKeys then s.stored k else none := by
  have hmem : ∀ v, v ∈ s.storedKeys.filterMap s.stored ∧ v.initTxHash = k ↔
      k ∈ s.storedKeys ∧ s.stored k = some v := by
    intro v
    rw [mem_filterMap]
    constructor
    · rintro ⟨⟨k', hk', hv⟩, rfl⟩
      obtain rfl := hk.stored k' v hv
      exact ⟨hk', hv⟩
    · rintro ⟨hin, hv⟩
      exact ⟨⟨k, hin, hv⟩, hk.stored k v hv⟩
  have hread : s.notProcessed = indexBy (·.initTxHash) (s.storedKeys.filterMap s.stored) := by
    rw [notProcessed, h, Option.getD_none]
  have hfrom : ∀ v, s.notProcessed.lookup k = some v → k ∈ s.storedKeys ∧ s.stored k = some v := by
    intro v hv
    rw [hread] at hv
    refine (hmem v).1 ⟨?_, keyedMap_indexBy _ k v hv⟩
    rw [indexBy_eq] at hv
    obtain ⟨x, hx, hxv⟩ := mem_map.1 (mem_of_lookup_ofPairs hv)
    rwa [← (Prod.mk.inj hxv).2]
  cases hlook : s.notProcessed.lookup k with
  | some v =>
    obtain ⟨hin, hv⟩ := hfrom v hlook
    rw [if_pos hin, hv]
  | none =>
    by_cases hin : k ∈ s.storedKeys
    · rw [if_pos hin]
      cases hv : s.stored k with
      | none => rfl
      | some v =>
        -- the operation of the database would be found
        obtain ⟨hvmem, hkey⟩ := (hmem v).2 ⟨hin, hv⟩
        have hkeys : k ∈ s.notProcessed.keys := by
          rw [hread, mem_keys_indexBy, ← hkey]
          exact mem_map_of_mem hvmem
        rw [← AList.mem_keys, ← lookup_isSome, hlook] at hkeys
        cases hkeys
    · rw [if_neg hin]

theorem Keyed.notProcessed (hk : s.Keyed) : KeyedMap s.notProcessed := by
  cases h : s.notProc with
  | none =>
    rw [SyncPool.notProcessed, h, Option.getD_none]
    exact keyedMap_indexBy _
  | some m =>
    rw [notProcessed_of_some h]
    exact hk.memory m h

theorem keyed_empty : empty.Keyed := ⟨nofun, nofun, nofun⟩

theorem Keyed.loadNotProcessed (hk : s.Keyed) : s.loadNotProcessed.Keyed := by
  refine ⟨fun m hm => ?_, hk.cache, hk.stored⟩
  cases hm
  exact hk.notProcessed

theorem Keyed.writeNotProcessed (hk : s.Keyed) (hm : KeyedMap m) : (s.writeNotProcessed m).Keyed := by
  refine ⟨fun m' hm' => hk.memory m' (by simpa using hm'), by simpa using hk.cache,
    fun k vs h => ?_⟩
  rw [stored_writeNotProcessed hm, Option.or_eq_some_iff] at h
  rcases h with h | ⟨-, h⟩
  · exact hm k vs h
  · exact hk.stored k vs h

theorem stored_saveOp_of_ne (hne : k ≠ vs.initTxHash) : (s.saveOp vs).stored k = s.stored k := by
  simp [saveOp, hne]

theorem getValidatorSyncData_saveOp_of_ne (hne : k ≠ vs.initTxHash) :
    (s.saveOp vs).getValidatorSyncData k = s.getValidatorSyncData k := by
  simp [getValidatorSyncData, saveOp, hne]

theorem keyed_update {f : Hash → Option ValidatorSync} {o : Option ValidatorSync}
    (h : ∀ k vs, f k = some vs → vs.initTxHash = k) (ho : ∀ vs ∈ o, vs.initTxHash = key) :
    ∀ k vs, update f key o k = some vs → vs.initTxHash = k := by
  intro k vs hvs
  by_cases hne : k = key
  · exact hne ▸ ho vs (by simpa [hne] using hvs)
  · exact h k vs (by simpa [hne] using hvs)

theorem Keyed.saveOp (hk : s.Keyed) (vs : ValidatorSync) : (s.saveOp vs).Keyed :=
  ⟨hk.memory, keyed_update hk.cache (by simp), keyed_update hk.stored (by simp)⟩

theorem Keyed.setValidatorSyncData (hk : s.Keyed) (vs : ValidatorSync) :
    (s.setValidatorSyncData vs).Keyed := by
  unfold SyncPool.setValidatorSyncData
  split
  · exact hk.saveOp vs
  · next m hm =>
    split_ifs
    · have herase := (hk.memory m hm).erase vs.initTxHash
      refine Keyed.writeNotProcessed ⟨fun m' hm' => ?_, (hk.saveOp vs).cache, (hk.saveOp vs).stored⟩
        herase
      cases hm'
      exact herase
    · exact hk.saveOp vs

theorem getValidatorSyncData_remember :
    (s.remember key).getValidatorSyncData k = s.getValidatorSyncData k := by
  by_cases h : k = key <;> simp [getValidatorSyncData, remember, h, Option.or_assoc]

theorem Keyed.getValidatorSyncData (hk : s.Keyed) (h : s.getValidatorSyncData k = some vs) :
    vs.initTxHash = k := by
  rcases Option.or_eq_some_iff.1 h with h | ⟨-, h⟩
  · exact hk.cache k vs h
  · exact hk.stored k vs h

theorem Keyed.remember (hk : s.Keyed) (key : Hash) : (s.remember key).Keyed :=
  ⟨hk.memory, keyed_update hk.cache fun _ h => hk.getValidatorSyncData h, hk.stored⟩

theorem Waiting.remember (h : s.Waiting k vs) (key : Hash) : (s.remember key).Waiting k vs :=
  ⟨h.notProcessed, h.txHash, by rw [getValidatorSyncData_remember]; exact h.saved⟩

theorem Waiting.loadNotProcessed (h : s.Waiting k vs) : s.loadNotProcessed.Waiting k vs :=
  ⟨h.notProcessed, h.txHash, h.saved⟩

theorem Waiting.writeNotProcessed (h : s.Waiting k vs) (hm : KeyedMap m) (hnp : s.notProc = some m) :
    (s.writeNotProcessed m).Waiting k vs := by
  have hlook := h.notProcessed
  rw [notProcessed_of_some hnp] at hlook
  refine ⟨?_, h.txHash, fun saved hsaved => ?_⟩
  · rw [notProcessed_of_some (notProc_writeNotProcessed.trans hnp), hlook]
  · rw [getValidatorSyncData, cache_writeNotProcessed, stored_writeNotProcessed hm, hlook,
      Option.some_or, Option.mem_def, Option.or_eq_some_iff] at hsaved
    rcases hsaved with hcache | ⟨-, hstored⟩
    · exact h.saved saved (by simp [getValidatorSyncData, hcache])
    · cases hstored
      exact h.txHash

theorem Waiting.saveOp (h : s.Waiting k vs) (hk : s.Keyed) (hne : k ≠ vs'.initTxHash) :
    (s.saveOp vs').Waiting k vs := by
  refine ⟨?_, h.txHash, by rw [getValidatorSyncData_saveOp_of_ne hne]; exact h.saved⟩
  have hlook := h.notProcessed
  cases hnp : s.notProc with
  | none =>
    rw [lookup_notProcessed_of_none hk hnp] at hlook
    rw [lookup_notProcessed_of_none (hk.saveOp vs') hnp, stored_saveOp_of_ne hne]
    exact hlook
  | some m =>
    have hnp' : (s.saveOp vs').notProc = some m := hnp
    rwa [notProcessed_of_some hnp', ← notProcessed_of_some hnp]

/-- An operation waits on when another one is saved. -/
theorem Waiting.setValidatorSyncData (h : s.Waiting k vs) (hk : s.Keyed)
    (hne : k ≠ vs'.initTxHash) : (s.setValidatorSyncData vs').Waiting k vs := by
  have hsave := h.saveOp hk hne
  unfold SyncPool.setValidatorSyncData
  split
  · exact hsave
  · next m hm =>
    split_ifs
    · refine Waiting.writeNotProcessed ⟨?_, h.txHash, hsave.saved⟩
        ((hk.memory m hm).erase vs'.initTxHash) rfl
      have hlook := h.notProcessed
      rw [notProcessed_of_some hm] at hlook
      rw [notProcessed_of_some rfl, lookup_erase_ne hne, hlook]
    · exact hsave

end

/-! ## Receiving operations -/

section

variable {s : SyncPool} {k : Hash} {vs v : ValidatorSync} {updated : Bool}

theorem appendOne_cases (s : SyncPool) (updated : Bool) (v : ValidatorSync) :
    appendOne (s, updated) v = (s, updated) ∨
      appendOne (s, updated) v = (s.remember v.initTxHash, updated) ∨
      appendOne (s, updated) v = ({ s.remember v.initTxHash with
        notProc := some (s.notProcessed.insert v.initTxHash v) }, true) := by
  unfold appendOne
  dsimp only
  split_ifs
  · exact .inl rfl
  · exact .inr (.inr rfl)
  · exact .inr (.inl rfl)

theorem Keyed.appendOne (hk : s.Keyed) : (appendOne (s, updated) v).1.Keyed := by
  rcases appendOne_cases s updated v with h | h | h <;> rw [h]
  · exact hk
  · exact hk.remember _
  · refine ⟨fun m hm => ?_, (hk.remember v.initTxHash).cache, hk.stored⟩
    cases hm
    exact hk.notProcessed.insert v

/-- A received operation replaces the one that waits only with an earlier epoch. -/
theorem Waiting.appendOne (h : s.Waiting k vs)
    (hle : v.initTxHash = k → vs.procEpoch ≤ v.procEpoch) :
    (appendOne (s, updated) v).1.Waiting k vs := by
  by_cases hkey : v.initTxHash = k
  · have hknown : ∃ np ∈ s.notProcessed.lookup v.initTxHash, np.procEpoch ≤ v.procEpoch := by
      rw [hkey]
      exact ⟨vs, h.notProcessed, hle hkey⟩
    rw [SyncPool.appendOne, if_pos hknown]
    exact h
  rcases appendOne_cases s updated v with heq | heq | heq <;> rw [heq]
  · exact h
  · exact h.remember _
  · refine ⟨?_, h.txHash, (h.remember v.initTxHash).saved⟩
    rw [notProcessed_of_some rfl, lookup_insert_ne (Ne.symm hkey)]
    exact h.notProcessed

theorem Keyed.foldl_appendOne (data : List ValidatorSync) (hk : s.Keyed) :
    (data.foldl SyncPool.appendOne (s, updated)).1.Keyed := by
  induction data generalizing s updated with
  | nil => exact hk
  | cons v data ih => exact ih hk.appendOne

theorem Waiting.foldl_appendOne (data : List ValidatorSync) (h : s.Waiting k vs)
    (hle : ∀ v ∈ data, v.initTxHash = k → vs.procEpoch ≤ v.procEpoch) :
    (data.foldl SyncPool.appendOne (s, updated)).1.Waiting k vs := by
  induction data generalizing s updated with
  | nil => exact h
  | cons v data ih =>
    rw [forall_mem_cons] at hle
    exact ih (h.appendOne hle.1) hle.2

/-- The second loop of `AppendNotProcessedValidatorSyncData` on the map in memory. -/
def removeHandled (s : SyncPool) (keys : List Hash) : SyncPool :=
  { s with notProc := some (SyncPool.dropHandled keys s.notProcessed) }

theorem Keyed.removeHandled (hk : s.Keyed) (keys : List Hash) : (s.removeHandled keys).Keyed := by
  refine ⟨fun m hm => ?_, hk.cache, hk.stored⟩
  cases hm
  exact hk.notProcessed.dropHandled keys

theorem Waiting.removeHandled (h : s.Waiting k vs) (keys : List Hash) :
    (s.removeHandled keys).Waiting k vs := by
  refine ⟨?_, h.txHash, h.saved⟩
  exact lookup_dropHandled.2 ⟨h.notProcessed, by simp [isHandled, h.txHash]⟩

theorem appendNotProcessed_cases (s : SyncPool) (data : List ValidatorSync) :
    ∃ s', s' = (data.foldl SyncPool.appendOne (s.loadNotProcessed, false)).1.removeHandled
        (data.map (·.initTxHash)) ∧ (s.appendNotProcessed data = s' ∨ ∃ m, s'.notProc = some m ∧
        s.appendNotProcessed data = s'.writeNotProcessed m) := by
  refine ⟨_, rfl, ?_⟩
  unfold SyncPool.appendNotProcessed
  dsimp only
  split_ifs
  · exact .inr ⟨_, rfl, rfl⟩
  · exact .inl rfl

theorem Keyed.appendNotProcessed (hk : s.Keyed) (data : List ValidatorSync) :
    (s.appendNotProcessed data).Keyed := by
  obtain ⟨s', hs', h⟩ := appendNotProcessed_cases s data
  have hk' : s'.Keyed := hs' ▸ (hk.loadNotProcessed.foldl_appendOne data).removeHandled _
  rcases h with h | ⟨m, hm, h⟩ <;> rw [h]
  · exact hk'
  · exact hk'.writeNotProcessed (hk'.memory m hm)

/-- An operation waits on when others are received. -/
theorem Waiting.appendNotProcessed {data : List ValidatorSync} (h : s.Waiting k vs) (hk : s.Keyed)
    (hle : ∀ v ∈ data, v.initTxHash = k → vs.procEpoch ≤ v.procEpoch) :
    (s.appendNotProcessed data).Waiting k vs := by
  obtain ⟨s', hs', hcases⟩ := appendNotProcessed_cases s data
  have hk' : s'.Keyed := hs' ▸ (hk.loadNotProcessed.foldl_appendOne data).removeHandled _
  have hw : s'.Waiting k vs := hs' ▸ (h.loadNotProcessed.foldl_appendOne data hle).removeHandled _
  rcases hcases with heq | ⟨m, hm, heq⟩ <;> rw [heq]
  · exact hw
  · exact hw.writeNotProcessed (hk'.memory m hm) hm

end

/-! ## One call of `GetPendingValidatorSyncData` -/

/-- The staleness test of `GetPendingValidatorSyncData`. -/
def Stale (config : ChainConfig) (slot epoch : UInt64) (vs : ValidatorSync) : Prop :=
  config.isForkSlotDelegate slot ∧ vs.procEpoch < epoch ∧ vs.procEpoch < config.forkSlotDelegate

/-- The operation may be processed: it is of the current epoch, or of an earlier one after the
    fork. -/
def Ready (config : ChainConfig) (slot epoch : UInt64) (vs : ValidatorSync) : Prop :=
  vs.procEpoch = epoch ∨ config.isForkSlotDelegate slot ∧ vs.procEpoch < epoch

instance (config : ChainConfig) (slot epoch : UInt64) (vs : ValidatorSync) :
    Decidable (Stale config slot epoch vs) := inferInstanceAs (Decidable (_ ∧ _))

instance (config : ChainConfig) (slot epoch : UInt64) (vs : ValidatorSync) :
    Decidable (Ready config slot epoch vs) := inferInstanceAs (Decidable (_ ∨ _))

section

variable {config : ChainConfig} {slot epoch : UInt64} {k k' : Hash} {vs v : ValidatorSync}
  {acc acc₁ acc₂ : GoMap Hash ValidatorSync × SyncPool}
variable {s : SyncPool}

theorem pendingStep_cases (acc : GoMap Hash ValidatorSync × SyncPool) (k : Hash)
    (v : ValidatorSync) : pendingStep config slot epoch acc k v = acc ∨
      pendingStep config slot epoch acc k v = (acc.1, acc.2.remember v.initTxHash) ∨
      pendingStep config slot epoch acc k v = (acc.1.insert k v, acc.2.remember v.initTxHash) ∨
      pendingStep config slot epoch acc k v = (acc.1, (acc.2.remember v.initTxHash).setValidatorSyncData
        { v with txHash := some v.initTxHash }) := by
  unfold pendingStep
  split_ifs <;> simp

/-- The turn of an operation that waits. -/
theorem Waiting.pendingStep_self (h : acc.2.Waiting k vs) (hkey : vs.initTxHash = k) :
    pendingStep config slot epoch acc k vs =
      if Stale config slot epoch vs then
        (acc.1, (acc.2.remember k).setValidatorSyncData { vs with txHash := some k })
      else (if Ready config slot epoch vs then acc.1.insert k vs else acc.1, acc.2.remember k) := by
  have hsaved : ¬ ∃ saved ∈ acc.2.getValidatorSyncData k, saved.txHash ≠ none := by
    rintro ⟨saved, hmem, hne⟩
    exact hne (h.saved saved hmem)
  unfold pendingStep
  simp only [h.txHash, ne_eq, not_true_eq_false, if_false, hkey, if_neg hsaved]
  by_cases hcur : vs.procEpoch = epoch
  · have hfresh : ¬ Stale config slot epoch vs := fun hstale => UInt64.ne_of_lt hstale.2.1 hcur
    rw [if_pos hcur, if_neg hfresh, if_pos (.inl hcur)]
  rw [if_neg hcur]
  by_cases hpast : config.isForkSlotDelegate slot ∧ vs.procEpoch < epoch
  · rw [if_pos hpast, if_pos (show Ready config slot epoch vs from .inr hpast)]
    refine if_congr ⟨fun hlt => ⟨hpast.1, hpast.2, hlt⟩, fun hstale => hstale.2.2⟩ rfl rfl
  · have hfresh : ¬ Stale config slot epoch vs := fun hstale => hpast ⟨hstale.1, hstale.2.1⟩
    have hnot : ¬ Ready config slot epoch vs := fun hready => hready.elim hcur hpast
    rw [if_neg hpast, if_neg hfresh, if_neg hnot]

/-- The operation is no longer in the not processed set in memory. -/
def Gone (s : SyncPool) (k : Hash) : Prop := ∃ m, s.notProc = some m ∧ m.lookup k = none

theorem Gone.setValidatorSyncData (h : s.Gone k) (v : ValidatorSync) :
    (s.setValidatorSyncData v).Gone k := by
  obtain ⟨m, hm, hlook⟩ := h
  unfold SyncPool.setValidatorSyncData
  simp only [hm]
  split_ifs
  · refine ⟨m.erase v.initTxHash, notProc_writeNotProcessed, ?_⟩
    by_cases hk : k = v.initTxHash
    · rw [hk, lookup_erase]
    · rw [lookup_erase_ne hk, hlook]
  · exact ⟨m, hm, hlook⟩

theorem gone_setValidatorSyncData {m : GoMap Hash ValidatorSync} (hm : s.notProc = some m)
    (hin : v.initTxHash ∈ m) (htx : v.txHash ≠ none) :
    (s.setValidatorSyncData v).Gone v.initTxHash := by
  unfold SyncPool.setValidatorSyncData
  simp only [hm]
  rw [if_pos ⟨htx, hin⟩]
  exact ⟨m.erase v.initTxHash, notProc_writeNotProcessed, lookup_erase _ _⟩

theorem isSome_setValidatorSyncData (h : s.notProc.isSome) (v : ValidatorSync) :
    (s.setValidatorSyncData v).notProc.isSome := by
  obtain ⟨m, hm⟩ := Option.isSome_iff_exists.1 h
  simp only [SyncPool.setValidatorSyncData, hm]
  split_ifs
  · simp
  · exact h

/-- What the turns of other operations leave of the operation `k`. -/
structure Leaves (k : Hash) (vs : ValidatorSync) (acc acc' : GoMap Hash ValidatorSync × SyncPool) :
    Prop where
  keyed : acc.2.Keyed → acc'.2.Keyed
  loaded : acc.2.notProc.isSome → acc'.2.notProc.isSome
  waiting : acc.2.Keyed → acc.2.Waiting k vs → acc'.2.Waiting k vs
  gone : acc.2.Gone k → acc'.2.Gone k
  lookup : acc'.1.lookup k = acc.1.lookup k

theorem Leaves.refl (acc : GoMap Hash ValidatorSync × SyncPool) : Leaves k vs acc acc :=
  ⟨id, id, fun _ => id, id, rfl⟩

theorem Leaves.trans (h : Leaves k vs acc acc₁) (h' : Leaves k vs acc₁ acc₂) :
    Leaves k vs acc acc₂ where
  keyed hk := h'.keyed (h.keyed hk)
  loaded hl := h'.loaded (h.loaded hl)
  waiting hk hw := h'.waiting (h.keyed hk) (h.waiting hk hw)
  gone hg := h'.gone (h.gone hg)
  lookup := h'.lookup.trans h.lookup

theorem Keyed.pendingStep (hk : acc.2.Keyed) : (pendingStep config slot epoch acc k v).2.Keyed := by
  rcases @pendingStep_cases config slot epoch acc k v with h | h | h | h <;> rw [h]
  · exact hk
  · exact hk.remember _
  · exact hk.remember _
  · exact (hk.remember _).setValidatorSyncData _

theorem isSome_pendingStep (hl : acc.2.notProc.isSome) :
    (pendingStep config slot epoch acc k v).2.notProc.isSome := by
  rcases @pendingStep_cases config slot epoch acc k v with h | h | h | h <;> rw [h]
  any_goals exact hl
  exact isSome_setValidatorSyncData (s := acc.2.remember v.initTxHash) hl _

theorem leaves_pendingStep (hkey : v.initTxHash = k') (hne : k ≠ k') :
    Leaves k vs acc (pendingStep config slot epoch acc k' v) := by
  refine ⟨.pendingStep, isSome_pendingStep, ?_, ?_, ?_⟩
  all_goals rcases @pendingStep_cases config slot epoch acc k' v with h | h | h | h <;> rw [h]
  · exact fun _ hw => hw
  · exact fun _ hw => hw.remember _
  · exact fun _ hw => hw.remember _
  · exact fun hk hw => (hw.remember v.initTxHash).setValidatorSyncData (hk.remember _)
      (by rw [hkey]; exact hne)
  any_goals exact id
  · exact fun hg => Gone.setValidatorSyncData (s := acc.2.remember v.initTxHash) hg _
  · exact lookup_insert_ne hne

variable {m : GoMap Hash ValidatorSync} {keys : List Hash}

/-- The loop of `GetPendingValidatorSyncData` over the given keys of the map. -/
def pendingLoop (config : ChainConfig) (slot epoch : UInt64) (m : GoMap Hash ValidatorSync)
    (acc : GoMap Hash ValidatorSync × SyncPool) (keys : List Hash) :
    GoMap Hash ValidatorSync × SyncPool :=
  keys.foldl (fun acc k =>
    match m.lookup k with
    | none => acc
    | some vs => pendingStep config slot epoch acc k vs) acc

theorem pendingLoop_append (keys' : List Hash) : pendingLoop config slot epoch m acc (keys ++ keys') =
    pendingLoop config slot epoch m (pendingLoop config slot epoch m acc keys) keys' :=
  foldl_append

/-- The loop keeps what every turn keeps. -/
theorem pendingLoop_keeps {P : GoMap Hash ValidatorSync × SyncPool → Prop}
    (hstep : ∀ acc k v, P acc → P (pendingStep config slot epoch acc k v)) (h : P acc) :
    P (pendingLoop config slot epoch m acc keys) := by
  induction keys generalizing acc with
  | nil => exact h
  | cons k keys ih =>
    rw [pendingLoop, foldl_cons]
    cases m.lookup k with
    | none => exact ih h
    | some v => exact ih (hstep acc k v h)

theorem leaves_pendingLoop (hm : KeyedMap m) (hne : k ∉ keys) :
    Leaves k vs acc (pendingLoop config slot epoch m acc keys) := by
  induction keys generalizing acc with
  | nil => exact .refl acc
  | cons k' keys ih =>
    rw [mem_cons, not_or] at hne
    rw [pendingLoop, foldl_cons]
    cases hv : m.lookup k' with
    | none => exact ih hne.2
    | some v => exact (leaves_pendingStep (hm k' v hv) hne.1).trans (ih hne.2)

/-- The whole loop includes an operation that waits when it is ready and leaves it waiting, or
    drops it. -/
theorem Waiting.pendingLoop (h : acc.2.Waiting k vs) (hm : KeyedMap m) (hin : m.lookup k = some vs)
    (hmem : k ∈ keys) (hn : keys.Nodup) (hk : acc.2.Keyed) (hloaded : acc.2.notProc.isSome) :
    let r := SyncPool.pendingLoop config slot epoch m acc keys
    r.2.Keyed ∧
      (¬ Stale config slot epoch vs →
        (Ready config slot epoch vs → r.1.lookup k = some vs) ∧ r.2.Waiting k vs) ∧
      (Stale config slot epoch vs → r.2.Gone k) := by
  obtain ⟨pre, post, rfl⟩ := append_of_mem hmem
  have hpost : k ∉ post := (nodup_cons.1 (nodup_append.1 hn).2.1).1
  have hpre : k ∉ pre := fun hkp => (nodup_append.1 hn).2.2 k hkp k (by simp) rfl
  have hbefore := @leaves_pendingLoop config slot epoch k vs acc m pre hm hpre
  -- the turn of the operation itself
  have hwait := hbefore.waiting hk h
  have hself := @Waiting.pendingStep_self config slot epoch k vs _ hwait (hm k vs hin)
  have hafter := @leaves_pendingLoop config slot epoch k vs
    (pendingStep config slot epoch (SyncPool.pendingLoop config slot epoch m acc pre) k vs)
    m post hm hpost
  have hsplit : SyncPool.pendingLoop config slot epoch m acc (pre ++ k :: post) =
      SyncPool.pendingLoop config slot epoch m
        (pendingStep config slot epoch (SyncPool.pendingLoop config slot epoch m acc pre) k vs)
        post := by
    rw [pendingLoop_append]
    show List.foldl _ _ (k :: post) = _
    rw [foldl_cons]
    simp only [hin]
    rfl
  simp only [hsplit]
  generalize SyncPool.pendingLoop config slot epoch m acc pre = acc₁ at *
  have hk₁ := (hbefore.keyed hk).remember k
  by_cases hstale : Stale config slot epoch vs
  · rw [if_pos hstale] at hself
    rw [hself] at hafter ⊢
    refine ⟨hafter.keyed (hk₁.setValidatorSyncData _), fun hno => absurd hstale hno,
      fun _ => hafter.gone ?_⟩
    obtain ⟨m₁, hm₁⟩ := Option.isSome_iff_exists.1 (hbefore.loaded hloaded)
    have hlook := hwait.notProcessed
    rw [notProcessed_of_some hm₁] at hlook
    obtain rfl := hm k vs hin
    exact @gone_setValidatorSyncData { vs with txHash := some vs.initTxHash }
      (acc₁.2.remember vs.initTxHash) m₁ hm₁ (AList.lookup_isSome.1 (by rw [hlook]; rfl)) (by simp)
  · rw [if_neg hstale] at hself
    rw [hself] at hafter ⊢
    refine ⟨hafter.keyed hk₁, fun _ => ⟨fun hready => ?_, hafter.waiting hk₁ (hwait.remember k)⟩,
      fun hyes => absurd hyes hstale⟩
    rw [hafter.lookup, if_pos hready, lookup_insert]

variable {s : SyncPool} {order : Shuffle Hash}
variable {r : GoMap Hash ValidatorSync × SyncPool}

theorem getPending_eq_ok (h : s.getPending config order slot = .ok r) : ∃ epoch, r =
      pendingLoop config slot epoch s.notProcessed (∅, s.loadNotProcessed)
        (order.order s.notProcessed.keys) := by
  obtain ⟨epoch, -, h⟩ := bind_eq_ok.1 h
  exact ⟨epoch, (Except.ok.inj h).symm⟩

theorem Keyed.getPending (hk : s.Keyed) (h : s.getPending config order slot = .ok r) :
    r.2.Keyed := by
  obtain ⟨epoch, rfl⟩ := getPending_eq_ok h
  exact pendingLoop_keeps (P := fun acc => acc.2.Keyed) (fun _ _ _ hk => hk.pendingStep)
    hk.loadNotProcessed

theorem isSome_getPending (h : s.getPending config order slot = .ok r) : r.2.notProc.isSome := by
  obtain ⟨epoch, rfl⟩ := getPending_eq_ok h
  exact pendingLoop_keeps (P := fun acc => acc.2.notProc.isSome)
    (fun _ _ _ hl => isSome_pendingStep hl) rfl

/-- One call: an operation that waits is included when it is ready and waits on, or is dropped. -/
theorem Waiting.getPending (h : s.Waiting k vs) (hk : s.Keyed)
    (hepoch : config.slotToEpoch slot = .ok epoch) :
    ∃ r, SyncPool.getPending config order slot s = .ok r ∧ r.2.Keyed ∧
      (¬ Stale config slot epoch vs →
        (Ready config slot epoch vs → r.1.lookup k = some vs) ∧ r.2.Waiting k vs) ∧
      (Stale config slot epoch vs → r.2.Gone k) := by
  have hmem : k ∈ order.order s.notProcessed.keys := by
    rw [Shuffle.mem_order, ← AList.mem_keys, ← lookup_isSome, h.notProcessed]
    rfl
  have hloop := @Waiting.pendingLoop config slot epoch k vs (∅, s.loadNotProcessed) s.notProcessed _
    h.loadNotProcessed hk.notProcessed h.notProcessed hmem
    (Shuffle.nodup_order s.notProcessed.keys_nodup) hk.loadNotProcessed rfl
  refine ⟨_, ?_, hloop⟩
  rw [SyncPool.getPending, hepoch, ok_bind]
  rfl

end

/-! ## Sequences of calls -/

/-- What happens to the operations of a node: a block creator asks for the pending ones at a
    slot, a block includes the transaction of one, the coordinator sends some. -/
inductive PoolEvent where
  | pending (order : Shuffle Hash) (slot : UInt64)
  | included (vs : ValidatorSync)
  | received (data : List ValidatorSync)

/-- The event is not about the operation `vs` under `k`: no block includes its transaction, and
    the coordinator does not replace it by one of an earlier epoch. -/
def PoolEvent.Spares (k : Hash) (vs : ValidatorSync) : PoolEvent → Prop
  | .pending _ _ => True
  | .included v => k ≠ v.initTxHash
  | .received data => ∀ v ∈ data, v.initTxHash = k → vs.procEpoch ≤ v.procEpoch

/-- At the slot, of the given epoch, the operation is to be applied: the fork is active, and the
    epoch of the operation is not after the current one. -/
def Due (config : ChainConfig) (slot epoch : UInt64) (vs : ValidatorSync) : Prop :=
  config.isForkSlotDelegate slot ∧ vs.procEpoch ≤ epoch

/-- The operation stays in the not processed set over the events, and every call at which it is
    due includes it. -/
def KeptOver (config : ChainConfig) (k : Hash) (vs : ValidatorSync) :
    SyncPool → List PoolEvent → Prop
  | s, [] => s.notProcessed.lookup k = some vs
  | s, .pending order slot :: events => s.notProcessed.lookup k = some vs ∧
      ∃ r, s.getPending config order slot = .ok r ∧
        (∀ epoch, config.slotToEpoch slot = .ok epoch → Due config slot epoch vs →
          r.1.lookup k = some vs) ∧
        KeptOver config k vs r.2 events
  | s, .included v :: events => s.notProcessed.lookup k = some vs ∧
      KeptOver config k vs (s.setValidatorSyncData v) events
  | s, .received data :: events => s.notProcessed.lookup k = some vs ∧
      KeptOver config k vs (s.appendNotProcessed data) events

section

variable {config : ChainConfig} {slot epoch first : UInt64} {k : Hash} {vs : ValidatorSync}
  {s : SyncPool} {events : List PoolEvent}

theorem KeptOver.now (h : KeptOver config k vs s events) : s.notProcessed.lookup k = some vs := by
  cases events with
  | nil => exact h
  | cons e events => cases e <;> exact h.1

theorem Due.ready (h : Due config slot epoch vs) : Ready config slot epoch vs := by
  by_cases heq : vs.procEpoch = epoch
  · exact .inl heq
  · exact .inr ⟨h.1, UInt64.lt_of_le_of_ne h.2 heq⟩

/-- The test does not take an operation for stale when it is of the current epoch, or when its
    epoch is not below the slot of the fork, as numbers. -/
theorem not_stale_iff : ¬ Stale config slot epoch vs ↔
    (Due config slot epoch vs → vs.procEpoch = epoch ∨ config.forkSlotDelegate ≤ vs.procEpoch) := by
  constructor
  · intro hfresh hdue
    by_contra hno
    rw [not_or] at hno
    exact hfresh ⟨hdue.1, UInt64.lt_of_le_of_ne hdue.2 hno.1, UInt64.not_le.1 hno.2⟩
  · rintro himp ⟨hfork, hlt, hbelow⟩
    rcases himp ⟨hfork, UInt64.le_of_lt hlt⟩ with heq | hge
    · exact UInt64.ne_of_lt hlt heq
    · exact UInt64.not_lt.2 hge hbelow

theorem exists_slotToEpoch (h : config.slotToEpoch config.forkSlotDelegate = .ok first)
    (slot : UInt64) : config.slotToEpoch slot = .ok (slot / config.slotsPerEpoch) := by
  unfold ChainConfig.slotToEpoch at h ⊢
  split_ifs at h ⊢
  rfl

/-- An operation whose epoch is not before that of the fork stays, and is included whenever it is
    due, exactly if at each of these calls it is of the current epoch or its epoch is not below the
    slot of the fork. -/
theorem pending_kept_iff (hk : s.Keyed) (h : s.Waiting k vs)
    (hafter : ∃ first, config.slotToEpoch config.forkSlotDelegate = .ok first ∧
      first ≤ vs.procEpoch)
    (hspare : ∀ e ∈ events, e.Spares k vs) :
    KeptOver config k vs s events ↔
      ∀ order slot, .pending order slot ∈ events → ∀ epoch, config.slotToEpoch slot = .ok epoch →
        Due config slot epoch vs →
          vs.procEpoch = epoch ∨ config.forkSlotDelegate ≤ vs.procEpoch := by
  obtain ⟨first, hfirst, -⟩ := hafter
  induction events generalizing s with
  | nil => simpa [KeptOver] using h.notProcessed
  | cons e events ih =>
    obtain ⟨hthis, hrest⟩ := forall_mem_cons.1 hspare
    clear hspare
    cases e with
    | pending order slot =>
      have hepoch := exists_slotToEpoch hfirst slot
      obtain ⟨r, hcall, hk', hfresh, hstale⟩ :=
        @Waiting.getPending config slot _ k vs s order h hk hepoch
      constructor
      · rintro ⟨-, r', hcall', -, hkept⟩ order' slot' hmem
        obtain rfl : r = r' := Except.ok.inj (hcall.symm.trans hcall')
        have hnot : ¬ Stale config slot (slot / config.slotsPerEpoch) vs := by
          intro hs
          obtain ⟨m, hm, hlook⟩ := hstale hs
          have hnow := hkept.now
          rw [notProcessed_of_some hm, hlook] at hnow
          cases hnow
        rcases mem_cons.1 hmem with heq | hmem
        · obtain ⟨rfl, rfl⟩ := PoolEvent.pending.inj heq
          intro epoch hepoch'
          obtain rfl := Except.ok.inj (hepoch.symm.trans hepoch')
          exact not_stale_iff.1 hnot
        · exact (ih hk' (hfresh hnot).2 hrest).1 hkept order' slot' hmem
      · intro hall
        have hnot := not_stale_iff.2 (hall order slot (by simp) _ hepoch)
        refine ⟨h.notProcessed, r, hcall, fun epoch hepoch' hdue => ?_, ?_⟩
        · obtain rfl := Except.ok.inj (hepoch.symm.trans hepoch')
          exact (hfresh hnot).1 hdue.ready
        · refine (ih hk' (hfresh hnot).2 hrest).2 fun order' slot' hmem => ?_
          exact hall order' slot' (mem_cons_of_mem _ hmem)
    | included v =>
      have hw := h.setValidatorSyncData hk hthis
      rw [KeptOver, ih (hk.setValidatorSyncData v) hw hrest]
      simp [h.notProcessed]
    | received data =>
      rw [KeptOver, ih (hk.appendNotProcessed data) (h.appendNotProcessed hk hthis) hrest]
      simp [h.notProcessed]

end

/-! ## An operation of an earlier epoch -/

/-- Epochs of 32 slots; the fork is at slot 64, in epoch 2. -/
def forkConfig : ChainConfig where
  validatorsStateAddress := 0
  effectiveBalance := 3200
  validatorOpExpireSlots := 100
  forkSlotDelegate := 64
  forkSlotValOpTracking := 0
  forkSlotValSyncProc := 0
  slotsPerEpoch := 32

/-- An activation for the given epoch. -/
def activation (epoch : UInt64) : ValidatorSync where
  initTxHash := 7
  opType := .activate
  procEpoch := epoch
  index := 1
  creator := 1
  amount := none
  txHash := none
  balance := none

/-- A new node that receives the activation. -/
def activationPool (epoch : UInt64) : SyncPool :=
  SyncPool.empty.appendNotProcessed [activation epoch]

theorem keyed_activationPool (epoch : UInt64) : (activationPool epoch).Keyed :=
  keyed_empty.appendNotProcessed _

theorem waiting_activationPool_ten : (activationPool 10).Waiting 7 (activation 10) :=
  ⟨by decide, rfl, by decide⟩

theorem waiting_activationPool_hundred : (activationPool 100).Waiting 7 (activation 100) :=
  ⟨by decide, rfl, by decide⟩

/-- An activation of epoch 100 stays at slots of later epochs. -/
theorem pending_kept_hundred : KeptOver forkConfig 7 (activation 100) (activationPool 100)
    [.pending .stored 3232, .received [activation 100], .pending .reversed 3264] := by
  refine (pending_kept_iff (keyed_activationPool 100) waiting_activationPool_hundred
    ⟨2, rfl, by decide⟩ ?_).2 fun _ _ _ _ _ _ => .inr (by decide)
  simp [PoolEvent.Spares]

/-- The fork is in epoch 2; at slot 384, of epoch 12, an activation of epoch 10 is due, and it is
    dropped. -/
theorem pending_drops_due : (activationPool 10).Waiting 7 (activation 10) ∧
    forkConfig.slotToEpoch forkConfig.forkSlotDelegate = .ok 2 ∧
    forkConfig.slotToEpoch 384 = .ok 12 ∧ Due forkConfig 384 12 (activation 10) ∧
    ∃ r, (activationPool 10).getPending forkConfig .stored 384 = .ok r ∧
      r.1.lookup 7 = none ∧ r.2.notProcessed.lookup 7 = none := by
  refine ⟨waiting_activationPool_ten, rfl, rfl, ⟨rfl, by decide⟩, ?_⟩
  decide

end SyncPool

end Gwat
