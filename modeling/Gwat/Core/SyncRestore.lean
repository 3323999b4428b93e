/-
  Giving back the operation of a failed sync transaction (`RestoreValidatorSyncOp`,
  `core/blockchain.go`), with the not processed operations of a node.
-/
import Gwat.Core.SyncRun
import Gwat.Validator.SyncPool

namespace Gwat

open GoLib Function Option AList

/-- Why `RestoreValidatorSyncOp` does not return nil; `panic` is the dereference of a missing
    entry. -/
inductive RestoreError where
  | decode (e : ValError)
  | noSavedValSyncOp
  | panic

namespace SyncPool

/-! ## `RestoreValidatorSyncOp` -/

/-- `bc.notProcValSyncOps[key]`; nothing is found in a nil map. -/
def entry (s : SyncPool) (key : Hash) : Option ValidatorSync := s.notProc.bind fun m => m.lookup key

/-- `bc.notProcValSyncOps[key].TxHash = nil` for an entry of the map. -/
def clearTx (s : SyncPool) (key : Hash) : SyncPool :=
  match s.notProc, s.entry key with
  | some m, some e => { s with notProc := some (m.insert key { e with txHash := none }) }
  | _, _ => s

/-- `savedValSync.TxHash = nil`: the object is the one of the cache, the database is not
    written. -/
def resetSaved (s : SyncPool) (key : Hash) (saved : ValidatorSync) : SyncPool :=
  { s with cache := update s.cache key (some { saved with txHash := none }) }

/-- The end of `RestoreValidatorSyncOp`. -/
def resetOp (s : SyncPool) (tx key : Hash) (saved : ValidatorSync) : SyncPool :=
  let s := s.resetSaved key saved
  let s := if ∃ e ∈ s.entry saved.initTxHash, e.txHash = some tx then s.clearTx saved.initTxHash
    else s
  s.appendNotProcessed [{ saved with txHash := none }]

/-- `RestoreValidatorSyncOp` for the operation of the failed transaction. -/
def restoreOp (receipt : Hash → Option ReceiptStatus) (tx key : Hash) (s : SyncPool) :
    Except RestoreError SyncPool :=
  match s.getValidatorSyncData key with
  | none => .error .noSavedValSyncOp
  | some saved =>
    let s := s.remember key
    match saved.txHash.filter (· ≠ tx) with
    | none => .ok (s.resetOp tx key saved)
    | some other =>
      if receipt other = some .successful then .ok s
      else match s.entry saved.initTxHash with
        | none => .error .panic
        | some _ => .ok ((s.clearTx saved.initTxHash).resetOp tx key saved)

def restoreValidatorSyncOp (net : Network) (config : ChainConfig)
    (receipt : Hash → Option ReceiptStatus) (slot : UInt64) (tx : Hash) (s : SyncPool) :
    Except RestoreError SyncPool :=
  if ¬ config.isForkSlotDelegate slot then .ok s
  else if (net.msg tx).toAddr ≠ some config.validatorsStateAddress then .ok s
  else match net.opCodec.decodeBytes (net.msg tx).data with
    | .error e => .error (.decode e)
    | .ok (.sync op) => s.restoreOp receipt tx op.initTxHash
    | .ok _ => .ok s

/-! ## The operation is not added again -/

section

variable {s s' : SyncPool} {m : GoMap Hash ValidatorSync} {k key tx : Hash}
  {v e saved : ValidatorSync}

theorem appendOne_saved (hm : s.notProc = some m) (hv : s.cache v.initTxHash = some v) :
    ∃ s', appendOne (s, false) v = (s', false) ∧ s'.notProc = some m ∧ s'.stored = s.stored ∧
      s'.storedKeys = s.storedKeys ∧ s'.cache v.initTxHash = some v := by
  have hsaved : s.getValidatorSyncData v.initTxHash = some v := by
    rw [getValidatorSyncData, hv, some_or]
  unfold appendOne
  dsimp only
  split_ifs with hknown hnew
  · exact ⟨s, rfl, hm, rfl, rfl, hv⟩
  · exact absurd (hnew v hsaved).1 (UInt64.lt_irrefl _)
  · refine ⟨_, rfl, hm, rfl, rfl, ?_⟩
    rw [remember, hsaved]
    exact update_self _ _ _

/-- Some operation other than `key` has a transaction. -/
def OtherHandled (m : GoMap Hash ValidatorSync) (key : Hash) : Prop :=
  ∃ k v, k ≠ key ∧ m.lookup k = some v ∧ v.txHash ≠ none

theorem any_isHandled (hm : KeyedMap m) :
    (values m).any (isHandled [key]) = true ↔ OtherHandled m key := by
  rw [List.any_eq_true]
  constructor
  · rintro ⟨v, hv, hh⟩
    obtain ⟨k, hk⟩ := mem_values.1 hv
    simp only [isHandled, List.mem_singleton, decide_eq_true_eq] at hh
    exact ⟨k, v, fun heq => hh.2 ((hm k v hk).trans heq), hk, hh.1⟩
  · rintro ⟨k, v, hne, hk, htx⟩
    refine ⟨v, mem_values.2 ⟨k, hk⟩, ?_⟩
    simp only [isHandled, List.mem_singleton, decide_eq_true_eq]
    exact ⟨htx, fun heq => hne ((hm k v hk).symm.trans heq)⟩

/-- Handing over the saved operation only removes the handled ones. -/
theorem appendNotProcessed_saved (hk : KeyedMap m) (hm : s.notProc = some m)
    (hv : s.cache v.initTxHash = some v) :
    let m' := dropHandled [v.initTxHash] m
    let s' := s.appendNotProcessed [v]
    s'.notProc = some m' ∧ s'.cache v.initTxHash = some v ∧
      (OtherHandled m v.initTxHash → s'.storedKeys = m'.keys ∧
        ∀ k, s'.stored k = (m'.lookup k).or (s.stored k)) ∧
      (¬ OtherHandled m v.initTxHash → s'.storedKeys = s.storedKeys ∧ s'.stored = s.stored) := by
  have hload : s.loadNotProcessed = s := by
    rw [loadNotProcessed, notProcessed_of_some hm, ← hm]
  obtain ⟨s₁, hone, hm₁, hst₁, hkeys₁, hc₁⟩ := appendOne_saved hm hv
  have hdrop := hk.dropHandled [v.initTxHash]
  have hcall : s.appendNotProcessed [v] =
      let s' := { s₁ with notProc := some (dropHandled [v.initTxHash] m) }
      if (values m).any (isHandled [v.initTxHash]) then
        s'.writeNotProcessed (dropHandled [v.initTxHash] m)
      else s' := by
    simp [SyncPool.appendNotProcessed, hload, hone, notProcessed_of_some hm₁]
  simp only [hcall]
  by_cases hother : OtherHandled m v.initTxHash
  · rw [if_pos ((any_isHandled hk).2 hother)]
    refine ⟨notProc_writeNotProcessed, by rw [cache_writeNotProcessed]; exact hc₁, fun _ => ⟨?_, ?_⟩,
      fun hno => absurd hother hno⟩
    · exact hdrop.map_values
    · intro k
      rw [stored_writeNotProcessed hdrop, ← hst₁]
  · rw [if_neg fun hyes => hother ((any_isHandled hk).1 hyes)]
    exact ⟨rfl, hc₁, fun hyes => absurd hyes hother, fun _ => ⟨hkeys₁, hst₁⟩⟩

/-! ## When the operation is back -/

/-- The operation is in the not processed set and has no transaction, in memory and in the
    database. -/
structure Unprocessed (s : SyncPool) (key : Hash) : Prop where
  entry : ∃ e, s.notProcessed.lookup key = some e ∧ e.txHash = none
  saved : ∀ saved ∈ s.getValidatorSyncData key, saved.txHash = none
  listed : key ∈ s.storedKeys
  stored : ∃ v, s.stored key = some v ∧ v.txHash = none

/-- The database is right after the call: it lists the operation without a transaction, or all
    operations are written again. -/
def Persists (s : SyncPool) (m : GoMap Hash ValidatorSync) (key : Hash) : Prop :=
  OtherHandled m key ∨ key ∈ s.storedKeys ∧ ∃ v, s.stored key = some v ∧ v.txHash = none

theorem lookup_dropHandled_self (hm : KeyedMap m) :
    (dropHandled [key] m).lookup key = m.lookup key := by
  cases h : m.lookup key with
  | some e => exact lookup_dropHandled.2 ⟨h, by simp [isHandled, hm key e h]⟩
  | none =>
    cases h' : (dropHandled [key] m).lookup key with
    | none => rfl
    | some e =>
      rw [(lookup_dropHandled.1 h').1] at h
      cases h

/-- The end of the call brings the operation back exactly if it is there without a transaction
    already. -/
theorem unprocessed_append_iff (hk : KeyedMap m) (hm : s.notProc = some m)
    (hv : s.cache v.initTxHash = some v) (htx : v.txHash = none) :
    (s.appendNotProcessed [v]).Unprocessed v.initTxHash ↔
      (∃ e, m.lookup v.initTxHash = some e ∧ e.txHash = none) ∧ s.Persists m v.initTxHash := by
  obtain ⟨hm', hv', hwritten, hsame⟩ := appendNotProcessed_saved hk hm hv
  have hself := @lookup_dropHandled_self m v.initTxHash hk
  have hsaved : ∀ saved ∈ (s.appendNotProcessed [v]).getValidatorSyncData v.initTxHash,
      saved.txHash = none := by
    rw [getValidatorSyncData, hv', some_or]
    rintro saved hsaved
    rw [← Option.some.inj hsaved]
    exact htx
  constructor
  · rintro ⟨he, -, hlisted, hstored⟩
    rw [notProcessed_of_some hm', hself] at he
    refine ⟨he, ?_⟩
    by_cases hother : OtherHandled m v.initTxHash
    · exact .inl hother
    · rw [(hsame hother).1] at hlisted
      rw [(hsame hother).2] at hstored
      exact .inr ⟨hlisted, hstored⟩
  · rintro ⟨⟨e, he, hetx⟩, hpersists⟩
    refine ⟨⟨e, by rw [notProcessed_of_some hm', hself, he], hetx⟩, hsaved, ?_, ?_⟩
    · by_cases hother : OtherHandled m v.initTxHash
      · rw [(hwritten hother).1, ← mem_keys, ← lookup_isSome, hself, he]
        rfl
      · rw [(hsame hother).1]
        exact (hpersists.resolve_left hother).1
    · by_cases hother : OtherHandled m v.initTxHash
      · exact ⟨e, by rw [(hwritten hother).2, hself, he, some_or], hetx⟩
      · rw [(hsame hother).2]
        exact (hpersists.resolve_left hother).2

theorem entry_of_some (hm : s.notProc = some m) (key : Hash) : s.entry key = m.lookup key := by
  rw [entry, hm, bind_some]

theorem clearTx_of_some (hm : s.notProc = some m) (he : m.lookup key = some e) :
    s.clearTx key = { s with notProc := some (m.insert key { e with txHash := none }) } := by
  rw [clearTx, entry_of_some hm, hm, he]

theorem KeyedMap.insert_clear (hk : KeyedMap m) (he : m.lookup key = some e) :
    KeyedMap (m.insert key { e with txHash := none }) := by
  obtain rfl := hk key e he
  exact hk.insert { e with txHash := none }

theorem otherHandled_insert : OtherHandled (m.insert key e) key ↔ OtherHandled m key := by
  constructor
  · rintro ⟨k, v, hne, hk, htx⟩
    rw [lookup_insert_ne hne] at hk
    exact ⟨k, v, hne, hk, htx⟩
  · rintro ⟨k, v, hne, hk, htx⟩
    exact ⟨k, v, hne, by rw [lookup_insert_ne hne, hk], htx⟩

/-- The end of `RestoreValidatorSyncOp`. -/
theorem unprocessed_resetOp_iff (hk : KeyedMap m) (hm : s.notProc = some m)
    (hkey : saved.initTxHash = key) : (s.resetOp tx key saved).Unprocessed key ↔
      (∃ e, m.lookup key = some e ∧ (e.txHash = none ∨ e.txHash = some tx)) ∧ s.Persists m key := by
  subst hkey
  unfold resetOp
  dsimp only
  have hm₁ : (s.resetSaved saved.initTxHash saved).notProc = some m := hm
  rw [entry_of_some hm₁]
  by_cases hfailed : ∃ e ∈ m.lookup saved.initTxHash, e.txHash = some tx
  · obtain ⟨e, he, hetx⟩ := hfailed
    rw [if_pos ⟨e, he, hetx⟩, clearTx_of_some hm₁ he]
    refine (unprocessed_append_iff (v := { saved with txHash := none }) (hk.insert_clear he) rfl
      (update_self _ _ _) rfl).trans ?_
    refine and_congr ⟨fun _ => ⟨e, he, .inr hetx⟩, fun _ => ?_⟩ ?_
    · exact ⟨_, lookup_insert _, rfl⟩
    · exact or_congr otherHandled_insert Iff.rfl
  · rw [if_neg hfailed]
    refine (unprocessed_append_iff (v := { saved with txHash := none }) hk hm₁
      (update_self _ _ _) rfl).trans (and_congr ⟨?_, ?_⟩ Iff.rfl)
    · rintro ⟨e, he, hetx⟩
      exact ⟨e, he, .inl hetx⟩
    · rintro ⟨e, he, hetx | hetx⟩
      · exact ⟨e, he, hetx⟩
      · exact absurd ⟨e, he, hetx⟩ hfailed

/-- The operation is in the not processed map before the call, without a transaction or with one
    that the call resets, and the database is right after it. -/
def Restorable (s : SyncPool) (tx key : Hash) : Prop :=
  ∀ saved ∈ s.getValidatorSyncData key, ∃ m, s.notProc = some m ∧
    (∃ e, m.lookup key = some e ∧
      (e.txHash = none ∨ e.txHash = some tx ∨ ∃ other ∈ saved.txHash, other ≠ tx)) ∧
    s.Persists m key

/-- The call ends without dereferencing a missing entry, and with the operation back if it
    returns nil. -/
def Restores (r : Except RestoreError SyncPool) (key : Hash) : Prop :=
  (∀ e, r = .error e → e ≠ .panic) ∧ ∀ s', r = .ok s' → s'.Unprocessed key

theorem restores_ok : Restores (.ok s) key ↔ s.Unprocessed key := by simp [Restores]

/-- No transaction of the operation other than `tx` has succeeded. -/
def NoOther (receipt : Hash → Option ReceiptStatus) (s : SyncPool) (tx key : Hash) : Prop :=
  ∀ saved ∈ s.getValidatorSyncData key, ∀ other ∈ saved.txHash, other ≠ tx →
    receipt other ≠ some .successful

variable {receipt : Hash → Option ReceiptStatus}

theorem filter_eq_none {o : Option Hash} :
    o.filter (· ≠ tx) = none ↔ ¬ ∃ other ∈ o, other ≠ tx := by
  cases o <;> simp [Option.filter]

theorem restores_restoreOp_iff (hk : s.Keyed) (hm : s.notProc = some m)
    (hno : s.NoOther receipt tx key) :
    Restores (s.restoreOp receipt tx key) key ↔ s.Restorable tx key := by
  unfold restoreOp Restorable
  cases hsaved : s.getValidatorSyncData key with
  | none => simp [Restores]
  | some saved =>
    have hkey := hk.getValidatorSyncData hsaved
    have hkm := hk.memory m hm
    have hm₁ : (s.remember key).notProc = some m := hm
    simp only [mem_def, Option.some.injEq, forall_eq', hm, exists_eq_left']
    cases hother : saved.txHash.filter (· ≠ tx) with
    | none =>
      have hnone := filter_eq_none.1 hother
      rw [restores_ok, unprocessed_resetOp_iff hkm hm₁ hkey]
      refine and_congr (exists_congr fun e => and_congr_right fun _ => ?_) Iff.rfl
      exact or_congr_right (or_iff_left hnone).symm
    | some other =>
      obtain ⟨hmem, hne⟩ := Option.filter_eq_some_iff.1 hother
      have hne : other ≠ tx := by simpa using hne
      have hfail : receipt other ≠ some .successful := hno saved hsaved other hmem hne
      dsimp only
      rw [if_neg hfail, hkey, entry_of_some hm₁]
      cases he : m.lookup key with
      | none =>
        -- the entry is missing
        simp [Restores]
      | some e =>
        rw [restores_ok, clearTx_of_some hm₁ he, unprocessed_resetOp_iff (hkm.insert_clear he) rfl hkey]
        refine and_congr ⟨fun _ => ⟨e, rfl, .inr (.inr ⟨other, hmem, hne⟩)⟩, fun _ => ?_⟩ ?_
        · exact ⟨_, lookup_insert _, .inl rfl⟩
        · exact or_congr otherHandled_insert Iff.rfl

theorem Keyed.resetSaved (hk : s.Keyed) (hkey : saved.initTxHash = key) :
    (s.resetSaved key saved).Keyed :=
  ⟨hk.memory, keyed_update hk.cache (by simpa using hkey), hk.stored⟩

theorem Keyed.clearTx (hk : s.Keyed) (key : Hash) : (s.clearTx key).Keyed := by
  cases hm : s.notProc with
  | none => simpa [SyncPool.clearTx, hm] using hk
  | some m =>
    cases he : m.lookup key with
    | none => simpa [SyncPool.clearTx, hm, entry_of_some hm, he] using hk
    | some e =>
      rw [clearTx_of_some hm he]
      refine ⟨fun m' hm' => ?_, hk.cache, hk.stored⟩
      rw [← Option.some.inj hm']
      exact (hk.memory m hm).insert_clear he

theorem Keyed.resetOp (hk : s.Keyed) (hkey : saved.initTxHash = key) :
    (s.resetOp tx key saved).Keyed := by
  unfold SyncPool.resetOp
  dsimp only
  split_ifs
  · exact ((hk.resetSaved hkey).clearTx _).appendNotProcessed _
  · exact (hk.resetSaved hkey).appendNotProcessed _

/-- Another transaction of the operation has succeeded. -/
def OtherSucceeded (receipt : Hash → Option ReceiptStatus) (saved : ValidatorSync) (tx : Hash) :
    Prop :=
  ∃ other ∈ saved.txHash, other ≠ tx ∧ receipt other = some .successful

/-- The call does nothing if another transaction has succeeded; otherwise it resets the operation,
    and before that an entry with another transaction. -/
theorem restoreOp_eq_ok (h : s.restoreOp receipt tx key = .ok s') :
    ∃ saved, s.getValidatorSyncData key = some saved ∧
      (OtherSucceeded receipt saved tx ∧ s' = s.remember key ∨
        ¬ OtherSucceeded receipt saved tx ∧ ∃ s₁, s' = s₁.resetOp tx key saved ∧
          (s₁ = s.remember key ∨ ∃ e, (s.remember key).entry saved.initTxHash = some e ∧
            s₁ = (s.remember key).clearTx saved.initTxHash)) := by
  unfold restoreOp at h
  split at h
  · cases h
  next saved hsaved =>
    refine ⟨saved, hsaved, ?_⟩
    dsimp only at h
    split at h
    next hother =>
      exact .inr ⟨fun hex => filter_eq_none.1 hother (hex.imp fun _ hx => ⟨hx.1, hx.2.1⟩), _,
        (Except.ok.inj h).symm, .inl rfl⟩
    next other hother =>
      obtain ⟨hmem, hne⟩ := Option.filter_eq_some_iff.1 hother
      split_ifs at h with hok
      · exact .inl ⟨⟨other, hmem, by simpa using hne, hok⟩, (Except.ok.inj h).symm⟩
      · refine .inr ⟨?_, ?_⟩
        · rintro ⟨other', hmem', -, hok'⟩
          obtain rfl : other' = other := Option.some.inj (hmem'.symm.trans hmem)
          exact hok hok'
        · split at h
          · cases h
          next e he => exact ⟨_, (Except.ok.inj h).symm, .inr ⟨e, he, rfl⟩⟩

theorem Keyed.restoreOp (hk : s.Keyed) (h : s.restoreOp receipt tx key = .ok s') : s'.Keyed := by
  obtain ⟨saved, hsaved, ⟨-, rfl⟩ | ⟨-, s₁, rfl, hs₁⟩⟩ := restoreOp_eq_ok h
  · exact hk.remember key
  · refine Keyed.resetOp ?_ (hk.getValidatorSyncData hsaved)
    rcases hs₁ with rfl | ⟨e, -, rfl⟩
    · exact hk.remember key
    · exact (hk.remember key).clearTx _

theorem isSome_appendNotProcessed (data : List ValidatorSync) :
    (s.appendNotProcessed data).notProc.isSome := by
  obtain ⟨s', rfl, h | ⟨m, hm, h⟩⟩ := appendNotProcessed_cases s data <;> rw [h]
  · rfl
  · rw [notProc_writeNotProcessed]
    rfl

theorem isSome_restoreOp (hl : s.notProc.isSome) (h : s.restoreOp receipt tx key = .ok s') :
    s'.notProc.isSome := by
  obtain ⟨saved, -, ⟨-, rfl⟩ | ⟨-, s₁, rfl, -⟩⟩ := restoreOp_eq_ok h
  · exact hl
  · exact isSome_appendNotProcessed _

end

/-! ## Histories -/

section

variable (net : Network) (config : ChainConfig)

/-- The states of a node: it starts without operations, receives them, sees blocks with their
    transactions, creates blocks, executes transactions that fail, and is started again.  The cache
    may drop an entry at any time. -/
inductive PoolHistory : SyncPool → Prop where
  | start : PoolHistory empty.loadNotProcessed
  | restart {s : SyncPool} : PoolHistory s →
      PoolHistory { s with cache := fun _ => none, notProc := none }.loadNotProcessed
  | received {s : SyncPool} (data : List ValidatorSync) : PoolHistory s →
      PoolHistory (s.appendNotProcessed data)
  | included {s : SyncPool} (op : SyncOp) (tx : Hash) : PoolHistory s →
      PoolHistory (s.setValidatorSyncData (op.saved tx))
  | created {s : SyncPool} {order : Shuffle Hash} {slot : UInt64}
      {r : GoMap Hash ValidatorSync × SyncPool} : PoolHistory s →
      s.getPending config order slot = .ok r → PoolHistory r.2
  | evicted {s : SyncPool} (key : Hash) : PoolHistory s →
      PoolHistory { s with cache := update s.cache key none }
  | failed {s s' : SyncPool} {receipt : Hash → Option ReceiptStatus} {slot : UInt64} {tx : Hash} :
      PoolHistory s → s.restoreValidatorSyncOp net config receipt slot tx = .ok s' → PoolHistory s'

variable {net config} {s s' : SyncPool} {receipt : Hash → Option ReceiptStatus} {slot : UInt64}
  {tx : Hash} {op : SyncOp}

theorem restoreValidatorSyncOp_cases
    (h : s.restoreValidatorSyncOp net config receipt slot tx = .ok s') :
    s' = s ∨ ∃ key, s.restoreOp receipt tx key = .ok s' := by
  unfold restoreValidatorSyncOp at h
  split at h
  · exact .inl (Except.ok.inj h).symm
  split at h
  · exact .inl (Except.ok.inj h).symm
  split at h
  · cases h
  · exact .inr ⟨_, h⟩
  · exact .inl (Except.ok.inj h).symm

/-- In every history the operations lie under their keys, and the map is in memory. -/
theorem PoolHistory.inv (h : PoolHistory net config s) : s.Keyed ∧ s.notProc.isSome := by
  induction h with
  | start => exact ⟨keyed_empty.loadNotProcessed, rfl⟩
  | restart _ ih =>
    refine ⟨Keyed.loadNotProcessed ⟨fun m hm => ?_, fun k vs h => ?_, ih.1.stored⟩, rfl⟩
    · cases hm
    · cases h
  | received data _ ih => exact ⟨ih.1.appendNotProcessed data, isSome_appendNotProcessed data⟩
  | included op tx _ ih =>
    exact ⟨ih.1.setValidatorSyncData _, isSome_setValidatorSyncData ih.2 _⟩
  | created _ hr ih => exact ⟨ih.1.getPending hr, isSome_getPending hr⟩
  | evicted key _ ih =>
    refine ⟨⟨ih.1.memory, fun k vs h => ih.1.cache k vs ?_, ih.1.stored⟩, ih.2⟩
    by_cases hk : k = key
    · subst hk
      simp at h
    · simpa [hk] using h
  | failed _ hr ih =>
    rcases restoreValidatorSyncOp_cases hr with rfl | ⟨key, hkey⟩
    · exact ih
    · exact ⟨ih.1.restoreOp hkey, isSome_restoreOp ih.2 hkey⟩

theorem restoreValidatorSyncOp_of_syncOp (hfork : config.isForkSlotDelegate slot)
    (hop : net.syncOp config tx = some op) :
    s.restoreValidatorSyncOp net config receipt slot tx = s.restoreOp receipt tx op.initTxHash := by
  unfold Network.syncOp at hop
  split_ifs at hop with hto
  unfold restoreValidatorSyncOp
  rw [if_neg (not_not.2 hfork), if_neg (not_not.2 hto)]
  split at hop
  next op' hdec =>
    rw [hdec, Option.some.inj hop]
  · cases hop

/-- After any history, the operation of a failed transaction is back in the not processed set if
    the call returns nil, and no missing entry is dereferenced, exactly if the operation had not
    left the set. -/
theorem restore_iff (h : PoolHistory net config s) (hfork : config.isForkSlotDelegate slot)
    (hop : net.syncOp config tx = some op) (hno : s.NoOther receipt tx op.initTxHash) :
    Restores (s.restoreValidatorSyncOp net config receipt slot tx) op.initTxHash ↔
      s.Restorable tx op.initTxHash := by
  obtain ⟨hk, hl⟩ := h.inv
  obtain ⟨m, hm⟩ := Option.isSome_iff_exists.1 hl
  rw [restoreValidatorSyncOp_of_syncOp hfork hop]
  exact restores_restoreOp_iff hk hm hno

end

/-! ## The saved operations of the chain data

A block reads the saved operations only, which `Blockchain` holds in one map. -/

section

variable {bc : Blockchain} {s s' : SyncPool} {m : GoMap Hash ValidatorSync} {key tx : Hash}
  {vs saved : ValidatorSync} {slot : UInt64} {op : SyncOp}

/-- The chain data hold the operation that the node has saved under the key. -/
def Shows (bc : Blockchain) (s : SyncPool) (key : Hash) : Prop :=
  bc.getValidatorSyncData key = s.getValidatorSyncData key

theorem shows_setValidatorSyncData (bc : Blockchain) (s : SyncPool) (vs : ValidatorSync) :
    Shows (bc.setValidatorSyncData vs) (s.setValidatorSyncData vs) vs.initTxHash := by
  have hcache : (s.setValidatorSyncData vs).cache vs.initTxHash = some vs := by
    unfold setValidatorSyncData
    split
    · exact update_self _ _ _
    · split_ifs
      · rw [cache_writeNotProcessed]
        exact update_self _ _ _
      · exact update_self _ _ _
  rw [Shows, getValidatorSyncData, hcache, some_or]
  exact update_self _ _ _

/-- An operation that is received for the first time is saved. -/
theorem Shows.appendNotProcessed (hk : s.Keyed) (h : Shows bc s vs.initTxHash)
    (hsaved : s.getValidatorSyncData vs.initTxHash = none)
    (hnew : s.notProcessed.lookup vs.initTxHash = none) :
    Shows (bc.appendNotProcessed vs) (s.appendNotProcessed [vs]) vs.initTxHash := by
  have hload : s.loadNotProcessed.notProcessed = s.notProcessed := notProcessed_of_some rfl
  have hnone : s.loadNotProcessed.getValidatorSyncData vs.initTxHash = none := hsaved
  have hkm := hk.notProcessed.insert vs
  have hone : appendOne (s.loadNotProcessed, false) vs =
      ({ s.loadNotProcessed.remember vs.initTxHash with
        notProc := some (s.notProcessed.insert vs.initTxHash vs) }, true) := by
    simp [appendOne, hload, hnew, hnone]
  have hcache : (s.appendNotProcessed [vs]).cache vs.initTxHash = none := by
    simp [SyncPool.appendNotProcessed, hone, remember, hnone]
  have hstored : (s.appendNotProcessed [vs]).stored vs.initTxHash = some vs := by
    obtain ⟨s₀, hwrite⟩ : ∃ s₀ : SyncPool, s.appendNotProcessed [vs] = s₀.writeNotProcessed
        (dropHandled [vs.initTxHash] (s.notProcessed.insert vs.initTxHash vs)) := by
      simp only [SyncPool.appendNotProcessed, List.foldl_cons, List.foldl_nil, hone, true_or,
        if_true, List.map_cons, List.map_nil]
      exact ⟨_, rfl⟩
    rw [hwrite, stored_writeNotProcessed (hkm.dropHandled _), lookup_dropHandled_self hkm,
      lookup_insert, some_or]
  rw [Shows, getValidatorSyncData, hcache, none_or, hstored, Blockchain.appendNotProcessed,
    show bc.getValidatorSyncData vs.initTxHash = none from h.trans hsaved]
  exact update_self _ _ _

theorem getValidatorSyncData_resetOp (hk : KeyedMap m) (hm : s.notProc = some m)
    (hkey : saved.initTxHash = key) :
    (s.resetOp tx key saved).getValidatorSyncData key = some { saved with txHash := none } := by
  subst hkey
  have happend : ∀ {s' : SyncPool} {m'}, KeyedMap m' → s'.notProc = some m' →
      s'.cache = (s.resetSaved saved.initTxHash saved).cache →
      (s'.appendNotProcessed [{ saved with txHash := none }]).getValidatorSyncData
        saved.initTxHash = some { saved with txHash := none } := by
    intro s' m' hk' hm' hc
    have hcache := (appendNotProcessed_saved (v := { saved with txHash := none }) hk' hm'
      (by rw [hc]; exact update_self _ _ _)).2.1
    rw [getValidatorSyncData, hcache, some_or]
  have hm₁ : (s.resetSaved saved.initTxHash saved).notProc = some m := hm
  unfold resetOp
  dsimp only
  split_ifs with hfailed
  · obtain ⟨e, he, -⟩ := hfailed
    rw [entry_of_some hm₁] at he
    rw [clearTx_of_some hm₁ he]
    exact happend (hk.insert_clear he) rfl rfl
  · exact happend hk hm₁ rfl

/-- The operation of a failed transaction is saved without the transaction. -/
theorem Shows.restoreValidatorSyncOp (hk : s.Keyed) (hm : s.notProc = some m)
    (h : Shows bc s op.initTxHash) (hfork : bc.config.isForkSlotDelegate slot)
    (hrun : s.restoreOp (fun other => (bc.getTransactionReceipt other).1) tx op.initTxHash = .ok s') :
    Shows (bc.restoreValidatorSyncOp slot tx op) s' op.initTxHash := by
  obtain ⟨saved, hsaved, hcases⟩ := restoreOp_eq_ok hrun
  dsimp only [OtherSucceeded] at hcases
  have hkey := hk.getValidatorSyncData hsaved
  have hm₁ : (s.remember op.initTxHash).notProc = some m := hm
  have hkm := hk.memory m hm
  have hbc : bc.getValidatorSyncData op.initTxHash = some saved := h.trans hsaved
  rw [Shows, Blockchain.restoreValidatorSyncOp, if_neg (not_not.2 hfork), hbc]
  rcases hcases with ⟨hother, rfl⟩ | ⟨hother, s₁, rfl, hs₁⟩
  · dsimp only
    rw [if_pos hother, hbc]
    show some saved = (update s.cache op.initTxHash _ op.initTxHash).or _
    rw [update_self, hsaved, some_or]
  · dsimp only
    have hreset : (bc.saveAt op.initTxHash { saved with txHash := none }).getValidatorSyncData
        op.initTxHash = some { saved with txHash := none } := update_self _ _ _
    rw [if_neg hother, hreset]
    rcases hs₁ with rfl | ⟨e, he, hs₁⟩
    · exact (getValidatorSyncData_resetOp hkm hm₁ hkey).symm
    · rw [entry_of_some hm₁, hkey] at he
      rw [hkey, clearTx_of_some hm₁ he] at hs₁
      rw [hs₁, getValidatorSyncData_resetOp (hkm.insert_clear he) rfl hkey]

end

/-! ## An operation that is lost -/

/-- The activation of `activation`, as an operation of the coordinator. -/
def activationOp : SyncOp where
  version := 0
  opType := .activate
  initTxHash := 7
  procEpoch := 10
  index := 1
  creator := 1
  amountField := none
  withdrawalAddress := none
  balance := none

/-- A network in which every transaction is a sync transaction for the activation. -/
def activationNet : Network where
  opCodec := .binary
  msg h := { idleMsg 0 (ValOp.data (.sync activationOp)) 0 with txHash := h }
  hash_msg _ := rfl

theorem syncOp_activationNet : activationNet.syncOp forkConfig 9 = some activationOp := by
  decide +kernel

/-- The coordinator has sent the activation. -/
def receivedPool : SyncPool := empty.loadNotProcessed.appendNotProcessed [activation 10]

theorem history_receivedPool : PoolHistory activationNet forkConfig receivedPool :=
  .received _ .start

theorem noOther_none (s : SyncPool) (tx key : Hash) : s.NoOther (fun _ => none) tx key := by
  intro saved _ other _ _ h
  cases h

/-- A block includes the activation in the given transaction. -/
def includedPool (s : SyncPool) (tx : Hash) : SyncPool :=
  s.setValidatorSyncData (activationOp.saved tx)

/-- The operation of a failed transaction that was not recorded for it has not left the set. -/
theorem restore_received : Restores
    (receivedPool.restoreValidatorSyncOp activationNet forkConfig (fun _ => none) 352 9) 7 := by
  refine (restore_iff history_receivedPool (by decide) syncOp_activationNet
    (noOther_none _ _ _)).2 fun saved _ => ?_
  exact ⟨_, rfl, ⟨activation 10, by decide, .inl rfl⟩, .inr ⟨by decide, activation 10, by decide, rfl⟩⟩

/-- The transaction of an included operation fails: the call returns nil, and the operation is not
    in the not processed set, with the failed transaction in the database. When a second block has
    included another transaction of the operation, the call dereferences a missing entry. -/
theorem restore_loses :
    (∃ s, PoolHistory activationNet forkConfig s ∧ s.NoOther (fun _ => none) 9 7 ∧
      ∃ s', s.restoreValidatorSyncOp activationNet forkConfig (fun _ => none) 352 9 = .ok s' ∧
        s'.notProcessed.lookup 7 = none ∧ (s'.stored 7).bind (·.txHash) = some 9) ∧
    ∃ s, PoolHistory activationNet forkConfig s ∧ s.NoOther (fun _ => none) 9 7 ∧
      s.restoreValidatorSyncOp activationNet forkConfig (fun _ => none) 352 9 = .error .panic := by
  have hone : PoolHistory activationNet forkConfig (includedPool receivedPool 9) :=
    .included _ _ history_receivedPool
  have hcall (s : SyncPool) : s.restoreValidatorSyncOp activationNet forkConfig (fun _ => none) 352 9 =
      s.restoreOp (fun _ => none) 9 7 := restoreValidatorSyncOp_of_syncOp (by decide) syncOp_activationNet
  refine ⟨⟨_, hone, noOther_none _ _ _, ?_⟩,
    _, .included activationOp 11 hone, noOther_none _ _ _, (hcall _).trans rfl⟩
  rw [hcall]
  decide

end SyncPool

end Gwat
