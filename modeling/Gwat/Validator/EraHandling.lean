/-
  The creation of eras (`validator/era/era.go`, `EnterNextEra` and `StartTransitionPeriod` in
  `core/blockchain.go`).
-/
import Gwat.Validator.Calendar
import Gwat.Validator.Storage

namespace Gwat

open GoLib List

/-- The configuration that the creation of eras reads. -/
structure EraParams extends ChainConfig where
  validatorsPerSlot : UInt64
  epochsPerEra : UInt64
  startEpochsPerEra : UInt64
  transitionPeriod : UInt64

/-- The stored eras and the one that the node has entered. -/
structure EraNode where
  eras : List Era
  cur : Era
  deriving DecidableEq, Repr

/-- The stored era after the one that the node has entered. -/
def EraNode.readNext (node : EraNode) : Option Era := readEra node.eras (node.cur.number + 1)

/-- How era handling ends: with an error of its own, of the slot numbers or of the storage, or with
    the read of a missing era. -/
inductive EraError
  | checkpointInvalid
  | slotOverflow
  | countFailed
  | panic
  deriving DecidableEq, Repr

/-- How era handling sees an error of the storage. -/
def EraError.ofStorage : StorageError → EraError
  | .panic => .panic
  | _ => .countFailed

namespace EraParams

variable (cfg : EraParams)

/-- The number of validators that one era of the least length has places for. -/
def places : ℕ := cfg.epochsPerEra.toNat * cfg.slotsPerEpoch.toNat * cfg.validatorsPerSlot.toNat

/-- `roundUp(numberOfValidators / (epochsPerEra * slotsPerEpoch * validatorsPerSlot))`, exactly. -/
def rounds (numberOfValidators : ℕ) : ℕ := (numberOfValidators + cfg.places - 1) / cfg.places

def estimateEraLength (numberOfValidators : ℕ) (eraNumber : UInt64) : UInt64 :=
  if eraNumber ≥ cfg.startEpochsPerEra then cfg.epochsPerEra
  else cfg.epochsPerEra * UInt64.ofNat (cfg.rounds numberOfValidators)

/-- `NextEra`, after the era `cur`. -/
def nextEra (cur : Era) (numValidators : ℕ) : Era where
  number := cur.number + 1
  fromEpoch := cur.toEpoch + 1
  toEpoch := cur.toEpoch + cfg.estimateEraLength numValidators (cur.number + 1)

variable (count : Era → Except StorageError ℕ)

/-- `GetActiveValidatorsCount` at the first slot of an epoch; `count` is what it counts for an era,
    `StorageEnv.activeCount` of a storage. -/
def countAt (node : EraNode) (epoch : UInt64) : Except EraError ℕ :=
  match cfg.slotOfEpochStart epoch with
  | .error _ => .error .slotOverflow
  | .ok slot =>
    match cfg.slotToEpoch slot with
    | .error _ => .error .panic
    | .ok slotEpoch =>
      match epochToEra node.eras node.cur slotEpoch with
      | none => .error .panic
      | some slotEra => (count slotEra).mapError EraError.ofStorage

/-- The next era is written to the database. -/
def createNextEra (node : EraNode) (validatorsCount : ℕ) : EraNode :=
  { node with eras := node.eras ++ [cfg.nextEra node.cur validatorsCount] }

/-- `bc.EnterNextEra` -/
def enterNextEra (node : EraNode) (nextEraEpochFrom : UInt64) : Except EraError EraNode :=
  match node.readNext with
  | some next => .ok { node with cur := next }
  | none => do
    let validatorsCount ← cfg.countAt count node (nextEraEpochFrom - cfg.transitionPeriod)
    return { cfg.createNextEra node validatorsCount with
      cur := cfg.nextEra node.cur validatorsCount }

/-- `bc.StartTransitionPeriod`; `HandleEra` does not look at its error. -/
def startTransitionPeriod (node : EraNode) (finEpoch : UInt64) : Except EraError EraNode :=
  match node.readNext with
  | some _ => .ok node
  | none =>
    if finEpoch.toInt64 - cfg.transitionPeriod.toInt64 < 0 then .ok node
    else
      match cfg.countAt count node (finEpoch - cfg.transitionPeriod) with
      | .error .panic => .error .panic
      | .error _ => .ok node
      | .ok validatorsCount => .ok (cfg.createNextEra node validatorsCount)

/-- The loop of `HandleEra` for at most `fuel` rounds; none if it has not ended. -/
def enterEras (finEpoch : UInt64) : ℕ → EraNode → Option (Except EraError EraNode)
  | 0, _ => none
  | fuel + 1, node =>
    if node.cur.toEpoch + 1 ≤ finEpoch then
      match cfg.enterNextEra count node (node.cur.toEpoch + 1) with
      | .error e => some (.error e)
      | .ok node => enterEras finEpoch fuel node
    else some (.ok node)

/-- `HandleEra`; `known` says whether the header of the checkpoint's spine is stored. -/
def handleEra (known : Bool) (finEpoch : UInt64) (fuel : ℕ) (node : EraNode) :
    Option (Except EraError EraNode) :=
  if ¬ known then some (.error .checkpointInvalid)
  else if node.cur.toEpoch + 1 ≤ finEpoch then cfg.enterEras count finEpoch fuel node
  else if node.cur.toEpoch + 1 - cfg.transitionPeriod = finEpoch ∧
      finEpoch ≤ node.cur.toEpoch + 1 then
    some (cfg.startTransitionPeriod count node finEpoch)
  else some (.ok node)

end EraParams

/-! ## The stored eras -/

/-- The stored eras tile the epochs, the current one is stored, and at most one is ahead of it. -/
structure EraNode.Settled (node : EraNode) : Prop where
  table : EraTable node.eras
  stored : node.eras[node.cur.number.toNat]? = some node.cur
  ahead : node.eras.length ≤ node.cur.number.toNat + 2
  small : ∀ e ∈ node.eras, e.toEpoch.toNat + 1 < 2 ^ 64

namespace EraNode.Settled

variable {node : EraNode} (h : node.Settled)

include h

theorem cur_mem : node.cur ∈ node.eras := mem_of_getElem? h.stored

theorem number_lt : node.cur.number.toNat < node.eras.length :=
  (List.getElem?_eq_some_iff.1 h.stored).1

theorem toNat_succ_number : (node.cur.number + 1).toNat = node.cur.number.toNat + 1 := by
  have := h.number_lt
  have := h.table.short
  rw [UInt64.toNat_add, UInt64.toNat_one, Nat.mod_eq_of_lt (by omega)]

theorem toNat_succ_to : (node.cur.toEpoch + 1).toNat = node.cur.toEpoch.toNat + 1 := by
  have := h.small _ h.cur_mem
  rw [UInt64.toNat_add, UInt64.toNat_one, Nat.mod_eq_of_lt (by omega)]

theorem enter {next : Era} (hnext : node.readNext = some next) :
    Settled { node with cur := next } ∧ node.cur.toEpoch.toNat < next.toEpoch.toNat := by
  unfold EraNode.readNext readEra at hnext
  rw [h.toNat_succ_number] at hnext
  have hnum := h.table.number _ _ hnext
  have hcont := h.table.contiguous _ _ _ h.stored hnext
  have hne := h.table.nonempty _ _ hnext
  refine ⟨⟨h.table, by rwa [hnum], ?_, h.small⟩, by omega⟩
  have := h.ahead
  show node.eras.length ≤ next.number.toNat + 2
  omega

theorem length_eq (hnext : node.readNext = none) :
    node.eras.length = node.cur.number.toNat + 1 := by
  unfold EraNode.readNext readEra at hnext
  rw [h.toNat_succ_number] at hnext
  have := getElem?_eq_none_iff.1 hnext
  have := h.number_lt
  omega

/-- The search from the last stored era fails exactly for the epochs after it. -/
theorem epochToEra_eq_none_iff (epoch : UInt64)
    (hnext : node.readNext = none) :
    epochToEra node.eras node.cur epoch = none ↔ node.cur.toEpoch.toNat < epoch.toNat := by
  rw [h.table.epochToEra_eq_find h.cur_mem]
  constructor
  · intro hnone
    by_contra hle
    obtain ⟨j, -, e, he, hc⟩ := h.table.covered h.stored (not_lt.1 hle)
    rw [h.table.find_eq_some he hc] at hnone
    cases hnone
  · intro hlt
    rw [List.find?_eq_none]
    intro e he hc
    obtain ⟨i, hi⟩ := mem_iff_getElem?.1 he
    have := h.table.index_lt_of_to_lt h.stored hi hc hlt
    have := (List.getElem?_eq_some_iff.1 hi).1
    have := h.length_eq hnext
    omega

end EraNode.Settled

/-! ## The length of an era -/

namespace EraParams

variable {cfg : EraParams} {count : Era → Except StorageError ℕ} {finEpoch epoch number : UInt64}
variable {node node' a b : EraNode} {n k fuel : ℕ} {cur : Era} {err : EraError}

/-- What `Validate` checks of the configuration. -/
structure Valid (cfg : EraParams) : Prop where
  slots : 1 ≤ cfg.slotsPerEpoch.toNat
  perSlot : 1 ≤ cfg.validatorsPerSlot.toNat
  perEra : 1 ≤ cfg.epochsPerEra.toNat

/-- The length of the era `number` without overflow. -/
def eraLength (cfg : EraParams) (numberOfValidators : ℕ) (number : UInt64) : ℕ :=
  if number ≥ cfg.startEpochsPerEra then cfg.epochsPerEra.toNat
  else cfg.epochsPerEra.toNat * cfg.rounds numberOfValidators

/-- The era after `cur` is not empty, and there are numbers for it and for its epochs. -/
structure Fits (cfg : EraParams) (cur : Era) (n : ℕ) : Prop where
  nonempty : cur.number + 1 ≥ cfg.startEpochsPerEra ∨ 0 < n
  small : cur.toEpoch.toNat + cfg.eraLength n (cur.number + 1) + 1 < 2 ^ 64
  room : cur.number.toNat + 2 < 2 ^ 63

theorem Valid.le_places (hv : cfg.Valid) : cfg.epochsPerEra.toNat ≤ cfg.places := by
  have hslots : 0 < cfg.slotsPerEpoch.toNat * cfg.validatorsPerSlot.toNat :=
    Nat.mul_pos hv.slots hv.perSlot
  rw [places, Nat.mul_assoc]
  exact Nat.le_mul_of_pos_right _ hslots

theorem Valid.places_pos (hv : cfg.Valid) : 0 < cfg.places := by
  have := hv.perEra
  have := hv.le_places
  omega

/-- The rounds that a number of validators needs are the least that have places for them. -/
theorem rounds_le_iff (hv : cfg.Valid) : cfg.rounds n ≤ k ↔ n ≤ k * cfg.places := by
  have hpos := hv.places_pos
  rw [rounds, Nat.div_le_iff_le_mul_add_pred hpos, Nat.mul_comm]
  omega

theorem rounds_pos_iff (hv : cfg.Valid) : 0 < cfg.rounds n ↔ 0 < n := by
  have := rounds_le_iff (n := n) (k := 0) hv
  omega

theorem Fits.eraLength_pos (hv : cfg.Valid) (h : cfg.Fits cur n) :
    0 < cfg.eraLength n (cur.number + 1) := by
  have := hv.perEra
  unfold eraLength
  split_ifs with hstart
  · omega
  · exact Nat.mul_pos (by omega) ((rounds_pos_iff hv).2 (h.nonempty.resolve_left hstart))

theorem mul_rounds_lt (hv : cfg.Valid) (hn : n < 2 ^ 63) :
    cfg.epochsPerEra.toNat * cfg.rounds n < 2 ^ 64 := by
  have hera := cfg.epochsPerEra.toNat_lt
  have hle := hv.le_places
  by_cases hone : n ≤ cfg.places
  · have hr : cfg.rounds n ≤ 1 := (rounds_le_iff hv).2 (by omega)
    calc cfg.epochsPerEra.toNat * cfg.rounds n ≤ cfg.epochsPerEra.toNat * 1 :=
          Nat.mul_le_mul_left _ hr
      _ < 2 ^ 64 := by omega
  · calc cfg.epochsPerEra.toNat * cfg.rounds n ≤ cfg.places * cfg.rounds n :=
          Nat.mul_le_mul_right _ hle
      _ ≤ n + cfg.places - 1 := Nat.mul_div_le _ _
      _ < 2 ^ 64 := by omega

theorem eraLength_lt (hv : cfg.Valid) (hn : n < 2 ^ 63) : cfg.eraLength n number < 2 ^ 64 := by
  unfold eraLength
  split_ifs
  · exact cfg.epochsPerEra.toNat_lt
  · exact mul_rounds_lt hv hn

theorem toNat_estimateEraLength (hv : cfg.Valid) (h : cfg.eraLength n number < 2 ^ 64) :
    (cfg.estimateEraLength n number).toNat = cfg.eraLength n number := by
  unfold estimateEraLength eraLength at *
  split_ifs at h ⊢
  · rfl
  · have hle : cfg.rounds n ≤ cfg.epochsPerEra.toNat * cfg.rounds n :=
      Nat.le_mul_of_pos_left _ hv.perEra
    have hr : cfg.rounds n < 2 ^ 64 := by omega
    rw [UInt64.toNat_mul, UInt64.toNat_ofNat', Nat.mod_eq_of_lt hr, Nat.mod_eq_of_lt h]

theorem Fits.toNat_to (hv : cfg.Valid) (h : cfg.Fits cur n) :
    (cfg.nextEra cur n).toEpoch.toNat =
      cur.toEpoch.toNat + cfg.eraLength n (cur.number + 1) := by
  have hsmall := h.small
  rw [nextEra, UInt64.toNat_add, toNat_estimateEraLength hv (by omega),
    Nat.mod_eq_of_lt (by omega)]

/-- An era that does not end before it starts was created for a number that fits. -/
theorem fits_of_le (hv : cfg.Valid) (hn : n < 2 ^ 63) (hroom : cur.number.toNat + 2 < 2 ^ 63)
    (hle : cur.toEpoch.toNat + 1 ≤ (cfg.nextEra cur n).toEpoch.toNat)
    (hsmall : (cfg.nextEra cur n).toEpoch.toNat + 1 < 2 ^ 64) : cfg.Fits cur n := by
  have hlen : cfg.eraLength n (cur.number + 1) < 2 ^ 64 := eraLength_lt hv hn
  have hto : (cfg.nextEra cur n).toEpoch.toNat =
      (cur.toEpoch.toNat + cfg.eraLength n (cur.number + 1)) % 2 ^ 64 := by
    rw [nextEra, UInt64.toNat_add, toNat_estimateEraLength hv hlen]
  refine ⟨?_, by omega, hroom⟩
  by_contra hno
  obtain ⟨hstart, hzero⟩ := not_or.1 hno
  have hrounds : cfg.rounds n = 0 := Nat.eq_zero_of_not_pos fun h => hzero ((rounds_pos_iff hv).1 h)
  rw [eraLength, if_neg hstart, hrounds] at hto
  omega

theorem createNextEra_settled (hs : node.Settled)
    (hnext : node.readNext = none)
    (htable : EraTable (node.eras ++ [cfg.nextEra node.cur n]))
    (hsmall : (cfg.nextEra node.cur n).toEpoch.toNat + 1 < 2 ^ 64) :
    (cfg.createNextEra node n).Settled ∧
      EraNode.Settled { cfg.createNextEra node n with cur := cfg.nextEra node.cur n } := by
  have hlen := hs.length_eq hnext
  have hnum : (cfg.nextEra node.cur n).number.toNat = node.cur.number.toNat + 1 :=
    hs.toNat_succ_number
  have hend : ∀ e ∈ node.eras ++ [cfg.nextEra node.cur n], e.toEpoch.toNat + 1 < 2 ^ 64 := by
    simp only [forall_mem_append, forall_mem_singleton]
    exact ⟨hs.small, hsmall⟩
  have hlen' : (node.eras ++ [cfg.nextEra node.cur n]).length = node.cur.number.toNat + 2 := by
    simp [hlen]
  refine ⟨⟨htable, ?_, hlen'.le, hend⟩, ⟨htable, ?_, ?_, hend⟩⟩
  · show (node.eras ++ _)[node.cur.number.toNat]? = _
    rw [getElem?_append_left hs.number_lt, hs.stored]
    rfl
  · show (node.eras ++ _)[(cfg.nextEra node.cur n).number.toNat]? = _
    rw [hnum, ← hlen, getElem?_concat_length]
  · show (node.eras ++ _).length ≤ (cfg.nextEra node.cur n).number.toNat + 2
    omega

theorem Fits.create (hv : cfg.Valid) (hs : node.Settled)
    (hnext : node.readNext = none) (h : cfg.Fits node.cur n) :
    ((cfg.createNextEra node n).Settled ∧
      EraNode.Settled { cfg.createNextEra node n with cur := cfg.nextEra node.cur n }) ∧
      node.cur.toEpoch.toNat < (cfg.nextEra node.cur n).toEpoch.toNat := by
  have hlen := hs.length_eq hnext
  have hsmall := h.small
  have hpos := h.eraLength_pos hv
  have hto := h.toNat_to hv
  have hfrom : (cfg.nextEra node.cur n).fromEpoch.toNat = node.cur.toEpoch.toNat + 1 :=
    hs.toNat_succ_to
  have htable : EraTable (node.eras ++ [cfg.nextEra node.cur n]) :=
    hs.table.snoc hs.stored hlen hs.toNat_succ_number hfrom (by omega) h.room
  exact ⟨createNextEra_settled hs hnext htable (by omega), by omega⟩

/-- If the stored eras still tile the epochs after a creation, then the created one fits. -/
theorem fits_of_created (hv : cfg.Valid) (hs : node.Settled) (hn : n < 2 ^ 63)
    (hnext : node.readNext = none)
    (h : EraNode.Settled ⟨node.eras ++ [cfg.nextEra node.cur n], cur⟩) : cfg.Fits node.cur n := by
  have hmem : (node.eras ++ [cfg.nextEra node.cur n])[node.eras.length]? =
      some (cfg.nextEra node.cur n) := getElem?_concat_length
  have hle := h.table.nonempty _ _ hmem
  have hfrom : (cfg.nextEra node.cur n).fromEpoch.toNat = node.cur.toEpoch.toNat + 1 :=
    hs.toNat_succ_to
  have hshort := h.table.short
  have hlen := hs.length_eq hnext
  simp only [length_append, length_singleton] at hshort
  exact fits_of_le hv hn (by omega) (by omega) (h.small _ (mem_of_getElem? hmem))

/-! ## The count -/

theorem countAt_eq (hv : cfg.Valid) : cfg.countAt count node epoch =
    if 2 ^ 64 ≤ cfg.slotsPerEpoch.toNat * epoch.toNat then .error .slotOverflow
    else
      match epochToEra node.eras node.cur epoch with
      | none => .error .panic
      | some slotEra => (count slotEra).mapError EraError.ofStorage := by
  have hslots := hv.slots
  unfold countAt ChainConfig.slotOfEpochStart
  split_ifs with hover
  · rfl
  · have hback : cfg.slotToEpoch (cfg.slotsPerEpoch * epoch) = .ok epoch := by
      have hne : cfg.slotsPerEpoch ≠ 0 := by
        intro h0
        simp [h0] at hslots
      rw [ChainConfig.slotToEpoch, if_neg hne]
      congr 1
      apply UInt64.toNat_inj.1
      rw [UInt64.toNat_div, UInt64.toNat_mul, Nat.mod_eq_of_lt (by omega),
        Nat.mul_div_cancel_left _ (by omega)]
    simp only [hback]

theorem mapError_ne_panic {x : Except StorageError ℕ} (h : x ≠ .error .panic) :
    x.mapError EraError.ofStorage ≠ .error .panic := by
  cases x with
  | ok n => simp [Except.mapError]
  | error e =>
    cases e
    case panic => exact absurd rfl h
    all_goals simp [Except.mapError, EraError.ofStorage]

theorem count_lt (hsmall : ∀ e n, count e = .ok n → n < 2 ^ 63) (hv : cfg.Valid)
    (h : cfg.countAt count node epoch = .ok n) : n < 2 ^ 63 := by
  rw [countAt_eq hv] at h
  split_ifs at h
  cases hera : epochToEra node.eras node.cur epoch with
  | none => simp [hera] at h
  | some e =>
    cases hc : count e with
    | error e => simp [hera, hc, Except.mapError] at h
    | ok m =>
      simp only [hera, hc, Except.mapError, Except.ok.injEq] at h
      exact h ▸ hsmall e m hc

/-- The count at the end of `cur` is answered: its slot number is too large, or its epoch is not
    after `cur`. -/
def CountKnown (cfg : EraParams) (cur : Era) : Prop :=
  2 ^ 64 ≤ cfg.slotsPerEpoch.toNat * (cur.toEpoch + 1 - cfg.transitionPeriod).toNat ∨
    (cur.toEpoch + 1 - cfg.transitionPeriod).toNat ≤ cur.toEpoch.toNat

variable (hcount : ∀ e, count e ≠ .error .panic)

include hcount in
/-- Without a stored next era, the count panics exactly for the epochs after the current era. -/
theorem countAt_eq_panic_iff (hv : cfg.Valid) (hs : node.Settled)
    (hnext : node.readNext = none) :
    cfg.countAt count node epoch = .error .panic ↔
      ¬ (2 ^ 64 ≤ cfg.slotsPerEpoch.toNat * epoch.toNat ∨
        epoch.toNat ≤ node.cur.toEpoch.toNat) := by
  have hnone := hs.epochToEra_eq_none_iff epoch hnext
  rw [countAt_eq hv, not_or]
  split_ifs with hover
  · exact iff_of_false (by simp) fun h => h.1 hover
  · cases hera : epochToEra node.eras node.cur epoch with
    | none =>
      have := hnone.1 hera
      simp only [true_iff]
      exact ⟨hover, by omega⟩
    | some e =>
      have hle : epoch.toNat ≤ node.cur.toEpoch.toNat := by
        by_contra hlt
        rw [hnone.2 (by omega)] at hera
        cases hera
      simp [mapError_ne_panic (hcount e), hle]

/-! ## Handling a checkpoint -/

theorem enterNextEra_eq_ok : cfg.enterNextEra count node epoch = .ok b ↔
    (∃ next, node.readNext = some next ∧ b = { node with cur := next }) ∨
      node.readNext = none ∧
        ∃ n, cfg.countAt count node (epoch - cfg.transitionPeriod) = .ok n ∧
          b = { cfg.createNextEra node n with cur := cfg.nextEra node.cur n } := by
  unfold enterNextEra
  cases node.readNext with
  | some next => simp [eq_comm]
  | none =>
    rw [bind_eq_ok]
    simp [eq_comm]

theorem enterNextEra_eq_error : cfg.enterNextEra count node epoch = .error err ↔
    node.readNext = none ∧
      cfg.countAt count node (epoch - cfg.transitionPeriod) = .error err := by
  unfold enterNextEra
  cases node.readNext with
  | some next => simp
  | none =>
    rw [bind_eq_error]
    simp

variable (cfg count finEpoch node) in
/-- The nodes before the rounds of `HandleEra`. -/
inductive Entered : EraNode → Prop
  | start : Entered node
  | next {a b : EraNode} : Entered a → a.cur.toEpoch + 1 ≤ finEpoch →
      cfg.enterNextEra count a (a.cur.toEpoch + 1) = .ok b → Entered b

variable (cfg count finEpoch node) in
/-- When `HandleEra` handles a checkpoint, the node `a` creates an era for `n` active validators: it
    enters an era that is not stored, or the transition period starts. -/
inductive Creates : EraNode → ℕ → Prop
  | entered {a : EraNode} {n : ℕ} : Entered cfg count finEpoch node a →
      a.cur.toEpoch + 1 ≤ finEpoch → a.readNext = none →
      cfg.countAt count a (a.cur.toEpoch + 1 - cfg.transitionPeriod) = .ok n →
      Creates a n
  | transition {n : ℕ} : ¬ node.cur.toEpoch + 1 ≤ finEpoch →
      node.cur.toEpoch + 1 - cfg.transitionPeriod = finEpoch →
      node.readNext = none →
      ¬ finEpoch.toInt64 - cfg.transitionPeriod.toInt64 < 0 →
      cfg.countAt count node (finEpoch - cfg.transitionPeriod) = .ok n →
      Creates node n

variable (cfg count finEpoch node) in
/-- As a node handles a checkpoint, the counts for the eras that it enters are answered, and the eras
    that it creates fit. -/
structure Fitting : Prop where
  known : ∀ a, Entered cfg count finEpoch node a → a.cur.toEpoch + 1 ≤ finEpoch →
    a.readNext = none → cfg.CountKnown a.cur
  fits : ∀ a n, Creates cfg count finEpoch node a n → cfg.Fits a.cur n

variable (cfg count finEpoch node) in
/-- An era that is not stored is not entered, since its count fails. -/
def Stopped : Prop :=
  ∃ a e, Entered cfg count finEpoch node a ∧ a.cur.toEpoch + 1 ≤ finEpoch ∧
    a.readNext = none ∧
    cfg.countAt count a (a.cur.toEpoch + 1 - cfg.transitionPeriod) = .error e ∧ e ≠ .panic

/-- From `a` to `b` the node goes on to an era that ends later and stores no other eras than it
    had before and new ones. -/
structure Advances (a b : EraNode) : Prop where
  settled : b.Settled
  stored : a.eras <+: b.eras
  later : a.cur.toEpoch.toNat < b.cur.toEpoch.toNat

theorem Entered.trans (h₁ : Entered cfg count finEpoch node node')
    (h₂ : Entered cfg count finEpoch node' a) : Entered cfg count finEpoch node a := by
  induction h₂ with
  | start => exact h₁
  | next _ hle hok ih => exact .next ih hle hok

theorem Entered.first (h : Entered cfg count finEpoch node a)
    (hle : a.cur.toEpoch + 1 ≤ finEpoch) : node.cur.toEpoch + 1 ≤ finEpoch := by
  induction h with
  | start => exact hle
  | next _ hprev _ ih => exact ih hprev

theorem prefix_enterNextEra (h : cfg.enterNextEra count node epoch = .ok b) :
    node.eras <+: b.eras := by
  rcases enterNextEra_eq_ok.1 h with ⟨next, -, rfl⟩ | ⟨-, n, -, rfl⟩
  · exact prefix_rfl
  · exact prefix_append _ _

theorem Entered.stored (h : Entered cfg count finEpoch node a) : node.eras <+: a.eras := by
  induction h with
  | start => exact prefix_rfl
  | next _ _ hok ih => exact ih.trans (prefix_enterNextEra hok)

/-- The loop passes through the nodes that are entered. -/
theorem Entered.enterEras (h : Entered cfg count finEpoch node a) :
    ∃ k, ∀ fuel, cfg.enterEras count finEpoch (fuel + k) node =
      cfg.enterEras count finEpoch fuel a := by
  induction h with
  | start => exact ⟨0, fun _ => rfl⟩
  | next _ hle hok ih =>
    obtain ⟨k, hk⟩ := ih
    refine ⟨k + 1, fun fuel => ?_⟩
    rw [← Nat.add_assoc, Nat.add_right_comm, hk, EraParams.enterEras, if_pos hle, hok]

theorem entered_of_enterEras (h : cfg.enterEras count finEpoch fuel b = some (.ok c)) :
    Entered cfg count finEpoch b c := by
  induction fuel generalizing b with
  | zero => cases h
  | succ fuel ih =>
    rw [enterEras] at h
    split_ifs at h with hle
    · cases hb : cfg.enterNextEra count b (b.cur.toEpoch + 1) with
      | error e => simp [hb] at h
      | ok x =>
        rw [hb] at h
        exact Entered.trans (.next .start hle hb) (ih h)
    · cases h
      exact .start

theorem stopped_of_enterEras (h : cfg.enterEras count finEpoch fuel node = some (.error err))
    (hne : err ≠ .panic) : Stopped cfg count finEpoch node := by
  induction fuel generalizing node with
  | zero => cases h
  | succ fuel ih =>
    rw [enterEras] at h
    split_ifs at h with hle
    · cases hb : cfg.enterNextEra count node (node.cur.toEpoch + 1) with
      | error e =>
        rw [hb] at h
        cases h
        obtain ⟨hnext, hfails⟩ := enterNextEra_eq_error.1 hb
        exact ⟨node, err, .start, hle, hnext, hfails, hne⟩
      | ok x =>
        rw [hb] at h
        obtain ⟨a, e, ha, hrest⟩ := ih h
        exact ⟨a, e, Entered.trans (.next .start hle hb) ha, hrest⟩
    · cases h

theorem enterNextEra_advances (hv : cfg.Valid) (hs : node.Settled)
    (hfits : node.readNext = none →
      ∀ n, cfg.countAt count node (epoch - cfg.transitionPeriod) = .ok n → cfg.Fits node.cur n)
    (h : cfg.enterNextEra count node epoch = .ok b) : Advances node b := by
  rcases enterNextEra_eq_ok.1 h with ⟨next, hnext, rfl⟩ | ⟨hnext, n, hn, rfl⟩
  · obtain ⟨hsettled, hlater⟩ := hs.enter hnext
    exact ⟨hsettled, prefix_rfl, hlater⟩
  · obtain ⟨hsettled, hlater⟩ := (hfits hnext n hn).create hv hs hnext
    exact ⟨hsettled.2, prefix_append _ _, hlater⟩

theorem toNat_succ_le (hs : node.Settled) :
    node.cur.toEpoch + 1 ≤ finEpoch ↔ node.cur.toEpoch.toNat + 1 ≤ finEpoch.toNat := by
  rw [UInt64.le_iff_toNat_le, hs.toNat_succ_to]

include hcount in
/-- While the counts are answered and the created eras fit, the loop ends; if it ends without an
    error, the current era reaches the epoch, and the stored eras still tile the epochs. -/
theorem enterEras_spec (hv : cfg.Valid) (hs : node.Settled)
    (hfits : ∀ a, Entered cfg count finEpoch node a → a.cur.toEpoch + 1 ≤ finEpoch →
      a.readNext = none → cfg.CountKnown a.cur ∧ ∀ n,
        cfg.countAt count a (a.cur.toEpoch + 1 - cfg.transitionPeriod) = .ok n → cfg.Fits a.cur n)
    (hfuel : finEpoch.toNat ≤ node.cur.toEpoch.toNat + fuel) :
    ∃ r, cfg.enterEras count finEpoch (fuel + 1) node = some r ∧ r ≠ .error .panic ∧
      ∀ b, r = .ok b → finEpoch.toNat ≤ b.cur.toEpoch.toNat ∧ node.eras <+: b.eras ∧ b.Settled := by
  induction fuel generalizing node with
  | zero =>
    have hend : ¬ node.cur.toEpoch + 1 ≤ finEpoch := by
      rw [toNat_succ_le hs]
      omega
    refine ⟨.ok node, by rw [enterEras, if_neg hend], by simp, fun b hb => ?_⟩
    cases hb
    exact ⟨by omega, prefix_rfl, hs⟩
  | succ fuel ih =>
    by_cases hle : node.cur.toEpoch + 1 ≤ finEpoch
    · cases hb : cfg.enterNextEra count node (node.cur.toEpoch + 1) with
      | error e =>
        refine ⟨.error e, by rw [enterEras, if_pos hle, hb], fun he => ?_,
          fun b hok => by cases hok⟩
        cases he
        obtain ⟨hnext, hpanic⟩ := enterNextEra_eq_error.1 hb
        exact (countAt_eq_panic_iff hcount hv hs hnext).1 hpanic (hfits node .start hle hnext).1
      | ok b =>
        have hadv := enterNextEra_advances hv hs (fun hnext => (hfits node .start hle hnext).2) hb
        have hlater := hadv.later
        obtain ⟨r, hr, hne, hspec⟩ := ih hadv.settled
          (fun a ha => hfits a (Entered.trans (.next .start hle hb) ha)) (by omega)
        refine ⟨r, by rw [enterEras, if_pos hle, hb]; exact hr, hne, fun c hc => ?_⟩
        obtain ⟨hreach, hpre, hset⟩ := hspec c hc
        exact ⟨hreach, hadv.stored.trans hpre, hset⟩
    · refine ⟨.ok node, by rw [enterEras, if_neg hle], by simp, fun b hb => ?_⟩
      cases hb
      rw [toNat_succ_le hs] at hle
      exact ⟨by omega, prefix_rfl, hs⟩

/-! ## The transition period -/

theorem startTransitionPeriod_eq_ok (h : cfg.startTransitionPeriod count node finEpoch = .ok b) :
    b = node ∨ node.readNext = none ∧
      ¬ finEpoch.toInt64 - cfg.transitionPeriod.toInt64 < 0 ∧
      ∃ n, cfg.countAt count node (finEpoch - cfg.transitionPeriod) = .ok n ∧
        b = cfg.createNextEra node n := by
  unfold startTransitionPeriod at h
  cases hnext : node.readNext with
  | some next =>
    rw [hnext] at h
    cases h
    exact .inl rfl
  | none =>
    simp only [hnext] at h
    split_ifs at h with hneg
    · cases h
      exact .inl rfl
    · cases hc : cfg.countAt count node (finEpoch - cfg.transitionPeriod) with
      | ok n =>
        rw [hc] at h
        cases h
        exact .inr ⟨rfl, hneg, n, rfl, rfl⟩
      | error e =>
        rw [hc] at h
        cases e <;> cases h
        all_goals exact .inl rfl

theorem startTransitionPeriod_create (hnext : node.readNext = none)
    (hneg : ¬ finEpoch.toInt64 - cfg.transitionPeriod.toInt64 < 0)
    (hn : cfg.countAt count node (finEpoch - cfg.transitionPeriod) = .ok n) :
    cfg.startTransitionPeriod count node finEpoch = .ok (cfg.createNextEra node n) := by
  simp [startTransitionPeriod, hnext, if_neg hneg, hn]

theorem toNat_sub_lt {x y : UInt64} (h : ¬ x.toInt64 - y.toInt64 < 0) :
    (x - y).toNat < 2 ^ 63 := by
  rw [← UInt64.toInt64_sub, Int64.not_lt, Int64.le_iff_toInt_le] at h
  have hint : (x - y).toInt64.toInt = ((x - y).toNat : ℤ).bmod (2 ^ 64) :=
    BitVec.toInt_eq_toNat_bmod (x - y).toBitVec
  rw [hint, Int.bmod_def, Int64.toInt_zero] at h
  have hlt := (x - y).toNat_lt
  omega

include hcount in
/-- One transition period before the next era, the count of `StartTransitionPeriod` is read in a
    stored era. -/
theorem startTransitionPeriod_ok (hv : cfg.Valid) (hs : node.Settled)
    (hle : ¬ node.cur.toEpoch + 1 ≤ finEpoch)
    (hfin : node.cur.toEpoch + 1 - cfg.transitionPeriod = finEpoch) :
    ∃ b, cfg.startTransitionPeriod count node finEpoch = .ok b := by
  unfold startTransitionPeriod
  cases hnext : node.readNext with
  | some next => exact ⟨node, rfl⟩
  | none =>
    simp only
    split_ifs with hneg
    · exact ⟨node, rfl⟩
    · have hperiod := cfg.transitionPeriod.toNat_lt
      have hto := hs.small _ hs.cur_mem
      have hsub : finEpoch.toNat =
          (2 ^ 64 - cfg.transitionPeriod.toNat + (node.cur.toEpoch.toNat + 1)) % 2 ^ 64 := by
        rw [← hfin, UInt64.toNat_sub, hs.toNat_succ_to]
      rw [toNat_succ_le hs] at hle
      have hepoch : (finEpoch - cfg.transitionPeriod).toNat ≤ node.cur.toEpoch.toNat := by
        have hlt := toNat_sub_lt hneg
        rw [UInt64.toNat_sub] at hlt ⊢
        omega
      cases hc : cfg.countAt count node (finEpoch - cfg.transitionPeriod) with
      | ok n => exact ⟨_, rfl⟩
      | error e =>
        cases e with
        | panic => exact absurd (.inr hepoch) ((countAt_eq_panic_iff hcount hv hs hnext).1 hc)
        | _ => exact ⟨node, rfl⟩

theorem startTransitionPeriod_settled (hv : cfg.Valid) (hs : node.Settled)
    (hfits : Fitting cfg count finEpoch node) (hle : ¬ node.cur.toEpoch + 1 ≤ finEpoch)
    (hfin : node.cur.toEpoch + 1 - cfg.transitionPeriod = finEpoch)
    (h : cfg.startTransitionPeriod count node finEpoch = .ok b) :
    node.eras <+: b.eras ∧ b.Settled := by
  rcases startTransitionPeriod_eq_ok h with rfl | ⟨hnext, hneg, n, hn, rfl⟩
  · exact ⟨prefix_rfl, hs⟩
  · have hfit := hfits.fits node n (.transition hle hfin hnext hneg hn)
    exact ⟨prefix_append _ _, (hfit.create hv hs hnext).1.1⟩

/-! ## One checkpoint -/

theorem handleEra_enters (hle : node.cur.toEpoch + 1 ≤ finEpoch) :
    cfg.handleEra count true finEpoch fuel node = cfg.enterEras count finEpoch fuel node := by
  simp only [handleEra, not_true_eq_false, if_false, if_pos hle]

theorem handleEra_starts (hle : ¬ node.cur.toEpoch + 1 ≤ finEpoch)
    (hfin : node.cur.toEpoch + 1 - cfg.transitionPeriod = finEpoch) :
    cfg.handleEra count true finEpoch fuel node =
      some (cfg.startTransitionPeriod count node finEpoch) := by
  have htr : node.cur.toEpoch + 1 - cfg.transitionPeriod = finEpoch ∧
      finEpoch ≤ node.cur.toEpoch + 1 := ⟨hfin, UInt64.le_of_lt (UInt64.not_le.1 hle)⟩
  simp only [handleEra, not_true_eq_false, if_false, if_neg hle, if_pos htr]

theorem handleEra_idle (hle : ¬ node.cur.toEpoch + 1 ≤ finEpoch)
    (hfin : ¬ node.cur.toEpoch + 1 - cfg.transitionPeriod = finEpoch) :
    cfg.handleEra count true finEpoch fuel node = some (.ok node) := by
  simp only [handleEra, not_true_eq_false, if_false, if_neg hle, hfin, false_and]

variable (cfg count finEpoch node) in
/-- `HandleEra` returns; if it enters eras and returns no error, then the current era reaches the
    finalized epoch.  The stored eras still tile the epochs: each new one starts one epoch after the
    end of the one before and is not empty. -/
def Tiles : Prop :=
  ∃ fuel₀, ∀ fuel ≥ fuel₀, ∃ r, cfg.handleEra count true finEpoch fuel node = some r ∧
    r ≠ .error .panic ∧
    ∀ b, r = .ok b →
      (node.cur.toEpoch + 1 ≤ finEpoch → finEpoch.toNat ≤ b.cur.toEpoch.toNat) ∧
      node.eras <+: b.eras ∧ b.Settled

include hcount in
theorem Fitting.tiles (hv : cfg.Valid) (hs : node.Settled)
    (hfits : Fitting cfg count finEpoch node) : Tiles cfg count finEpoch node := by
  refine ⟨finEpoch.toNat + 1, fun fuel hfuel => ?_⟩
  by_cases hle : node.cur.toEpoch + 1 ≤ finEpoch
  · obtain ⟨k, rfl⟩ : ∃ k, fuel = k + finEpoch.toNat + 1 := ⟨fuel - finEpoch.toNat - 1, by omega⟩
    obtain ⟨r, hr, hne, hspec⟩ := enterEras_spec hcount hv hs
      (fun a ha hale hnone => ⟨hfits.known a ha hale hnone,
        fun n hn => hfits.fits a n (.entered ha hale hnone hn)⟩)
      (show finEpoch.toNat ≤ node.cur.toEpoch.toNat + (k + finEpoch.toNat) by omega)
    refine ⟨r, (handleEra_enters hle).trans hr, hne, fun b hb => ?_⟩
    obtain ⟨hreach, hpre, hset⟩ := hspec b hb
    exact ⟨fun _ => hreach, hpre, hset⟩
  · by_cases hfin : node.cur.toEpoch + 1 - cfg.transitionPeriod = finEpoch
    · obtain ⟨b, hb⟩ := startTransitionPeriod_ok hcount hv hs hle hfin
      refine ⟨.ok b, (handleEra_starts hle hfin).trans (by rw [hb]), by simp, fun c hc => ?_⟩
      cases hc
      exact ⟨fun h => absurd h hle, startTransitionPeriod_settled hv hs hfits hle hfin hb⟩
    · refine ⟨.ok node, handleEra_idle hle hfin, by simp, fun c hc => ?_⟩
      cases hc
      exact ⟨fun h => absurd h hle, prefix_rfl, hs⟩

theorem Stopped.tiles (h : Stopped cfg count finEpoch node) : Tiles cfg count finEpoch node := by
  obtain ⟨a, e, ha, hle, hnext, he, hne⟩ := h
  obtain ⟨k, hk⟩ := ha.enterEras
  refine ⟨k + 1, fun fuel hfuel => ⟨.error e, ?_, fun hp => hne (by cases hp; rfl),
    fun b hb => by cases hb⟩⟩
  obtain ⟨m, rfl⟩ : ∃ m, fuel = m + 1 + k := ⟨fuel - k - 1, by omega⟩
  have herr := enterNextEra_eq_error.2 ⟨hnext, he⟩
  rw [handleEra_enters (ha.first hle), hk, enterEras, if_pos hle, herr]

/-- What was entered before a node whose eras tile the epochs, was settled. -/
theorem Entered.settled_of_prefix (hs : node.Settled) (hb : b.Settled)
    (h : Entered cfg count finEpoch node a) (hpre : a.eras <+: b.eras) : a.Settled := by
  induction h with
  | start => exact hs
  | next ha hle hok ih =>
    have hset := ih ((prefix_enterNextEra hok).trans hpre)
    rcases enterNextEra_eq_ok.1 hok with ⟨next, hnext, rfl⟩ | ⟨hnext, n, -, rfl⟩
    · exact (hset.enter hnext).1
    · have htable : EraTable (_ ++ [cfg.nextEra _ n]) := hb.table.of_prefix hpre
      exact (createNextEra_settled hset hnext htable
        (hb.small _ (hpre.subset (by simp [createNextEra])))).2

/-- If `HandleEra` keeps its promise and no count fails, the nodes that it enters are settled, and it
    does not panic at them. -/
theorem Tiles.entered (hs : node.Settled) (h : Tiles cfg count finEpoch node)
    (hrun : ¬ Stopped cfg count finEpoch node) (hle : node.cur.toEpoch + 1 ≤ finEpoch)
    (ha : Entered cfg count finEpoch node a) :
    a.Settled ∧ ∃ fuel b, cfg.enterEras count finEpoch fuel a = some (.ok b) := by
  obtain ⟨fuel₀, h⟩ := h
  obtain ⟨k, hk⟩ := ha.enterEras
  obtain ⟨r, hr, hne, hspec⟩ := h (fuel₀ + k) (by omega)
  rw [handleEra_enters hle] at hr
  cases r with
  | error e => exact absurd (stopped_of_enterEras hr fun he => hne (by rw [he])) hrun
  | ok b =>
    rw [hk] at hr
    have hpre := (entered_of_enterEras hr).stored
    exact ⟨ha.settled_of_prefix hs (hspec b rfl).2.2 hpre, fuel₀, b, hr⟩

include hcount in
theorem Tiles.fitting (hsmall : ∀ e n, count e = .ok n → n < 2 ^ 63) (hv : cfg.Valid)
    (hs : node.Settled) (h : Tiles cfg count finEpoch node)
    (hrun : ¬ Stopped cfg count finEpoch node) : Fitting cfg count finEpoch node := by
  constructor
  · intro a ha hle hnext
    obtain ⟨hset, fuel, b, hb⟩ := h.entered hs hrun (ha.first hle) ha
    by_contra hunknown
    have hpanic := (countAt_eq_panic_iff hcount hv hset hnext).2 hunknown
    cases fuel with
    | zero => cases hb
    | succ fuel =>
      rw [enterEras, if_pos hle, enterNextEra_eq_error.2 ⟨hnext, hpanic⟩] at hb
      cases hb
  · intro a n hc
    cases hc with
    | entered ha hle hnext hn =>
      have hset := (h.entered hs hrun (ha.first hle) ha).1
      have hok := enterNextEra_eq_ok.2 (.inr ⟨hnext, n, hn, rfl⟩)
      have hset' := (h.entered hs hrun (ha.first hle) (.next ha hle hok)).1
      exact fits_of_created hv hset (count_lt hsmall hv hn) hnext hset'
    | transition hle hfin hnext hneg hn =>
      obtain ⟨fuel, h⟩ := h
      obtain ⟨r, hr, -, hspec⟩ := h fuel le_rfl
      rw [handleEra_starts hle hfin, startTransitionPeriod_create hnext hneg hn] at hr
      cases hr
      exact fits_of_created hv hs (count_lt hsmall hv hn) hnext (hspec _ rfl).2.2

include hcount in
/-- `HandleEra` keeps its promise exactly if a count fails on the way, or each count is answered and
    every era that is created is not empty. -/
theorem handleEra_tiles_iff (hsmall : ∀ e n, count e = .ok n → n < 2 ^ 63) (hv : cfg.Valid)
    (hs : node.Settled) : Tiles cfg count finEpoch node ↔
      Stopped cfg count finEpoch node ∨ Fitting cfg count finEpoch node := by
  constructor
  · intro h
    by_cases hrun : Stopped cfg count finEpoch node
    · exact .inl hrun
    · exact .inr (h.fitting hcount hsmall hv hs hrun)
  · exact fun h => h.elim Stopped.tiles (Fitting.tiles hcount hv hs)

end EraParams

/-! ## Eras of sixteen epochs -/

/-- Epochs of 32 slots, 6 validators in a slot, eras of at least 16 epochs, whose length is fixed
    from the era `start` on. -/
def sixteenEpochs (start transitionPeriod : UInt64) : EraParams where
  validatorsStateAddress := default
  effectiveBalance := 3200
  validatorOpExpireSlots := 300
  forkSlotDelegate := 0
  forkSlotValOpTracking := 0
  forkSlotValSyncProc := 0
  slotsPerEpoch := 32
  validatorsPerSlot := 6
  epochsPerEra := 16
  startEpochsPerEra := start
  transitionPeriod := transitionPeriod

theorem sixteenEpochs_valid {start transitionPeriod : UInt64} :
    (sixteenEpochs start transitionPeriod).Valid :=
  ⟨by simp [sixteenEpochs], by simp [sixteenEpochs], by simp [sixteenEpochs]⟩

def firstEra : EraNode := ⟨[⟨0, 0, 15⟩], ⟨0, 0, 15⟩⟩

theorem firstEra_settled : firstEra.Settled :=
  ⟨.singleton rfl rfl, rfl, by decide, by decide⟩

/-- With 4000 validators, the checkpoint of the epoch 16 enters an era of 32 epochs. -/
theorem handleEra_tiles_counted :
    ∃ fuel, ∃ r, (sixteenEpochs 2 2).handleEra (fun _ => .ok 4000) true 16 fuel firstEra = some r ∧
      r ≠ .error .panic ∧ ∀ b, r = .ok b → 16 ≤ b.cur.toEpoch.toNat ∧ b.Settled := by
  have hsecond : ∀ a, EraParams.Entered (sixteenEpochs 2 2) (fun _ => .ok 4000) 16 firstEra a →
      a.cur.toEpoch + 1 ≤ 16 → a = firstEra := by
    intro a ha
    induction ha with
    | start => exact fun _ => rfl
    | next _ hle hok ih =>
      obtain rfl := ih hle
      cases hok
      exact fun hle => absurd hle (by decide)
  have hfits : EraParams.Fitting (sixteenEpochs 2 2) (fun _ => .ok 4000) 16 firstEra := by
    constructor
    · intro a ha hle _
      obtain rfl := hsecond a ha hle
      exact .inr (by decide)
    · intro a n hc
      cases hc with
      | entered ha hle _ hn =>
        obtain rfl := hsecond a ha hle
        cases hn
        exact ⟨.inr (by decide), by decide, by decide⟩
      | transition hle => exact absurd hle (by decide)
  obtain ⟨fuel, hreturns⟩ := (EraParams.handleEra_tiles_iff (by simp) (by simp)
    sixteenEpochs_valid firstEra_settled).2 (.inr hfits)
  obtain ⟨r, hr, hne, hspec⟩ := hreturns fuel le_rfl
  exact ⟨fuel, r, hr, hne, fun b hb => ⟨(hspec b hb).1 (by decide), (hspec b hb).2.2⟩⟩

/-- Without active validators an era is created that ends before it starts, and without a transition
    period a missing era is read. -/
theorem handleEra_empty :
    (sixteenEpochs 2 2).handleEra (fun _ => .ok 0) true 16 3 firstEra =
        some (.ok ⟨[⟨0, 0, 15⟩, ⟨1, 16, 15⟩, ⟨2, 16, 31⟩], ⟨2, 16, 31⟩⟩) ∧
      (sixteenEpochs 0 0).handleEra (fun _ => .ok 100) true 16 3 firstEra =
        some (.error .panic) := by
  decide

end Gwat
