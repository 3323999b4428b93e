/-
  The validator storage with its caches (`validator/storage/storage.go`,
  `validator/storage/validators_cache.go`).
-/
import Gwat.Lib.Cache
import Gwat.Validator.Chain
import Gwat.Validator.Shuffle

namespace Gwat

open GoLib

/-- The chain as the storage reads it.  `stateAt` is `StateAt` of the root of an era. -/
structure EraChain where
  epochToEra : UInt64 → Option Era
  stateAt : Era → Option StateDB
  getEpoch : UInt64 → Hash
  /-- An era is stored under its number. -/
  unique : ∀ e e' era era', epochToEra e = some era → epochToEra e' = some era' →
    era.number = era'.number → era = era'

/-- The configuration of the storage, the chain it reads and the hash functions. -/
structure StorageEnv where
  config : ChainConfig
  validatorsPerSlot : UInt64
  codec : RecordCodec
  bc : EraChain
  sha256 : Bytes → Hash
  keccak256 : Bytes → Hash

/-- `storage` with its `ValidatorsCache`. -/
structure ValidatorStorage where
  allActive : GoMap UInt64 (List Address)
  shuffled : GoMap UInt64 (List (List Address))
  shuffledSubnet : GoMap UInt64 (GoMap UInt64 (List (List Address)))
  processTransition : List UInt64

def newStorage : ValidatorStorage := ⟨∅, ∅, ∅, []⟩

def cacheCapacity : ℕ := 3

/-! ## Active validators -/

/-- `val.ActivationEra <= era && val.ExitEra > exit` -/
def Validator.activeBetween (v : Validator) (era exit : UInt64) : Bool :=
  v.activationEra ≤ era ∧ exit < v.exitEra

namespace StorageEnv

variable (env : StorageEnv)

/-- The records of the listed validators; an address without a readable record is skipped.
    Records are stored whole, so a read beyond the end is not told apart from other errors. -/
def listedValidators (stateDb : StateDB) : List Validator :=
  (getValidatorsList stateDb env.config.validatorsStateAddress).filterMap fun a =>
    (getValidator env.codec stateDb a).toOption

/-- The addresses of the validators that are active in an era. -/
def eraValidators (stateDb : StateDB) (era : UInt64) : List Address :=
  ((env.listedValidators stateDb).filter fun v => v.activeBetween era era).map (·.address)

/-- `bc.EpochToEra(bc.GetSlotInfo().SlotToEpoch(slot))` -/
def eraAt (slot : UInt64) : Except StorageError Era :=
  match env.config.slotToEpoch slot with
  | .error _ => .error .panic
  | .ok epoch =>
    match env.bc.epochToEra epoch with
    | none => .error .panic
    | some era => .ok era

/-- `GetValidators`; a wait for the end of an era transition ends with the timeout. -/
def getValidators (slot : UInt64) (s : ValidatorStorage) :
    Except StorageError (List Address) × ValidatorStorage :=
  match env.eraAt slot with
  | .error e => (.error e, s)
  | .ok slotEra =>
    if slotEra.number ∈ s.processTransition then (.error .transitionProcessing, s)
    else
      match s.allActive.lookup slotEra.number with
      | some validators => (.ok validators, s)
      | none =>
        match env.bc.stateAt slotEra with
        | none => (.error .panic, s)
        | some stateDb =>
          let eraValidators := env.eraValidators stateDb slotEra.number
          (.ok eraValidators,
            { s with
              allActive :=
                cacheAdd cacheCapacity maxUint64 s.allActive slotEra.number eraValidators })

/-- The part of `GetActiveValidatorsCount` after the era of the slot is found: the length of the
    cached list, or a count by a condition of its own. -/
def activeCount (slotEra : Era) (s : ValidatorStorage) : Except StorageError ℕ :=
  if slotEra.number ∈ s.processTransition then .error .transitionProcessing
  else
    match s.allActive.lookup slotEra.number with
    | some vals => .ok vals.length
    | none =>
      match env.bc.stateAt slotEra with
      | none => .error .panic
      | some stateDb =>
        .ok ((env.listedValidators stateDb).countP fun v =>
          v.activeBetween (slotEra.number + 1) slotEra.number)

/-- `GetActiveValidatorsCount` -/
def getActiveValidatorsCount (slot : UInt64) (s : ValidatorStorage) : Except StorageError ℕ :=
  (env.eraAt slot).bind fun slotEra => env.activeCount slotEra s

def addValidator (m : GoMap UInt64 (List Address)) (addr : Address) (era : UInt64) :
    GoMap UInt64 (List Address) :=
  m.insert era ((m.lookup era).getD [] ++ [addr])

def prepareNextEraValidators (era : Era) (s : ValidatorStorage) :
    Except StorageError Unit × ValidatorStorage :=
  match env.bc.stateAt era with
  | none => (.error .panic, { s with processTransition := era.number :: s.processTransition })
  | some stateDb =>
    (.ok (), { s with
      allActive := (env.eraValidators stateDb era.number).foldl
        (fun m addr => addValidator m addr era.number) s.allActive
      processTransition := s.processTransition.filter (· ≠ era.number) })

end StorageEnv

/-! ## Committees -/

/-- The loop of `breakByValidatorsBySlotCount`, for at most `n` more pieces.  If no validators are
    wanted for a slot, it ends with the last slot of the epoch. -/
def breakLoop {α : Type} (validators : List α) (validatorsPerSlot slotsPerEpoch : ℕ) :
    ℕ → ℕ → List (List α) → List (List α)
  | 0, _, chunks => chunks
  | n + 1, i, chunks =>
    if i + validatorsPerSlot ≤ validators.length then
      let chunks := chunks ++ [(validators.drop i).take validatorsPerSlot]
      if chunks.length = slotsPerEpoch then chunks
      else breakLoop validators validatorsPerSlot slotsPerEpoch n (i + validatorsPerSlot) chunks
    else chunks

def breakByValidatorsBySlotCount {α : Type} (validators : List α)
    (validatorsPerSlot slotsPerEpoch : ℕ) : List (List α) :=
  breakLoop validators validatorsPerSlot slotsPerEpoch (validators.length + slotsPerEpoch + 1) 0 []

namespace StorageEnv

variable (env : StorageEnv)

/-- `breakByValidatorsBySlotCount` with the configured numbers. -/
def breakBySlots (validators : List Address) : List (List Address) :=
  breakByValidatorsBySlotCount validators env.validatorsPerSlot.toNat
    env.config.slotsPerEpoch.toNat

/-- `for len(shuffledValidatorsBySlots) < SlotsPerEpoch`, for at most `n` more shuffles. -/
def fillEpoch (seed : Hash) :
    ℕ → List Address → List (List Address) → Except StorageError (List (List Address))
  | n, shuffled, bySlots =>
    if bySlots.length < env.config.slotsPerEpoch.toNat then
      match n with
      | 0 => .error .noTermination
      | n + 1 => do
        let shuffled ← shuffleValidators env.sha256 seed shuffled
        fillEpoch seed n shuffled (bySlots ++ env.breakBySlots shuffled)
    else .ok bySlots

/-- The committees of an epoch, from its active validators and its seed, with at most `fuel` more
    shuffles. -/
def committeesWithin (fuel : ℕ) (allValidators : List Address) (seed : Hash) :
    Except StorageError (List (List Address)) := do
  let shuffled ← shuffleValidators env.sha256 seed allValidators
  env.fillEpoch seed fuel shuffled (env.breakBySlots shuffled)

/-- A shuffle for each slot is enough. -/
def committees (allValidators : List Address) (seed : Hash) :
    Except StorageError (List (List Address)) :=
  env.committeesWithin env.config.slotsPerEpoch.toNat allValidators seed

/-- The epoch whose spine seeds the shuffle of `epoch`. -/
def spineEpoch (epoch : UInt64) : UInt64 := if 0 < epoch then epoch - 1 else 0

/-- `s.seed` -/
def seed (epoch : UInt64) (firstEpochBlockHash : Hash) : Hash :=
  env.keccak256 (firstEpochBlockHash.bytes ++ bytesLE 8 epoch.toNat)

end StorageEnv

/-- `getShuffledValidators`, with the epoch, the slot in the epoch and possibly the subnet. -/
def ValidatorStorage.getShuffledValidators (s : ValidatorStorage) :
    List UInt64 → Except StorageError (List Address)
  | [epoch, slot] =>
    match s.shuffled.lookup epoch with
    | none => .error .noEraValidators
    | some epochValidators =>
      match epochValidators[slot.toNat]? with
      | none => .error .panic
      | some validators => .ok validators
  | [epoch, slot, subnet] =>
    match s.shuffledSubnet.lookup epoch with
    | none => .error .noEraValidators
    | some epochValidators =>
      match epochValidators.lookup subnet with
      | none => .error .noSubnetValidators
      | some subnetValidators =>
        match subnetValidators[slot.toNat]? with
        | none => .error .panic
        | some validators => .ok validators
  | _ => .error .invalidValidatorsFilter

/-- `addShuffledValidators` of an epoch. -/
def ValidatorStorage.addShuffledValidators (s : ValidatorStorage)
    (shuffledValidators : List (List Address)) (epoch : UInt64) : ValidatorStorage :=
  { s with shuffled := cacheAdd cacheCapacity maxUint64 s.shuffled epoch shuffledValidators }

namespace StorageEnv

variable (env : StorageEnv)

/-- The part of `GetCreatorsBySlot` after a miss in the cache. -/
def shuffleCreators (fuel : ℕ) (slot slotEpoch : UInt64) (params : List UInt64)
    (s : ValidatorStorage) : Except StorageError (List Address) × ValidatorStorage :=
  match env.getValidators slot s with
  | (.error e, s) => (.error e, s)
  | (.ok allValidators, s) =>
    if allValidators = [] then (.ok [], s)
    else
      let epochSpine := env.bc.getEpoch (spineEpoch slotEpoch)
      if epochSpine = 0 then (.error .epochNotFound, s)
      else
        match env.committeesWithin fuel allValidators (env.seed slotEpoch epochSpine) with
        | .error e => (.error e, s)
        | .ok bySlots =>
          let s := s.addShuffledValidators bySlots slotEpoch
          (s.getShuffledValidators params, s)

/-- `GetCreatorsBySlot`: the filter is a slot and possibly a subnet.  At most `fuel` rounds are made
    of the loop that fills an epoch. -/
def getCreatorsWithin (fuel : ℕ) (filter : List UInt64) (s : ValidatorStorage) :
    Except StorageError (List Address) × ValidatorStorage :=
  if 2 < filter.length then (.error .invalidValidatorsFilter, s)
  else
    match filter with
    | [] => (.error .panic, s)
    | slot :: subnet =>
      match env.config.slotToEpoch slot with
      | .error _ => (.error .panic, s)
      | .ok slotEpoch =>
        let params := slotEpoch :: (slot % env.config.slotsPerEpoch) :: subnet
        match s.getShuffledValidators params with
        | .ok validators => (.ok validators, s)
        | .error .invalidValidatorsFilter => (.error .invalidValidatorsFilter, s)
        | .error .panic => (.error .panic, s)
        | .error _ => env.shuffleCreators fuel slot slotEpoch params s

/-- `GetCreatorsBySlot` with a round for each slot. -/
def getCreatorsBySlot (filter : List UInt64) (s : ValidatorStorage) :
    Except StorageError (List Address) × ValidatorStorage :=
  env.getCreatorsWithin env.config.slotsPerEpoch.toNat filter s

end StorageEnv

end Gwat
