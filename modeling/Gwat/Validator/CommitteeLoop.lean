/-
  Whether `GetCreatorsBySlot` comes to an end.
-/
import Gwat.Validator.Committee

namespace Gwat

open GoLib

/-! ## The configuration -/

inductive ConfigError where
  | noSecondsPerSlot
  | noSlotsPerEpoch
  | noEpochsPerEra
  | noValidatorsPerSlot
  | noEffectiveBalance
  deriving DecidableEq, Repr

/-- The fields of `ChainConfig` that `Validate` checks. -/
structure ConfigParams where
  secondsPerSlot : UInt64
  slotsPerEpoch : UInt64
  epochsPerEra : UInt64
  validatorsPerSlot : UInt64
  effectiveBalance : Option ℤ

/-- `ChainConfig.Validate` -/
def ConfigParams.validate (c : ConfigParams) : Except ConfigError Unit :=
  if c.secondsPerSlot = 0 then .error .noSecondsPerSlot
  else if c.slotsPerEpoch = 0 then .error .noSlotsPerEpoch
  else if c.epochsPerEra = 0 then .error .noEpochsPerEra
  else if c.validatorsPerSlot = 0 then .error .noValidatorsPerSlot
  else if c.effectiveBalance = none ∨ c.effectiveBalance = some 0 then .error .noEffectiveBalance
  else .ok ()

namespace StorageEnv

variable {env : StorageEnv} {s : ValidatorStorage} {slot epoch : UInt64} {seed : Hash}
  {all shuffled : List Address}
variable {n fuel : ℕ} {bySlots r : List (List Address)} {era : Era} {i : UInt64}
  {subnet params : List UInt64}

theorem length_of_fillEpoch (h : env.fillEpoch seed n shuffled bySlots = .ok r) :
    env.config.slotsPerEpoch.toNat ≤ r.length := by
  induction n generalizing shuffled bySlots with
  | zero =>
    rw [fillEpoch] at h
    split at h <;> cases h
    omega
  | succ n ih =>
    rw [fillEpoch] at h
    split at h
    · obtain ⟨l, -, hl⟩ := bind_eq_ok.1 h
      exact ih hl
    · cases h
      omega

theorem length_of_committeesWithin (h : env.committeesWithin n all seed = .ok r) :
    env.config.slotsPerEpoch.toNat ≤ r.length := by
  obtain ⟨l, -, hl⟩ := bind_eq_ok.1 h
  exact length_of_fillEpoch hl

/-- Every cached epoch has a committee for each slot, and nothing is cached for subnets. -/
structure Full (env : StorageEnv) (s : ValidatorStorage) : Prop where
  slots : ∀ epoch bySlots, s.shuffled.lookup epoch = some bySlots →
    env.config.slotsPerEpoch.toNat ≤ bySlots.length
  subnets : s.shuffledSubnet = ∅

/-- `GetValidators` does not touch the committees. -/
theorem getValidators_shuffled (slot : UInt64) (s : ValidatorStorage) :
    (env.getValidators slot s).2.shuffled = s.shuffled ∧
      (env.getValidators slot s).2.shuffledSubnet = s.shuffledSubnet := by
  rw [StorageEnv.getValidators]
  repeat' split
  all_goals exact ⟨rfl, rfl⟩

theorem Full.getValidators (h : env.Full s) (slot : UInt64) :
    env.Full (env.getValidators slot s).2 := by
  obtain ⟨h₁, h₂⟩ := @getValidators_shuffled env slot s
  exact ⟨fun epoch bySlots hl => h.slots epoch bySlots (h₁ ▸ hl), h₂.trans h.subnets⟩

theorem Full.addShuffledValidators (h : env.Full s)
    (hlen : env.config.slotsPerEpoch.toNat ≤ bySlots.length) (epoch : UInt64) :
    env.Full (s.addShuffledValidators bySlots epoch) where
  slots epoch' bySlots' hl := by
    rcases lookup_cacheAdd hl with ⟨-, rfl⟩ | hold
    · exact hlen
    · exact h.slots _ _ hold
  subnets := h.subnets

/-- A call of `GetCreatorsBySlot` leaves the caches, changes them by `GetValidators`, or stores
    the committees of an epoch besides. -/
theorem getCreatorsWithin_keeps {P : ValidatorStorage → Prop} (h : P s)
    (hget : ∀ slot, P (env.getValidators slot s).2)
    (hadd : ∀ slot epoch bySlots, env.config.slotsPerEpoch.toNat ≤ bySlots.length →
      P ((env.getValidators slot s).2.addShuffledValidators bySlots epoch))
    (fuel : ℕ) (filter : List UInt64) : P (env.getCreatorsWithin fuel filter s).2 := by
  have hshuffle : ∀ slot epoch params,
      P (env.shuffleCreators fuel slot epoch params s).2 := by
    intro slot epoch params
    have hget := hget slot
    have hadd := hadd slot epoch
    simp only [StorageEnv.shuffleCreators]
    generalize env.getValidators slot s = r at hget hadd
    repeat' split
    case h_2 bySlots hc => exact hadd bySlots (length_of_committeesWithin hc)
    all_goals exact hget
  rw [StorageEnv.getCreatorsWithin.eq_def]
  dsimp only
  repeat' split
  all_goals first | exact h | exact hshuffle _ _ _

theorem Full.exec (h : env.Full s) (call : StorageCall) : env.Full (env.exec s call) := by
  cases call with
  | getValidators slot => exact h.getValidators slot
  | getCreatorsBySlot filter =>
    exact getCreatorsWithin_keeps h h.getValidators
      (fun slot epoch _ hlen => (h.getValidators slot).addShuffledValidators hlen epoch) _ filter
  | prepareNextEraValidators era =>
    rw [StorageEnv.exec, StorageEnv.prepareNextEraValidators]
    split <;> exact ⟨h.slots, h.subnets⟩

end StorageEnv

end Gwat
