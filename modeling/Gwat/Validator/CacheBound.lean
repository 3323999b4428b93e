/-
  The size of the validators cache (`validator/storage/validators_cache.go`).
-/
import Gwat.Validator.Storage

namespace Gwat

open GoLib List

/-- The calls that add to the validators cache. -/
inductive CacheCall where
  | addAllActiveValidatorsByEra (era : UInt64) (validatorsList : List Address)
  | addValidator (addr : Address) (era : UInt64)
  | addShuffledValidators (shuffledValidators : List (List Address)) (filter : List UInt64)

namespace ValidatorStorage

variable {s : ValidatorStorage}

/-- `addShuffledValidators` of an epoch and a subnet. -/
def addShuffledSubnet (s : ValidatorStorage) (shuffledValidators : List (List Address))
    (epoch subnet : UInt64) : ValidatorStorage :=
  let room := cacheEvict cacheCapacity maxUint64 s.shuffledSubnet
  { s with
    shuffledSubnet :=
      room.insert epoch (((room.lookup epoch).getD ∅).insert subnet shuffledValidators) }

/-- The cache after a call. -/
def exec (s : ValidatorStorage) : CacheCall → ValidatorStorage
  | .addAllActiveValidatorsByEra era validatorsList =>
    { s with allActive := cacheAdd cacheCapacity maxUint64 s.allActive era validatorsList }
  | .addValidator addr era => { s with allActive := StorageEnv.addValidator s.allActive addr era }
  | .addShuffledValidators shuffledValidators [epoch] =>
    s.addShuffledValidators shuffledValidators epoch
  | .addShuffledValidators shuffledValidators [epoch, subnet] =>
    s.addShuffledSubnet shuffledValidators epoch subnet
  -- `ErrInvalidValidatorsFilter`
  | .addShuffledValidators _ _ => s

/-- No map of the cache has more keys than `cacheCapacity`. -/
structure Bounded (s : ValidatorStorage) : Prop where
  allActive : s.allActive.keys.length ≤ cacheCapacity
  shuffled : s.shuffled.keys.length ≤ cacheCapacity
  shuffledSubnet : s.shuffledSubnet.keys.length ≤ cacheCapacity

end ValidatorStorage

namespace CacheCall

/-- The cache `s'` holds what the call adds to the cache `s`. -/
def AddedTo (s s' : ValidatorStorage) : CacheCall → Prop
  | addAllActiveValidatorsByEra era validatorsList => s'.allActive.lookup era = some validatorsList
  | addValidator addr era =>
    s'.allActive.lookup era = some ((s.allActive.lookup era).getD [] ++ [addr])
  | addShuffledValidators shuffledValidators [epoch] =>
    s'.shuffled.lookup epoch = some shuffledValidators
  | addShuffledValidators shuffledValidators [epoch, subnet] =>
    ∃ m, s'.shuffledSubnet.lookup epoch = some m ∧ m.lookup subnet = some shuffledValidators
  | addShuffledValidators _ _ => s' = s

/-- A validator is added to an era that the cache holds, or the cache is not full. -/
def HasRoom (s : ValidatorStorage) : CacheCall → Prop
  | addValidator _ era => era ∈ s.allActive ∨ s.allActive.keys.length < cacheCapacity
  | _ => True

end CacheCall

namespace ValidatorStorage

variable {s : ValidatorStorage}

theorem lt_maxUint64 (e : UInt64) (h : e ≠ maxUint64) : e < maxUint64 := by
  have hlt := e.toNat_lt
  rw [← UInt64.toNat_inj.ne] at h
  rw [UInt64.lt_iff_toNat_lt]
  have hmax : maxUint64.toNat = 2 ^ 64 - 1 := rfl
  omega

theorem addedTo_exec (s : ValidatorStorage) (c : CacheCall) : c.AddedTo s (s.exec c) := by
  cases c with
  | addAllActiveValidatorsByEra era validatorsList => exact lookup_cacheAdd_self
  | addValidator addr era => exact AList.lookup_insert _
  | addShuffledValidators shuffledValidators filter =>
    rcases filter with _ | ⟨epoch, _ | ⟨subnet, _ | _⟩⟩
    · rfl
    · exact lookup_cacheAdd_self
    · exact ⟨_, AList.lookup_insert _, AList.lookup_insert _⟩
    · rfl

/-- A call keeps the bound, except for a validator of a new era in a full cache. -/
theorem Bounded.exec_iff (h : s.Bounded) (c : CacheCall) : (s.exec c).Bounded ↔ c.HasRoom s := by
  have hcap : 0 < cacheCapacity := by decide
  cases c with
  | addAllActiveValidatorsByEra era validatorsList =>
    exact iff_of_true
      { h with allActive := length_keys_evict_insert lt_maxUint64 hcap h.allActive } trivial
  | addValidator addr era =>
    have hlen := length_keys_insert s.allActive era ((s.allActive.lookup era).getD [] ++ [addr])
    have hold := h.allActive
    constructor
    · intro h'
      have hnew := hlen.symm.trans_le h'.allActive
      split_ifs at hnew with hera
      · exact .inl hera
      · exact .inr hnew
    · intro hroom
      refine { h with allActive := hlen.trans_le ?_ }
      split_ifs with hera
      · exact hold
      · exact hroom.resolve_left hera
  | addShuffledValidators shuffledValidators filter =>
    rcases filter with _ | ⟨epoch, _ | ⟨subnet, _ | _⟩⟩
    · exact iff_of_true h trivial
    · exact iff_of_true
        { h with shuffled := length_keys_evict_insert lt_maxUint64 hcap h.shuffled } trivial
    · exact iff_of_true
        { h with shuffledSubnet := length_keys_evict_insert lt_maxUint64 hcap h.shuffledSubnet }
        trivial
    · exact iff_of_true h trivial

def run (calls : List CacheCall) : ValidatorStorage := calls.foldl exec newStorage

theorem run_append_singleton (calls : List CacheCall) (c : CacheCall) :
    run (calls ++ [c]) = (run calls).exec c := by
  rw [run, foldl_append]
  rfl

/-- Along a sequence of calls the maps keep their bound, and hold what each call adds, exactly if
    no validator is added to a new era of a full cache. -/
theorem cache_bounded_iff (calls : List CacheCall) :
    (∀ done c, done ++ [c] <+: calls →
      (run (done ++ [c])).Bounded ∧ c.AddedTo (run done) (run (done ++ [c]))) ↔
    ∀ done c, done ++ [c] <+: calls → c.HasRoom (run done) := by
  have hnew : (run []).Bounded := ⟨by decide, by decide, by decide⟩
  constructor
  · intro h done c hpre
    have hdone : (run done).Bounded := by
      rcases eq_nil_or_concat' done with rfl | ⟨init, d, rfl⟩
      · exact hnew
      · exact (h init d ((prefix_append _ _).trans hpre)).1
    exact (hdone.exec_iff c).1 (run_append_singleton done c ▸ (h done c hpre).1)
  · intro h
    have hall : ∀ done, done <+: calls → (run done).Bounded := by
      intro done
      induction done using List.reverseRecOn with
      | nil => exact fun _ => hnew
      | append_singleton done c ih =>
        intro hpre
        rw [run_append_singleton]
        exact ((ih ((prefix_append _ _).trans hpre)).exec_iff c).2 (h done c hpre)
    intro done c hpre
    refine ⟨hall _ hpre, ?_⟩
    rw [run_append_singleton]
    exact addedTo_exec _ c

/-- Validators of four eras, added one by one, are all kept. -/
theorem cache_over_capacity :
    (run [.addValidator 1 0, .addValidator 1 1, .addValidator 1 2, .addValidator 1 3]).allActive.keys =
      [3, 2, 1, 0] ∧ cacheCapacity < [3, 2, 1, 0].length := by
  decide

end ValidatorStorage

end Gwat
