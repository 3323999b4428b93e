/-
  The number of active validators (`GetActiveValidatorsCount`) against the list of them
  (`GetValidators`).
-/
import Gwat.Validator.Committee

namespace Gwat

open GoLib List

variable {v : Validator} {era : UInt64}

/-- Of two conditions, one of which implies the other, both count the same only if they agree. -/
theorem countP_eq_countP_iff {α : Type} {p q : α → Bool} {l : List α}
    (h : ∀ x ∈ l, p x → q x) : l.countP p = l.countP q ↔ ∀ x ∈ l, q x → p x := by
  constructor
  · intro heq x hx hqx
    by_contra hpx
    -- `x` is counted by the second condition only
    have hlt : l.countP p < l.countP q := by
      obtain ⟨l₁, l₂, rfl⟩ := append_of_mem hx
      rw [countP_append, countP_append, countP_cons, countP_cons, if_neg hpx, if_pos hqx]
      have h₁ : l₁.countP p ≤ l₁.countP q :=
        countP_mono_left fun y hy => h y (mem_append_left _ hy)
      have h₂ : l₂.countP p ≤ l₂.countP q :=
        countP_mono_left fun y hy => h y (by simp [hy])
      omega
    omega
  · intro h'
    exact countP_congr fun x hx => ⟨h x hx, h' x hx⟩

/-- The first era of the validator is the one after `era`. -/
def Validator.startsAfter (v : Validator) (era : UInt64) : Prop :=
  v.activationEra = era + 1 ∧ era < v.exitEra

instance (v : Validator) (era : UInt64) : Decidable (v.startsAfter era) :=
  inferInstanceAs (Decidable (_ ∧ _))

theorem Validator.activeBetween_succ :
    v.activeBetween (era + 1) era = true ↔ v.activeBetween era era = true ∨ v.startsAfter era := by
  simp only [activeBetween, startsAfter, decide_eq_true_eq, UInt64.le_iff_toNat_le,
    UInt64.lt_iff_toNat_lt, ← UInt64.toNat_inj, UInt64.toNat_add]
  have := v.exitEra.toNat_lt
  have h1 : (1 : UInt64).toNat = 1 := rfl
  omega

theorem Validator.startsAfter.not_active (h : v.startsAfter era) :
    ¬ v.activeBetween era era = true := by
  obtain ⟨heq, hlt⟩ := h
  rw [UInt64.lt_iff_toNat_lt] at hlt
  simp only [activeBetween, heq, decide_eq_true_eq, UInt64.le_iff_toNat_le, UInt64.toNat_add]
  have := v.exitEra.toNat_lt
  have h1 : (1 : UInt64).toNat = 1 := rfl
  omega

namespace StorageEnv

variable {env : StorageEnv} {s : ValidatorStorage} {slot n : UInt64} {era : Era} {stateDb : StateDB}

/-- No listed validator starts in the era after that of the slot. -/
def NoneStartsNext (env : StorageEnv) (stateDb : StateDB) (era : UInt64) : Prop :=
  ∀ v ∈ env.listedValidators stateDb, ¬ v.startsAfter era

theorem length_eq_countP_iff : (env.eraValidators stateDb n).length =
    (env.listedValidators stateDb).countP (fun v => v.activeBetween (n + 1) n) ↔
      env.NoneStartsNext stateDb n := by
  rw [eraValidators, length_map, ← countP_eq_length_filter,
    countP_eq_countP_iff fun v _ h => Validator.activeBetween_succ.2 (.inl h)]
  constructor
  · intro h v hv hnext
    exact hnext.not_active (h v hv (Validator.activeBetween_succ.2 (.inr hnext)))
  · intro h v hv hact
    exact (Validator.activeBetween_succ.1 hact).resolve_right (h v hv)

theorem getValidators_of_miss (hera : env.eraAt slot = .ok era)
    (hidle : era.number ∉ s.processTransition) (hmiss : s.allActive.lookup era.number = none)
    (hst : env.bc.stateAt era = some stateDb) :
    (env.getValidators slot s).1 = .ok (env.eraValidators stateDb era.number) := by
  simp [getValidators, hera, hidle, hmiss, hst]

theorem getActiveValidatorsCount_of_miss (hera : env.eraAt slot = .ok era)
    (hidle : era.number ∉ s.processTransition) (hmiss : s.allActive.lookup era.number = none)
    (hst : env.bc.stateAt era = some stateDb) :
    env.getActiveValidatorsCount slot s = .ok ((env.listedValidators stateDb).countP
      fun v => v.activeBetween (era.number + 1) era.number) := by
  simp [getActiveValidatorsCount, activeCount, Except.bind, hera, hidle, hmiss, hst]

/-- The count of a slot is the length of the list `GetValidators` returns. -/
def CountAgrees (env : StorageEnv) (slot : UInt64) (s : ValidatorStorage) : Prop :=
  env.getActiveValidatorsCount slot s = (env.getValidators slot s).1.map List.length

/-- No validator starts in the next era, unless the era of the slot is cached (or the call fails
    before it reads the state). -/
def CountSafe (env : StorageEnv) (slot : UInt64) (s : ValidatorStorage) : Prop :=
  ∀ era stateDb, env.eraAt slot = .ok era → era.number ∉ s.processTransition →
    s.allActive.lookup era.number = none → env.bc.stateAt era = some stateDb →
      env.NoneStartsNext stateDb era.number

theorem countAgrees_iff : env.CountAgrees slot s ↔ env.CountSafe slot s := by
  by_cases hread : ∃ era stateDb, env.eraAt slot = .ok era ∧ era.number ∉ s.processTransition ∧
      s.allActive.lookup era.number = none ∧ env.bc.stateAt era = some stateDb
  · obtain ⟨era, stateDb, hera, hidle, hmiss, hst⟩ := hread
    rw [CountAgrees, getValidators_of_miss hera hidle hmiss hst,
      getActiveValidatorsCount_of_miss hera hidle hmiss hst, Except.map, Except.ok.injEq, eq_comm,
      length_eq_countP_iff]
    constructor
    · intro h era' stateDb' hera' _ _ hst'
      rw [hera, Except.ok.injEq] at hera'
      subst hera'
      rw [hst, Option.some.injEq] at hst'
      exact hst' ▸ h
    · exact fun h => h era stateDb hera hidle hmiss hst
  · -- both calls fail alike, or read the cache
    refine iff_of_true ?_ fun era stateDb hera hidle hmiss hst =>
      absurd ⟨era, stateDb, hera, hidle, hmiss, hst⟩ hread
    rw [CountAgrees, getValidators, getActiveValidatorsCount]
    cases hera : env.eraAt slot with
    | error e => rfl
    | ok era =>
      simp only [Except.bind, activeCount]
      by_cases hidle : era.number ∈ s.processTransition
      · simp only [hidle, if_true]
        rfl
      · simp only [hidle, if_false]
        cases hmiss : s.allActive.lookup era.number with
        | some l => rfl
        | none =>
          cases hst : env.bc.stateAt era with
          | none => rfl
          | some stateDb => exact absurd ⟨era, stateDb, hera, hidle, hmiss, hst⟩ hread

theorem getActiveValidatorsCount_of_cached (hera : env.eraAt slot = .ok era)
    (hidle : era.number ∉ s.processTransition) {l : List Address}
    (hl : s.allActive.lookup era.number = some l) :
    env.getActiveValidatorsCount slot s = .ok l.length := by
  simp [getActiveValidatorsCount, activeCount, Except.bind, hera, hidle, hl]

/-- After `GetValidators` the era of the slot is cached. -/
theorem getActiveValidatorsCount_after (hera : env.eraAt slot = .ok era)
    (hst : env.bc.stateAt era = some stateDb) :
    env.getActiveValidatorsCount slot (env.getValidators slot newStorage).2 =
      .ok (env.eraValidators stateDb era.number).length := by
  refine getActiveValidatorsCount_of_cached hera ?_ ?_
  all_goals simp only [getValidators, hera, hst]
  · exact not_mem_nil
  · exact lookup_cacheAdd_self

theorem Coherent.count_eq (h : env.Coherent s) (hsafe : env.CountSafe slot newStorage) :
    env.getActiveValidatorsCount slot s = env.getActiveValidatorsCount slot newStorage := by
  cases hera : env.eraAt slot with
  | error e => simp only [getActiveValidatorsCount, hera, Except.bind]
  | ok era =>
    have hidle : era.number ∉ s.processTransition := h.idle ▸ not_mem_nil
    cases hl : s.allActive.lookup era.number with
    | none =>
      have hnew : newStorage.allActive.lookup era.number = none := rfl
      have hidle' : era.number ∉ newStorage.processTransition := not_mem_nil
      simp [getActiveValidatorsCount, activeCount, Except.bind, hera, hidle, hidle', hl, hnew]
    | some l =>
      obtain ⟨epoch, -, he⟩ := eraAt_eq_ok hera
      have hact := h.active _ _ _ he hl
      obtain ⟨stateDb, hst, rfl⟩ : ∃ stateDb, env.bc.stateAt era = some stateDb ∧
          env.eraValidators stateDb era.number = l := by
        simpa [activeAt, he, Option.bind_eq_some_iff] using hact
      have hnone := hsafe era stateDb hera not_mem_nil rfl hst
      rw [getActiveValidatorsCount_of_cached hera hidle hl,
        getActiveValidatorsCount_of_miss hera not_mem_nil rfl hst,
        length_eq_countP_iff.2 hnone]

/-- The count is the length of the list exactly if the era is cached or no validator starts in
    the next era; and it is the same after all runs of calls that prepare only stored eras, and
    none whose validators are cached, exactly if no validator starts in the next era. -/
theorem count_agrees_iff (env : StorageEnv) (slot : UInt64) :
    (∀ s, env.CountAgrees slot s ↔ env.CountSafe slot s) ∧
    ((∀ calls, env.Orderly newStorage calls → env.PreparesStored calls →
      env.getActiveValidatorsCount slot (env.run calls) =
        env.getActiveValidatorsCount slot newStorage) ↔ env.CountSafe slot newStorage) := by
  refine ⟨fun s => countAgrees_iff, ?_, fun hsafe calls hord hstored =>
    (coherent_newStorage.run hord hstored).count_eq hsafe⟩
  intro hsame era stateDb hera _ _ hst
  have hcount := hsame [.getValidators slot] ⟨trivial, trivial⟩ fun era h => by simp at h
  rw [run, foldl_cons, foldl_nil, exec, getActiveValidatorsCount_after hera hst,
    getActiveValidatorsCount_of_miss hera not_mem_nil rfl hst, Except.ok.injEq] at hcount
  exact length_eq_countP_iff.1 hcount

/-- The environment of a validator that starts in era 1, in era 0. -/
def startingEnv : StorageEnv := twoSlotEnv 100 (listedState [activeFrom 1 1])

/-- In era 0 the list is empty and the count is 1; once the list is cached, the count is 0. -/
theorem count_disagrees :
    (startingEnv.getValidators 0 newStorage).1 = .ok [] ∧
    startingEnv.getActiveValidatorsCount 0 newStorage = .ok 1 ∧
    startingEnv.getActiveValidatorsCount 0 (startingEnv.getValidators 0 newStorage).2 = .ok 0 := by
  decide +kernel

end StorageEnv

end Gwat
