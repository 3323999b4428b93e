/-
  The cached active validators over runs of calls.
-/
import Gwat.Validator.CommitteeLoop

namespace Gwat

open GoLib List

namespace StorageEnv

variable {env : StorageEnv} {s : ValidatorStorage} {epoch epoch' : UInt64} {era era' : Era}

/-- Every list the cache holds for an era of the chain is the list of the validators that are
    active in the era's state, without repetitions. -/
def Sound (env : StorageEnv) (s : ValidatorStorage) : Prop :=
  ∀ epoch era l, env.bc.epochToEra epoch = some era → s.allActive.lookup era.number = some l →
    env.activeAt epoch = some l ∧ l.Nodup

/-- Every successful `GetValidators` returns the validators active in the state of its era. -/
def SameAnswers (env : StorageEnv) (s : ValidatorStorage) : Prop :=
  ∀ slot l, (env.getValidators slot s).1 = .ok l →
    ∃ epoch, env.config.slotToEpoch slot = .ok epoch ∧ env.activeAt epoch = some l

/-! ## What the calls leave in the cache -/

/-- `GetValidators` leaves the cache or adds the active validators of an era. -/
theorem getValidators_allActive (slot : UInt64) (s : ValidatorStorage) :
    (env.getValidators slot s).2.allActive = s.allActive ∨
      ∃ epoch era l, env.bc.epochToEra epoch = some era ∧ env.activeAt epoch = some l ∧
        (env.getValidators slot s).2.allActive =
          cacheAdd cacheCapacity maxUint64 s.allActive era.number l := by
  rw [StorageEnv.getValidators]
  split
  · exact .inl rfl
  · next era hera =>
    obtain ⟨epoch, -, he⟩ := eraAt_eq_ok hera
    split_ifs
    · exact .inl rfl
    · split
      · exact .inl rfl
      · split
        · exact .inl rfl
        · next stateDb hst =>
          exact .inr ⟨epoch, era, _, he, activeAt_eq_some he hst, rfl⟩

theorem activeAt_of_same (he : env.bc.epochToEra epoch = some era)
    (he' : env.bc.epochToEra epoch' = some era') (hn : era.number = era'.number) :
    env.activeAt epoch = env.activeAt epoch' := by
  obtain rfl := env.bc.unique _ _ _ _ he he' hn
  rw [activeAt, activeAt, he, he']

/-! ## One call -/

section
variable (hnodup : ∀ epoch l, env.activeAt epoch = some l → l.Nodup)
include hnodup

theorem Sound.cacheAdd (h : env.Sound s) {l : List Address}
    (he : env.bc.epochToEra epoch = some era) (hl : env.activeAt epoch = some l)
    {s' : ValidatorStorage}
    (hs' : s'.allActive = cacheAdd cacheCapacity maxUint64 s.allActive era.number l) :
    env.Sound s' := by
  intro epoch' era' l' he' hl'
  rw [hs'] at hl'
  rcases lookup_cacheAdd hl' with ⟨hn, rfl⟩ | hold
  · rw [activeAt_of_same he' he hn]
    exact ⟨hl, hnodup _ _ hl⟩
  · exact h epoch' era' l' he' hold

theorem Sound.getValidators (h : env.Sound s) (slot : UInt64) :
    env.Sound (env.getValidators slot s).2 := by
  rcases @getValidators_allActive env slot s with hs | ⟨epoch, era, l, he, hl, hs⟩
  · exact fun epoch era l he hl => h epoch era l he (hs ▸ hl)
  · exact h.cacheAdd hnodup he hl hs

/-- Preparing an era keeps the cache sound exactly if the era has no list there, or no
    validators. -/
theorem Sound.prepare_iff (h : env.Sound s) (he : env.bc.epochToEra epoch = some era) :
    env.Sound (env.prepareNextEraValidators era s).2 ↔
      env.PreparesOnce s (.prepareNextEraValidators era) := by
  rw [PreparesOnce, prepareNextEraValidators]
  cases hst : env.bc.stateAt era with
  | none => exact iff_of_true h (.inr fun _ h => by cases h)
  | some stateDb =>
    have hactive := activeAt_eq_some he hst
    simp only [Option.some.injEq, forall_eq']
    by_cases hnil : env.eraValidators stateDb era.number = []
    · refine iff_of_true (fun epoch' era' l' he' hl' => ?_) (.inr hnil)
      rw [hnil] at hl'
      exact h epoch' era' l' he' hl'
    · rw [or_iff_left hnil]
      constructor
      · -- a second list makes the cached one longer than that of the state
        intro hsound
        by_contra hcached
        obtain ⟨l, hl⟩ := Option.ne_none_iff_exists'.1 hcached
        have hold := (h epoch era l he hl).1
        have hlook := lookup_foldl_add (env.eraValidators stateDb era.number) s.allActive
          era.number era.number
        rw [if_pos ⟨rfl, hnil⟩, hl, Option.getD_some] at hlook
        have hnew := (hsound epoch era _ he hlook).1
        rw [hactive, Option.some.injEq] at hold hnew
        rw [← hold] at hnew
        exact hnil (append_right_eq_self.1 hnew.symm)
      · intro hfree epoch' era' l' he' hl'
        rw [lookup_foldl_add] at hl'
        split_ifs at hl' with hk
        · rw [hfree, Option.getD_none, nil_append, Option.some.injEq] at hl'
          rw [activeAt_of_same he' he hk.1, hactive, hl']
          exact ⟨rfl, hnodup _ _ (hl' ▸ hactive)⟩
        · exact h epoch' era' l' he' hl'

/-- A call keeps the cache sound unless it prepares a cached era. -/
theorem Sound.exec_iff (h : env.Sound s) (call : StorageCall)
    (hchain : ∀ era, call = .prepareNextEraValidators era →
      ∃ epoch, env.bc.epochToEra epoch = some era) :
    env.Sound (env.exec s call) ↔ env.PreparesOnce s call := by
  cases call with
  | getValidators slot => exact iff_of_true (h.getValidators hnodup slot) trivial
  | getCreatorsBySlot filter =>
    -- the active validators are cached by `GetValidators`, also where it is called for committees
    exact iff_of_true (getCreatorsWithin_keeps h (h.getValidators hnodup)
      (fun slot _ _ _ => h.getValidators hnodup slot) _ filter) trivial
  | prepareNextEraValidators era =>
    obtain ⟨epoch, he⟩ := hchain era rfl
    exact h.prepare_iff hnodup he

end

/-- Over a sound cache every answer is the list of the state. -/
theorem Sound.sameAnswers (h : env.Sound s) : env.SameAnswers s := by
  intro slot l hg
  rw [StorageEnv.getValidators] at hg
  split at hg
  · cases hg
  · next era hera =>
    obtain ⟨epoch, hep, he⟩ := eraAt_eq_ok hera
    split_ifs at hg
    split at hg
    · next l' hl' =>
      cases hg
      exact ⟨epoch, hep, (h epoch era _ he hl').1⟩
    · split at hg
      · cases hg
      · next stateDb hst =>
        cases hg
        exact ⟨epoch, hep, activeAt_eq_some he hst⟩

/-! ## Runs -/

theorem Sound.run_iff (hnodup : ∀ epoch l, env.activeAt epoch = some l → l.Nodup)
    (h : env.Sound s) {calls : List StorageCall}
    (hchain : ∀ era, .prepareNextEraValidators era ∈ calls →
      ∃ epoch, env.bc.epochToEra epoch = some era) :
    (∀ done, done <+: calls → env.Sound (done.foldl env.exec s)) ↔ env.Orderly s calls := by
  induction calls generalizing s with
  | nil =>
    refine iff_of_true (fun done hdone => ?_) trivial
    rw [prefix_nil.1 hdone]
    exact h
  | cons call calls ih =>
    have hstep := h.exec_iff hnodup call fun era heq => hchain era (heq ▸ mem_cons_self)
    have hrest : ∀ era, .prepareNextEraValidators era ∈ calls →
        ∃ epoch, env.bc.epochToEra epoch = some era := fun era hmem =>
      hchain era (mem_cons_of_mem _ hmem)
    rw [Orderly, ← hstep]
    constructor
    · intro hall
      have hnext : env.Sound (env.exec s call) := hall [call] (by simp)
      refine ⟨hnext, (ih hnext hrest).1 fun done hdone => ?_⟩
      exact hall (call :: done) (cons_prefix_cons.2 ⟨rfl, hdone⟩)
    · rintro ⟨hnext, hord⟩ done hdone
      cases done with
      | nil => exact h
      | cons c done =>
        obtain ⟨rfl, hrun⟩ := cons_prefix_cons.1 hdone
        exact (ih hnext hrest).2 hord done hrun

/-- Over eras whose states list no active validator twice, the cache holds the active sets of the
    states all along a run of calls, and every `GetValidators` returns the one of its era, exactly
    if the run prepares no era whose validators are cached already. -/
theorem cachedActive_iff (hnodup : ∀ epoch l, env.activeAt epoch = some l → l.Nodup)
    {calls : List StorageCall}
    (hchain : ∀ era, .prepareNextEraValidators era ∈ calls →
      ∃ epoch, env.bc.epochToEra epoch = some era) :
    (∀ done, done <+: calls → env.Sound (env.run done) ∧ env.SameAnswers (env.run done)) ↔
      env.Orderly newStorage calls := by
  have hnew : env.Sound newStorage := fun epoch era l _ hl => by cases hl
  rw [← hnew.run_iff hnodup hchain]
  constructor
  · exact fun h done hdone => (h done hdone).1
  · exact fun h done hdone => ⟨h done hdone, (h done hdone).sameAnswers⟩

/-! ### The two validators again -/

theorem activeAt_twoEnv (epoch : UInt64) : twoEnv.activeAt epoch = some [1, 2] := by
  have h : twoEnv.activeAt epoch = twoEnv.activeAt 0 := rfl
  rw [h]
  decide +kernel

/-- An era that is prepared once and then read. -/
theorem cachedActive_two :
    ((∀ epoch l, twoEnv.activeAt epoch = some l → l.Nodup) ∧
      ∀ era, .prepareNextEraValidators era ∈
          [StorageCall.prepareNextEraValidators onlyEra, .getValidators 0] →
        ∃ epoch, twoEnv.bc.epochToEra epoch = some era) ∧
    ((∀ done, done <+: [StorageCall.prepareNextEraValidators onlyEra, .getValidators 0] →
        twoEnv.Sound (twoEnv.run done) ∧ twoEnv.SameAnswers (twoEnv.run done)) ↔
      twoEnv.Orderly newStorage [.prepareNextEraValidators onlyEra, .getValidators 0]) := by
  have hnodup : ∀ epoch l, twoEnv.activeAt epoch = some l → l.Nodup := by
    intro epoch l hl
    rw [activeAt_twoEnv, Option.some.injEq] at hl
    subst hl
    decide
  have hchain : ∀ era, .prepareNextEraValidators era ∈
      [StorageCall.prepareNextEraValidators onlyEra, .getValidators 0] →
        ∃ epoch, twoEnv.bc.epochToEra epoch = some era := by
    intro era hmem
    simp only [mem_cons, StorageCall.prepareNextEraValidators.injEq, reduceCtorEq,
      not_mem_nil, or_false] at hmem
    exact ⟨0, hmem ▸ rfl⟩
  exact ⟨⟨hnodup, hchain⟩, cachedActive_iff hnodup hchain⟩

/-- An era that is read and then prepared has each of its validators twice. -/
theorem cachedActive_doubled :
    twoEnv.activeAt 0 = some [1, 2] ∧
      (twoEnv.run [.getValidators 0, .prepareNextEraValidators onlyEra]).allActive.lookup 0 =
        some [1, 2, 1, 2] ∧
      (twoEnv.getValidators 0 (twoEnv.run [.getValidators 0])).1 = .ok [1, 2] ∧
      (twoEnv.getValidators 0
        (twoEnv.run [.getValidators 0, .prepareNextEraValidators onlyEra])).1 =
          .ok [1, 2, 1, 2] := by
  decide +kernel

end StorageEnv

end Gwat
