/-
  The committees of an epoch (`GetCreatorsBySlot`).
-/
import Gwat.Validator.Storage
import Gwat.Validator.ValidatorList

namespace Gwat

open GoLib List

/-! ## Cutting and filling -/

section
variable {α : Type} {validators : List α} {vps spe q m : ℕ}

/-- From `c` pieces on, the loop cuts the remaining ones. -/
theorem breakLoop_eq (hv : 0 < vps) : ∀ {n c : ℕ}, c < spe → c ≤ validators.length / vps →
    validators.length / vps < c + n →
      breakLoop validators vps spe n (c * vps) ((List.range c).map (chunk vps validators)) =
        (List.range (min (validators.length / vps) spe)).map (chunk vps validators)
  | 0, c, _, hle, hlt => by omega
  | n + 1, c, hc, hle, hlt => by
    have hfits : c * vps + vps ≤ validators.length ↔ c + 1 ≤ validators.length / vps := by
      rw [Nat.le_div_iff_mul_le hv, Nat.add_mul, Nat.one_mul]
    have hsnoc : (List.range c).map (chunk vps validators) ++
        [(validators.drop (c * vps)).take vps] =
          (List.range (c + 1)).map (chunk vps validators) := by
      simp [range_succ, chunk]
    rw [breakLoop]
    simp only [hsnoc, hfits, length_map, length_range]
    split_ifs with hmore hfull
    · rw [min_eq_right (by omega), hfull]
    · have hstep : c * vps + vps = (c + 1) * vps := by rw [Nat.add_mul, Nat.one_mul]
      rw [hstep]
      exact breakLoop_eq hv (by omega) hmore (by omega)
    · rw [min_eq_left (by omega), show validators.length / vps = c by omega]

/-- The list is cut into its full pieces, at most one for each slot. -/
theorem breakByValidatorsBySlotCount_eq (hv : 0 < vps) (hs : 0 < spe) :
    breakByValidatorsBySlotCount validators vps spe =
      (List.range (min (validators.length / vps) spe)).map (chunk vps validators) := by
  have hdiv : validators.length / vps ≤ validators.length := Nat.div_le_self _ _
  have := @breakLoop_eq α validators vps spe hv (validators.length + spe + 1) 0 hs (Nat.zero_le _)
    (by omega)
  simpa [breakByValidatorsBySlotCount] using this

/-- Committee `t` is piece `t % q` of pass `t / q`, where each pass has `q` pieces. -/
def passPiece (vps q : ℕ) (order : ℕ → List α) (t : ℕ) : List α :=
  chunk vps (order (t / q)) (t % q)

theorem passPiece_snoc (hq : 0 < q) (order : ℕ → List α) (l : List α) :
    (List.range (m * q)).map (passPiece vps q order) ++ (List.range q).map (chunk vps l) =
      (List.range ((m + 1) * q)).map (passPiece vps q fun k => if k < m then order k else l) := by
  rw [Nat.add_mul, Nat.one_mul, range_add, map_append, map_map]
  congr 1
  · refine map_congr_left fun t ht => ?_
    have hlt : t / q < m := Nat.div_lt_of_lt_mul (by rw [Nat.mul_comm]; exact mem_range.1 ht)
    simp [passPiece, hlt]
  · refine map_congr_left fun t ht => ?_
    have ht := mem_range.1 ht
    have hdiv : (m * q + t) / q = m := by
      rw [Nat.mul_comm, Nat.mul_add_div hq, Nat.div_eq_of_lt ht, Nat.add_zero]
    have hmod : (m * q + t) % q = t := by rw [Nat.mul_add_mod', Nat.mod_eq_of_lt ht]
    simp [passPiece, hdiv, hmod]

end

namespace StorageEnv

variable {env : StorageEnv} {all shuffled l' : List Address} {seed : Hash}
  {bySlots : List (List Address)}

/-- The number of committees cut out of one pass over the active validators. -/
def perPass (env : StorageEnv) (all : List Address) : ℕ :=
  all.length / env.validatorsPerSlot.toNat

/-- The committees are the pieces of rearrangements of the active list. -/
structure Passes (env : StorageEnv) (all : List Address) (order : ℕ → List Address)
    (bySlots : List (List Address)) : Prop where
  perm : ∀ k, (order k).Perm all
  eq : bySlots = (List.range bySlots.length).map
    (passPiece env.validatorsPerSlot.toNat (env.perPass all) order)

theorem fillEpoch_of_le {n : ℕ} (h : env.config.slotsPerEpoch.toNat ≤ bySlots.length) :
    env.fillEpoch seed n shuffled bySlots = .ok bySlots := by
  cases n <;> rw [fillEpoch, if_neg (by omega)]

/-- Filling an epoch ends, with a committee for every slot. -/
theorem fillEpoch_spec (hv : 0 < env.validatorsPerSlot.toNat) (hq : 0 < env.perPass all)
    (hlt : env.perPass all < env.config.slotsPerEpoch.toNat)
    (hmax : all.length ≤ maxShuffleListSize) :
    ∀ {n m : ℕ} {order : ℕ → List Address} {shuffled : List Address}
      {bySlots : List (List Address)}, shuffled.Perm all → env.Passes all order bySlots →
      bySlots.length = m * env.perPass all → env.config.slotsPerEpoch.toNat ≤ bySlots.length + n →
        ∃ order' bySlots', env.fillEpoch seed n shuffled bySlots = .ok bySlots' ∧
          env.Passes all order' bySlots' ∧ env.config.slotsPerEpoch.toNat ≤ bySlots'.length := by
  intro n
  induction n with
  | zero =>
    intro m order shuffled bySlots hperm hpass hlen hfuel
    exact ⟨order, bySlots, fillEpoch_of_le (by omega), hpass, by omega⟩
  | succ n ih =>
    intro m order shuffled bySlots hperm hpass hlen hfuel
    rw [fillEpoch]
    split_ifs with hmore
    · obtain ⟨l, hl, hlp⟩ := @innerShuffleList_perm Address env.sha256 seed shuffled false
        (hperm.length_eq ▸ hmax)
      have hall : l.Perm all := hlp.trans hperm
      have hbreak : env.breakBySlots l =
          (List.range (env.perPass all)).map (chunk env.validatorsPerSlot.toNat l) := by
        rw [breakBySlots, breakByValidatorsBySlotCount_eq hv (by omega), hall.length_eq]
        exact congrArg (fun k => (List.range k).map _) (min_eq_left hlt.le)
      have happend : bySlots ++ env.breakBySlots l = (List.range ((m + 1) * env.perPass all)).map
            (passPiece env.validatorsPerSlot.toNat (env.perPass all)
              fun k => if k < m then order k else l) := by
        rw [hbreak, ← passPiece_snoc hq, ← hlen, ← hpass.eq]
      have hlen' : (bySlots ++ env.breakBySlots l).length = (m + 1) * env.perPass all := by
        rw [happend, length_map, length_range]
      have hgrow : (m + 1) * env.perPass all = m * env.perPass all + env.perPass all := by
        rw [Nat.add_mul, Nat.one_mul]
      obtain ⟨order', bySlots', hfill, hpass', hdone⟩ :=
        @ih (m + 1) (fun k => if k < m then order k else l) l _ hall
          ⟨fun k => by split_ifs; exacts [hpass.perm k, hall], by rw [hlen']; exact happend⟩
          hlen' (by omega)
      refine ⟨order', bySlots', ?_, hpass', hdone⟩
      simp only [shuffleValidators, hl, ok_bind]
      exact hfill
    · exact ⟨order, bySlots, rfl, hpass, by omega⟩

theorem committees_spec (hv : 0 < env.validatorsPerSlot.toNat)
    (hs : 0 < env.config.slotsPerEpoch.toNat)
    (hn : env.validatorsPerSlot.toNat ≤ all.length) (hmax : all.length ≤ maxShuffleListSize) :
    ∃ order bySlots, env.committees all seed = .ok bySlots ∧ env.Passes all order bySlots ∧
      env.config.slotsPerEpoch.toNat ≤ bySlots.length := by
  have hq : 0 < env.perPass all := Nat.div_pos hn hv
  obtain ⟨l, hl, hlp⟩ := @innerShuffleList_perm Address env.sha256 seed all false hmax
  have hbreak : env.breakBySlots l =
      (List.range (min (env.perPass all) env.config.slotsPerEpoch.toNat)).map
        (chunk env.validatorsPerSlot.toNat l) := by
    rw [breakBySlots, breakByValidatorsBySlotCount_eq hv hs, hlp.length_eq]
    rfl
  -- the first pass, where committee `t` is piece `t`
  have hpass : env.Passes all (fun _ => l) (env.breakBySlots l) := by
    refine ⟨fun _ => hlp, ?_⟩
    rw [hbreak, length_map, length_range]
    refine map_congr_left fun t ht => ?_
    have ht := mem_range.1 ht
    rw [passPiece, Nat.mod_eq_of_lt (by omega)]
  have hlen : (env.breakBySlots l).length =
      min (env.perPass all) env.config.slotsPerEpoch.toNat := by
    rw [hbreak, length_map, length_range]
  rcases Nat.lt_or_ge (env.perPass all) env.config.slotsPerEpoch.toNat with hlt | hge
  · obtain ⟨order, bySlots, hfill, hp, hdone⟩ := @fillEpoch_spec env all seed hv hq hlt hmax
      env.config.slotsPerEpoch.toNat 1 _ _ _ hlp hpass (by omega) (by omega)
    refine ⟨order, bySlots, ?_, hp, hdone⟩
    rw [committees, committeesWithin, shuffleValidators, hl, ok_bind]
    exact hfill
  · refine ⟨fun _ => l, env.breakBySlots l, ?_, hpass, by omega⟩
    rw [committees, committeesWithin, shuffleValidators, hl, ok_bind]
    exact fillEpoch_of_le (by omega)

/-! ## What the caches hold -/

/-- The active validators in an epoch, as the chain has them. -/
def activeAt (env : StorageEnv) (epoch : UInt64) : Option (List Address) := do
  let era ← env.bc.epochToEra epoch
  let stateDb ← env.bc.stateAt era
  return env.eraValidators stateDb era.number

/-- The seed of an epoch, from the spine of the epoch before. -/
def seedAt (env : StorageEnv) (epoch : UInt64) : Hash :=
  env.seed epoch (env.bc.getEpoch (spineEpoch epoch))

/-- The caches hold what would be computed from the chain, and no transition is going on. -/
structure Coherent (env : StorageEnv) (s : ValidatorStorage) : Prop where
  active : ∀ epoch era l, env.bc.epochToEra epoch = some era →
    s.allActive.lookup era.number = some l → env.activeAt epoch = some l
  shuffled : ∀ epoch bySlots, s.shuffled.lookup epoch = some bySlots →
    ∃ all, env.activeAt epoch = some all ∧ env.committees all (env.seedAt epoch) = .ok bySlots
  idle : s.processTransition = []

variable {s s' : ValidatorStorage} {slot epoch n : UInt64}
variable {era : Era} {stateDb : StateDB} {m : GoMap UInt64 (List Address)} {l : List Address}
  {a : Address}

theorem coherent_newStorage : env.Coherent newStorage where
  active _ _ _ _ h := by cases h
  shuffled _ _ h := by cases h
  idle := rfl

theorem activeAt_eq_some (he : env.bc.epochToEra epoch = some era)
    (hs : env.bc.stateAt era = some stateDb) :
    env.activeAt epoch = some (env.eraValidators stateDb era.number) := by
  simp [activeAt, he, hs]

theorem eraAt_eq_ok (h : env.eraAt slot = .ok era) :
    ∃ epoch, env.config.slotToEpoch slot = .ok epoch ∧ env.bc.epochToEra epoch = some era := by
  unfold eraAt at h
  grind

/-- The active list of an era may be cached. -/
theorem Coherent.addActive (h : env.Coherent s) (hl : env.activeAt epoch = some l)
    (he : env.bc.epochToEra epoch = some era)
    (hm : ∀ n l', m.lookup n = some l' → n = era.number ∧ l' = l ∨ s.allActive.lookup n = some l') :
    env.Coherent { s with allActive := m } where
  active epoch' era' l' he' hl' := by
    rcases hm _ _ hl' with ⟨hn, rfl⟩ | hold
    · obtain rfl := env.bc.unique _ _ _ _ he' he hn
      rw [← hl, activeAt, activeAt, he, he']
    · exact h.active _ _ _ he' hold
  shuffled := h.shuffled
  idle := h.idle

/-- `GetValidators` keeps the caches coherent and does not touch the committees. -/
theorem Coherent.getValidators (h : env.Coherent s) (slot : UInt64) :
    env.Coherent (env.getValidators slot s).2 := by
  rw [StorageEnv.getValidators]
  cases hera : env.eraAt slot with
  | error e => exact h
  | ok era =>
    obtain ⟨epoch, -, he⟩ := eraAt_eq_ok hera
    dsimp only
    repeat' split
    case h_2 stateDb hst =>
      exact h.addActive (activeAt_eq_some he hst) he fun n l' hl' => lookup_cacheAdd hl'
    all_goals exact h

/-- `GetValidators` returns the active validators of the chain, cached or not. -/
theorem Coherent.getValidators_eq (h : env.Coherent s) (hep : env.config.slotToEpoch slot = .ok epoch)
    (hall : env.activeAt epoch = some all) : (env.getValidators slot s).1 = .ok all := by
  obtain ⟨era, he, stateDb, hst, hl⟩ : ∃ era, env.bc.epochToEra epoch = some era ∧
      ∃ stateDb, env.bc.stateAt era = some stateDb ∧
        env.eraValidators stateDb era.number = all := by
    simpa [activeAt, Option.bind_eq_some_iff] using hall
  have hera : env.eraAt slot = .ok era := by simp only [eraAt, hep, he]
  rw [StorageEnv.getValidators]
  simp only [hera, h.idle, not_mem_nil, if_false]
  cases hc : s.allActive.lookup era.number with
  | some l =>
    have := h.active _ _ _ he hc
    rw [hall, Option.some.injEq] at this
    exact congrArg Except.ok this.symm
  | none => simp only [hst, hl]

theorem Coherent.addShuffledValidators (h : env.Coherent s) (hall : env.activeAt epoch = some all)
    (hc : env.committees all (env.seedAt epoch) = .ok bySlots) :
    env.Coherent (s.addShuffledValidators bySlots epoch) where
  active := h.active
  shuffled epoch' bySlots' hl := by
    rcases lookup_cacheAdd hl with ⟨rfl, rfl⟩ | hold
    · exact ⟨all, hall, hc⟩
    · exact h.shuffled _ _ hold
  idle := h.idle

/-- A successful `GetValidators` returned the active validators of the chain. -/
theorem Coherent.activeAt_of_getValidators (h : env.Coherent s)
    (hep : env.config.slotToEpoch slot = .ok epoch)
    (hg : env.getValidators slot s = (.ok all, s')) : env.activeAt epoch = some all := by
  cases hact : env.activeAt epoch with
  | some l => simpa [hg, eq_comm] using h.getValidators_eq hep hact
  | none =>
    -- without a state of the era nothing is cached for it, and the call fails
    rw [StorageEnv.getValidators] at hg
    split at hg
    · cases hg
    · next era hera =>
      obtain ⟨epoch', hep', he⟩ := eraAt_eq_ok hera
      cases hep.symm.trans hep'
      simp only [h.idle, not_mem_nil, if_false] at hg
      repeat' split at hg
      case h_1 l hl => cases hact.symm.trans (h.active _ _ _ he hl)
      case h_2 stateDb hst => cases hact.symm.trans (activeAt_eq_some he hst)
      cases hg

theorem Coherent.shuffleCreators (h : env.Coherent s) (hep : env.config.slotToEpoch slot = .ok epoch)
    (params : List UInt64) : env.Coherent
      (env.shuffleCreators env.config.slotsPerEpoch.toNat slot epoch params s).2 := by
  have hkeep := h.getValidators slot
  rw [StorageEnv.shuffleCreators]
  split
  · next hg => rw [hg] at hkeep; exact hkeep
  · next allValidators s₁ hg =>
    rw [hg] at hkeep
    dsimp only
    repeat' split
    case h_2 bySlots hc =>
      exact hkeep.addShuffledValidators (h.activeAt_of_getValidators hep hg) hc
    all_goals exact hkeep

theorem Coherent.getCreatorsBySlot (h : env.Coherent s) (filter : List UInt64) :
    env.Coherent (env.getCreatorsBySlot filter s).2 := by
  rw [StorageEnv.getCreatorsBySlot, getCreatorsWithin.eq_def]
  repeat' split
  case h_2 slot subnet epoch hep =>
    dsimp only
    split <;> first | exact h | exact h.shuffleCreators hep _
  all_goals exact h

/-- The validators of an era are appended to its list. -/
theorem lookup_foldl_add (l : List Address) (m : GoMap UInt64 (List Address)) (era n : UInt64) :
    (l.foldl (fun m addr => addValidator m addr era) m).lookup n =
      if n = era ∧ l ≠ [] then some ((m.lookup era).getD [] ++ l) else m.lookup n := by
  induction l using List.reverseRecOn with
  | nil => simp
  | append_singleton l a ih =>
    rw [foldl_append, foldl_cons, foldl_nil, addValidator]
    rcases eq_or_ne n era with rfl | hn
    · by_cases hl : l = [] <;> simp [ih, hl]
    · simp [AList.lookup_insert_ne hn, ih, hn]

/-! ## Runs of the storage -/

/-- The calls that change the caches. -/
inductive StorageCall where
  | getValidators (slot : UInt64)
  | getCreatorsBySlot (filter : List UInt64)
  | prepareNextEraValidators (era : Era)

/-- The storage after a call. -/
def exec (env : StorageEnv) (s : ValidatorStorage) : StorageCall → ValidatorStorage
  | .getValidators slot => (env.getValidators slot s).2
  | .getCreatorsBySlot filter => (env.getCreatorsBySlot filter s).2
  | .prepareNextEraValidators era => (env.prepareNextEraValidators era s).2

/-- The storage after a sequence of calls on a new one. -/
def run (env : StorageEnv) (calls : List StorageCall) : ValidatorStorage :=
  calls.foldl env.exec newStorage

/-- A call does not prepare an era that has validators and is cached already. -/
def PreparesOnce (env : StorageEnv) (s : ValidatorStorage) : StorageCall → Prop
  | .prepareNextEraValidators era => s.allActive.lookup era.number = none ∨
      ∀ stateDb, env.bc.stateAt era = some stateDb → env.eraValidators stateDb era.number = []
  | _ => True

/-- Each call of a run prepares an era at most once. -/
def Orderly (env : StorageEnv) : ValidatorStorage → List StorageCall → Prop
  | _, [] => True
  | s, call :: calls => env.PreparesOnce s call ∧ env.Orderly (env.exec s call) calls

/-- The eras that a run prepares are stored, with their states. -/
def PreparesStored (env : StorageEnv) (calls : List StorageCall) : Prop :=
  ∀ era, .prepareNextEraValidators era ∈ calls → ∃ epoch stateDb,
    env.bc.epochToEra epoch = some era ∧ env.bc.stateAt era = some stateDb

theorem Coherent.prepare (h : env.Coherent s) (he : env.bc.epochToEra epoch = some era)
    (hst : env.bc.stateAt era = some stateDb)
    (honce : env.PreparesOnce s (.prepareNextEraValidators era)) :
    env.Coherent (env.prepareNextEraValidators era s).2 := by
  have hadd : env.Coherent { s with
      allActive := (env.eraValidators stateDb era.number).foldl
        (fun m addr => addValidator m addr era.number) s.allActive } := by
    refine h.addActive (activeAt_eq_some he hst) he fun n l' hl' => ?_
    rw [lookup_foldl_add] at hl'
    split_ifs at hl' with hn
    · have hmiss := honce.resolve_right fun hnil => hn.2 (hnil stateDb hst)
      rw [hmiss] at hl'
      exact .inl ⟨hn.1, (Option.some.inj hl').symm⟩
    · exact .inr hl'
  rw [prepareNextEraValidators, hst]
  simp only [h.idle, filter_nil]
  exact ⟨hadd.active, hadd.shuffled, rfl⟩

theorem Coherent.run {calls : List StorageCall} (h : env.Coherent s) (hord : env.Orderly s calls)
    (hstored : env.PreparesStored calls) : env.Coherent (calls.foldl env.exec s) := by
  induction calls generalizing s with
  | nil => exact h
  | cons call calls ih =>
    refine ih ?_ hord.2 fun era hmem => hstored era (mem_cons_of_mem _ hmem)
    cases call with
    | getValidators slot => exact h.getValidators slot
    | getCreatorsBySlot filter => exact h.getCreatorsBySlot filter
    | prepareNextEraValidators era =>
      obtain ⟨epoch, stateDb, he, hst⟩ := hstored era mem_cons_self
      exact h.prepare he hst hord.1

/-! ## The committee of a slot -/

/-- The committee of a slot among those of its epoch. -/
def committeeOf (bySlots : List (List Address)) (slot : ℕ) : Except StorageError (List Address) :=
  match bySlots[slot]? with
  | none => .error .panic
  | some validators => .ok validators

theorem Coherent.getCreatorsBySlot_eq (h : env.Coherent s)
    (hep : env.config.slotToEpoch slot = .ok epoch) (hall : env.activeAt epoch = some all)
    (hne : all ≠ []) (hspine : env.bc.getEpoch (spineEpoch epoch) ≠ 0) :
    (env.getCreatorsBySlot [slot] s).1 = (env.committees all (env.seedAt epoch)).bind
      fun bySlots => committeeOf bySlots (slot % env.config.slotsPerEpoch).toNat := by
  rw [StorageEnv.getCreatorsBySlot, getCreatorsWithin]
  simp only [length_cons, length_nil, hep]
  simp only [ValidatorStorage.getShuffledValidators]
  cases hcached : s.shuffled.lookup epoch with
  | some bySlots =>
    obtain ⟨all', hall', hc⟩ := h.shuffled _ _ hcached
    cases hall.symm.trans hall'
    rw [hc]
    simp only [Except.bind, committeeOf]
    cases bySlots[(slot % env.config.slotsPerEpoch).toNat]? <;> rfl
  | none =>
    obtain ⟨s₁, hg⟩ : ∃ s₁, env.getValidators slot s = (.ok all, s₁) :=
      ⟨_, Prod.ext (h.getValidators_eq hep hall) rfl⟩
    rw [StorageEnv.shuffleCreators, hg, seedAt]
    simp only [hne, hspine, if_false, committees]
    cases env.committeesWithin _ all (env.seed epoch (env.bc.getEpoch (spineEpoch epoch))) with
    | error e => rfl
    | ok bySlots =>
      simp only [ValidatorStorage.getShuffledValidators, ValidatorStorage.addShuffledValidators,
        lookup_cacheAdd_self]
      rfl

/-- Committees of the configured size, of distinct active validators, and without a validator in
    two committees of one pass. -/
structure WellFormed (env : StorageEnv) (all : List Address) (f : ℕ → List Address) : Prop where
  length : ∀ t < env.config.slotsPerEpoch.toNat, (f t).length = env.validatorsPerSlot.toNat
  nodup : ∀ t < env.config.slotsPerEpoch.toNat, (f t).Nodup
  active : ∀ t < env.config.slotsPerEpoch.toNat, f t ⊆ all
  disjoint : ∀ t < env.config.slotsPerEpoch.toNat, ∀ t' < env.config.slotsPerEpoch.toNat, t ≠ t' →
    t / env.perPass all = t' / env.perPass all → (f t).Disjoint (f t')

theorem wellFormed_passPiece {order : ℕ → List Address} (hperm : ∀ k, (order k).Perm all)
    (hnd : all.Nodup) (hq : 0 < env.perPass all) :
    env.WellFormed all (passPiece env.validatorsPerSlot.toNat (env.perPass all) order) where
  length t _ := by
    refine length_chunk ?_
    have hlt : t % env.perPass all < env.perPass all := Nat.mod_lt _ hq
    calc (t % env.perPass all + 1) * env.validatorsPerSlot.toNat
        ≤ env.perPass all * env.validatorsPerSlot.toNat := Nat.mul_le_mul_right _ hlt
      _ ≤ all.length := Nat.div_mul_le_self _ _
      _ = (order (t / env.perPass all)).length := (hperm _).length_eq.symm
  nodup t _ := chunk_nodup ((hperm _).nodup_iff.2 hnd)
  active t _ := fun x hx => (hperm _).subset (chunk_subset hx)
  disjoint t _ t' _ hne hpass := by
    rw [passPiece, passPiece, hpass]
    refine chunk_disjoint ((hperm _).nodup_iff.2 hnd) fun hmod => hne ?_
    rw [← Nat.div_add_mod t (env.perPass all), ← Nat.div_add_mod t' (env.perPass all), hpass, hmod]

/-- After every run of calls that prepares only stored eras, and none whose validators are cached,
    `GetCreatorsBySlot` answers each slot of an epoch with the same committee, and these committees
    are well formed. -/
theorem creators_wellFormed (hv : 0 < env.validatorsPerSlot.toNat)
    (hs : 0 < env.config.slotsPerEpoch.toNat) (hall : env.activeAt epoch = some all)
    (hnd : all.Nodup) (hn : env.validatorsPerSlot.toNat ≤ all.length)
    (hmax : all.length ≤ maxShuffleListSize)
    (hspine : env.bc.getEpoch (spineEpoch epoch) ≠ 0) :
    ∃ f, env.WellFormed all f ∧ ∀ calls, env.Orderly newStorage calls → env.PreparesStored calls →
      ∀ slot, env.config.slotToEpoch slot = .ok epoch →
        (env.getCreatorsBySlot [slot] (env.run calls)).1 =
          .ok (f (slot % env.config.slotsPerEpoch).toNat) := by
  obtain ⟨order, bySlots, hc, hpass, hlen⟩ :=
    @committees_spec env all (env.seedAt epoch) hv hs hn hmax
  refine ⟨_, wellFormed_passPiece hpass.perm hnd (Nat.div_pos hn hv), ?_⟩
  intro calls hord hstored slot hep
  have hne : all ≠ [] := length_pos_iff.1 (by omega)
  have hlt : (slot % env.config.slotsPerEpoch).toNat < bySlots.length := by
    rw [UInt64.toNat_mod]
    exact (Nat.mod_lt _ hs).trans_le hlen
  have hpiece : bySlots[(slot % env.config.slotsPerEpoch).toNat]? =
      some (passPiece env.validatorsPerSlot.toNat (env.perPass all) order
        (slot % env.config.slotsPerEpoch).toNat) := by
    rw [hpass.eq, List.getElem?_map, List.getElem?_range hlt]
    rfl
  rw [run, (coherent_newStorage.run hord hstored).getCreatorsBySlot_eq hep hall hne hspine, hc]
  simp only [Except.bind, committeeOf, hpiece]

/-! ### Two validators -/

def twoValidators : StateDB := listedState [activeFrom 1 0, activeFrom 2 0]

/-- A configuration with two slots in an epoch and one validator in a slot, and one era. -/
def twoSlotEnv (valAddr : Address) (stateDb : StateDB) : StorageEnv where
  config := ⟨valAddr, 0, 0, 0, 0, 0, 2⟩
  validatorsPerSlot := 1
  codec := .binary
  bc := {
    epochToEra := fun _ => some ⟨0, 0, maxUint64⟩
    stateAt := fun _ => some stateDb
    getEpoch := fun _ => 1
    unique := by
      intro e e' era era' h h' _
      cases h
      cases h'
      rfl }
  sha256 _ := 0
  keccak256 _ := 0

def twoEnv : StorageEnv := twoSlotEnv 100 twoValidators

/-- The era of every epoch in the environment of the two validators. -/
def onlyEra : Era := ⟨0, 0, maxUint64⟩

/-- The two slots of an epoch are given to the two validators, also after the era was prepared and
    its first slot was asked for. -/
theorem creators_wellFormed_two :
    ∃ f, twoEnv.WellFormed [1, 2] f ∧ (twoEnv.getCreatorsBySlot [0] newStorage).1 = .ok (f 0) ∧
      (twoEnv.getCreatorsBySlot [1]
        (twoEnv.run [.prepareNextEraValidators onlyEra, .getCreatorsBySlot [0]])).1 = .ok (f 1) := by
  obtain ⟨f, hf, heq⟩ := @creators_wellFormed twoEnv [1, 2] 0 (by decide) (by decide)
    (by decide +kernel) (by decide) (by decide) (by decide) (by decide)
  have hempty : twoEnv.PreparesStored [] := fun era h => absurd h not_mem_nil
  have hstored : twoEnv.PreparesStored
      [.prepareNextEraValidators onlyEra, .getCreatorsBySlot [0]] := by
    intro era hmem
    simp only [mem_cons, StorageCall.prepareNextEraValidators.injEq, reduceCtorEq,
      not_mem_nil, or_false] at hmem
    exact ⟨0, twoValidators, hmem ▸ rfl, rfl⟩
  have hord : twoEnv.Orderly newStorage
      [.prepareNextEraValidators onlyEra, .getCreatorsBySlot [0]] :=
    ⟨.inl rfl, trivial, trivial⟩
  exact ⟨f, hf, heq [] trivial hempty 0 (by decide), heq _ hord hstored 1 (by decide)⟩

/-! ### More validators than the shuffle takes -/

def nthAddress (i : ℕ) : Address := Fin.ofNat _ (i + 1)

/-- One validator more than the bound of the shuffle. -/
def manyValidators : List Address := (List.range (maxShuffleListSize + 1)).map nthAddress

/-- A state with the records of all addresses, and these validators in the list at address 0. -/
def manyState : StateDB where
  accounts a := some
    { code :=
        if a = 0 then uint64BytesBE 0 ++ manyValidators.flatMap Address.bytes
        else (activeFrom a 0).code }
  refund := 0
  logs := []
  accessAddresses := []
  accessSlots := []

def manyEnv : StorageEnv := twoSlotEnv 0 manyState

theorem val_nthAddress {i : ℕ} (hi : i < maxShuffleListSize + 1) :
    Fin.val (nthAddress i) = i + 1 := by
  rw [maxShuffleListSize] at hi
  exact Nat.mod_eq_of_lt (by omega)

theorem manyValidators_ne_zero (ha : a ∈ manyValidators) : a ≠ 0 := by
  obtain ⟨i, hi, rfl⟩ := mem_map.1 ha
  intro h0
  cases h0 ▸ val_nthAddress (mem_range.1 hi)

theorem manyValidators_nodup : manyValidators.Nodup := by
  refine List.Nodup.map_on ?_ nodup_range
  intro i hi j hj h
  have hval := congrArg Fin.val h
  rw [val_nthAddress (mem_range.1 hi), val_nthAddress (mem_range.1 hj)] at hval
  omega

theorem length_manyValidators : manyValidators.length = maxShuffleListSize + 1 := by
  rw [manyValidators, length_map, length_range]

theorem getValidatorsList_manyState : getValidatorsList manyState 0 = manyValidators := by
  have hcode : manyState.getCode 0 = uint64BytesBE 0 ++ manyValidators.flatMap Address.bytes := rfl
  have hlen : (uint64BytesBE 0).length = 8 := length_bytesBE _ _
  rw [getValidatorsList, hcode, drop_left' hlen, addressesOfBytes_flatMap]
  exact filter_eq_self.2 fun a ha => by simpa using manyValidators_ne_zero ha

theorem getValidator_manyState (ha : a ≠ 0) :
    getValidator manyEnv.codec manyState a = .ok (activeFrom a 0) := by
  obtain ⟨bin, hbin⟩ := (activeFrom a 0).exists_marshalBinary (fun e he => absurd he not_mem_nil)
    (.inl rfl)
  have hcode : manyState.getCode a = bin := by
    rw [show manyState.getCode a = (activeFrom a 0).code from if_neg ha, Validator.code, hbin]
    rfl
  exact getValidator_of_marshalBinary hbin
    (Validator.fits_of_le (by simp [activeFrom, newValidator])
      (fun e he => absurd he not_mem_nil) (by simp [activeFrom, newValidator])
      (show (DelegatingStakeData.marshalBinary none).length < 2 ^ 32 by decide)) hcode

theorem activeAt_manyEnv : manyEnv.activeAt 0 = some manyValidators := by
  have hlisted : manyEnv.listedValidators manyState = manyValidators.map (activeFrom · 0) := by
    have hvalAddr : manyEnv.config.validatorsStateAddress = 0 := rfl
    rw [listedValidators, hvalAddr, getValidatorsList_manyState, ← filterMap_eq_map]
    refine filterMap_congr fun a ha => ?_
    rw [getValidator_manyState (manyValidators_ne_zero ha)]
    rfl
  rw [@activeAt_eq_some manyEnv 0 ⟨0, 0, maxUint64⟩ manyState rfl rfl, eraValidators, hlisted,
    filter_eq_self.2, map_map]
  · exact congrArg some (map_id _)
  · intro v hv
    obtain ⟨a, -, rfl⟩ := mem_map.1 hv
    rfl

/-- With more than 2^40 active validators the shuffle refuses the list, and no slot has a
    committee. -/
theorem creators_of_too_many :
    manyValidators.Nodup ∧ manyEnv.validatorsPerSlot.toNat ≤ manyValidators.length ∧
      manyEnv.activeAt 0 = some manyValidators ∧
      (manyEnv.getCreatorsBySlot [0] newStorage).1 = .error .listSizeOutOfBounds := by
  have hlen := length_manyValidators
  refine ⟨manyValidators_nodup, ?_, activeAt_manyEnv, ?_⟩
  · show 1 ≤ manyValidators.length
    omega
  · have hne : manyValidators ≠ [] := fun h => by simp [h] at hlen
    rw [coherent_newStorage.getCreatorsBySlot_eq (by decide) activeAt_manyEnv hne (by decide),
      committees, committeesWithin, shuffleValidators, innerShuffleList_of_gt (by omega)]
    rfl

end StorageEnv

end Gwat
