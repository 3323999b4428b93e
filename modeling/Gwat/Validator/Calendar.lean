/-
  The search for the era of an epoch (`EpochToEra`).
-/
import Gwat.Validator.Chain

namespace Gwat

open List Option

/-- The eras are numbered from `0`, are not empty, and tile the epochs from `0` on. -/
structure EraTiling (eras : List Era) : Prop where
  number : ∀ (i : ℕ) (e : Era), eras[i]? = some e → e.number.toNat = i
  nonempty : ∀ (i : ℕ) (e : Era), eras[i]? = some e → e.fromEpoch.toNat ≤ e.toEpoch.toNat
  start : ∀ e : Era, eras[0]? = some e → e.fromEpoch = 0
  contiguous : ∀ (i : ℕ) (e e' : Era), eras[i]? = some e → eras[i + 1]? = some e' →
    e'.fromEpoch.toNat = e.toEpoch.toNat + 1

/-- The eras tile the epochs, and their numbers can be halved without overflow. -/
structure EraTable (eras : List Era) : Prop extends EraTiling eras where
  short : eras.length < 2 ^ 63

theorem Era.isContainsEpoch_iff {e : Era} {epoch : UInt64} : e.isContainsEpoch epoch ↔
      e.fromEpoch.toNat ≤ epoch.toNat ∧ epoch.toNat ≤ e.toEpoch.toNat := by
  simp [Era.isContainsEpoch, UInt64.le_iff_toNat_le]

section
variable {eras : List Era} {epoch : UInt64} {e : Era} {n : ℕ} {low high number : UInt64}

theorem EraLookup.era?_eq_some {l : EraLookup} (h : l.era? = some e) : l = .found e := by
  cases l <;> cases h
  rfl

theorem lookupDown_of_contains (h : e.isContainsEpoch epoch) :
    lookupDown eras epoch n low high e = .found e := by
  cases n <;> rw [lookupDown, if_pos h]

theorem lookupUp_of_contains (h : e.isContainsEpoch epoch) :
    lookupUp eras epoch n number e = .found e := by
  cases n <;> rw [lookupUp, if_pos h]

end

namespace EraTable

variable {eras : List Era} {epoch : UInt64} (ht : EraTable eras)

include ht

variable {i k j : ℕ} {e e' cur : Era}

theorem to_lt_from (hij : i < j) (he : eras[i]? = some e) (he' : eras[j]? = some e') :
    e.toEpoch.toNat < e'.fromEpoch.toNat := by
  obtain ⟨k, rfl⟩ := Nat.exists_eq_add_of_lt hij
  induction k generalizing e' with
  | zero =>
    have := ht.contiguous i e e' he he'
    omega
  | succ k ih =>
    have hlt : i + (k + 1) < eras.length := by
      have := (List.getElem?_eq_some_iff.1 he').1
      omega
    have hm := getElem?_eq_getElem hlt
    have h₁ := ih (by omega) hm
    have h₂ := ht.nonempty _ _ hm
    have h₃ := ht.contiguous _ _ _ hm he'
    omega

theorem mono (hij : i ≤ j) (he : eras[i]? = some e) (he' : eras[j]? = some e') :
    e.fromEpoch.toNat ≤ e'.fromEpoch.toNat ∧ e.toEpoch.toNat ≤ e'.toEpoch.toNat := by
  rcases hij.lt_or_eq with hlt | rfl
  · have := ht.to_lt_from hlt he he'
    have := ht.nonempty _ _ he
    have := ht.nonempty _ _ he'
    omega
  · obtain rfl := Option.some.inj (he.symm.trans he')
    exact ⟨le_rfl, le_rfl⟩

/-- The era of an epoch comes before every era that starts after the epoch. -/
theorem index_lt_of_lt_from (he : eras[i]? = some e) (he' : eras[j]? = some e')
    (hc : e'.isContainsEpoch epoch) (hlt : epoch.toNat < e.fromEpoch.toNat) : j < i := by
  rw [Era.isContainsEpoch_iff] at hc
  by_contra hge
  have := ht.mono (not_lt.1 hge) he he'
  omega

/-- The era of an epoch comes after every era that ends before the epoch. -/
theorem index_lt_of_to_lt (he : eras[i]? = some e) (he' : eras[j]? = some e')
    (hc : e'.isContainsEpoch epoch) (hlt : e.toEpoch.toNat < epoch.toNat) : i < j := by
  rw [Era.isContainsEpoch_iff] at hc
  by_contra hge
  have := ht.mono (not_lt.1 hge) he' he
  omega

theorem index_unique (he : eras[i]? = some e) (he' : eras[j]? = some e')
    (hc : e.isContainsEpoch epoch) (hc' : e'.isContainsEpoch epoch) : i = j := by
  rw [Era.isContainsEpoch_iff] at hc hc'
  rcases lt_trichotomy i j with h | h | h
  · have := ht.to_lt_from h he he'
    omega
  · exact h
  · have := ht.to_lt_from h he' he
    omega

theorem covered (he : eras[k]? = some e) (hle : epoch.toNat ≤ e.toEpoch.toNat) :
    ∃ j ≤ k, ∃ e', eras[j]? = some e' ∧ e'.isContainsEpoch epoch := by
  induction k generalizing e with
  | zero =>
    refine ⟨0, le_refl _, e, he, Era.isContainsEpoch_iff.2 ⟨?_, hle⟩⟩
    simp [ht.start e he]
  | succ k ih =>
    by_cases hfrom : e.fromEpoch.toNat ≤ epoch.toNat
    · exact ⟨k + 1, le_refl _, e, he, Era.isContainsEpoch_iff.2 ⟨hfrom, hle⟩⟩
    · have hlt : k < eras.length := by
        have := (List.getElem?_eq_some_iff.1 he).1
        omega
      have hk := getElem?_eq_getElem hlt
      have hcont := ht.contiguous _ _ _ hk he
      obtain ⟨j, hj, e', he', hc⟩ := ih hk (by omega)
      exact ⟨j, by omega, e', he', hc⟩

theorem find_eq_some (he : eras[j]? = some e) (hc : e.isContainsEpoch epoch) :
    eras.find? (·.isContainsEpoch epoch) = some e := by
  cases hf : eras.find? (·.isContainsEpoch epoch) with
  | none =>
    have := List.find?_eq_none.1 hf e (mem_of_getElem? he)
    exact absurd hc this
  | some e' =>
    obtain ⟨i, hi⟩ := mem_iff_getElem?.1 (mem_of_find?_eq_some hf)
    have hc' : e'.isContainsEpoch epoch := by simpa using List.find?_some hf
    have := ht.index_unique he hi hc hc'
    subst this
    rw [he] at hi
    exact hi.symm

/-! ## The searches -/

theorem lookupUp_eq (n : ℕ) (number : UInt64) (hn : number.toNat < eras.length)
    (hfuel : eras.length ≤ number.toNat + n) (hcur : ¬ cur.isContainsEpoch epoch) :
    (lookupUp eras epoch n number cur).era? =
      (eras.drop (number.toNat + 1)).find? (·.isContainsEpoch epoch) := by
  induction n generalizing number cur with
  | zero => omega
  | succ n ih =>
    have hsucc : (number + 1).toNat = number.toNat + 1 := by
      have := ht.short
      rw [UInt64.toNat_add, UInt64.toNat_one, Nat.mod_eq_of_lt (by omega)]
    rw [lookupUp, if_neg hcur]
    unfold readEra
    rw [hsucc]
    by_cases hlt : number.toNat + 1 < eras.length
    · rw [getElem?_eq_getElem hlt, drop_eq_getElem_cons hlt, List.find?_cons]
      simp only
      by_cases hc : (eras[number.toNat + 1]).isContainsEpoch epoch
      · rw [lookupUp_of_contains hc, hc]
        rfl
      · rw [ih (number + 1) (by omega) (by omega) hc, hsucc]
        simp only [Bool.not_eq_true] at hc
        rw [hc]
    · rw [getElem?_eq_none (by omega), drop_eq_nil_of_le (by omega)]
      rfl

theorem lookupDown_eq (n : ℕ) (low high : UInt64) (he : eras[j]? = some e)
    (hc : e.isContainsEpoch epoch) (hlow : low.toNat ≤ j) (hhigh : j ≤ high.toNat)
    (hlen : high.toNat < eras.length) (hfuel : high.toNat < low.toNat + n)
    (hcur : ¬ cur.isContainsEpoch epoch) : lookupDown eras epoch n low high cur = .found e := by
  induction n generalizing low high cur with
  | zero => omega
  | succ n ih =>
    have hshort := ht.short
    have hmid : ((low + high) / 2).toNat = (low.toNat + high.toNat) / 2 := by
      rw [UInt64.toNat_div, UInt64.toNat_add, Nat.mod_eq_of_lt (by omega)]
      rfl
    rw [lookupDown, if_neg hcur]
    unfold readEra
    simp only
    obtain ⟨mid, hmid'⟩ : ∃ mid, mid = (low + high) / 2 := ⟨_, rfl⟩
    rw [← hmid'] at hmid ⊢
    obtain ⟨m, hm⟩ : ∃ m, eras[mid.toNat]? = some m :=
      ⟨_, getElem?_eq_getElem (show mid.toNat < eras.length by omega)⟩
    have hne := ht.nonempty _ _ hm
    rw [hm]
    simp only
    by_cases hcm : m.isContainsEpoch epoch
    · have := ht.index_unique hm he hcm hc
      subst this
      cases hm.symm.trans he
      rw [lookupDown_of_contains hcm, lookupDown_of_contains hcm, ite_self]
    split_ifs with hto
    · -- the middle era starts after the epoch
      have hfrom := Era.isContainsEpoch_iff.not.1 hcm
      have hto := UInt64.lt_iff_toNat_lt.1 hto
      have hjm := ht.index_lt_of_lt_from hm he hc (by omega)
      have hpred : (mid - 1).toNat = mid.toNat - 1 := by
        rw [UInt64.toNat_sub_of_le _ _ (UInt64.le_iff_toNat_le.2 (by simp; omega)), UInt64.toNat_one]
      exact ih low (mid - 1) hlow (by omega) (by omega) (by omega) hcm
    · -- the middle era ends before the epoch
      have hfrom := Era.isContainsEpoch_iff.not.1 hcm
      have hto := UInt64.le_iff_toNat_le.1 (UInt64.not_lt.1 hto)
      have hjm := ht.index_lt_of_to_lt hm he hc (by omega)
      have hsucc : (mid + 1).toNat = mid.toNat + 1 := by
        rw [UInt64.toNat_add, UInt64.toNat_one, Nat.mod_eq_of_lt (by omega)]
      exact ih (mid + 1) high (by omega) hhigh hlen (by omega) hcm

/-- With enough rounds `EpochToEra` finds the era of the table that contains the epoch, whichever era
    of the table it starts from. -/
theorem lookupEra_eq_find {n : ℕ} (hcur : cur ∈ eras) (hn : eras.length + 1 ≤ n) :
    (lookupEra n eras cur epoch).era? = eras.find? (·.isContainsEpoch epoch) := by
  obtain ⟨k, hk⟩ := mem_iff_getElem?.1 hcur
  have hnum := ht.number k cur hk
  have hlt := (List.getElem?_eq_some_iff.1 hk).1
  have hne := ht.nonempty k cur hk
  unfold lookupEra
  split_ifs with hc hfrom hto
  · exact (ht.find_eq_some hk hc).symm
  · have hfrom := UInt64.lt_iff_toNat_lt.1 hfrom
    have hle : epoch.toNat ≤ cur.toEpoch.toNat := by omega
    obtain ⟨j, hj, e, he, hce⟩ := ht.covered hk hle
    rw [ht.find_eq_some he hce, ht.lookupDown_eq n 0 cur.number he hce (by simp) (by omega)
      (by omega) (by omega) hc]
    rfl
  · -- no era up to the current one contains the epoch
    have hto := UInt64.lt_iff_toNat_lt.1 hto
    rw [ht.lookupUp_eq _ cur.number (by omega) (by omega) hc, hnum]
    conv_rhs => rw [← take_append_drop (k + 1) eras]
    rw [List.find?_append]
    have hnone : (eras.take (k + 1)).find? (·.isContainsEpoch epoch) = none := by
      rw [List.find?_eq_none]
      intro e he hce
      obtain ⟨i, hi⟩ := mem_iff_getElem?.1 he
      have hik : i < k + 1 := by
        have := (List.getElem?_eq_some_iff.1 hi).1
        rw [length_take] at this
        omega
      rw [getElem?_take_of_lt hik] at hi
      have := ht.index_lt_of_to_lt hk hi hce hto
      omega
    rw [hnone, none_or]
  · rw [UInt64.lt_iff_toNat_lt] at hfrom hto
    exact absurd (Era.isContainsEpoch_iff.2 ⟨by omega, by omega⟩) hc

theorem epochToEra_eq_find (hcur : cur ∈ eras) :
    epochToEra eras cur epoch = eras.find? (·.isContainsEpoch epoch) :=
  ht.lookupEra_eq_find hcur le_rfl

omit ht in
theorem singleton (hnum : e.number = 0) (hfrom : e.fromEpoch = 0) : EraTable [e] := by
  refine ⟨?_, by simp⟩
  constructor <;> simp +contextual [getElem?_singleton, hnum, hfrom]

theorem of_prefix {l : List Era} (h : l <+: eras) : EraTable l := by
  have hget : ∀ {i : ℕ} {e : Era}, l[i]? = some e → eras[i]? = some e := by
    intro i e he
    obtain ⟨t, rfl⟩ := h
    rw [getElem?_append_left (List.getElem?_eq_some_iff.1 he).1, he]
  have hlen := h.length_le
  have hshort := ht.short
  exact ⟨⟨fun i e he => ht.number i e (hget he), fun i e he => ht.nonempty i e (hget he),
    fun e he => ht.start e (hget he),
    fun i e e' he he' => ht.contiguous i e e' (hget he) (hget he')⟩, by omega⟩

theorem snoc {last next : Era} (hlast : eras[k]? = some last)
    (hlen : eras.length = k + 1) (hnum : next.number.toNat = k + 1)
    (hfrom : next.fromEpoch.toNat = last.toEpoch.toNat + 1)
    (hto : next.fromEpoch.toNat ≤ next.toEpoch.toNat) (hshort : k + 2 < 2 ^ 63) :
    EraTable (eras ++ [next]) := by
  have hcases : ∀ {i e}, (eras ++ [next])[i]? = some e →
      eras[i]? = some e ∨ i = k + 1 ∧ e = next := by grind
  refine ⟨⟨fun i e he => ?_, fun i e he => ?_, fun e he => ?_, fun i e e' he he' => ?_⟩, ?_⟩
  · rcases hcases he with he | ⟨rfl, rfl⟩
    · exact ht.number i e he
    · exact hnum
  · rcases hcases he with he | ⟨rfl, rfl⟩
    · exact ht.nonempty i e he
    · exact hto
  · rcases hcases he with he | ⟨h0, -⟩
    · exact ht.start e he
    · omega
  · rcases hcases he' with he' | ⟨hi, rfl⟩
    · rcases hcases he with he | ⟨hi, -⟩
      · exact ht.contiguous i e e' he he'
      · have := (List.getElem?_eq_some_iff.1 he').1
        omega
    · obtain rfl : i = k := by omega
      cases hlast.symm.trans ((hcases he).resolve_right (by omega))
      exact hfrom
  · simpa [hlen] using hshort

end EraTable

end Gwat
