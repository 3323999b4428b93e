/-
  The list of activated validators (`GetValidatorsList`, `SetValidatorsList` and
  `AddValidatorToList` in `validator/storage/storage.go`).
-/
import Gwat.Validator.RecordBinary

namespace Gwat

open GoLib List StateDB

/-! ## Packed lists of addresses -/

/-- The address at position `i` of a packed list. -/
def addressAt (b : Bytes) (i : ℕ) : Address := Fin.ofNat _ (natOfBytes ((b.drop (20 * i)).take 20))

theorem addressesOfBytes_eq (b : Bytes) :
    addressesOfBytes b = (List.range (b.length / 20)).map (addressAt b) := rfl

theorem addressAt_zero (a : Address) (b : Bytes) : addressAt (a.bytes ++ b) 0 = a := by
  rw [addressAt, Nat.mul_zero, drop_zero, take_left' a.length_bytes]
  exact addressOfBytes_bytes a

theorem addressAt_succ (a : Address) (b : Bytes) (i : ℕ) :
    addressAt (a.bytes ++ b) (i + 1) = addressAt b i := by
  have hdrop : (a.bytes ++ b).drop (20 * (i + 1)) = b.drop (20 * i) := by
    rw [Nat.mul_succ, Nat.add_comm, ← drop_drop, drop_left' a.length_bytes]
  rw [addressAt, addressAt, hdrop]

theorem addressesOfBytes_append (a : Address) (b : Bytes) :
    addressesOfBytes (a.bytes ++ b) = a :: addressesOfBytes b := by
  have hlen : (a.bytes ++ b).length / 20 = b.length / 20 + 1 := by
    rw [length_append, Address.length_bytes]
    omega
  rw [addressesOfBytes_eq, hlen, range_succ_eq_map, map_cons, map_map,
    addressAt_zero, addressesOfBytes_eq]
  exact congrArg _ (map_congr_left fun i _ => addressAt_succ a b i)

theorem addressesOfBytes_flatMap (l : List Address) :
    addressesOfBytes (l.flatMap Address.bytes) = l := by
  induction l with
  | nil => rfl
  | cons a l ih => rw [flatMap_cons, addressesOfBytes_append, ih]

/-! ## Writing and reading the list -/

section
variable {s s' s₁ : StateDB} {valAddr : Address}
variable {a : Address} {calls p : List (UInt64 × Address)} {c : UInt64 × Address}

/-- The code at the validators' address holds at least the deposit count. -/
def ListReadable (s : StateDB) (valAddr : Address) : Prop :=
  s.getCode valAddr = [] ∨ 8 ≤ (s.getCode valAddr).length

theorem ListReadable.getDepositCount (h : ListReadable s valAddr) :
    ∃ count, getDepositCount s valAddr = .ok count := by
  rcases h with hnil | hlen
  · exact ⟨0, if_pos hnil⟩
  · refine ⟨_, (if_neg ?_).trans (if_neg (not_lt.2 hlen))⟩
    intro hnil
    rw [hnil] at hlen
    simp at hlen

/-- Writing the list succeeds, and reading it back drops the zero addresses only. -/
theorem setValidatorsList_spec (h : ListReadable s valAddr) (list : List Address) :
    ∃ s', setValidatorsList s valAddr list = .ok s' ∧ ListReadable s' valAddr ∧
      getValidatorsList s' valAddr = list.filter (· ≠ 0) := by
  obtain ⟨count, hcount⟩ := h.getDepositCount
  have hlen : (uint64BytesBE count).length = 8 := length_bytesBE _ _
  refine ⟨s.setCode valAddr (uint64BytesBE count ++ list.flatMap Address.bytes), ?_, ?_, ?_⟩
  · rw [setValidatorsList, hcount]
    rfl
  · right
    rw [getCode_setCode_self, length_append, hlen]
    omega
  · rw [getValidatorsList, getCode_setCode_self, drop_left' hlen,
      addressesOfBytes_flatMap]

theorem ne_zero_of_mem_getValidatorsList (h : a ∈ getValidatorsList s valAddr) : a ≠ 0 := by
  simpa using (mem_filter.1 h).2

theorem filter_set_padded {l : List Address} {i : ℕ} (hl : ∀ x ∈ l, x ≠ 0) (ha : a ≠ 0)
    (hi : l.length ≤ i) :
    ((l ++ List.replicate (i + 1 - l.length) 0).set i a).filter (· ≠ 0) = l ++ [a] := by
  obtain ⟨n, rfl⟩ := Nat.exists_eq_add_of_le hi
  have hpad : l.length + n + 1 - l.length = n + 1 := by omega
  have hset : (List.replicate (n + 1) (0 : Address)).set n a = List.replicate n 0 ++ [a] := by
    rw [replicate_succ', set_append_right _ _ (by simp), length_replicate,
      Nat.sub_self, set_cons_zero]
  rw [hpad, set_append_right _ _ (by omega), Nat.add_sub_cancel_left, hset,
    filter_append, filter_append, filter_eq_self.2 (by simpa using hl)]
  simp [ha]

/-- One call appends the new address, or overwrites an entry if its index is below the length of
    the list. -/
theorem addValidatorToList_spec (h : ListReadable s valAddr) {i : UInt64}
    (ha : a ∉ getValidatorsList s valAddr) (h0 : a ≠ 0) :
    ∃ s', addValidatorToList s valAddr i a = .ok s' ∧ ListReadable s' valAddr ∧
      getValidatorsList s' valAddr =
        if (getValidatorsList s valAddr).length ≤ i.toNat then getValidatorsList s valAddr ++ [a]
        else (getValidatorsList s valAddr).set i.toNat a := by
  rw [addValidatorToList, if_neg ha]
  obtain ⟨s', hs', hread, hlist⟩ := setValidatorsList_spec h ((getValidatorsList s valAddr ++
      List.replicate (i.toNat + 1 - (getValidatorsList s valAddr).length) 0).set i.toNat a)
  refine ⟨s', hs', hread, hlist.trans ?_⟩
  split_ifs with hi
  · exact filter_set_padded (fun _ => ne_zero_of_mem_getValidatorsList) h0 hi
  · have hpad : i.toNat + 1 - (getValidatorsList s valAddr).length = 0 := by omega
    rw [hpad, replicate_zero, append_nil]
    refine filter_eq_self.2 fun x hx => ?_
    rcases mem_or_eq_of_mem_set hx with hx | rfl
    · simpa using ne_zero_of_mem_getValidatorsList hx
    · simpa using h0

/-! ## Runs of calls -/

/-- A run of `AddValidatorToList` calls, each with its index and address. -/
def addAll (valAddr : Address) (s : StateDB) (calls : List (UInt64 × Address)) :
    Except ValError StateDB :=
  calls.foldlM (fun s c => addValidatorToList s valAddr c.1 c.2) s

/-- The calls add new addresses, each once. -/
structure FreshCalls (s : StateDB) (valAddr : Address) (calls : List (UInt64 × Address)) :
    Prop where
  nodup : (getValidatorsList s valAddr ++ calls.map (·.2)).Nodup
  nonzero : ∀ c ∈ calls, c.2 ≠ 0

/-- After every part of the run, the list holds each validator that was in it before or was added
    so far exactly once. -/
def KeepsAll (s : StateDB) (valAddr : Address) (calls : List (UInt64 × Address)) : Prop :=
  ∀ p, p <+: calls → ∃ s', addAll valAddr s p = .ok s' ∧
    ∀ a ∈ getValidatorsList s valAddr ++ p.map (·.2), (getValidatorsList s' valAddr).count a = 1

/-- No call names an index below the number of validators already in the list. -/
def IndexesGrow (s : StateDB) (valAddr : Address) (calls : List (UInt64 × Address)) : Prop :=
  ∀ p c, p ++ [c] <+: calls → (getValidatorsList s valAddr).length + p.length ≤ c.1.toNat

theorem FreshCalls.of_isPrefix (h : FreshCalls s valAddr calls) (hp : p <+: calls) :
    FreshCalls s valAddr p := by
  obtain ⟨q, rfl⟩ := hp
  refine ⟨?_, fun c hc => h.nonzero c (mem_append_left _ hc)⟩
  have := h.nodup
  rw [map_append, ← append_assoc] at this
  exact this.of_append_left

theorem FreshCalls.not_mem (h : FreshCalls s valAddr (p ++ [c]))
    (hl : getValidatorsList s₁ valAddr = getValidatorsList s valAddr ++ p.map (·.2)) :
    c.2 ∉ getValidatorsList s₁ valAddr := by
  have hn := h.nodup
  rw [map_append, ← append_assoc, ← hl, nodup_append] at hn
  exact fun hmem => hn.2.2 _ hmem _ (by simp) rfl

theorem addAll_snoc (p : List (UInt64 × Address)) (c : UInt64 × Address) :
    addAll valAddr s (p ++ [c]) =
      addAll valAddr s p >>= fun s' => addValidatorToList s' valAddr c.1 c.2 := by
  rw [addAll, foldlM_append]
  refine bind_congr fun s' => ?_
  exact bind_pure _

theorem addAll_eq_append (hr : ListReadable s valAddr) :
    ∀ {calls : List (UInt64 × Address)}, FreshCalls s valAddr calls →
      IndexesGrow s valAddr calls → ∃ s', addAll valAddr s calls = .ok s' ∧
        ListReadable s' valAddr ∧
        getValidatorsList s' valAddr = getValidatorsList s valAddr ++ calls.map (·.2) := by
  intro calls
  induction calls using List.reverseRecOn with
  | nil => exact fun _ _ => ⟨s, rfl, hr, by simp⟩
  | append_singleton p c ih =>
    intro hf hg
    have hp : p <+: p ++ [c] := prefix_append _ _
    obtain ⟨s₁, hs₁, hr₁, hl₁⟩ := ih (hf.of_isPrefix hp) fun q d hq => hg q d (hq.trans hp)
    obtain ⟨s₂, hs₂, hr₂, hl₂⟩ :=
      @addValidatorToList_spec s₁ valAddr c.2 hr₁ c.1 (hf.not_mem hl₁) (hf.nonzero c (by simp))
    refine ⟨s₂, by rw [addAll_snoc, hs₁, ok_bind, hs₂], hr₂, ?_⟩
    have hi : (getValidatorsList s₁ valAddr).length ≤ c.1.toNat := by
      rw [hl₁, length_append, length_map]
      exact hg p c (prefix_refl _)
    rw [hl₂, if_pos hi, hl₁, append_assoc, map_append]
    rfl

theorem KeepsAll.index_le (hr : ListReadable s valAddr) (hk : KeepsAll s valAddr calls)
    (hf : FreshCalls s valAddr calls) (hp : p ++ [c] <+: calls) (hg : IndexesGrow s valAddr p) :
    (getValidatorsList s valAddr).length + p.length ≤ c.1.toNat := by
  have hfp := hf.of_isPrefix hp
  obtain ⟨s₁, hs₁, hr₁, hl₁⟩ :=
    addAll_eq_append hr (hfp.of_isPrefix (prefix_append _ _)) hg
  have hnew := hfp.not_mem hl₁
  obtain ⟨s₂, hs₂, -, hl₂⟩ :=
    @addValidatorToList_spec s₁ valAddr c.2 hr₁ c.1 hnew (hfp.nonzero c (by simp))
  obtain ⟨s', hs', hcount⟩ := hk _ hp
  rw [addAll_snoc, hs₁, ok_bind, hs₂] at hs'
  cases hs'
  have hlen : (getValidatorsList s₁ valAddr).length =
      (getValidatorsList s valAddr).length + p.length := by
    rw [hl₁, length_append, length_map]
  by_contra hlt
  have hi : c.1.toNat < (getValidatorsList s₁ valAddr).length := by omega
  -- the entry that stood at the index is in the list no longer
  set x := (getValidatorsList s₁ valAddr)[c.1.toNat] with hx
  have hxmem : x ∈ getValidatorsList s₁ valAddr := getElem_mem hi
  have hone : (getValidatorsList s₁ valAddr).count x = 1 := by
    refine count_eq_one_of_mem ?_ hxmem
    rw [hl₁]
    exact (hfp.of_isPrefix (prefix_append _ _)).nodup
  have hne : c.2 ≠ x := fun heq => hnew (heq ▸ hxmem)
  have hafter := hcount x (by
    rw [map_append, ← append_assoc, ← hl₁]
    exact mem_append_left _ hxmem)
  rw [hl₂, if_neg (by omega), count_set hi, ← hx, hone] at hafter
  simp [hne] at hafter

/-- A run of calls with new addresses keeps every validator exactly if no call names an index
    below the number of validators that are already in the list. -/
theorem addAll_keeps_iff (hr : ListReadable s valAddr) {calls : List (UInt64 × Address)}
    (hf : FreshCalls s valAddr calls) : KeepsAll s valAddr calls ↔ IndexesGrow s valAddr calls := by
  constructor
  · intro hk p
    -- induction on the number of calls made before: up to them the list is known
    induction hn : p.length using Nat.strong_induction_on generalizing p with
    | _ n ih =>
      intro c hp
      rw [← hn]
      refine hk.index_le hr hf hp fun q d hq => ?_
      have hlen : q.length < n := by
        have := hq.length_le
        rw [length_append, length_singleton] at this
        omega
      exact ih q.length hlen q rfl d (hq.trans ((prefix_append _ _).trans hp))
  · intro hg p hp
    obtain ⟨s', hs', -, hl⟩ := addAll_eq_append hr (hf.of_isPrefix hp)
      fun q c hq => hg q c (hq.trans hp)
    refine ⟨s', hs', fun a ha => ?_⟩
    rw [hl]
    exact count_eq_one_of_mem (hf.of_isPrefix hp).nodup ha

end

/-- Two calls with a gap between their indexes keep both validators. -/
theorem addAll_keeps_gap : KeepsAll empty 100 [(1, 1), (5, 2)] := by
  have hlist : getValidatorsList empty 100 = [] := rfl
  have hnonzero : ∀ c ∈ [((1 : UInt64), (1 : Address)), (5, 2)], c.2 ≠ 0 := by
    rw [forall_mem_cons, forall_mem_singleton]
    decide
  refine (addAll_keeps_iff (.inl rfl) ⟨by rw [hlist]; decide, hnonzero⟩).2 ?_
  rintro p c hp
  rw [hlist]
  have hlen := hp.length_le
  match p, hp with
  | [], hp => simp
  | [d], hp =>
    obtain ⟨-, hc⟩ : d = (1, 1) ∧ c = (5, 2) := by simpa [cons_prefix_cons] using hp
    rw [hc]
    show 1 ≤ (5 : UInt64).toNat
    decide
  | _ :: _ :: _, _ => simp at hlen

/-- Index 2 and then index 0: the second call overwrites the first validator. -/
theorem addAll_loses : ¬ KeepsAll empty 100 [(2, 1), (0, 2)] := by
  have hlist : (addAll 100 empty [(2, 1), (0, 2)]).map (getValidatorsList · 100) =
      .ok [2] := by decide
  intro hk
  obtain ⟨s', hs', hcount⟩ := hk _ (prefix_refl _)
  rw [hs'] at hlist
  have hl : getValidatorsList s' 100 = [2] := by simpa [Except.map] using hlist
  have hone := hcount 1 (by decide)
  rw [hl] at hone
  exact absurd hone (by decide)

/-! ## States with records -/

/-- A state with the records of validators, which are listed at the address 100. -/
def listedState (validators : List Validator) : StateDB :=
  (validators.foldl (fun s v => s.setCode v.address v.code) StateDB.empty).setCode 100
    (uint64BytesBE (.ofNat validators.length) ++ validators.flatMap (·.address.bytes))

/-- The record of a validator that is active from an era on. -/
def activeFrom (a : Address) (activationEra : UInt64) : Validator :=
  { newValidator 7 a none with activationEra }

end Gwat
