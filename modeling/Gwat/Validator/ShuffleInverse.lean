/-
  The shuffle on 64-bit positions, and that it can be undone (`validator/shuffle/shuffle.go`).
-/
import Gwat.Validator.Shuffle
import Gwat.Lib.Swaps

namespace Gwat

open GoLib List

/-! ## The shuffle on machine integers -/

section
variable {α : Type} (hashfunc : Bytes → Hash) (seed : Hash)

/-- `hashfunc(buf)` after the round and `uint32(pos>>8)` were written to the buffer. -/
def windowHash (r : UInt8) (pos : UInt64) : Hash :=
  hashfunc (seed.bytes ++ [r] ++ bytesLE 4 (pos >>> 8).toNat)

/-- `source[i]` -/
def hashByteAt (source : Hash) (i : UInt64) : Except StorageError UInt8 :=
  match source.bytes[i.toNat]? with
  | some b => .ok b
  | none => .error .panic

/-- `swapOrNot` -/
def swapOrNot64 (r : UInt8) (i j : UInt64) (st : SwapState α) :
    Except StorageError (SwapState α) := do
  let source := if j &&& 0xff = 0xff then windowHash hashfunc seed r j else st.source
  let byteV ← if j &&& 0x7 = 0x7 then hashByteAt source ((j &&& 0xff) >>> 3) else .ok st.byteV
  let bitV := (byteV >>> (j &&& 0x7).toUInt8) &&& 0x1
  if bitV = 1 then
    if i.toNat < st.validators.length ∧ j.toNat < st.validators.length then
      .ok ⟨st.validators.swap i.toNat j.toNat, byteV, source⟩
    else .error .panic
  else .ok ⟨st.validators, byteV, source⟩

/-- `for i, j := i, j; i < mirror; i, j = i+1, j-1` -/
def mirrorLoop64 (r : UInt8) (mirror i j : UInt64) (st : SwapState α) :
    Except StorageError (SwapState α) :=
  if i < mirror then do
    let st ← swapOrNot64 hashfunc seed r i j st
    mirrorLoop64 r mirror (i + 1) (j - 1) st
  else .ok st
termination_by mirror.toNat - i.toNat
decreasing_by
  have hlt := UInt64.lt_iff_toNat_lt.1 ‹i < mirror›
  have hm := mirror.toNat_lt
  rw [UInt64.toNat_add, Nat.mod_eq_of_lt (by simp; omega)]
  simp
  omega

/-- One of the two mirrorings of a round. -/
def mirrorPart64 (r : UInt8) (mirror i j : UInt64) (validators : List α) :
    Except StorageError (List α) := do
  let source := windowHash hashfunc seed r j
  let byteV ← hashByteAt source ((j &&& 0xff) >>> 3)
  let st ← mirrorLoop64 hashfunc seed r mirror i j ⟨validators, byteV, source⟩
  return st.validators

/-- One round of the shuffle. -/
def shuffleRound64 (r : UInt8) (validators : List α) : Except StorageError (List α) := do
  let listSize := UInt64.ofNat validators.length
  let ph := hashfunc (seed.bytes ++ [r])
  let pivot := UInt64.ofNat ph.fromBytes8 % listSize
  let validators ← mirrorPart64 hashfunc seed r ((pivot + 1) >>> 1) 0 pivot validators
  -- Now repeat, but for the part after the pivot.
  mirrorPart64 hashfunc seed r ((pivot + listSize + 1) >>> 1) (pivot + 1) (listSize - 1) validators

/-- The loop over the rounds, of which there are as many as a `uint8` has values at most. -/
def roundLoop64 (shuffl : Bool) : ℕ → UInt8 → List α → Except StorageError (List α)
  | 0, _, _ => .error .noTermination
  | n + 1, r, validators => do
    let validators ← shuffleRound64 hashfunc seed r validators
    if shuffl then
      let r := r + 1
      if r = UInt8.ofNat shuffleRoundCount then return validators
      else roundLoop64 shuffl n r validators
    else if r = 0 then return validators
    else roundLoop64 shuffl n (r - 1) validators

/-- `innerShuffleList` -/
def innerShuffleList64 (validators : List α) (shuffl : Bool) : Except StorageError (List α) :=
  if validators.length ≤ 1 then .ok validators
  else if maxShuffleListSize < validators.length then .error .listSizeOutOfBounds
  else
    let rounds := UInt8.ofNat shuffleRoundCount
    roundLoop64 hashfunc seed shuffl 256 (if shuffl then 0 else rounds - 1) validators

end

/-! ## The positions as natural numbers -/

section
variable {α : Type} {hashfunc : Bytes → Hash} {seed : Hash}
variable {r i j n p : ℕ} {mirror : UInt64} {st : SwapState α} {validators l : List α}

theorem and_ff_toNat (j : UInt64) : (j &&& 0xff).toNat = j.toNat % 256 := by
  rw [UInt64.toNat_and]
  exact Nat.and_two_pow_sub_one_eq_mod j.toNat 8

theorem and_7_toNat (j : UInt64) : (j &&& 0x7).toNat = j.toNat % 8 := by
  rw [UInt64.toNat_and]
  exact Nat.and_two_pow_sub_one_eq_mod j.toNat 3

theorem and_ff_eq_iff (j : UInt64) : j &&& 0xff = 0xff ↔ j.toNat % 256 = 255 := by
  rw [← UInt64.toNat_inj, and_ff_toNat]
  rfl

theorem and_7_eq_iff (j : UInt64) : j &&& 0x7 = 0x7 ↔ j.toNat % 8 = 7 := by
  rw [← UInt64.toNat_inj, and_7_toNat]
  rfl

theorem windowHash_eq (r : UInt8) (j : UInt64) :
    windowHash hashfunc seed r j = sourceAt hashfunc seed r.toNat j.toNat := by
  have hshift : (j >>> 8).toNat = j.toNat / 256 := by
    rw [UInt64.toNat_shiftRight]
    exact Nat.shiftRight_eq_div_pow _ 8
  rw [windowHash, sourceAt, hshift, UInt8.ofNat_toNat]

theorem hashByteAt_eq (source : Hash) (j : UInt64) :
    hashByteAt source ((j &&& 0xff) >>> 3) = .ok (sourceByte source j.toNat) := by
  have hidx : ((j &&& 0xff) >>> 3).toNat = j.toNat % 256 / 8 := by
    rw [UInt64.toNat_shiftRight, and_ff_toNat]
    exact Nat.shiftRight_eq_div_pow _ 3
  have hlt : j.toNat % 256 / 8 < source.bytes.length := by
    rw [Hash.length_bytes]
    omega
  rw [hashByteAt, hidx, sourceByte, List.getElem?_eq_getElem hlt]
  rfl

theorem swapOrNot64_eq (r : UInt8) (i j : UInt64) (st : SwapState α) :
    swapOrNot64 hashfunc seed r i j st = swapOrNot hashfunc seed r.toNat i.toNat j.toNat st := by
  have hbit : (j &&& 0x7).toUInt8 = UInt8.ofNat (j.toNat % 8) := by
    apply UInt8.toNat_inj.1
    rw [UInt64.toNat_toUInt8, and_7_toNat, UInt8.toNat_ofNat']
  simp only [swapOrNot64, swapOrNot, and_ff_eq_iff, and_7_eq_iff, windowHash_eq, hashByteAt_eq,
    hbit]
  split <;> rfl

theorem mirrorLoop64_eq {r : UInt8} {i j : UInt64} (h : mirror.toNat - i.toNat ≤ j.toNat + 1) :
    mirrorLoop64 hashfunc seed r mirror i j st =
      mirrorLoop hashfunc seed r.toNat (mirror.toNat - i.toNat) i.toNat j.toNat st := by
  induction hn : mirror.toNat - i.toNat generalizing i j st with
  | zero =>
    rw [mirrorLoop64, if_neg, mirrorLoop]
    rw [UInt64.lt_iff_toNat_lt]
    omega
  | succ n ih =>
    have hm := mirror.toNat_lt
    have hlt : i < mirror := by
      rw [UInt64.lt_iff_toNat_lt]
      omega
    have hi : (i + 1).toNat = i.toNat + 1 := by
      rw [UInt64.toNat_add, Nat.mod_eq_of_lt]
      · rfl
      · simp; omega
    rw [mirrorLoop64, if_pos hlt, mirrorLoop, swapOrNot64_eq]
    cases n with
    | zero =>
      -- the loop ends with this pair, whatever `j - 1` is
      refine bind_congr fun st' => ?_
      rw [mirrorLoop64, if_neg, mirrorLoop]
      rw [UInt64.lt_iff_toNat_lt]
      omega
    | succ n =>
      have hj : (j - 1).toNat = j.toNat - 1 := by
        refine UInt64.toNat_sub_of_le _ _ ?_
        rw [UInt64.le_iff_toNat_le]
        simp; omega
      refine bind_congr fun st' => ?_
      rw [ih (by omega) (by omega), hi, hj]

theorem mirrorPart64_eq {r : UInt8} {i j : UInt64} (h : mirror.toNat - i.toNat ≤ j.toNat + 1) :
    mirrorPart64 hashfunc seed r mirror i j validators =
      mirrorPart hashfunc seed r.toNat (mirror.toNat - i.toNat) i.toNat j.toNat validators := by
  simp only [mirrorPart64, mirrorPart, windowHash_eq, hashByteAt_eq, ok_bind, mirrorLoop64_eq h]

theorem Hash.fromBytes8_lt (h : Hash) : h.fromBytes8 < 2 ^ 64 := by
  have hlt := natOfBytes_lt (h.bytes.take 8).reverse
  rw [length_reverse, length_take, Hash.length_bytes] at hlt
  exact hlt

theorem shiftRight_one_toNat (n : UInt64) : (n >>> 1).toNat = n.toNat / 2 := by
  rw [UInt64.toNat_shiftRight]
  exact Nat.shiftRight_eq_div_pow _ 1

theorem shuffleRound64_eq {r : UInt8} (hpos : 0 < validators.length)
    (hmax : validators.length ≤ maxShuffleListSize) : shuffleRound64 hashfunc seed r validators =
      shuffleRound hashfunc seed r.toNat validators := by
  rw [maxShuffleListSize] at hmax
  have hsize : (UInt64.ofNat validators.length).toNat = validators.length := by
    rw [UInt64.toNat_ofNat', Nat.mod_eq_of_lt (by omega)]
  have hpivot : (UInt64.ofNat (hashfunc (seed.bytes ++ [r])).fromBytes8 %
      UInt64.ofNat validators.length).toNat = pivotOf hashfunc seed r.toNat validators.length := by
    rw [UInt64.toNat_mod, hsize, UInt64.toNat_ofNat', Nat.mod_eq_of_lt (Hash.fromBytes8_lt _),
      pivotOf, UInt8.ofNat_toNat]
  have hlt : pivotOf hashfunc seed r.toNat validators.length < validators.length :=
    Nat.mod_lt _ hpos
  simp only [shuffleRound64, shuffleRound]
  revert hpivot hlt
  generalize UInt64.ofNat (hashfunc (seed.bytes ++ [r])).fromBytes8 %
    UInt64.ofNat validators.length = pivot
  generalize pivotOf hashfunc seed r.toNat validators.length = pivot'
  rintro rfl hlt
  have hsucc : (pivot + 1).toNat = pivot.toNat + 1 := by
    rw [UInt64.toNat_add, Nat.mod_eq_of_lt]
    · rfl
    · simp; omega
  have hsum : (pivot + UInt64.ofNat validators.length + 1).toNat =
      pivot.toNat + validators.length + 1 := by
    rw [UInt64.toNat_add, UInt64.toNat_add, hsize]
    simp
    omega
  have hend : (UInt64.ofNat validators.length - 1).toNat = validators.length - 1 := by
    rw [UInt64.toNat_sub_of_le, hsize]
    · rfl
    · rw [UInt64.le_iff_toNat_le, hsize]
      exact hpos
  rw [mirrorPart64_eq, shiftRight_one_toNat, hsucc]
  · refine bind_congr fun validators' => ?_
    rw [mirrorPart64_eq, shiftRight_one_toNat, hsum, hend, hsucc]
    rw [shiftRight_one_toNat, hsum, hend, hsucc]
    omega
  · rw [shiftRight_one_toNat, hsucc]
    simp; omega

/-- The rounds upwards from `r`. -/
theorem roundLoop64_up {r : UInt8} (hr : r.toNat < shuffleRoundCount)
    (hn : shuffleRoundCount - r.toNat ≤ n) (hpos : 0 < validators.length)
    (hmax : validators.length ≤ maxShuffleListSize) :
    roundLoop64 hashfunc seed true n r validators =
      (List.range' r.toNat (shuffleRoundCount - r.toNat)).foldlM
        (fun validators r => shuffleRound hashfunc seed r validators) validators := by
  rw [shuffleRoundCount] at hr hn ⊢
  induction n generalizing r validators with
  | zero => omega
  | succ n ih =>
    obtain ⟨l, hl, hperm⟩ := @shuffleRound_perm α hashfunc seed r.toNat validators hpos
    have hsucc : (r + 1).toNat = r.toNat + 1 := by
      rw [UInt8.toNat_add, Nat.mod_eq_of_lt]
      · rfl
      · simp; omega
    have hcount : 90 - r.toNat = (90 - (r.toNat + 1)) + 1 := by omega
    rw [roundLoop64, shuffleRound64_eq hpos hmax, hcount, range'_succ, foldlM_cons, hl,
      ok_bind, ok_bind, if_pos rfl]
    by_cases hlast : r + 1 = UInt8.ofNat shuffleRoundCount
    · have h90 : r.toNat + 1 = 90 := by
        rw [← hsucc, hlast]
        rfl
      rw [if_pos hlast, h90]
      rfl
    · have h90 : r.toNat + 1 ≠ 90 := by
        intro h
        refine hlast (UInt8.toNat_inj.1 ?_)
        rw [hsucc, h]
        rfl
      rw [if_neg hlast, ih (by omega) (by omega) (hperm.length_eq ▸ hpos)
        (hperm.length_eq ▸ hmax), hsucc]

/-- The rounds downwards from `r`. -/
theorem roundLoop64_down {r : UInt8} (hn : r.toNat < n) (hpos : 0 < validators.length)
    (hmax : validators.length ≤ maxShuffleListSize) :
    roundLoop64 hashfunc seed false n r validators =
      (List.range (r.toNat + 1)).reverse.foldlM
        (fun validators r => shuffleRound hashfunc seed r validators) validators := by
  induction n generalizing r validators with
  | zero => omega
  | succ n ih =>
    obtain ⟨l, hl, hperm⟩ := @shuffleRound_perm α hashfunc seed r.toNat validators hpos
    rw [roundLoop64, shuffleRound64_eq hpos hmax, range_succ, reverse_append,
      reverse_singleton, singleton_append, foldlM_cons, hl, ok_bind, ok_bind,
      if_neg Bool.false_ne_true]
    by_cases hzero : r = 0
    · subst hzero
      rfl
    · have hne : r.toNat ≠ 0 := fun h => hzero (UInt8.toNat_inj.1 h)
      have hpred : (r - 1).toNat = r.toNat - 1 := by
        refine UInt8.toNat_sub_of_le _ _ ?_
        rw [UInt8.le_iff_toNat_le]
        exact Nat.one_le_iff_ne_zero.2 hne
      rw [if_neg hzero, ih (by omega) (hperm.length_eq ▸ hpos) (hperm.length_eq ▸ hmax), hpred,
        Nat.sub_add_cancel (Nat.one_le_iff_ne_zero.2 hne)]

/-- The machine computes the shuffle on natural numbers. -/
theorem innerShuffleList64_eq (validators : List α) (shuffl : Bool) :
    innerShuffleList64 hashfunc seed validators shuffl =
      innerShuffleList hashfunc seed validators shuffl := by
  unfold innerShuffleList64 innerShuffleList
  split_ifs with hone hmax hs
  · rfl
  · rfl
  · rw [hs, roundLoop64_up (by decide) (by decide) (by omega) (not_lt.1 hmax), range_eq_range']
    rfl
  · rw [Bool.not_eq_true] at hs
    rw [hs, roundLoop64_down (by decide) (by omega) (not_lt.1 hmax)]
    rfl

/-! ## A mirroring swaps by the right position -/

/-- Whether the pair with the right position `j` is swapped in the round `r`. -/
def swapBit (hashfunc : Bytes → Hash) (seed : Hash) (r j : ℕ) : Bool :=
  (sourceByte (sourceAt hashfunc seed r j) j >>> UInt8.ofNat (j % 8)) &&& 1 = 1

/-- The source and the byte in hand are those of the position `j`, or are refreshed there. -/
structure Window (hashfunc : Bytes → Hash) (seed : Hash) (r j : ℕ) (st : SwapState α) : Prop where
  source : j % 256 ≠ 255 → st.source = sourceAt hashfunc seed r j
  byteV : j % 8 ≠ 7 → st.byteV = sourceByte (sourceAt hashfunc seed r j) j

theorem Window.swapOrNot_eq (h : Window hashfunc seed r j st) (hi : i < st.validators.length)
    (hj : j < st.validators.length) : ∃ st', swapOrNot hashfunc seed r i j st = .ok st' ∧
      st'.validators = condSwap (swapBit hashfunc seed r) i j st.validators ∧
      Window hashfunc seed r (j - 1) st' := by
  have hsource : (if j % 256 = 255 then sourceAt hashfunc seed r j else st.source) =
      sourceAt hashfunc seed r j := by
    split_ifs with h255
    · rfl
    · exact h.source h255
  have hbyte : (if j % 8 = 7 then sourceByte (sourceAt hashfunc seed r j) j else st.byteV) =
      sourceByte (sourceAt hashfunc seed r j) j := by
    split_ifs with h7
    · rfl
    · exact h.byteV h7
  -- the positions of one window differ in the last eight bits, those of one byte in three
  have hwindow : (j - 1) % 256 ≠ 255 →
      sourceAt hashfunc seed r j = sourceAt hashfunc seed r (j - 1) := by
    intro h255
    rw [sourceAt, sourceAt, show (j - 1) / 256 = j / 256 by omega]
  have hnext : ∀ l : List α, Window hashfunc seed r (j - 1)
      ⟨l, sourceByte (sourceAt hashfunc seed r j) j, sourceAt hashfunc seed r j⟩ := by
    intro l
    refine ⟨fun h255 => hwindow h255, fun h7 => ?_⟩
    rw [← hwindow (by omega), sourceByte, sourceByte,
      show (j - 1) % 256 / 8 = j % 256 / 8 by omega]
  simp only [swapOrNot, hsource, hbyte]
  by_cases hbit : (sourceByte (sourceAt hashfunc seed r j) j >>> UInt8.ofNat (j % 8)) &&& 1 = 1
  · rw [if_pos hbit, if_pos ⟨hi, hj⟩]
    exact ⟨_, rfl, by simp [condSwap, swapBit, hbit], hnext _⟩
  · rw [if_neg hbit]
    exact ⟨_, rfl, by simp [condSwap, swapBit, hbit], hnext _⟩

theorem Window.mirrorLoop_eq (h : Window hashfunc seed r j st) (hi : i + n ≤ st.validators.length)
    (hj : j < st.validators.length) : ∃ st', mirrorLoop hashfunc seed r n i j st = .ok st' ∧
      st'.validators = mirrorSwaps (swapBit hashfunc seed r) n i j st.validators := by
  induction n generalizing i j st with
  | zero => exact ⟨st, rfl, rfl⟩
  | succ n ih =>
    obtain ⟨st₁, h₁, hv₁, hw₁⟩ := h.swapOrNot_eq (show i < _ by omega) hj
    have hlen : st₁.validators.length = st.validators.length := by rw [hv₁, length_condSwap]
    obtain ⟨st₂, h₂, hv₂⟩ := ih hw₁ (i := i + 1) (by omega) (by omega)
    exact ⟨st₂, by rw [mirrorLoop, h₁, ok_bind, h₂], by rw [hv₂, hv₁, mirrorSwaps]⟩

theorem mirrorPart_eq (hi : i + n ≤ validators.length) (hj : j < validators.length) :
    mirrorPart hashfunc seed r n i j validators =
      .ok (mirrorSwaps (swapBit hashfunc seed r) n i j validators) := by
  have hw : Window hashfunc seed r j (⟨validators, sourceByte (sourceAt hashfunc seed r j) j,
      sourceAt hashfunc seed r j⟩ : SwapState α) := by
    constructor <;> intro _ <;> dsimp only
  obtain ⟨st, hst, hv⟩ := hw.mirrorLoop_eq hi hj
  rw [mirrorPart, hst, ok_bind, hv]
  rfl

/-! ## Undoing the rounds -/

theorem shuffleRound_eq (hpos : 0 < validators.length)
    (hp : p = pivotOf hashfunc seed r validators.length) : shuffleRound hashfunc seed r validators =
      .ok (mirrorSwaps (swapBit hashfunc seed r) ((p + validators.length + 1) / 2 - (p + 1)) (p + 1)
        (validators.length - 1)
        (mirrorSwaps (swapBit hashfunc seed r) ((p + 1) / 2) 0 p validators)) := by
  have hlt : p < validators.length := hp ▸ Nat.mod_lt _ hpos
  rw [shuffleRound, ← hp, mirrorPart_eq (by omega) hlt, ok_bind, mirrorPart_eq]
  · rw [length_mirrorSwaps]; omega
  · rw [length_mirrorSwaps]; omega

/-- A round is its own inverse. -/
theorem shuffleRound_shuffleRound (hpos : 0 < validators.length) :
    (shuffleRound hashfunc seed r validators >>= shuffleRound hashfunc seed r) =
      .ok validators := by
  have hlt : pivotOf hashfunc seed r validators.length < validators.length := Nat.mod_lt _ hpos
  rw [shuffleRound_eq hpos rfl, ok_bind,
    shuffleRound_eq (by simpa using hpos) (p := pivotOf hashfunc seed r validators.length)
      (by simp), length_mirrorSwaps, length_mirrorSwaps]
  generalize pivotOf hashfunc seed r validators.length = p at hlt
  -- the two parts lie side by side: the second mirroring of the first round meets its twin
  rw [← mirrorSwaps_comm (i := 0) (by omega) (Nat.lt_succ_self p) (by omega)
      (by rw [length_mirrorSwaps]; omega),
    mirrorSwaps_mirrorSwaps (by omega) (by simp only [length_mirrorSwaps]; omega),
    mirrorSwaps_mirrorSwaps (by omega) hlt]

theorem foldlM_shuffleRound_reverse {rounds : List ℕ} (hpos : 0 < validators.length)
    (h : rounds.foldlM (fun validators r => shuffleRound hashfunc seed r validators) validators
      = .ok l) :
    rounds.reverse.foldlM (fun validators r => shuffleRound hashfunc seed r validators) l
      = .ok validators := by
  induction rounds generalizing validators with
  | nil =>
    cases h
    rfl
  | cons r rounds ih =>
    obtain ⟨l₁, h₁, hperm⟩ := @shuffleRound_perm α hashfunc seed r validators hpos
    rw [foldlM_cons, h₁, ok_bind] at h
    rw [reverse_cons, foldlM_append, ih (hperm.length_eq ▸ hpos) h, ok_bind, foldlM_cons]
    have hback := @shuffleRound_shuffleRound α hashfunc seed r validators hpos
    rw [h₁, ok_bind] at hback
    rw [hback]
    rfl

/-- The shuffle can be undone: a list of at most 2^40 validators is rearranged, without an access
    outside the list or a hash, and the rounds in the other direction give it back. -/
theorem innerShuffleList64_inverse (hashfunc : Bytes → Hash) (seed : Hash)
    {validators : List Address} (h : validators.length ≤ 2 ^ 40) (shuffl : Bool) :
    ∃ l, innerShuffleList64 hashfunc seed validators shuffl = .ok l ∧ l.Perm validators ∧
      innerShuffleList64 hashfunc seed l (!shuffl) = .ok validators := by
  obtain ⟨l, hl, hperm⟩ := @innerShuffleList_perm Address hashfunc seed validators shuffl h
  refine ⟨l, by rw [innerShuffleList64_eq, hl], hperm, ?_⟩
  rw [innerShuffleList64_eq]
  rw [innerShuffleList] at hl ⊢
  rw [hperm.length_eq]
  by_cases hone : validators.length ≤ 1
  · rw [if_pos hone] at hl ⊢
    cases hl
    rfl
  · rw [if_neg hone, if_neg (show ¬ maxShuffleListSize < validators.length from not_lt.2 h)] at hl ⊢
    have hback := foldlM_shuffleRound_reverse (by omega) hl
    cases shuffl
    · rwa [if_neg Bool.false_ne_true, reverse_reverse] at hback
    · exact hback

theorem innerShuffleList64_inverse_three :
    ([1, 2, 3] : List Address).length ≤ 2 ^ 40 ∧
    ∃ l, innerShuffleList64 hashOfBytes 5 ([1, 2, 3] : List Address) true = .ok l ∧
      l.Perm [1, 2, 3] ∧ innerShuffleList64 hashOfBytes 5 l false = .ok [1, 2, 3] :=
  ⟨by decide, innerShuffleList64_inverse hashOfBytes 5 (by decide) true⟩

end

end Gwat
