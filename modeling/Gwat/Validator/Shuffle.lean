/-
  The shuffling of the validators (`validator/shuffle/shuffle.go`).
-/
import Gwat.Validator.Record
import Gwat.Lib.Chunks

namespace Gwat

open GoLib

inductive StorageError where
  | invalidValidatorsFilter
  | noEraValidators
  | noSubnetValidators
  | transitionProcessing
  | epochNotFound
  | listSizeOutOfBounds
  | noTermination
  | panic
  deriving DecidableEq, Repr

def maxShuffleListSize : ℕ := 2 ^ 40

def shuffleRoundCount : ℕ := 90

/-- `FromBytes8` of the first eight bytes of a hash. -/
def Hash.fromBytes8 (h : Hash) : ℕ := natOfBytes (h.bytes.take 8).reverse

section
variable {α : Type} (hashfunc : Bytes → Hash) (seed : Hash)

/-- The hash of the seed, the round and a position divided by 256. -/
def sourceAt (r pos : ℕ) : Hash :=
  hashfunc (seed.bytes ++ [UInt8.ofNat r] ++ bytesLE 4 (pos / 256))

/-- `source[(pos&0xff)>>3]` -/
def sourceByte (source : Hash) (pos : ℕ) : UInt8 := (source.bytes[pos % 256 / 8]?).getD 0

/-- What the loops over the pairs carry: the list, `byteV` and `source`. -/
structure SwapState (α : Type) where
  validators : List α
  byteV : UInt8
  source : Hash

def swapOrNot (r i j : ℕ) (st : SwapState α) : Except StorageError (SwapState α) :=
  let source := if j % 256 = 255 then sourceAt hashfunc seed r j else st.source
  let byteV := if j % 8 = 7 then sourceByte source j else st.byteV
  let bitV := (byteV >>> UInt8.ofNat (j % 8)) &&& 1
  if bitV = 1 then
    if i < st.validators.length ∧ j < st.validators.length then
      .ok ⟨st.validators.swap i j, byteV, source⟩
    else .error .panic
  else .ok ⟨st.validators, byteV, source⟩

/-- `for i, j := i, j; i < mirror; i, j = i+1, j-1`, for `n` more pairs. -/
def mirrorLoop (r : ℕ) : ℕ → ℕ → ℕ → SwapState α → Except StorageError (SwapState α)
  | 0, _, _, st => .ok st
  | n + 1, i, j, st => do
    let st ← swapOrNot hashfunc seed r i j st
    mirrorLoop r n (i + 1) (j - 1) st

/-- One of the two mirrorings of a round: `n` pairs, from the positions `i` and `j` inwards. -/
def mirrorPart (r n i j : ℕ) (validators : List α) : Except StorageError (List α) := do
  let st ← mirrorLoop hashfunc seed r n i j
    ⟨validators, sourceByte (sourceAt hashfunc seed r j) j, sourceAt hashfunc seed r j⟩
  return st.validators

/-- The pivot of a round. -/
def pivotOf (r listSize : ℕ) : ℕ :=
  (hashfunc (seed.bytes ++ [UInt8.ofNat r])).fromBytes8 % listSize

/-- One round of the shuffle: the part up to the pivot, then the part after it. -/
def shuffleRound (r : ℕ) (validators : List α) : Except StorageError (List α) :=
  let listSize := validators.length
  let pivot := pivotOf hashfunc seed r listSize
  mirrorPart hashfunc seed r ((pivot + 1) / 2) 0 pivot validators >>=
    mirrorPart hashfunc seed r ((pivot + listSize + 1) / 2 - (pivot + 1)) (pivot + 1)
      (listSize - 1)

/-- `innerShuffleList`: the rounds upwards to shuffle, downwards to un-shuffle. -/
def innerShuffleList (validators : List α) (shuffl : Bool) : Except StorageError (List α) :=
  if validators.length ≤ 1 then .ok validators
  else if maxShuffleListSize < validators.length then .error .listSizeOutOfBounds
  else
    let rounds := List.range shuffleRoundCount
    (if shuffl then rounds else rounds.reverse).foldlM
      (fun validators r => shuffleRound hashfunc seed r validators) validators

def shuffleValidators (validators : List α) : Except StorageError (List α) :=
  innerShuffleList hashfunc seed validators false

end

/-! ## The shuffle rearranges the list -/

section
variable {α : Type} {hashfunc : Bytes → Hash} {seed : Hash}
variable {r i j : ℕ} {validators : List α} {shuffl : Bool}

theorem swapOrNot_perm {st : SwapState α} (hi : i < st.validators.length)
    (hj : j < st.validators.length) : ∃ st', swapOrNot hashfunc seed r i j st = .ok st' ∧
      st'.validators.Perm st.validators := by
  simp only [swapOrNot, hi, hj, and_self, if_true]
  split_ifs
  all_goals first
    | exact ⟨_, rfl, List.swap_perm _ _ _⟩
    | exact ⟨_, rfl, .refl _⟩

theorem mirrorLoop_perm : ∀ {n i j : ℕ} {st : SwapState α},
    i + n ≤ st.validators.length → j < st.validators.length →
      ∃ st', mirrorLoop hashfunc seed r n i j st = .ok st' ∧
        st'.validators.Perm st.validators
  | 0, _, _, st, _, _ => ⟨st, rfl, .refl _⟩
  | n + 1, i, j, st, hi, hj => by
    obtain ⟨st₁, h₁, hp₁⟩ := @swapOrNot_perm α hashfunc seed r i j st (by omega) hj
    have hlen := hp₁.length_eq
    obtain ⟨st₂, h₂, hp₂⟩ :=
      @mirrorLoop_perm n (i + 1) (j - 1) st₁ (by omega) (by omega)
    exact ⟨st₂, by rw [mirrorLoop, h₁, ok_bind, h₂], hp₂.trans hp₁⟩

theorem mirrorPart_perm {n : ℕ} (hi : i + n ≤ validators.length) (hj : j < validators.length) :
    ∃ l, mirrorPart hashfunc seed r n i j validators = .ok l ∧ l.Perm validators := by
  obtain ⟨st, h, hp⟩ := @mirrorLoop_perm α hashfunc seed r n i j
    ⟨validators, sourceByte (sourceAt hashfunc seed r j) j, sourceAt hashfunc seed r j⟩ hi hj
  exact ⟨st.validators, by rw [mirrorPart, h]; rfl, hp⟩

theorem shuffleRound_perm (hpos : 0 < validators.length) :
    ∃ l, shuffleRound hashfunc seed r validators = .ok l ∧ l.Perm validators := by
  have hlt : pivotOf hashfunc seed r validators.length < validators.length := Nat.mod_lt _ hpos
  rw [shuffleRound]
  generalize pivotOf hashfunc seed r validators.length = pivot at hlt
  obtain ⟨l₁, h₁, hp₁⟩ := @mirrorPart_perm α hashfunc seed r 0 pivot validators ((pivot + 1) / 2)
    (by omega) hlt
  have hlen := hp₁.length_eq
  obtain ⟨l₂, h₂, hp₂⟩ := @mirrorPart_perm α hashfunc seed r (pivot + 1)
    (validators.length - 1) l₁ ((pivot + validators.length + 1) / 2 - (pivot + 1))
    (by omega) (by omega)
  exact ⟨l₂, by simp [h₁, h₂], hp₂.trans hp₁⟩

theorem foldlM_shuffleRound_perm {rounds : List ℕ} (hpos : 0 < validators.length) :
    ∃ l, rounds.foldlM (fun validators r => shuffleRound hashfunc seed r validators) validators
      = .ok l ∧ l.Perm validators := by
  induction rounds generalizing validators with
  | nil => exact ⟨validators, rfl, .refl _⟩
  | cons r rounds ih =>
    obtain ⟨l₁, h₁, hp₁⟩ := @shuffleRound_perm α hashfunc seed r validators hpos
    obtain ⟨l₂, h₂, hp₂⟩ := ih (hp₁.length_eq ▸ hpos)
    exact ⟨l₂, by rw [List.foldlM_cons, h₁, ok_bind, h₂], hp₂.trans hp₁⟩

/-- A list within the size bound is shuffled without a failure into a rearrangement of it. -/
theorem innerShuffleList_perm (h : validators.length ≤ maxShuffleListSize) :
    ∃ l, innerShuffleList hashfunc seed validators shuffl = .ok l ∧ l.Perm validators := by
  rw [innerShuffleList]
  split_ifs with hone hmax
  · exact ⟨validators, rfl, .refl _⟩
  · omega
  all_goals exact foldlM_shuffleRound_perm (by omega)

theorem innerShuffleList_of_gt (h : maxShuffleListSize < validators.length) :
    innerShuffleList hashfunc seed validators shuffl = .error .listSizeOutOfBounds := by
  rw [innerShuffleList, if_neg, if_pos h]
  have : 1 ≤ maxShuffleListSize := by rw [maxShuffleListSize]; omega
  omega

end

end Gwat
