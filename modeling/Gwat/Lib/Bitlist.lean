/-
  Bitlists: bits packed in bytes, least significant first, closed by a length bit.

  The length bit is the highest bit that is set in the last byte, and it is not one
  of the bits of the list.  The bytes come from the network, so the last byte may
  also be zero, and then there is no length bit.
-/
import Mathlib

namespace GoLib

open List

/-- The positions of the bits that are set in `b`. -/
def setBits (b : List UInt8) : List ℕ :=
  b.zipIdx.flatMap fun (x, i) =>
    ((List.range 8).filter fun j => x.toNat.testBit j).map (8 * i + ·)

/-- `Bitlist.BitIndices`: the positions of the bits that are set, without the length bit. -/
def bitIndices (b : List UInt8) : List ℕ :=
  if b.getLast?.getD 0 = 0 then setBits b else (setBits b).dropLast

/-- `NewBitlist`: `n` bits, none of them set. -/
def newBitlist (n : ℕ) : List UInt8 :=
  List.replicate (n / 8) 0 ++ [UInt8.ofNat (2 ^ (n % 8))]

/-- `copy(dst[:], src[:])`: the bytes of `src` over those of `dst`, as far as both go. -/
def copyOver (dst src : List UInt8) : List UInt8 := src.take dst.length ++ dst.drop src.length

theorem length_copyOver (dst src : List UInt8) : (copyOver dst src).length = dst.length := by
  simp only [copyOver, length_append, length_take, length_drop]
  omega

theorem getElem?_copyOver (dst src : List UInt8) (i : ℕ) (h : i < dst.length) :
    (copyOver dst src)[i]? = if i < src.length then src[i]? else dst[i]? := by
  unfold copyOver
  split_ifs with hi
  · rw [getElem?_append_left (by rw [length_take]; omega), getElem?_take_of_lt h]
  · rw [getElem?_append_right (by rw [length_take]; omega), getElem?_drop,
      length_take]
    congr 1
    omega

theorem take_copyOver (dst src : List UInt8) :
    (copyOver dst src).take (min src.length dst.length) = src.take dst.length :=
  take_left' (by rw [length_take, Nat.min_comm])

theorem drop_copyOver (dst src : List UInt8) :
    (copyOver dst src).drop (min src.length dst.length) = dst.drop (min src.length dst.length) := by
  rw [copyOver, drop_left' (by rw [length_take, Nat.min_comm])]
  rcases Nat.le_total src.length dst.length with h | h
  · rw [Nat.min_eq_left h]
  · rw [Nat.min_eq_right h, drop_length, drop_eq_nil_of_le h]

end GoLib
