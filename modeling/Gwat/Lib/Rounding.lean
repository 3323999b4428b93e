/-
  Rounding of `big.Float` (`math/big`): a number is kept with a given count of significant bits,
  to the nearest such number, and to the one with an even last bit if two are as near.
-/
import Mathlib

namespace GoLib

/-- The bits that are dropped when `m` is rounded to `p` bits. -/
def droppedBits (p m : ℕ) : ℕ := m.size - p

/-- `m / 2 ^ e`, rounded to the nearest integer, halves to the even one. -/
def roundShift (e m : ℕ) : ℕ :=
  if 2 * (m % 2 ^ e) < 2 ^ e ∨ 2 * (m % 2 ^ e) = 2 ^ e ∧ m / 2 ^ e % 2 = 0 then m / 2 ^ e
  else m / 2 ^ e + 1

/-- `m` rounded to `p` significant bits. -/
def roundBits (p m : ℕ) : ℕ := roundShift (droppedBits p m) m * 2 ^ droppedBits p m

variable {e k m p x : ℕ}

theorem div_le_roundShift : m / 2 ^ e ≤ roundShift e m := by
  unfold roundShift
  split_ifs <;> omega

theorem two_mul_roundShift_le : 2 * (roundShift e m * 2 ^ e) ≤ 2 * m + 2 ^ e := by
  have hdiv : 2 ^ e * (m / 2 ^ e) + m % 2 ^ e = m := Nat.div_add_mod m (2 ^ e)
  have hcomm : m / 2 ^ e * 2 ^ e = 2 ^ e * (m / 2 ^ e) := Nat.mul_comm _ _
  unfold roundShift
  split_ifs with hlow
  · omega
  · rw [Nat.add_mul, one_mul]
    omega

/-- Rounding errs by at most half a unit in the last place. -/
theorem two_mul_roundBits_le : 2 * roundBits p m ≤ 2 * m + 2 ^ droppedBits p m :=
  two_mul_roundShift_le

/-- A lower bound with at most `p` significant bits is one of the rounded number. -/
theorem le_roundBits (hx : x < 2 ^ p) (hle : x * 2 ^ k ≤ m) : x * 2 ^ k ≤ roundBits p m := by
  unfold roundBits
  set e := droppedBits p m with he
  have hquot : m / 2 ^ e * 2 ^ e ≤ roundShift e m * 2 ^ e :=
    Nat.mul_le_mul_right _ div_le_roundShift
  refine le_trans ?_ hquot
  rcases le_or_gt e k with hek | hke
  · -- the bound is a multiple of the last place
    have hpow : 2 ^ k = 2 ^ (k - e) * 2 ^ e := by rw [← pow_add, Nat.sub_add_cancel hek]
    rw [hpow, ← mul_assoc] at hle ⊢
    exact Nat.mul_le_mul_right _ ((Nat.le_div_iff_mul_le (by positivity)).2 hle)
  · -- the bound is below the highest bit
    have hsize : p + e = m.size := by
      have : m.size - p = e := he.symm
      omega
    have hm : 2 ^ (p + e - 1) ≤ m := Nat.lt_size.1 (by omega)
    have hbound : x * 2 ^ k ≤ 2 ^ (p + e - 1) :=
      calc x * 2 ^ k ≤ 2 ^ p * 2 ^ (e - 1) :=
            Nat.mul_le_mul hx.le (Nat.pow_le_pow_right (by norm_num) (by omega))
        _ = 2 ^ (p + e - 1) := by rw [← pow_add]; congr 1; omega
    rcases Nat.eq_zero_or_pos p with rfl | hp
    · have hx0 : x = 0 := by simpa using hx
      simp [hx0]
    · have hpow : 2 ^ (p + e - 1) = 2 ^ (p - 1) * 2 ^ e := by rw [← pow_add]; congr 1; omega
      rw [hpow] at hm hbound
      exact hbound.trans (Nat.mul_le_mul_right _ ((Nat.le_div_iff_mul_le (by positivity)).2 hm))

end GoLib
