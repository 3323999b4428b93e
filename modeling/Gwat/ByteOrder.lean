/-
  Hashes and addresses are ordered as their bytes, which is how `bytes.Compare` sorts them.
-/
import Gwat.Common
import Gwat.Lib.HexOrder

namespace Gwat

open GoLib List

variable {g h : Hash} {a b : Address}

theorem bytesBE_lt {k m n : ℕ} (hn : n < 256 ^ k) (h : m < n) : bytesBE k m < bytesBE k n := by
  induction k generalizing m n with
  | zero => omega
  | succ k ih =>
    have hn' : n / 256 < 256 ^ k := Nat.div_lt_of_lt_mul (by rwa [← Nat.pow_succ'])
    rw [bytesBE, bytesBE]
    rcases Nat.lt_or_ge (m / 256) (n / 256) with hhi | hhi
    · exact append_lt_append (by simp) (ih hn' hhi)
    · have heq : m / 256 = n / 256 := by omega
      rw [heq]
      refine append_left_lt (cons_lt_cons_iff.2 (.inl ?_))
      rw [UInt8.lt_iff_toNat_lt, UInt8.toNat_ofNat', UInt8.toNat_ofNat']
      omega

theorem Hash.bytes_lt (hlt : g < h) : g.bytes < h.bytes :=
  bytesBE_lt (lt_of_lt_of_eq h.isLt (by norm_num)) hlt

theorem Address.bytes_lt (hlt : a < b) : a.bytes < b.bytes :=
  bytesBE_lt (lt_of_lt_of_eq b.isLt (by norm_num)) hlt

/-- `bytes.Compare(g[:], h[:]) < 0` of two hashes. -/
def hashLess (g h : Hash) : Bool := g.bytes < h.bytes

theorem le_of_hashLess (hless : hashLess h g = false) : g ≤ h :=
  le_of_not_gt fun hlt => absurd (Hash.bytes_lt hlt) (of_decide_eq_false hless)

/-- `bytes.Compare(a[:], b[:]) < 0` of two addresses. -/
def addressLess (a b : Address) : Bool := a.bytes < b.bytes

theorem addressLess_eq_false : addressLess a b = false ↔ b ≤ a := by
  rw [addressLess, decide_eq_false_iff_not]
  refine ⟨fun h => le_of_not_gt fun hlt => h (Address.bytes_lt hlt), fun hle hlt => ?_⟩
  rcases hle.lt_or_eq with hba | rfl
  · exact List.lt_asymm hlt (Address.bytes_lt hba)
  · exact List.lt_irrefl _ hlt

end Gwat
