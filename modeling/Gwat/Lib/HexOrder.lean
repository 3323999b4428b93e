/-
  Hexadecimal strings of bytes (`hexutil.Encode`, `common.FromHex`) and their order.
-/
import Mathlib

namespace GoLib

open List

variable {n : ℕ} {a b : List UInt8}

/-! ## The lexicographic order -/

section
variable {α β : Type} [LT α] [LT β] {l l' m m' : List α}

theorem append_lt_append (hlen : l.length = l'.length) (h : l < l') : l ++ m < l' ++ m' := by
  induction l generalizing l' with
  | nil =>
    rw [length_eq_zero_iff.1 hlen.symm] at h
    exact absurd h (not_lt_nil _)
  | cons a l ih =>
    cases l' with
    | nil => exact absurd h (not_lt_nil _)
    | cons b l' =>
      rw [cons_append, cons_append, cons_lt_cons_iff]
      refine (cons_lt_cons_iff.1 h).imp_right fun ⟨hab, hl⟩ => ⟨hab, ?_⟩
      exact ih (by simpa using hlen) hl

/-- A code with words of one length that keeps the order of the letters keeps that of the lists. -/
theorem flatMap_lt {f : α → List β} {k : ℕ} (hlen : ∀ a, (f a).length = k)
    (hf : ∀ a b, a < b → f a < f b) (hl : l.length = l'.length) (h : l < l') :
    l.flatMap f < l'.flatMap f := by
  induction l generalizing l' with
  | nil =>
    rw [length_eq_zero_iff.1 hl.symm] at h
    exact absurd h (not_lt_nil _)
  | cons a l ih =>
    cases l' with
    | nil => exact absurd h (not_lt_nil _)
    | cons b l' =>
      rcases cons_lt_cons_iff.1 h with hab | ⟨rfl, hlt⟩
      · exact append_lt_append (by rw [hlen, hlen]) (hf a b hab)
      · exact append_left_lt (ih (by simpa using hl) hlt)

end

/-! ## Hexadecimal strings -/

/-- The digit of a number below 16. -/
def hexDigit (n : ℕ) : Char :=
  ['0', '1', '2', '3', '4', '5', '6', '7', '8', '9', 'a', 'b', 'c', 'd', 'e', 'f'].getD n '0'

/-- The value of a digit, in either case. -/
def hexValue (c : Char) : Option ℕ :=
  if '0' ≤ c ∧ c ≤ '9' then some (c.toNat - '0'.toNat)
  else if 'a' ≤ c ∧ c ≤ 'f' then some (c.toNat - 'a'.toNat + 10)
  else if 'A' ≤ c ∧ c ≤ 'F' then some (c.toNat - 'A'.toNat + 10)
  else none

def hexByte (b : UInt8) : List Char := [hexDigit (b.toNat / 16), hexDigit (b.toNat % 16)]

/-- `hexutil.Encode` -/
def hexEncode (b : List UInt8) : List Char := '0' :: 'x' :: b.flatMap hexByte

/-- `Hex2Bytes`: the bytes before the first error. -/
def hex2Bytes : List Char → List UInt8
  | c :: d :: s =>
    match hexValue c, hexValue d with
    | some hi, some lo => UInt8.ofNat (16 * hi + lo) :: hex2Bytes s
    | _, _ => []
  | _ => []

/-- `common.FromHex` -/
def fromHex (s : List Char) : List UInt8 :=
  let s := match s with
    | '0' :: 'x' :: s => s
    | '0' :: 'X' :: s => s
    | s => s
  hex2Bytes (if s.length % 2 = 1 then '0' :: s else s)

theorem hexValue_hexDigit (h : n < 16) : hexValue (hexDigit n) = some n := by
  interval_cases n <;> rfl

theorem hexDigit_lt {m : ℕ} (hn : n < 16) (h : m < n) : hexDigit m < hexDigit n := by
  interval_cases n <;> interval_cases m <;> decide

theorem hex2Bytes_flatMap (b : List UInt8) : hex2Bytes (b.flatMap hexByte) = b := by
  induction b with
  | nil => rfl
  | cons x b ih =>
    have hx := x.toNat_lt
    have hval : UInt8.ofNat (16 * (x.toNat / 16) + x.toNat % 16) = x := by
      rw [Nat.div_add_mod]
      exact UInt8.ofNat_toNat
    simp only [flatMap_cons, hexByte, cons_append, nil_append, hex2Bytes,
      hexValue_hexDigit (show x.toNat / 16 < 16 by omega),
      hexValue_hexDigit (show x.toNat % 16 < 16 by omega), ih, hval]

theorem fromHex_hexEncode (b : List UInt8) : fromHex (hexEncode b) = b := by
  have hlen : (b.flatMap hexByte).length % 2 = 0 := by
    simp [length_flatMap, hexByte]
  simp only [fromHex, hexEncode, hlen, zero_ne_one, if_false, hex2Bytes_flatMap]

theorem hexByte_lt (a b : UInt8) (h : a < b) : hexByte a < hexByte b := by
  have hlt := UInt8.lt_iff_toNat_lt.1 h
  have hb := b.toNat_lt
  unfold hexByte
  rcases Nat.lt_or_ge (a.toNat / 16) (b.toNat / 16) with hhi | hhi
  · exact cons_lt_cons_iff.2 (.inl (hexDigit_lt (by omega) hhi))
  · have heq : a.toNat / 16 = b.toNat / 16 := by omega
    rw [heq]
    refine cons_lt_cons_iff.2 (.inr ⟨rfl, cons_lt_cons_iff.2 (.inl ?_)⟩)
    exact hexDigit_lt (by omega) (by omega)

/-- Strings of bytes of one length and their hexadecimal strings are ordered alike. -/
theorem hexEncode_lt (hlen : a.length = b.length) (h : a < b) : hexEncode a < hexEncode b := by
  refine cons_lt_cons_iff.2 (.inr ⟨rfl, cons_lt_cons_iff.2 (.inr ⟨rfl, ?_⟩)⟩)
  exact flatMap_lt (f := hexByte) (k := 2) (fun _ => rfl) hexByte_lt hlen h

end GoLib
