/-
  Programs over a byte device, and byte arrays as the simplest device.

  A program is the tree of the reads and writes it makes.  It can be run on any device;
  two devices that answer alike under an abstraction run every program alike
  (`ByteProg.run_refines`), so code over a buffered device can be reasoned about as code
  over an array of bytes.
-/
import Gwat.Lib.Result

namespace GoLib

open List

/-! ## Byte arrays -/

abbrev Mem := ℕ → UInt8

namespace Mem

variable {m : Mem} {off n : ℕ} {b : List UInt8}
variable {i off' : ℕ} {c : List UInt8}

/-- The `n` bytes from `off` on. -/
def read (m : Mem) (off n : ℕ) : List UInt8 := (List.range n).map fun i => m (off + i)

/-- The array with the bytes of `b` from `off` on. -/
def write (m : Mem) (off : ℕ) (b : List UInt8) : Mem := fun i =>
  if off ≤ i then (b[i - off]?).getD (m i) else m i

@[simp] theorem length_read (m : Mem) (off n : ℕ) : (m.read off n).length = n := by simp [read]

@[simp] theorem getElem_read (h : i < (m.read off n).length) : (m.read off n)[i] = m (off + i) := by
  simp [read]

@[simp] theorem write_nil (m : Mem) (off : ℕ) : m.write off [] = m := by
  funext i
  simp [write]

theorem read_add (m : Mem) (off k n : ℕ) :
    m.read off (k + n) = m.read off k ++ m.read (off + k) n := by
  simp [read, range_add, Nat.add_assoc]

theorem write_of_lt (h : i < off) : m.write off b i = m i := by
  simp [write, Nat.not_le.2 h]

theorem write_of_ge (h : off + b.length ≤ i) : m.write off b i = m i := by
  have hlen : b.length ≤ i - off := by omega
  simp [write, getElem?_eq_none hlen]

theorem write_of_mem (h : i < b.length) : m.write off b (off + i) = b[i] := by
  simp [write, getElem?_eq_getElem h]

theorem read_write (m : Mem) (off : ℕ) (b : List UInt8) :
    (m.write off b).read off b.length = b := by
  apply ext_getElem (by simp)
  intro i hi _
  have hi' : i < b.length := by simpa using hi
  simp [read, write_of_mem hi']

theorem read_write_of_disjoint (h : off' + n ≤ off ∨ off + b.length ≤ off') :
    (m.write off b).read off' n = m.read off' n := by
  apply map_congr_left
  intro i hi
  have hi' := mem_range.1 hi
  rcases h with h | h
  · exact write_of_lt (by omega)
  · exact write_of_ge (by omega)

theorem write_append (m : Mem) (off : ℕ) (b c : List UInt8) :
    m.write off (b ++ c) = (m.write off b).write (off + b.length) c := by
  funext i
  rcases Nat.lt_or_ge i (off + b.length) with h | h
  · rw [write_of_lt h]
    rcases Nat.lt_or_ge i off with h' | h'
    · rw [write_of_lt h', write_of_lt h']
    · simp [write, h', getElem?_append_left (show i - off < b.length by omega)]
  · have hoff : off ≤ i := by omega
    have hsub : i - off - b.length = i - (off + b.length) := by omega
    simp only [write, hoff, h, if_true, getElem?_append_right (show b.length ≤ i - off by omega),
      hsub, getElem?_eq_none (show b.length ≤ i - off by omega), Option.getD_none]

/-- The bytes of `b` stand at `off`. -/
def Holds (m : Mem) (off : ℕ) (b : List UInt8) : Prop := m.read off b.length = b

theorem holds_write (m : Mem) (off : ℕ) (b : List UInt8) : (m.write off b).Holds off b :=
  read_write m off b

theorem holds_append : m.Holds off (b ++ c) ↔ m.Holds off b ∧ m.Holds (off + b.length) c := by
  unfold Holds
  rw [length_append, read_add]
  constructor
  · intro h
    exact append_inj h (by simp)
  · rintro ⟨hb, hc⟩
    rw [hb, hc]

theorem holds_cons {x : UInt8} : m.Holds off (x :: b) ↔ m.Holds off [x] ∧ m.Holds (off + 1) b :=
  holds_append (b := [x])

theorem Holds.write_of_disjoint (h : m.Holds off b)
    (hd : off + b.length ≤ off' ∨ off' + c.length ≤ off) : (m.write off' c).Holds off b := by
  unfold Holds
  rw [read_write_of_disjoint hd]
  exact h

end Mem

/-! ## Programs -/

/-- A program over a byte device: the tree of its reads and writes. -/
inductive ByteProg (ε α : Type) where
  | ret (a : α)
  | fail (e : ε)
  | readAt (n : ℕ) (off : ℤ) (next : List UInt8 → ByteProg ε α)
  | writeAt (b : List UInt8) (off : ℤ) (next : ByteProg ε α)

/-- A device that serves reads and writes at an offset. -/
structure Device (ε σ : Type) where
  readAt : ℕ → ℤ → σ → Except ε (List UInt8 × σ)
  writeAt : List UInt8 → ℤ → σ → Except ε σ

namespace ByteProg

variable {ε σ τ α β : Type}

def bind : ByteProg ε α → (α → ByteProg ε β) → ByteProg ε β
  | ret a, f => f a
  | fail e, _ => fail e
  | readAt n off next, f => readAt n off fun b => (next b).bind f
  | writeAt b off next, f => writeAt b off (next.bind f)

instance : Monad (ByteProg ε) where
  pure := ret
  bind := bind

instance : LawfulMonad (ByteProg ε) := LawfulMonad.mk' _
  (fun prog => by
    change prog.bind ret = prog
    induction prog with
    | ret a => rfl
    | fail e => rfl
    | readAt n off next ih => exact congrArg (readAt n off) (funext ih)
    | writeAt b off next ih => exact congrArg (writeAt b off) ih)
  (fun _ _ => rfl)
  (fun prog f g => by
    change (prog.bind f).bind g = prog.bind fun a => (f a).bind g
    induction prog with
    | ret a => rfl
    | fail e => rfl
    | readAt n off next ih => exact congrArg (readAt n off) (funext ih)
    | writeAt b off next ih => exact congrArg (writeAt b off) ih)

def read (n : ℕ) (off : ℤ) : ByteProg ε (List UInt8) := readAt n off ret

def write (b : List UInt8) (off : ℤ) : ByteProg ε Unit := writeAt b off (ret ())

/-- A computation that does not use the device. -/
def ofExcept : Except ε α → ByteProg ε α
  | .ok a => ret a
  | .error e => fail e

/-- The program on a device in a state. -/
def run (d : Device ε σ) : ByteProg ε α → σ → Except ε (α × σ)
  | ret a, s => .ok (a, s)
  | fail e, _ => .error e
  | readAt n off next, s => do
    let r ← d.readAt n off s
    (next r.1).run d r.2
  | writeAt b off next, s => do
    let s ← d.writeAt b off s
    next.run d s

section
variable {d : Device ε σ} {s : σ}
variable {f : α → ByteProg ε β} {s' : σ} {b : β}

@[simp] theorem run_pure (a : α) : (pure a : ByteProg ε α).run d s = .ok (a, s) := rfl

@[simp] theorem run_ofExcept (x : Except ε α) :
    (ofExcept x).run d s = x.map fun a => (a, s) := by
  cases x <;> rfl

@[simp] theorem run_read (n : ℕ) (off : ℤ) : (read n off).run d s = d.readAt n off s := by
  change d.readAt n off s >>= (fun r => Except.ok (r.1, r.2)) = _
  cases d.readAt n off s <;> rfl

@[simp] theorem run_write (b : List UInt8) (off : ℤ) :
    (write b off).run d s = (d.writeAt b off s).map fun s' => ((), s') := by
  change d.writeAt b off s >>= (fun s' => Except.ok ((), s')) = _
  cases d.writeAt b off s <;> rfl

theorem run_bind (p : ByteProg ε α) (f : α → ByteProg ε β) (s : σ) :
    (p >>= f).run d s = p.run d s >>= fun r => (f r.1).run d r.2 := by
  change (p.bind f).run d s = _
  induction p generalizing s with
  | ret a => rfl
  | fail e => rfl
  | readAt n off next ih =>
    simp only [ByteProg.bind, run]
    cases d.readAt n off s with
    | error e => rfl
    | ok r => exact ih r.1 r.2
  | writeAt b off next ih =>
    simp only [ByteProg.bind, run]
    cases d.writeAt b off s with
    | error e => rfl
    | ok s' => exact ih s'

theorem run_bind_eq_ok {p : ByteProg ε α} : (p >>= f).run d s = .ok (b, s') ↔
      ∃ a s₁, p.run d s = .ok (a, s₁) ∧ (f a).run d s₁ = .ok (b, s') := by
  rw [run_bind, bind_eq_ok]
  constructor
  · rintro ⟨⟨a, s₁⟩, h, h'⟩
    exact ⟨a, s₁, h, h'⟩
  · rintro ⟨a, s₁, h, h'⟩
    exact ⟨(a, s₁), h, h'⟩

theorem run_ofExcept_bind_eq_ok {x : Except ε α} :
    (ofExcept x >>= f).run d s = .ok (b, s') ↔ ∃ a, x = .ok a ∧ (f a).run d s = .ok (b, s') := by
  rw [run_bind, run_ofExcept]
  cases x <;> simp [Except.map]

theorem run_check_bind_of_not {c : Prop} [Decidable c] {e : ε} {f : Unit → ByteProg ε β}
    (h : ¬ c) : (ofExcept (failIf c e) >>= f).run d s = (f ()).run d s := by
  rw [failIf_of_not h]
  rfl

end

end ByteProg

/-! ## Refinement of devices -/

/-- The first device answers as the second does on what `view` shows of its state. -/
structure Device.Refines {ε σ τ : Type} (d : Device ε σ) (d' : Device ε τ) (view : σ → τ) :
    Prop where
  readAt : ∀ n off s, (d.readAt n off s).map (fun r => (r.1, view r.2)) = d'.readAt n off (view s)
  writeAt : ∀ b off s, (d.writeAt b off s).map view = d'.writeAt b off (view s)

/-- Every program runs alike on a device and on the one it refines. -/
theorem ByteProg.run_refines {ε σ τ α : Type} {d : Device ε σ} {d' : Device ε τ} {view : σ → τ}
    (hd : d.Refines d' view) (p : ByteProg ε α) (s : σ) :
    (p.run d s).map (fun r => (r.1, view r.2)) = p.run d' (view s) := by
  induction p generalizing s with
  | ret a => rfl
  | fail e => rfl
  | readAt n off next ih =>
    simp only [run, ← hd.readAt n off s]
    cases d.readAt n off s with
    | error e => rfl
    | ok r => exact ih r.1 r.2
  | writeAt b off next ih =>
    simp only [run, ← hd.writeAt b off s]
    cases d.writeAt b off s with
    | error e => rfl
    | ok s' => exact ih s'

/-- What every access keeps, a run keeps. -/
theorem ByteProg.run_keeps {ε σ α κ : Type} {d : Device ε σ} (view : σ → κ)
    (hread : ∀ {n off s r}, d.readAt n off s = .ok r → view r.2 = view s)
    (hwrite : ∀ {b off s s'}, d.writeAt b off s = .ok s' → view s' = view s)
    {p : ByteProg ε α} {s s' : σ} {a : α} (h : p.run d s = .ok (a, s')) : view s' = view s := by
  induction p generalizing s with
  | ret a =>
    obtain ⟨-, rfl⟩ := Prod.mk.inj (Except.ok.inj h)
    rfl
  | fail e => cases h
  | readAt n off next ih =>
    obtain ⟨r, hr, h⟩ := bind_eq_ok.1 h
    exact (ih r.1 h).trans (hread hr)
  | writeAt b off next ih =>
    obtain ⟨s₁, hs₁, h⟩ := bind_eq_ok.1 h
    exact (ih h).trans (hwrite hs₁)

/-- An array of `size` bytes as a device, with the errors for offsets before it and
    beyond it. -/
def Mem.device {ε : Type} (size : ℕ) (before beyond : ε) : Device ε Mem where
  readAt n off m :=
    if off < 0 then .error before
    else if n ≠ 0 ∧ size < off.toNat + n then .error beyond
    else .ok (m.read off.toNat n, m)
  writeAt b off m :=
    if off < 0 then .error before
    else if b ≠ [] ∧ size < off.toNat + b.length then .error beyond
    else .ok (m.write off.toNat b)

section
variable {ε : Type} {size : ℕ} {before beyond : ε} {m m' : Mem} {n : ℕ} {b : List UInt8}

theorem Mem.run_read_of_le {off : ℕ} (h : off + n ≤ size) :
    (ByteProg.read n (off : ℤ)).run (Mem.device size before beyond) m = .ok (m.read off n, m) := by
  rw [ByteProg.run_read, Mem.device]
  simp only [Int.toNat_natCast]
  rw [if_neg (by omega), if_neg (by omega)]

theorem Mem.run_write_of_le {off : ℕ} (h : off + b.length ≤ size) :
    (ByteProg.write b (off : ℤ)).run (Mem.device size before beyond) m =
      .ok ((), m.write off b) := by
  rw [ByteProg.run_write, Mem.device]
  simp only [Int.toNat_natCast]
  rw [if_neg (by omega), if_neg (by omega)]
  rfl

theorem Mem.run_read_eq_ok {off : ℤ}
    (h : (ByteProg.read n off).run (Mem.device size before beyond) m = .ok (b, m')) :
    0 ≤ off ∧ b = m.read off.toNat n ∧ m' = m := by
  rw [ByteProg.run_read, Mem.device] at h
  simp only at h
  split_ifs at h with hneg hout
  cases h
  exact ⟨Int.not_lt.1 hneg, rfl, rfl⟩

end

end GoLib
