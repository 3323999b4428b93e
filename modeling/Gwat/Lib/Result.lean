/-
  Fallible code: a Go function that returns a value and an `error` is a
  computation in `Except`, and the lemmas here peel such computations apart.

  Where the effects of a failed step stay, the code returns the error together with
  the state it leaves; `andThen` sequences such steps.
-/
import Mathlib

namespace GoLib

open List

variable {ε ε' α β : Type} {a : α} {x : Except ε α} {c : Prop} {e : ε} {u : Unit} {f : ε → ε'}
  {r b y : β}

@[simp] theorem ok_bind (a : α) (f : α → Except ε β) : (Except.ok a >>= f) = f a := rfl

@[simp] theorem error_bind (e : ε) (f : α → Except ε β) :
    ((Except.error e : Except ε α) >>= f) = .error e := rfl

@[simp] theorem pure_eq_ok (a : α) : (pure a : Except ε α) = .ok a := rfl

@[simp] theorem throw_eq_error (e : ε) : (throw e : Except ε α) = .error e := rfl

theorem return_eq_ok {x : α} : (pure (a, b) : Except ε (α × β)) = .ok (x, y) ↔ a = x ∧ b = y := by
  rw [pure_eq_ok, Except.ok.injEq, Prod.mk.injEq]

/-- `if c { return err }` -/
def failIf (c : Prop) [Decidable c] (e : ε) : Except ε Unit := if c then .error e else .ok ()

@[simp] theorem failIf_eq_ok [Decidable c] : failIf c e = .ok u ↔ ¬ c := by
  unfold failIf; split_ifs <;> simp_all

theorem failIf_of [Decidable c] (h : c) : failIf c e = .error e := if_pos h

theorem failIf_of_not [Decidable c] (h : ¬ c) : failIf c e = .ok () := if_neg h

/-- `if c { … }`, for a check that is only made in that case. -/
def checkIf (c : Prop) [Decidable c] (x : Except ε Unit) : Except ε Unit := if c then x else .ok ()

theorem checkIf_eq_ok [Decidable c] {x : Except ε Unit} :
    checkIf c x = .ok u ↔ (c → x = .ok ()) := by
  unfold checkIf; split_ifs <;> simp_all

theorem bind_eq_ok {f : α → Except ε β} : (x >>= f) = .ok r ↔ ∃ a, x = .ok a ∧ f a = .ok r := by
  cases x <;> simp

theorem bind_eq_error {f : α → Except ε β} :
    (x >>= f) = .error e ↔ x = .error e ∨ ∃ a, x = .ok a ∧ f a = .error e := by
  cases x <;> simp

theorem map_eq_ok {g : α → β} : g <$> x = .ok r ↔ ∃ a, x = .ok a ∧ g a = r := by
  cases x <;> simp

theorem any_toOption {q : α → Bool} : x.toOption.any q = true ↔ ∃ a, x = .ok a ∧ q a = true := by
  cases x <;> simp [Except.toOption]

/-- What holds of a result can be decided by computing it. -/
instance decidableExistsOk (x : Except ε α) (q : α → Prop) [DecidablePred q] :
    Decidable (∃ a, x = .ok a ∧ q a) :=
  match x with
  | .error _ => isFalse fun ⟨_, h, _⟩ => by cases h
  | .ok a => decidable_of_iff (q a) ⟨fun h => ⟨a, rfl, h⟩, fun ⟨_, h, hq⟩ => by cases h; exact hq⟩

instance decidableForallOk (x : Except ε α) (q : α → Prop) [DecidablePred q] :
    Decidable (∀ a, x = .ok a → q a) :=
  match x with
  | .error _ => isTrue fun _ h => by cases h
  | .ok a => decidable_of_iff (q a) ⟨fun h _ ha => by cases ha; exact h, fun h => h a rfl⟩

theorem mapError_eq_ok : x.mapError f = .ok a ↔ x = .ok a := by
  cases x <;> simp [Except.mapError]

theorem exists_of_mapError_eq_error {e : ε'} (h : x.mapError f = .error e) :
    ∃ e', x = .error e' := by
  cases x with
  | ok a => cases h
  | error e' => exact ⟨e', rfl⟩

/-! ## The errors of a computation -/

section
variable {P : ε → Prop} {x y : Except ε α} {f : α → Except ε β} [Decidable c]

/-- Every error of the computation satisfies `P`. -/
def Fails (P : ε → Prop) (x : Except ε α) : Prop := ∀ e, x = .error e → P e

@[simp] theorem fails_ok (a : α) : Fails P (.ok a : Except ε α) := nofun

@[simp] theorem fails_error : Fails P (.error e : Except ε α) ↔ P e := by simp [Fails]

@[simp] theorem fails_bind : Fails P (x >>= f) ↔ Fails P x ∧ ∀ a, x = .ok a → Fails P (f a) := by
  cases x <;> simp

@[simp] theorem fails_ite : Fails P (if c then x else y) ↔ (c → Fails P x) ∧ (¬ c → Fails P y) := by
  split_ifs with hc <;> simp [hc]

@[simp] theorem fails_failIf : Fails P (failIf c e) ↔ (c → P e) := by simp [failIf]

@[simp] theorem fails_checkIf {y : Except ε Unit} : Fails P (checkIf c y) ↔ (c → Fails P y) := by
  simp [checkIf]

@[simp] theorem fails_map {g : α → β} : Fails P (g <$> x) ↔ Fails P x := by
  cases x <;> simp [Fails]

@[simp] theorem fails_mapError {P : ε' → Prop} {g : ε → ε'} :
    Fails P (x.mapError g) ↔ Fails (fun e => P (g e)) x := by
  cases x <;> simp [Except.mapError]

@[simp] theorem fails_true : Fails (fun _ => True) x := fun _ _ => trivial

end

/-! ## Computations that avoid an error -/

section
variable {e e' : ε} {x x' : Except ε α} {f : α → Except ε β} {c : Prop} [Decidable c]
variable {y : Except ε Unit} {k : Unit → Except ε β}

/-- The computation does not end with the error `e`. -/
def Avoids (e : ε) (x : Except ε α) : Prop := x ≠ .error e

@[simp] theorem avoids_ok (a : α) : Avoids e (.ok a : Except ε α) := fun h => by cases h

@[simp] theorem avoids_error : Avoids e (.error e' : Except ε α) ↔ e' ≠ e := by simp [Avoids]

/-- A sequence avoids an error if its first part does, and its second part on every result. -/
@[simp low] theorem avoids_bind :
    Avoids e (x >>= f) ↔ Avoids e x ∧ ∀ a, x = .ok a → Avoids e (f a) := by
  cases x <;> simp

@[simp] theorem avoids_bind_unit :
    Avoids e (y >>= k) ↔ Avoids e y ∧ (y = .ok () → Avoids e (k ())) := by
  cases y <;> simp

theorem Avoids.bind (hx : Avoids e x) (hf : ∀ a, Avoids e (f a)) : Avoids e (x >>= f) :=
  avoids_bind.2 ⟨hx, fun a _ => hf a⟩

@[simp] theorem avoids_ite :
    Avoids e (if c then x else x') ↔ (c → Avoids e x) ∧ (¬ c → Avoids e x') := by
  split_ifs with hc <;> simp [hc]

@[simp] theorem avoids_failIf : Avoids e (failIf c e') ↔ (c → e' ≠ e) := by simp [failIf]

/-- What follows a check is only reached if the check passes. -/
theorem avoids_failIf_bind (h : e' ≠ e) :
    Avoids e (failIf c e' >>= k) ↔ (¬ c → Avoids e (k ())) := by simp [h]

@[simp] theorem avoids_checkIf : Avoids e (checkIf c y) ↔ (c → Avoids e y) := by simp [checkIf]

@[simp] theorem avoids_map {g : α → β} : Avoids e (g <$> x) ↔ Avoids e x := by
  cases x <;> simp [Avoids]

@[simp] theorem avoids_mapError {e : ε'} {g : ε → ε'} :
    Avoids e (x.mapError g) ↔ Fails (fun a => g a ≠ e) x := by
  cases x <;> simp [Except.mapError]

end

/-! ## Checks that answer yes or no -/

variable {l : List α} {f : α → Except ε β} {bs : List β}

/-- `if !c { return false, nil }`, and what the function does after it. -/
def require (c : Bool) (k : Except ε Bool) : Except ε Bool := if c then k else .ok false

theorem require_eq_true {c : Bool} {k : Except ε Bool} :
    require c k = .ok true ↔ c = true ∧ k = .ok true := by
  cases c <;> simp [require]

theorem allM_eq_true {p : α → Except ε Bool} : l.allM p = .ok true ↔ ∀ a ∈ l, p a = .ok true := by
  induction l with
  | nil => simp [allM]
  | cons a l ih =>
    rw [allM, bind_eq_ok, forall_mem_cons, ← ih]
    constructor
    · rintro ⟨b, hb, h⟩
      cases b with
      | false => cases h
      | true => exact ⟨hb, h⟩
    · rintro ⟨ha, h⟩
      exact ⟨true, ha, h⟩

theorem exists_mapM_eq_ok (h : ∀ a ∈ l, ∃ b, f a = .ok b) : ∃ bs, l.mapM f = .ok bs := by
  induction l with
  | nil => exact ⟨[], rfl⟩
  | cons a l ih =>
    obtain ⟨b, hb⟩ := h a (by simp)
    obtain ⟨bs, hbs⟩ := ih fun x hx => h x (by simp [hx])
    exact ⟨b :: bs, by rw [mapM_cons, hb, ok_bind, hbs, ok_bind, pure_eq_ok]⟩

theorem forall₂_of_mapM (h : l.mapM f = .ok bs) : Forall₂ (fun a b => f a = .ok b) l bs := by
  induction l generalizing bs with
  | nil =>
    cases h
    exact .nil
  | cons a l ih =>
    rw [mapM_cons] at h
    obtain ⟨b, hb, h⟩ := bind_eq_ok.1 h
    obtain ⟨bs, hbs, h⟩ := bind_eq_ok.1 h
    cases h
    exact .cons hb (ih hbs)

theorem mem_mapM_eq_ok (h : l.mapM f = .ok bs) : b ∈ bs ↔ ∃ a ∈ l, f a = .ok b := by
  replace h := forall₂_of_mapM h
  induction h with
  | nil => simp
  | cons hab _ ih => simp [hab, ih, eq_comm]

theorem exists_of_mapM_eq_ok (h : l.mapM f = .ok bs) (ha : a ∈ l) : ∃ b, f a = .ok b := by
  replace h := forall₂_of_mapM h
  induction h with
  | nil => cases ha
  | cons hab _ ih =>
    rcases mem_cons.1 ha with rfl | ha
    · exact ⟨_, hab⟩
    · exact ih ha

theorem isSome_mapM {f : α → Option β} : (l.mapM f).isSome ↔ ∀ a ∈ l, (f a).isSome := by
  induction l with
  | nil => simp
  | cons a l ih =>
    rw [mapM_cons, forall_mem_cons, ← ih]
    cases f a <;> cases l.mapM f <;> simp

/-! ## Steps whose effects outlive a failure -/

section
variable {σ : Type}

/-- `if err := …; err != nil { return err }`, with the effects made so far. -/
def andThen (r : Except ε Unit × σ) (f : σ → Except ε Unit × σ) : Except ε Unit × σ :=
  match r with
  | (.ok (), s) => f s
  | (.error e, s) => (.error e, s)

@[simp] theorem andThen_ok (s : σ) (f : σ → Except ε Unit × σ) : andThen (.ok (), s) f = f s := rfl

@[simp] theorem andThen_error (e : ε) (s : σ) (f : σ → Except ε Unit × σ) :
    andThen (.error e, s) f = (.error e, s) := rfl

theorem andThen_fail (r : Except ε Unit × σ) (e : ε) :
    ∃ e', andThen r (fun s => (.error e, s)) = (.error e', r.2) := by
  obtain ⟨r | _, s⟩ := r
  · exact ⟨r, rfl⟩
  · exact ⟨e, rfl⟩

end

end GoLib
