/-
  A state with a journal: snapshots, writes that can be undone, and code whose effects
  stay when it fails.
-/
import Mathlib

namespace GoLib

/-- A state, and the state that reverting to the last snapshot gives. -/
structure Journaled (σ : Type) where
  current : σ
  saved : σ

/-- Code that may fail; what it did until then stays done. -/
abbrev Act (ε σ : Type) := ExceptT ε (StateM (Journaled σ))

variable {ε σ α β : Type}

namespace Act

/-- The result and the state in which the code leaves off. -/
def exec (x : Act ε σ α) (j : Journaled σ) : Except ε α × Journaled σ := StateT.run (ExceptT.run x) j

/-- A computation on the current state that changes nothing. -/
def attempt (f : σ → Except ε α) : Act ε σ α := ExceptT.mk do
  let j ← get
  return f j.current

def write (f : σ → σ) : Act ε σ Unit := modify fun j => { j with current := f j.current }

/-- A write in place, which reaches what the journal holds. -/
def writeInPlace (f g : σ → σ) : Act ε σ Unit := modify fun j => ⟨f j.current, g j.saved⟩

/-- A step that computes the new state, or leaves `left` behind when it fails. -/
def step (left : σ → σ) (f : σ → Except ε (α × σ)) : Act ε σ α := do
  let j ← get
  match f j.current with
  | .ok (a, s) => write fun _ => s; return a
  | .error e => write left; throw e

/-- `snapshot := Snapshot(); …; if err != nil { RevertToSnapshot(snapshot) }` -/
def revertOnError (x : Act ε σ α) (s : σ) : Except ε α × σ :=
  match x.exec ⟨s, s⟩ with
  | (.ok a, j) => (.ok a, j.current)
  | (.error e, j) => (.error e, j.saved)

/-! ## Running code -/

variable {x : Act ε σ α} {f : α → Act ε σ β} {j j' : Journaled σ} {b : β} {g : σ → Except ε α}

theorem exec_bind_of_ok {a : α} (h : x.exec j = (.ok a, j')) :
    (x >>= f).exec j = (f a).exec j' := by
  unfold exec at *
  rw [ExceptT.run_bind, StateT.run_bind, h]
  rfl

theorem exec_bind_of_error {e : ε} (h : x.exec j = (.error e, j')) :
    (x >>= f).exec j = (.error e, j') := by
  unfold exec at *
  rw [ExceptT.run_bind, StateT.run_bind, h]
  rfl

theorem exec_bind_eq_ok : (x >>= f).exec j = (.ok b, j') ↔
    ∃ a j₁, x.exec j = (.ok a, j₁) ∧ (f a).exec j₁ = (.ok b, j') := by
  rcases h : x.exec j with ⟨e | a, j₁⟩
  · rw [exec_bind_of_error h]
    simp
  · rw [exec_bind_of_ok h]
    simp

@[simp] theorem exec_attempt (g : σ → Except ε α) : (attempt g).exec j = (g j.current, j) := rfl

@[simp] theorem exec_write (g : σ → σ) :
    (write g : Act ε σ Unit).exec j = (.ok (), { j with current := g j.current }) := rfl

theorem exec_attempt_bind_eq_ok : (attempt g >>= f).exec j = (.ok b, j') ↔
      ∃ a, g j.current = .ok a ∧ (f a).exec j = (.ok b, j') := by
  rw [exec_bind_eq_ok]
  constructor
  · rintro ⟨a, j₁, hg, hf⟩
    obtain ⟨ha, rfl⟩ := Prod.mk.inj hg
    exact ⟨a, ha, hf⟩
  · rintro ⟨a, ha, hf⟩
    exact ⟨a, j, by rw [exec_attempt, ha], hf⟩

theorem exec_attempt_bind_of_ok {a : α} (h : g j.current = .ok a) :
    (attempt g >>= f).exec j = (f a).exec j :=
  exec_bind_of_ok (by rw [exec_attempt, h])

theorem exec_write_bind (g : σ → σ) (h : Unit → Act ε σ β) :
    (write g >>= h).exec j = (h ()).exec { j with current := g j.current } :=
  exec_bind_of_ok (exec_write g)

theorem exec_step (left : σ → σ) (g : σ → Except ε (α × σ)) : (step left g).exec j =
    match g j.current with
    | .ok (a, s) => (.ok a, { j with current := s })
    | .error e => (.error e, { j with current := left j.current }) := by
  unfold step
  change (match g j.current with
    | .ok (a, s) => write (fun _ => s) >>= fun _ => pure a
    | .error e => write left >>= fun _ => throw e).exec j = _
  rcases g j.current with e | ⟨a, s⟩ <;> rfl

/-! ## Code that can be undone -/

/-- The code writes through the journal only. -/
def Journals (x : Act ε σ α) : Prop := ∀ j, (x.exec j).2.saved = j.saved

/-- When the code fails, the snapshot is still intact. -/
def Undoable (x : Act ε σ α) : Prop := ∀ j e j', x.exec j = (.error e, j') → j'.saved = j.saved

def Succeeds (x : Act ε σ α) : Prop := ∀ j, ∃ a j', x.exec j = (.ok a, j')

theorem Journals.undoable (h : Journals x) : Undoable x := by
  intro j e j' hx
  have hj := h j
  rwa [hx] at hj

theorem Succeeds.undoable (h : Succeeds x) : Undoable x := by
  intro j e j' hx
  obtain ⟨a, j₁, hj⟩ := h j
  rw [hj] at hx
  cases hx

@[simp] theorem journals_pure (a : α) : Journals (pure a : Act ε σ α) := fun _ => rfl

@[simp] theorem journals_attempt (g : σ → Except ε α) : Journals (attempt g) := fun _ => rfl

@[simp] theorem journals_write (g : σ → σ) : Journals (write g : Act ε σ Unit) := fun _ => rfl

@[simp] theorem journals_step (left : σ → σ) (g : σ → Except ε (α × σ)) : Journals (step left g) := by
  intro j
  rw [exec_step]
  rcases g j.current with e | ⟨a, s⟩ <;> rfl

theorem Journals.bind (hx : Journals x) (hf : ∀ a, Journals (f a)) : Journals (x >>= f) := by
  intro j
  have hj := hx j
  rcases h : x.exec j with ⟨e | a, j'⟩
  · rw [exec_bind_of_error h]
    rwa [h] at hj
  · rw [exec_bind_of_ok h, hf a j']
    rwa [h] at hj

/-- Journaled code may run before code that can be undone. -/
theorem Journals.bind_undoable (hx : Journals x) (hf : ∀ a, Undoable (f a)) :
    Undoable (x >>= f) := by
  intro j e j' h
  have hj := hx j
  rcases hxj : x.exec j with ⟨e₁ | a, j₁⟩
  · rw [exec_bind_of_error hxj] at h
    rw [hxj] at hj
    cases h
    exact hj
  · rw [exec_bind_of_ok hxj] at h
    rw [hxj] at hj
    exact (hf a j₁ e j' h).trans hj

/-! ## Invariants -/

/-- The code keeps a property of the current state, also when it fails. -/
def Preserves (I : σ → Prop) (x : Act ε σ α) : Prop :=
  ∀ j, I j.current → I (x.exec j).2.current

section
variable {I : σ → Prop}

theorem preserves_pure (a : α) : Preserves I (pure a : Act ε σ α) := fun _ h => h

theorem preserves_attempt (g : σ → Except ε α) : Preserves I (attempt g) := fun _ h => h

theorem preserves_write {g : σ → σ} (h : ∀ s, I s → I (g s)) :
    Preserves I (write g : Act ε σ Unit) := fun j hj => h j.current hj

theorem Preserves.bind (hx : Preserves I x) (hf : ∀ a, Preserves I (f a)) :
    Preserves I (x >>= f) := by
  intro j hj
  have hj' := hx j hj
  rcases h : x.exec j with ⟨e | a, j'⟩
  · rw [exec_bind_of_error h]
    rwa [h] at hj'
  · rw [exec_bind_of_ok h]
    rw [h] at hj'
    exact hf a j' hj'

end

/-! ## Snapshots -/

variable {s s' : σ} {e : ε} {a : α}

/-- A failed run leaves no trace. -/
theorem revertOnError_of_error (hx : Undoable x) (h : revertOnError x s = (.error e, s')) :
    s' = s := by
  unfold revertOnError at h
  rcases hxs : x.exec ⟨s, s⟩ with ⟨e' | a, j⟩
  · rw [hxs] at h
    cases h
    exact hx _ _ _ hxs
  · rw [hxs] at h
    cases h

theorem Preserves.revertOnError {I : σ → Prop} (hx : Preserves I x) (hj : Journals x) (hs : I s) :
    I (revertOnError x s).2 := by
  have hcur := hx ⟨s, s⟩ hs
  have hsaved := hj ⟨s, s⟩
  unfold Act.revertOnError
  rcases h : x.exec ⟨s, s⟩ with ⟨e | a, j⟩
  · rw [h] at hsaved
    change I j.saved
    rwa [show j.saved = s from hsaved]
  · rw [h] at hcur
    exact hcur

theorem exec_of_revertOnError (h : revertOnError x s = (.ok a, s')) :
    ∃ j, x.exec ⟨s, s⟩ = (.ok a, j) ∧ j.current = s' := by
  unfold revertOnError at h
  rcases hxs : x.exec ⟨s, s⟩ with ⟨e | a', j⟩
  · rw [hxs] at h
    cases h
  · rw [hxs] at h
    obtain ⟨ha, hj⟩ := Prod.mk.inj h
    exact ⟨j, by rw [ha], hj⟩

end Act

end GoLib
