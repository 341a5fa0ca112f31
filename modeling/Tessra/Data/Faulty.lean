import Mathlib

namespace Tessra.Data

universe u

/-! Computations over a state that may fail, and keep what they did when they do. -/

abbrev Faulty (ε σ α : Type u) := ExceptT ε (StateM σ) α

namespace Faulty

variable {ε σ α β : Type u} {x : Faulty ε σ α} {f : α → Faulty ε σ β} {s : σ} {a : α} {e : ε}

/-- What the computation returns, or how it fails. -/
def value (x : Faulty ε σ α) (s : σ) : Except ε α := (x s).1

/-- The state it leaves behind, whether it fails or not. -/
def after (x : Faulty ε σ α) (s : σ) : σ := (x s).2

/-- The computation that does what a function of the state says. -/
def ofFun (f : σ → Except ε α × σ) : Faulty ε σ α := f

/-- Carry on with the outcome of a computation instead of failing. -/
def attempt (x : Faulty ε σ α) : Faulty ε σ (Except ε α) := ofFun fun s =>
  (.ok (x.value s), x.after s)

/-- Look at the state. -/
def read (f : σ → Except ε α) : Faulty ε σ α := ofFun fun s => (f s, s)

def ofResult (x : Except ε α) : Faulty ε σ α := read fun _ => x

@[simp] theorem value_read (f : σ → Except ε α) : (read f).value s = f s := rfl

@[simp] theorem after_read (f : σ → Except ε α) : (read f).after s = s := rfl

@[simp] theorem value_ofResult (r : Except ε α) : (ofResult r : Faulty ε σ α).value s = r := rfl

@[simp] theorem after_ofResult (r : Except ε α) : (ofResult r : Faulty ε σ α).after s = s := rfl

@[simp] theorem value_ofFun (f : σ → Except ε α × σ) : (ofFun f).value s = (f s).1 := rfl

@[simp] theorem after_ofFun (f : σ → Except ε α × σ) : (ofFun f).after s = (f s).2 := rfl

@[simp] theorem value_pure (a : α) : (pure a : Faulty ε σ α).value s = .ok a := rfl

@[simp] theorem after_pure (a : α) : (pure a : Faulty ε σ α).after s = s := rfl

@[simp] theorem value_throw (e : ε) : (throw e : Faulty ε σ α).value s = .error e := rfl

@[simp] theorem after_throw (e : ε) : (throw e : Faulty ε σ α).after s = s := rfl

theorem bind_of_ok (h : x.value s = .ok a) :
    (x >>= f).value s = (f a).value (x.after s) ∧
      (x >>= f).after s = (f a).after (x.after s) := by
  rcases hrun : x s with ⟨v, s'⟩
  have hv : v = .ok a := by simpa [value, hrun] using h
  subst hv
  have hbind : (x >>= f) s = f a s' := by
    change ExceptT.bind x f s = f a s'
    simp [ExceptT.bind, ExceptT.mk, Bind.bind, StateT.bind, hrun, ExceptT.bindCont]
  simp [value, after, hrun, hbind]

theorem bind_of_error (h : x.value s = .error e) :
    (x >>= f).value s = .error e ∧ (x >>= f).after s = x.after s := by
  rcases hrun : x s with ⟨v, s'⟩
  have hv : v = .error e := by simpa [value, hrun] using h
  subst hv
  have hbind : (x >>= f) s = (.error e, s') := by
    change ExceptT.bind x f s = (.error e, s')
    simp [ExceptT.bind, ExceptT.mk, Bind.bind, StateT.bind, hrun, ExceptT.bindCont, pure,
      StateT.pure]
  simp [value, after, hrun, hbind]

theorem bind_ok {b : β} (h : (x >>= f).value s = .ok b) :
    ∃ a, x.value s = .ok a ∧ (f a).value (x.after s) = .ok b ∧
      (x >>= f).after s = (f a).after (x.after s) := by
  cases hx : x.value s with
  | ok a =>
      obtain ⟨hvalue, hafter⟩ := bind_of_ok (f := f) hx
      exact ⟨a, rfl, hvalue ▸ h, hafter⟩
  | error e =>
      rw [(bind_of_error (f := f) hx).1] at h
      cases h

theorem after_map (g : α → β) (x : Faulty ε σ α) (s : σ) : (g <$> x).after s = x.after s := by
  rw [map_eq_pure_bind]
  cases hx : x.value s with
  | error e => exact (bind_of_error hx).2
  | ok a => exact (bind_of_ok hx).2

/-- The result of the computation and the state it leaves have a property. -/
def Yields (x : Faulty ε σ α) (s : σ) (P : Except ε α → σ → Prop) : Prop :=
  P (x.value s) (x.after s)

/-- A sequence fails with its first part, or does its second after it. -/
theorem yields_bind {P : Except ε β → σ → Prop}
    (herror : ∀ e, x.value s = .error e → P (.error e) (x.after s))
    (hok : ∀ a, x.value s = .ok a → (f a).Yields (x.after s) P) : (x >>= f).Yields s P := by
  cases hx : x.value s with
  | error e =>
      obtain ⟨hvalue, hafter⟩ := bind_of_error (f := f) hx
      rw [Yields, hvalue, hafter]
      exact herror e hx
  | ok a =>
      obtain ⟨hvalue, hafter⟩ := bind_of_ok (f := f) hx
      rw [Yields, hvalue, hafter]
      exact hok a hx

theorem Yields.mono {P Q : Except ε α → σ → Prop} (h : x.Yields s P)
    (himp : ∀ r s', P r s' → Q r s') : x.Yields s Q := himp _ _ h

/-- Every run of the computation moves the state along a relation. -/
def Moves (R : σ → σ → Prop) (x : Faulty ε σ α) : Prop := ∀ s, R s (x.after s)

section Moves

variable {R : σ → σ → Prop}

theorem Moves.mono {R' : σ → σ → Prop} (h : x.Moves R) (himp : ∀ s s', R s s' → R' s s') :
    x.Moves R' := fun s => himp s _ (h s)

section Bind

variable [IsTrans σ R]

theorem Moves.bind (hx : x.Moves R) (hf : ∀ a, (f a).Moves R) : (x >>= f).Moves R := by
  intro s
  cases hvalue : x.value s with
  | ok a =>
      rw [(bind_of_ok hvalue).2]
      exact trans_of R (hx s) (hf a _)
  | error e =>
      rw [(bind_of_error hvalue).2]
      exact hx s

end Bind

variable [Std.Refl R]

theorem moves_pure (a : α) : (pure a : Faulty ε σ α).Moves R := fun s => refl_of R s

variable [IsTrans σ R]

theorem Moves.foldlM {γ : Type u} {f : β → γ → Faulty ε σ β} (hf : ∀ b c, (f b c).Moves R)
    (l : List γ) (b : β) : (l.foldlM f b).Moves R := by
  induction l generalizing b with
  | nil => exact moves_pure b
  | cons c rest ih =>
      rw [List.foldlM_cons]
      exact (hf b c).bind ih

end Moves

end Faulty

end Tessra.Data
