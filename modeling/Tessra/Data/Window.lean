import Mathlib.Data.List.Basic

namespace Tessra.Data

/-! The last entries of a list that grows at its end. -/

variable {α : Type} {n : ℕ} {l : List α} {x : α}

/-- The last entries, at most so many. -/
def window (n : ℕ) (l : List α) : List α := l.drop (l.length - n)

/-- Put in last, and if there are too many take out the first. -/
def pushWithin (n : ℕ) (l : List α) (x : α) : List α :=
  if n < (l ++ [x]).length then (l ++ [x]).tail else l ++ [x]

theorem window_of_le (h : l.length ≤ n) : window n l = l := by
  rw [window, Nat.sub_eq_zero_of_le h, List.drop_zero]

@[simp] theorem window_nil (n : ℕ) : window n ([] : List α) = [] := by simp [window]

/-- Pushed one by one, the last entries are kept. -/
theorem pushWithin_window (n : ℕ) (l : List α) (x : α) :
    pushWithin n (window n l) x = window n (l ++ [x]) := by
  rcases Nat.lt_or_ge l.length n with hlt | hge
  · have hlength : (l ++ [x]).length ≤ n := by
      rw [List.length_append, List.length_singleton]
      exact hlt
    rw [window_of_le (Nat.le_of_lt hlt), window_of_le hlength, pushWithin,
      if_neg (Nat.not_lt.mpr hlength)]
  · have hdrop : window n l ++ [x] = (l ++ [x]).drop (l.length - n) :=
      (List.drop_append_of_le_length (Nat.sub_le _ _)).symm
    have hmany : n < (window n l ++ [x]).length := by
      rw [hdrop, List.length_drop, List.length_append, List.length_singleton]
      omega
    rw [pushWithin, if_pos hmany, hdrop, List.tail_drop, window, List.length_append,
      List.length_singleton, Nat.sub_add_comm hge]

theorem mem_window_of_suffix {pre post : List α} (hl : l = pre ++ x :: post)
    (h : post.length < n) : x ∈ window n l := by
  have hle : l.length - n ≤ pre.length := by
    rw [hl, List.length_append, List.length_cons]
    omega
  rw [window, hl, ← hl, hl, List.drop_append_of_le_length (hl ▸ hle)]
  exact List.mem_append_right _ List.mem_cons_self

/-- Between two equal entries there are so many others. -/
def Spaced (n : ℕ) (l : List α) : Prop :=
  ∀ pre mid post x, l = pre ++ x :: (mid ++ x :: post) → n ≤ mid.length

theorem spaced_nil (n : ℕ) : Spaced n ([] : List α) := by
  intro pre mid post x h
  simp at h

/-- An entry that is not among the last ones can follow. -/
theorem Spaced.concat (h : Spaced n l) (hx : x ∉ window n l) : Spaced n (l ++ [x]) := by
  intro pre mid post y heq
  rcases List.eq_nil_or_concat post with rfl | ⟨post, last, rfl⟩
  · have hsplit : l ++ [x] = (pre ++ y :: mid) ++ [y] := by rw [heq]; simp
    obtain ⟨hl, hy⟩ := List.append_inj' hsplit rfl
    obtain rfl := List.singleton_inj.mp hy
    by_contra hfew
    exact hx (mem_window_of_suffix hl (Nat.lt_of_not_le hfew))
  · have hsplit : l ++ [x] = (pre ++ y :: (mid ++ y :: post)) ++ [last] := by
      rw [heq]
      simp
    exact h pre mid post y (List.append_inj' hsplit rfl).1

end Tessra.Data
