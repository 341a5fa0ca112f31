import Mathlib

namespace Tessra.Data

/-! Histories, newest entry first, in which some entries undo: they leave the key
of the entry before them for an earlier one. -/

section Undo

variable {α κ : Type} [DecidableEq κ] (key : α → κ) (undo : α → Bool)

/-- The newest entry of another key than the newest entry. -/
def back : List α → Option α
  | [] => none
  | x :: older => older.find? fun y => key y ≠ key x

/-- The entry that brought the key of the newest one: the oldest of those of the
same key that nothing separates from it. -/
def arrival : List α → Option α
  | [] => none
  | x :: older => if older.head?.any (key · = key x) then arrival older else some x

/-- Whether an undo has left the key since the newest entry brought it back that
is no undo. -/
def leftSince (k : κ) : List α → Bool
  | [] => false
  | x :: older =>
      if undo x then older.head?.any (key · = k) || leftSince k older
      else key x ≠ k && leftSince k older

/-- Every undo changed the key, to one that was not left by an undo before. -/
def Onward : List α → Prop
  | [] => True
  | x :: older => (undo x = true → leftSince key undo (key x) older = false ∧
      ∀ y ∈ older.head?, key y ≠ key x) ∧ Onward older

variable {key undo} {x y b : α} {older : List α}

theorem arrival_cons_of_eq (h : key y = key x) :
    arrival key (x :: y :: older) = arrival key (y :: older) := by
  rw [arrival]
  simp [h]

theorem arrival_cons_of_ne (h : key y ≠ key x) : arrival key (x :: y :: older) = some x := by
  rw [arrival]
  simp [h]

theorem back_ne (h : back key (x :: older) = some b) : key b ≠ key x := by
  have hfound := List.find?_some h
  exact of_decide_eq_true hfound

theorem leftSince_head (h : Onward key undo (x :: older)) :
    leftSince key undo (key x) (x :: older) = false := by
  unfold leftSince
  cases hundo : undo x with
  | false => simp
  | true =>
      obtain ⟨hleft, hchanged⟩ := h.1 hundo
      have hhead : older.head?.any (key · = key x) = false := by
        rw [Option.any_eq_false]
        intro y hy
        simpa using hchanged y hy
      simp [hhead, hleft]

/-- An undo has left the key that one goes back to exactly if an undo brought the
present one. -/
theorem leftSince_back (h : Onward key undo (x :: older)) (hback : back key (x :: older) = some b) :
    leftSince key undo (key b) (x :: older) = true ↔
      ∃ a ∈ arrival key (x :: older), undo a = true := by
  induction older generalizing x with
  | nil => cases hback
  | cons y rest ih =>
      by_cases hkey : key y = key x
      · have hundo : undo x = false := by
          by_contra hne
          exact (h.1 (by simpa using hne)).2 y rfl hkey
        have hb := (back_ne hback).symm
        have hback' : back key (y :: rest) = some b := by
          rw [back, List.find?_cons_of_neg (by simp [hkey])] at hback
          rw [back, ← hback, hkey]
        rw [arrival_cons_of_eq hkey, ← ih h.2 hback', leftSince]
        simp [hundo, hb]
      · have hb : b = y := by
          rw [back, List.find?_cons_of_pos (by simp [hkey])] at hback
          exact (Option.some.inj hback).symm
        subst hb
        rw [arrival_cons_of_ne hkey, leftSince, leftSince_head h.2]
        cases hundo : undo x with
        | false => simp [hundo]
        | true => simp [hundo]

end Undo

end Tessra.Data
