import Mathlib.Algebra.BigOperators.Group.List.Basic
import Mathlib.Algebra.Order.BigOperators.Group.List
import Mathlib.Data.List.DropRight
import Mathlib.Tactic.Ring

namespace Tessra.Data

/-! Texts with brackets: how deep the separators of a text stand, and the pieces between
the separators that stand outside all brackets. -/

universe u

/-- What opens and closes brackets, what separates, what is blank, and what counts for the
size of a text. -/
structure Layout (α : Type u) where
  weight : α → ℤ
  sep : α
  blank : α → Bool
  counted : α → Bool
  weight_sep : weight sep = 0
  blank_sep : blank sep = false
  counted_sep : counted sep = true
  weight_blank : ∀ x, blank x = true → weight x = 0
  counted_blank : ∀ x, blank x = true → counted x = false

namespace Layout

variable {α : Type u} (m : Layout α)

section Trim

def trim (s : List α) : List α := (s.dropWhile m.blank).rdropWhile m.blank

def size (s : List α) : ℕ := s.countP m.counted

variable {m} {s t : List α} {x : α}

theorem exists_trim (s : List α) : ∃ front back, s = front ++ m.trim s ++ back ∧
    (∀ x ∈ front, m.blank x = true) ∧ ∀ x ∈ back, m.blank x = true := by
  refine ⟨s.takeWhile m.blank, (s.dropWhile m.blank).rtakeWhile m.blank, ?_,
    fun x hx => List.mem_takeWhile_imp hx, fun x hx => List.mem_rtakeWhile_imp hx⟩
  rw [List.append_assoc, trim, List.rdropWhile_append_rtakeWhile, List.takeWhile_append_dropWhile]

@[simp] theorem size_nil : m.size [] = 0 := rfl

@[simp] theorem size_append : m.size (s ++ t) = m.size s + m.size t := List.countP_append ..

theorem size_cons (h : m.counted x = true) : m.size (x :: s) = m.size s + 1 :=
  List.countP_cons_of_pos h

theorem size_eq_zero (h : ∀ x ∈ s, m.counted x = false) : m.size s = 0 :=
  List.countP_eq_zero.mpr fun x hx => by simp [h x hx]

theorem size_of_blank (h : ∀ x ∈ s, m.blank x = true) : m.size s = 0 :=
  size_eq_zero fun x hx => m.counted_blank x (h x hx)

@[simp] theorem size_trim (s : List α) : m.size (m.trim s) = m.size s := by
  obtain ⟨front, back, hs, hfront, hback⟩ := exists_trim (m := m) s
  conv_rhs => rw [hs]
  rw [size_append, size_append, size_of_blank hfront, size_of_blank hback, Nat.zero_add,
    Nat.add_zero]

theorem trim_of_blank (h : ∀ x ∈ s, m.blank x = true) : m.trim s = [] := by
  have hdrop : s.dropWhile m.blank = [] := List.dropWhile_eq_nil_iff.mpr h
  rw [trim, hdrop, List.rdropWhile_nil]

theorem length_trim_le (s : List α) : (m.trim s).length ≤ s.length :=
  (List.rdropWhile_prefix _ _).length_le.trans (List.dropWhile_suffix _).length_le

theorem trim_cons (h : m.blank x = true) : m.trim (x :: s) = m.trim s := by
  rw [trim, List.dropWhile_cons_of_pos h, trim]

/-- Nothing is blank at the ends. -/
theorem trim_eq_self (hfirst : ∀ x ∈ s.head?, m.blank x = false)
    (hlast : ∀ x ∈ s.getLast?, m.blank x = false) : m.trim s = s := by
  have hdrop : s.dropWhile m.blank = s := by
    cases s with
    | nil => rfl
    | cons x s => exact List.dropWhile_cons_of_neg (by simp [hfirst x rfl])
  rw [trim, hdrop, List.rdropWhile_eq_self_iff]
  intro hne
  simp [hlast _ (List.getLast?_eq_some_getLast hne)]

theorem blank_head_trim (h : x ∈ (m.trim s).head?) : m.blank x = false := by
  obtain ⟨rest, hrest⟩ := List.head?_eq_some_iff.mp h
  obtain ⟨tail, htail⟩ := List.rdropWhile_prefix m.blank (s.dropWhile m.blank)
  have hdrop : (s.dropWhile m.blank).head? = some x := by
    rw [← htail]
    change (m.trim s ++ tail).head? = some x
    rw [hrest]
    rfl
  by_contra hblank
  have hnot := List.head?_dropWhile_not m.blank s
  rw [hdrop] at hnot
  exact hblank (by simpa using hnot)

theorem blank_getLast_trim (h : x ∈ (m.trim s).getLast?) : m.blank x = false := by
  have hne : m.trim s ≠ [] := by
    intro hnil
    rw [hnil] at h
    cases h
  have hx : (m.trim s).getLast hne = x :=
    Option.some.inj ((List.getLast?_eq_some_getLast hne).symm.trans h)
  have hlast := List.rdropWhile_last_not m.blank (s.dropWhile m.blank) hne
  rw [← hx]
  exact Bool.eq_false_of_not_eq_true hlast

@[simp] theorem trim_trim (s : List α) : m.trim (m.trim s) = m.trim s :=
  trim_eq_self (fun _ => blank_head_trim) fun _ => blank_getLast_trim

/-- What follows something that is not blank is trimmed at its end only. -/
theorem trim_append_cons (hs : m.trim s = s) (hne : s ≠ []) (hx : m.blank x = false) :
    ∃ r, m.trim (s ++ x :: t) = s ++ x :: r := by
  obtain ⟨y, s', rfl⟩ := List.exists_cons_of_ne_nil hne
  have hy : m.blank y = false := blank_head_trim (s := y :: s') (by rw [hs]; rfl)
  have hdrop : (y :: s' ++ x :: t).dropWhile m.blank = y :: s' ++ x :: t :=
    List.dropWhile_cons_of_neg (by simp [hy])
  rw [trim, hdrop]
  have hsplit : (y :: s' ++ x :: t).rdropWhile m.blank ++ (y :: s' ++ x :: t).rtakeWhile m.blank =
    y :: s' ++ x :: t := List.rdropWhile_append_rtakeWhile
  have hback : ∀ z ∈ (y :: s' ++ x :: t).rtakeWhile m.blank, m.blank z = true :=
    fun z hz => List.mem_rtakeWhile_imp hz
  generalize (y :: s' ++ x :: t).rtakeWhile m.blank = back at hsplit hback
  have hno : x ∉ back := fun h => Bool.false_ne_true (hx.symm.trans (hback x h))
  rcases List.append_eq_append_iff.mp hsplit with ⟨c, -, hc⟩ | ⟨c, hfront, hc⟩
  · exact absurd (hc ▸ by simp) hno
  · cases c with
    | nil =>
        rw [List.nil_append] at hc
        exact absurd (hc ▸ List.mem_cons_self) hno
    | cons z c =>
        obtain ⟨rfl, -⟩ := List.cons.inj hc
        exact ⟨c, hfront⟩

end Trim

section Depths

/-- How many brackets a text leaves open. -/
def balance (s : List α) : ℤ := (s.map m.weight).sum

/-- A separator stands so deep in the text. -/
def SepAt (d : ℤ) : List α → Prop
  | [] => False
  | x :: s => (x = m.sep ∧ d = 0) ∨ SepAt (d - m.weight x) s

variable {m} {s t : List α} {d : ℤ} {x : α}

@[simp] theorem balance_nil : m.balance [] = 0 := rfl

@[simp] theorem balance_cons : m.balance (x :: s) = m.weight x + m.balance s := by simp [balance]

@[simp] theorem balance_append : m.balance (s ++ t) = m.balance s + m.balance t := by
  simp [balance]

@[simp] theorem not_sepAt_nil : ¬ m.SepAt d [] := id

theorem sepAt_cons : m.SepAt d (x :: s) ↔ (x = m.sep ∧ d = 0) ∨ m.SepAt (d - m.weight x) s :=
  Iff.rfl

theorem sepAt_append : m.SepAt d (s ++ t) ↔ m.SepAt d s ∨ m.SepAt (d - m.balance s) t := by
  induction s generalizing d with
  | nil => simp
  | cons x s ih =>
      rw [List.cons_append, sepAt_cons, sepAt_cons, ih, balance_cons, or_assoc, sub_sub]

theorem sepAt_sep : m.SepAt d (m.sep :: s) ↔ d = 0 ∨ m.SepAt d s := by
  rw [sepAt_cons, m.weight_sep, sub_zero, and_iff_right rfl]

theorem balance_of_blank (h : ∀ x ∈ s, m.blank x = true) : m.balance s = 0 :=
  List.sum_eq_zero fun n hn => by
    obtain ⟨x, hx, rfl⟩ := List.mem_map.mp hn
    exact m.weight_blank x (h x hx)

theorem not_sepAt_of_blank (h : ∀ x ∈ s, m.blank x = true) : ¬ m.SepAt d s := by
  induction s generalizing d with
  | nil => exact not_sepAt_nil
  | cons x s ih =>
      rintro (⟨rfl, -⟩ | hrest)
      · exact Bool.false_ne_true (m.blank_sep.symm.trans (h _ List.mem_cons_self))
      · exact ih (fun y hy => h y (List.mem_cons_of_mem _ hy)) hrest

@[simp] theorem balance_trim (s : List α) : m.balance (m.trim s) = m.balance s := by
  obtain ⟨front, back, hs, hfront, hback⟩ := exists_trim (m := m) s
  conv_rhs => rw [hs]
  rw [balance_append, balance_append, balance_of_blank hfront, balance_of_blank hback, zero_add,
    add_zero]

@[simp] theorem sepAt_trim (s : List α) : m.SepAt d (m.trim s) ↔ m.SepAt d s := by
  obtain ⟨front, back, hs, hfront, hback⟩ := exists_trim (m := m) s
  conv_rhs => rw [hs]
  rw [sepAt_append, sepAt_append, balance_of_blank hfront, sub_zero,
    or_iff_left (not_sepAt_of_blank hback), or_iff_right (not_sepAt_of_blank hfront)]

end Depths

section Join

/-- The texts with a separator between each two. -/
def join (l : List (List α)) : List α := [m.sep].intercalate l

variable {m} {a b : List α} {l l' : List (List α)} {d : ℤ}

@[simp] theorem join_nil : m.join [] = [] := rfl

@[simp] theorem join_singleton : m.join [a] = a := List.intercalate_singleton

@[simp] theorem join_cons_cons : m.join (a :: b :: l) = a ++ m.sep :: m.join (b :: l) := by
  simp [join, List.intercalate_cons_cons]

theorem join_cons (h : l ≠ []) : m.join (a :: l) = a ++ m.sep :: m.join l := by
  cases l with
  | nil => exact absurd rfl h
  | cons b l => exact join_cons_cons

theorem join_append (h : l' ≠ []) : m.join (l ++ l') = m.join (l ++ [m.join l']) := by
  induction l with
  | nil => simp
  | cons a l ih =>
      rw [List.cons_append, join_cons (by simp [h]), ih, List.cons_append, join_cons (by simp)]

theorem length_le_join (h : a ∈ l) : a.length ≤ (m.join l).length := by
  induction l with
  | nil => cases h
  | cons b l ih =>
      cases l with
      | nil => simp [List.mem_singleton.mp h]
      | cons c l =>
          rw [join_cons_cons, List.length_append, List.length_cons]
          rcases List.mem_cons.mp h with rfl | h
          · exact Nat.le_add_right _ _
          · have hle := ih h
            omega

/-- A separator with a blank behind it. -/
theorem intercalate_pair (x : α) : [m.sep, x].intercalate (a :: l) =
    m.join (a :: l.map (x :: ·)) := by
  have hhead : ∀ b l, m.join ((x :: b) :: l) = x :: m.join (b :: l) := by
    intro b l
    cases l with
    | nil => simp
    | cons c l => simp
  induction l generalizing a with
  | nil => simp
  | cons b l ih =>
      rw [List.intercalate_cons_cons, ih, List.map_cons, join_cons_cons, hhead]
      simp

theorem balance_join : m.balance (m.join l) = (l.map m.balance).sum := by
  induction l with
  | nil => rfl
  | cons a l ih =>
      cases l with
      | nil => simp
      | cons b l => simp [ih, m.weight_sep]

theorem sepAt_join (hbalanced : ∀ a ∈ l.dropLast, m.balance a = 0) :
    m.SepAt d (m.join l) ↔ (∃ a ∈ l, m.SepAt d a) ∨ (d = 0 ∧ 2 ≤ l.length) := by
  induction l with
  | nil => simp
  | cons a l ih =>
      cases l with
      | nil => simp
      | cons b l =>
          rw [List.dropLast_cons_cons] at hbalanced
          have ha := hbalanced a List.mem_cons_self
          rw [join_cons_cons, sepAt_append, ha, sub_zero, sepAt_sep,
            ih fun c hc => hbalanced c (List.mem_cons_of_mem _ hc)]
          have hlength : 2 ≤ (a :: b :: l).length := by simp
          have hmem : (∃ c ∈ a :: b :: l, m.SepAt d c) ↔
              m.SepAt d a ∨ ∃ c ∈ b :: l, m.SepAt d c := List.exists_mem_cons_iff ..
          rw [hmem]
          constructor
          · rintro (h | h | h | h)
            · exact Or.inl (Or.inl h)
            · exact Or.inr ⟨h, hlength⟩
            · exact Or.inl (Or.inr h)
            · exact Or.inr ⟨h.1, hlength⟩
          · rintro ((h | h) | h)
            · exact Or.inl h
            · exact Or.inr (Or.inr (Or.inl h))
            · exact Or.inr (Or.inl h.1)

theorem size_join (h : l ≠ []) :
    m.size (m.join l) + 1 = (l.map fun a => m.size a + 1).sum := by
  induction l with
  | nil => exact absurd rfl h
  | cons a l ih =>
      cases l with
      | nil => simp
      | cons b l =>
          have hrest := ih (List.cons_ne_nil _ _)
          rw [List.map_cons, List.sum_cons, ← hrest, join_cons_cons, size_append,
            size_cons m.counted_sep]
          omega

theorem size_join_le (h : List.Forall₂ (fun a b => m.size a ≤ m.size b) l l') :
    m.size (m.join l) ≤ m.size (m.join l') := by
  induction h with
  | nil => exact le_rfl
  | @cons a b l l' hab hrest ih =>
      cases hrest with
      | nil => simpa using hab
      | @cons c d l l' hcd hrest =>
          simp only [join_cons_cons, size_append, size_cons m.counted_sep]
          omega

/-- The texts that are joined are known by their sizes. -/
theorem join_inj (h : List.Forall₂ (fun a b => m.size a ≤ m.size b) l l')
    (hjoin : m.join l = m.join l') : l = l' := by
  induction h with
  | nil => rfl
  | @cons a b l l' hab hrest ih =>
      cases hrest with
      | nil => simpa using hjoin
      | @cons c d l l' hcd hrest =>
          rw [join_cons_cons, join_cons_cons] at hjoin
          have hle := size_join_le (List.Forall₂.cons hcd hrest)
          rcases List.append_eq_append_iff.mp hjoin with ⟨x, hb, hx⟩ | ⟨x, ha, hx⟩
          · cases x with
            | nil =>
                rw [List.append_nil] at hb
                rw [hb, ih (List.cons.inj hx).2]
            | cons y x =>
                have hrest : m.join (c :: l) = x ++ m.sep :: m.join (d :: l') :=
                  (List.cons.inj hx).2
                rw [hrest, size_append, size_cons m.counted_sep] at hle
                omega
          · cases x with
            | nil =>
                rw [List.append_nil] at ha
                rw [ha, ih (List.cons.inj hx).2.symm]
            | cons y x =>
                obtain ⟨rfl, -⟩ := List.cons.inj hx
                rw [ha, size_append, size_cons m.counted_sep] at hab
                omega

end Join

section Pieces

variable [DecidableEq α]

/-- The pieces between the separators outside all brackets, from inside so many. -/
def piecesFrom (d : ℤ) : List α → List (List α)
  | [] => [[]]
  | x :: s =>
      if x = m.sep ∧ d = 0 then [] :: piecesFrom d s
      else (piecesFrom (d + m.weight x) s).modifyHead (x :: ·)

def pieces (s : List α) : List (List α) := m.piecesFrom 0 s

variable {m} {a s : List α} {d : ℤ} {x : α} {l : List (List α)}

theorem exists_piecesFrom (d : ℤ) (s : List α) : ∃ a l, m.piecesFrom d s = a :: l := by
  induction s generalizing d with
  | nil => exact ⟨[], [], rfl⟩
  | cons x s ih =>
      rw [piecesFrom]
      split_ifs with h
      · exact ⟨_, _, rfl⟩
      · obtain ⟨a, l, heq⟩ := ih (d + m.weight x)
        exact ⟨x :: a, l, by rw [heq]; rfl⟩

@[simp] theorem join_piecesFrom (d : ℤ) (s : List α) : m.join (m.piecesFrom d s) = s := by
  induction s generalizing d with
  | nil => simp [piecesFrom]
  | cons x s ih =>
      rw [piecesFrom]
      split_ifs with h
      · obtain ⟨a, l, heq⟩ := exists_piecesFrom (m := m) d s
        have hrest := ih d
        rw [heq] at hrest ⊢
        rw [join_cons_cons, hrest, h.1, List.nil_append]
      · obtain ⟨a, l, heq⟩ := exists_piecesFrom (m := m) (d + m.weight x) s
        have hrest := ih (d + m.weight x)
        rw [heq] at hrest ⊢
        rw [← hrest, List.modifyHead_cons]
        cases l with
        | nil => simp
        | cons b l => simp

/-- No piece has a separator outside all brackets, and all but the last close what they open. -/
theorem piecesFrom_spec (d : ℤ) (s : List α) : ∃ a l, m.piecesFrom d s = a :: l ∧
    ¬ m.SepAt (-d) a ∧ (l ≠ [] → d + m.balance a = 0) ∧ (∀ b ∈ l, ¬ m.SepAt 0 b) ∧
    ∀ b ∈ l.dropLast, m.balance b = 0 := by
  induction s generalizing d with
  | nil => exact ⟨[], [], rfl, id, fun h => absurd rfl h, by simp, by simp⟩
  | cons x s ih =>
      rw [piecesFrom]
      split_ifs with h
      · obtain ⟨a, l, heq, hfree, hclosed, hrest, hbalanced⟩ := ih d
        rw [h.2, neg_zero] at hfree
        refine ⟨[], _, rfl, id, fun _ => by simp [h.2], ?_, ?_⟩
        · rw [heq]
          exact List.forall_mem_cons.mpr ⟨hfree, hrest⟩
        · rw [heq]
          cases l with
          | nil => simp
          | cons b l =>
              rw [List.dropLast_cons_cons]
              refine List.forall_mem_cons.mpr ⟨?_, hbalanced⟩
              simpa [h.2] using hclosed (List.cons_ne_nil _ _)
      · obtain ⟨a, l, heq, hfree, hclosed, hrest, hbalanced⟩ := ih (d + m.weight x)
        refine ⟨x :: a, l, by rw [heq]; rfl, ?_, ?_, hrest, hbalanced⟩
        · rintro (⟨hsep, hd⟩ | hlater)
          · exact h ⟨hsep, neg_eq_zero.mp hd⟩
          · exact hfree (by rwa [neg_add, ← sub_eq_add_neg])
        · intro hl
          rw [balance_cons, ← add_assoc]
          exact hclosed hl

theorem not_sepAt_of_mem_pieces (h : a ∈ m.pieces s) : ¬ m.SepAt 0 a := by
  obtain ⟨b, l, heq, hfree, -, hrest, -⟩ := piecesFrom_spec (m := m) 0 s
  rw [pieces, heq] at h
  rcases List.mem_cons.mp h with rfl | h
  · simpa using hfree
  · exact hrest a h

theorem balance_of_mem_pieces (h : a ∈ (m.pieces s).dropLast) : m.balance a = 0 := by
  obtain ⟨b, l, heq, -, hclosed, -, hbalanced⟩ := piecesFrom_spec (m := m) 0 s
  rw [pieces, heq] at h
  cases l with
  | nil => simp at h
  | cons c l =>
      rw [List.dropLast_cons_cons] at h
      rcases List.mem_cons.mp h with rfl | h
      · simpa using hclosed (List.cons_ne_nil _ _)
      · exact hbalanced a h

theorem piecesFrom_append (h : ¬ m.SepAt (-d) a) : m.piecesFrom d (a ++ s) =
    (m.piecesFrom (d + m.balance a) s).modifyHead (a ++ ·) := by
  induction a generalizing d with
  | nil =>
      obtain ⟨b, l, heq⟩ := exists_piecesFrom (m := m) d s
      simp [heq]
  | cons x a ih =>
      rw [sepAt_cons, not_or, neg_eq_zero] at h
      have hrest : ¬ m.SepAt (-(d + m.weight x)) a := by
        rw [neg_add, ← sub_eq_add_neg]
        exact h.2
      rw [List.cons_append, piecesFrom, if_neg h.1, ih hrest, balance_cons, ← add_assoc,
        List.modifyHead_modifyHead]
      rfl

/-- Texts without such separators that close what they open are pieces, whatever follows. -/
theorem pieces_join_append (hfree : ∀ a ∈ l, ¬ m.SepAt 0 a) (hbalanced : ∀ a ∈ l, m.balance a = 0)
    (s : List α) : m.pieces (m.join (l ++ [s])) = l ++ m.pieces s := by
  induction l with
  | nil => simp
  | cons a l ih =>
      have ha : ¬ m.SepAt (-0) a := by simpa using hfree a List.mem_cons_self
      rw [List.cons_append, join_cons (by simp), pieces, piecesFrom_append ha,
        hbalanced a List.mem_cons_self, add_zero, piecesFrom, if_pos ⟨rfl, rfl⟩,
        List.modifyHead_cons, List.append_nil, ← pieces,
        ih (fun c hc => hfree c (List.mem_cons_of_mem a hc))
          fun c hc => hbalanced c (List.mem_cons_of_mem a hc), List.cons_append]

theorem pieces_of_free (h : ¬ m.SepAt 0 a) : m.pieces a = [a] := by
  have happend := piecesFrom_append (s := []) (d := 0) (by simpa using h)
  simpa [pieces, piecesFrom] using happend

/-- Texts without such separators, all but the last closing what they open, are the pieces. -/
theorem pieces_join (hne : l ≠ []) (hfree : ∀ a ∈ l, ¬ m.SepAt 0 a)
    (hbalanced : ∀ a ∈ l.dropLast, m.balance a = 0) : m.pieces (m.join l) = l := by
  obtain ⟨l, a, rfl⟩ := (List.eq_nil_or_concat' l).resolve_left hne
  rw [List.dropLast_concat] at hbalanced
  rw [pieces_join_append (fun b hb => hfree b (List.mem_append_left _ hb)) hbalanced,
    pieces_of_free (hfree a (by simp))]

/-- What leaves a bracket open, or closes too many, takes the separator with it. -/
theorem pieces_of_unbalanced (hfree : ¬ m.SepAt 0 a) (h : m.balance a ≠ 0) :
    ∃ r l, m.pieces (a ++ m.sep :: s) = (a ++ m.sep :: r) :: l := by
  obtain ⟨r, l, heq⟩ := exists_piecesFrom (m := m) (m.balance a + m.weight m.sep) s
  have ha : ¬ m.SepAt (-0) a := by simpa using hfree
  refine ⟨r, l, ?_⟩
  rw [pieces, piecesFrom_append ha, zero_add, piecesFrom, if_neg fun hsep => h hsep.2, heq,
    List.modifyHead_cons, List.modifyHead_cons]

end Pieces

end Layout

end Tessra.Data
