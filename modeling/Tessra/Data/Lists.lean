import Mathlib.Algebra.BigOperators.Group.List.Basic
import Mathlib.Algebra.Order.BigOperators.Group.List
import Mathlib.Data.List.Forall2
import Mathlib.Tactic.Ring

namespace Tessra.Data

/-! Lists item by item: what is computed of each, and lists that are related so. -/

section Results

variable {α β ε : Type}

theorem bind_eq_ok {x : Except ε α} {f : α → Except ε β} {b : β} :
    x >>= f = .ok b ↔ ∃ a, x = .ok a ∧ f a = .ok b := by
  cases x with
  | error e =>
      constructor
      · intro h
        cases h
      · rintro ⟨a, h, -⟩
        cases h
  | ok a =>
      constructor
      · intro h
        exact ⟨a, rfl, h⟩
      · rintro ⟨_, ⟨⟩, h⟩
        exact h

theorem mapM_congr {f g : α → Except ε β} : ∀ {l : List α},
    (∀ x ∈ l, f x = g x) → l.mapM f = l.mapM g
  | [], _ => rfl
  | x :: l, h => by
      rw [List.mapM_cons, List.mapM_cons, h x List.mem_cons_self,
        mapM_congr fun y hy => h y (List.mem_cons_of_mem _ hy)]

theorem mapM_eq_ok {f : α → Except ε β} : ∀ {l : List α} {r : List β},
    l.mapM f = .ok r ↔ List.Forall₂ (fun a b => f a = .ok b) l r
  | [], r => by
      rw [List.forall₂_nil_left_iff]
      constructor
      · intro h
        cases h
        rfl
      · rintro rfl
        rfl
  | a :: l, r => by
      rw [List.mapM_cons, bind_eq_ok, List.forall₂_cons_left_iff]
      constructor
      · rintro ⟨b, hb, h⟩
        obtain ⟨r, hr, h⟩ := bind_eq_ok.mp h
        cases h
        exact ⟨b, r, hb, mapM_eq_ok.mp hr, rfl⟩
      · rintro ⟨b, r, hb, hr, rfl⟩
        exact ⟨b, hb, bind_eq_ok.mpr ⟨r, mapM_eq_ok.mpr hr, rfl⟩⟩

theorem mem_of_mapM {f : α → Option β} {y : β} : ∀ {l : List α} {r : List β},
    l.mapM f = some r → y ∈ r → ∃ x ∈ l, f x = some y
  | [], r, h, hy => by
      cases h
      cases hy
  | x :: l, r, h, hy => by
      rw [List.mapM_cons] at h
      obtain ⟨z, hz, h⟩ := Option.bind_eq_some_iff.mp h
      obtain ⟨r', hr', h⟩ := Option.bind_eq_some_iff.mp h
      cases h
      rcases List.mem_cons.mp hy with rfl | hy
      · exact ⟨x, List.mem_cons_self, hz⟩
      · obtain ⟨w, hw, hwy⟩ := mem_of_mapM hr' hy
        exact ⟨w, List.mem_cons_of_mem x hw, hwy⟩

end Results

section Related

variable {α β γ : Type} {R : α → β → Prop} {l : List α} {r : List β}

theorem exists_left {b : β} (h : List.Forall₂ R l r) (hb : b ∈ r) : ∃ a ∈ l, R a b := by
  induction h with
  | nil => cases hb
  | @cons a c l r hac _ ih =>
      rcases List.mem_cons.mp hb with rfl | hb
      · exact ⟨a, List.mem_cons_self, hac⟩
      · obtain ⟨a', ha', hR⟩ := ih hb
        exact ⟨a', List.mem_cons_of_mem a ha', hR⟩

theorem map_eq_of_forall₂ {f : α → γ} {g : β → γ} (h : List.Forall₂ (fun a b => g b = f a) l r) :
    r.map g = l.map f := by
  induction h with
  | nil => rfl
  | cons hab _ ih => rw [List.map_cons, List.map_cons, hab, ih]

theorem sum_le_of_forall₂ {f : α → ℕ} {g : β → ℕ}
    (h : List.Forall₂ (fun a b => g b ≤ f a) l r) : (r.map g).sum ≤ (l.map f).sum := by
  induction h with
  | nil => exact le_rfl
  | cons hab _ ih =>
      rw [List.map_cons, List.map_cons, List.sum_cons, List.sum_cons]
      exact Nat.add_le_add hab ih

end Related

section Parts

variable {α β : Type} {f : α → ℕ} {l l' : List α} {x : α}

theorem sum_le_of_sublist (h : l.Sublist l') : (l.map f).sum ≤ (l'.map f).sum :=
  (h.map f).sum_le_sum fun _ _ => Nat.zero_le _

theorem eq_of_sublist_of_sum (hf : ∀ x, 0 < f x) (h : l.Sublist l')
    (hsum : (l'.map f).sum ≤ (l.map f).sum) : l = l' := by
  induction h with
  | slnil => rfl
  | cons x h ih =>
      have hle := sum_le_of_sublist (f := f) h
      have hpos := hf x
      rw [List.map_cons, List.sum_cons] at hsum
      omega
  | cons_cons x h ih =>
      rw [List.map_cons, List.map_cons, List.sum_cons, List.sum_cons] at hsum
      rw [ih (by omega)]

theorem exists_first {P : α → Prop} [DecidablePred P] (h : ¬ ∀ x ∈ l.dropLast, P x) :
    ∃ l₁ x l₂, l = l₁ ++ x :: l₂ ∧ (∀ y ∈ l₁, P y) ∧ ¬ P x ∧ l₂ ≠ [] := by
  induction l with
  | nil => exact absurd (by simp) h
  | cons a l ih =>
      cases l with
      | nil => exact absurd (by simp) h
      | cons b l =>
          by_cases ha : P a
          · have hrest : ¬ ∀ x ∈ (b :: l).dropLast, P x := by
              intro hall
              rw [List.dropLast_cons_cons] at h
              exact h (List.forall_mem_cons.mpr ⟨ha, hall⟩)
            obtain ⟨l₁, x, l₂, heq, hbefore, hx, hne⟩ := ih hrest
            rw [heq]
            exact ⟨a :: l₁, x, l₂, rfl, List.forall_mem_cons.mpr ⟨ha, hbefore⟩, hx, hne⟩
          · exact ⟨[], a, b :: l, rfl, by simp, ha, List.cons_ne_nil b l⟩

theorem split_first [DecidableEq α] (h : x ∈ l) :
    l = l.takeWhile (· ≠ x) ++ x :: (l.dropWhile (· ≠ x)).tail := by
  induction l with
  | nil => cases h
  | cons y l ih =>
      by_cases hy : y = x
      · subst hy
        simp
      · have hrest := ih ((List.mem_cons.mp h).resolve_left (Ne.symm hy))
        rw [List.takeWhile_cons_of_pos (by simpa using hy),
          List.dropWhile_cons_of_pos (by simpa using hy), List.cons_append, ← hrest]

theorem split_append [DecidableEq α] (l' : List α) (h : x ∉ l) :
    (l ++ x :: l').takeWhile (· ≠ x) = l ∧ ((l ++ x :: l').dropWhile (· ≠ x)).tail = l' := by
  have hall : ∀ y ∈ l, (!decide (y = x)) = true := by
    intro y hy
    have hne : y ≠ x := fun heq => h (heq ▸ hy)
    simpa using hne
  constructor
  · rw [List.takeWhile_append_of_pos (by simpa using hall)]
    simp
  · rw [List.dropWhile_append_of_pos (by simpa using hall)]
    simp

theorem length_filter_take_lt {p : α → Bool} {i j : ℕ} (hij : i < j) (hx : l[i]? = some x)
    (hp : p x) : ((l.take i).filter p).length < ((l.take j).filter p).length := by
  have hsub : (l.take (i + 1)).Sublist (l.take j) := by
    rw [← Nat.min_eq_left (show i + 1 ≤ j from hij), ← List.take_take]
    exact List.take_sublist _ _
  have hle := (hsub.filter p).length_le
  rw [List.take_add_one, hx, Option.toList_some, List.filter_append, List.length_append,
    List.filter_singleton, hp] at hle
  exact Nat.lt_of_succ_le hle

theorem count_flatMap_unique [BEq β] [LawfulBEq β] {f : α → List β} {e : β} (hl : l.Nodup)
    (hx : x ∈ l) (hunique : ∀ y ∈ l, e ∈ f y → y = x) : (l.flatMap f).count e = (f x).count e := by
  induction l with
  | nil => exact absurd hx List.not_mem_nil
  | cons first rest ih =>
      obtain ⟨hfirst, hrest⟩ := List.nodup_cons.mp hl
      rw [List.flatMap_cons, List.count_append]
      rcases List.mem_cons.mp hx with rfl | hx
      · have hzero : (rest.flatMap f).count e = 0 := by
          refine List.count_eq_zero.mpr fun hmem => ?_
          obtain ⟨y, hy, he⟩ := List.mem_flatMap.mp hmem
          exact hfirst (hunique y (List.mem_cons_of_mem _ hy) he ▸ hy)
        rw [hzero, Nat.add_zero]
      · have hzero : (f first).count e = 0 := by
          refine List.count_eq_zero.mpr fun he => ?_
          exact hfirst (hunique first List.mem_cons_self he ▸ hx)
        rw [hzero, Nat.zero_add,
          ih hrest hx fun y hy => hunique y (List.mem_cons_of_mem _ hy)]

end Parts

end Tessra.Data
