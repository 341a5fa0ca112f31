import Mathlib.Data.List.Induction
import Mathlib.Data.List.Sort
import Mathlib.Logic.Function.Basic

namespace Tessra.Data

/-! Texts put into a list at places of it, the last place first. -/

variable {α : Type} {gap : ℕ → List α} {l text : List α} {i p : ℕ}

def splice (l : List α) (p : ℕ) (text : List α) : List α := l.take p ++ text ++ l.drop p

/-- The list with what comes before each of its places, counted from one on, and at its
end. -/
def weave (gap : ℕ → List α) : ℕ → List α → List α
  | i, [] => gap i
  | i, x :: rest => gap i ++ x :: weave gap (i + 1) rest

theorem weave_nil (i : ℕ) (l : List α) : weave (fun _ => []) i l = l := by
  induction l generalizing i with
  | nil => rfl
  | cons x rest ih => rw [weave, ih, List.nil_append]

theorem weave_congr {gap' : ℕ → List α} (h : ∀ j, i ≤ j → gap j = gap' j) :
    weave gap i l = weave gap' i l := by
  induction l generalizing i with
  | nil => exact h i le_rfl
  | cons x rest ih => rw [weave, weave, h i le_rfl, ih fun j hj => h j (by omega)]

theorem weave_update_self :
    weave (Function.update gap i (text ++ gap i)) i l = text ++ weave gap i l := by
  cases l with
  | nil => exact Function.update_self ..
  | cons x rest =>
      have hrest : weave (Function.update gap i (text ++ gap i)) (i + 1) rest =
          weave gap (i + 1) rest := by
        refine weave_congr fun j hj => Function.update_of_ne ?_ _ _
        omega
      rw [weave, weave, hrest, Function.update_self, List.append_assoc]

/-- Nothing was put in before the place yet. -/
theorem splice_weave (text : List α) (hgap : ∀ j, i ≤ j → j < i + p → gap j = [])
    (hp : p ≤ l.length) :
    splice (weave gap i l) p text =
      weave (Function.update gap (i + p) (text ++ gap (i + p))) i l := by
  induction p generalizing i l with
  | zero => rw [Nat.add_zero, weave_update_self, splice, List.take_zero, List.drop_zero,
      List.nil_append]
  | succ p ih =>
      cases l with
      | nil => simp at hp
      | cons x rest =>
          have hrest := ih (i := i + 1) (l := rest) (fun j hj hlt => hgap j (by omega) (by omega))
            (by simpa using hp)
          have hplace : i + 1 + p = i + (p + 1) := by omega
          rw [hplace] at hrest
          have hne : i ≠ i + (p + 1) := by omega
          rw [weave, weave, Function.update_of_ne hne, hgap i le_rfl (by omega), List.nil_append,
            List.nil_append, ← hrest]
          rfl

/-- What is put in at a place: the texts for it, the last of them first. -/
def gapOf (inserts : List (ℕ × List α)) (i : ℕ) : List α :=
  ((inserts.filter fun e => e.1 = i).map Prod.snd).reverse.flatten

theorem gapOf_concat (inserts : List (ℕ × List α)) (e : ℕ × List α) :
    gapOf (inserts ++ [e]) = Function.update (gapOf inserts) e.1 (e.2 ++ gapOf inserts e.1) := by
  funext i
  by_cases h : e.1 = i
  · subst h
    rw [Function.update_self, gapOf, List.filter_append, List.filter_singleton]
    simp [gapOf]
  · rw [Function.update_of_ne (Ne.symm h), gapOf, List.filter_append, List.filter_singleton]
    simp [gapOf, h]

theorem gapOf_eq_nil {inserts : List (ℕ × List α)} (h : ∀ e ∈ inserts, e.1 ≠ i) :
    gapOf inserts i = [] := by
  have hnone : inserts.filter (fun e => decide (e.1 = i)) = [] :=
    List.filter_eq_nil_iff.mpr fun e he heq => h e he (of_decide_eq_true heq)
  rw [gapOf, hnone]
  rfl

theorem infix_gapOf {inserts : List (ℕ × List α)} {e : ℕ × List α} (he : e ∈ inserts) :
    e.2 <:+: gapOf inserts e.1 := by
  refine List.infix_of_mem_flatten (List.mem_reverse.mpr (List.mem_map_of_mem ?_))
  exact List.mem_filter.mpr ⟨he, decide_eq_true rfl⟩

theorem foldl_splice {inserts : List (ℕ × List α)}
    (hsorted : inserts.Pairwise fun e e' => e'.1 ≤ e.1) (hl : ∀ e ∈ inserts, e.1 ≤ l.length) :
    inserts.foldl (fun out e => splice out e.1 e.2) l = weave (gapOf inserts) 0 l := by
  induction inserts using List.reverseRecOn with
  | nil => exact (weave_nil 0 l).symm
  | append_singleton inserts e ih =>
      rw [List.pairwise_append] at hsorted
      have hlast : ∀ e' ∈ inserts, e.1 ≤ e'.1 := fun e' he' =>
        hsorted.2.2 e' he' e List.mem_cons_self
      rw [List.foldl_append, ih hsorted.1 fun e he => hl e (List.mem_append_left _ he),
        List.foldl_cons, List.foldl_nil, gapOf_concat]
      have hgap : ∀ j, 0 ≤ j → j < 0 + e.1 → gapOf inserts j = [] := by
        intro j _ hj
        refine gapOf_eq_nil fun e' he' heq => ?_
        have hle := hlast e' he'
        omega
      have hsplice := splice_weave e.2 hgap (hl e (by simp))
      rwa [Nat.zero_add] at hsplice

/-- Splice every text in, from the last place to the first, those of one place in turn. -/
def spliceAll (l : List α) (inserts : List (ℕ × List α)) : List α :=
  (inserts.mergeSort fun e e' => decide (e'.1 ≤ e.1)).foldl (fun out e => splice out e.1 e.2) l

theorem filter_mergeSort (inserts : List (ℕ × List α)) (i : ℕ) :
    (inserts.mergeSort fun e e' => decide (e'.1 ≤ e.1)).filter (fun e => e.1 = i) =
      inserts.filter fun e => e.1 = i := by
  have htrans : ∀ a b c : ℕ × List α, decide (b.1 ≤ a.1) → decide (c.1 ≤ b.1) →
      decide (c.1 ≤ a.1) := by
    intro a b c hab hbc
    simp only [decide_eq_true_eq] at hab hbc ⊢
    exact hbc.trans hab
  have htotal : ∀ a b : ℕ × List α, (decide (b.1 ≤ a.1) || decide (a.1 ≤ b.1)) = true := by
    intro a b
    simp only [Bool.or_eq_true, decide_eq_true_eq]
    exact le_total _ _
  have hsame : (inserts.filter fun e => e.1 = i).Pairwise
      fun e e' => decide (e'.1 ≤ e.1) = true := by
    refine List.pairwise_of_forall_mem_list fun e he e' he' => ?_
    have h := of_decide_eq_true (List.mem_filter.mp he).2
    have h' := of_decide_eq_true (List.mem_filter.mp he').2
    simp only [decide_eq_true_eq]
    omega
  have hsub := (List.sublist_mergeSort htrans htotal hsame List.filter_sublist).filter
    fun e => decide (e.1 = i)
  rw [List.filter_filter] at hsub
  simp only [Bool.and_self] at hsub
  refine (hsub.eq_of_length ?_).symm
  exact ((List.mergeSort_perm inserts _).filter _).length_eq.symm

/-- However the places come, the list is woven with the texts for them. -/
theorem spliceAll_eq {inserts : List (ℕ × List α)} (hl : ∀ e ∈ inserts, e.1 ≤ l.length) :
    spliceAll l inserts = weave (gapOf inserts) 0 l := by
  have hsorted : (inserts.mergeSort fun e e' => decide (e'.1 ≤ e.1)).Pairwise
      fun e e' => e'.1 ≤ e.1 :=
    List.pairwise_mergeSort' (Order.Preimage Prod.fst (· ≥ ·)) inserts
  rw [spliceAll, foldl_splice hsorted fun e he =>
    hl e ((List.mergeSort_perm inserts _).subset he)]
  refine weave_congr fun i _ => ?_
  rw [gapOf, filter_mergeSort, gapOf]

theorem sublist_weave (gap : ℕ → List α) (i : ℕ) (l : List α) : l.Sublist (weave gap i l) := by
  induction l generalizing i with
  | nil => exact List.nil_sublist _
  | cons x rest ih => exact ((ih (i + 1)).cons_cons x).trans (List.sublist_append_right _ _)

/-- What is put in at a place of the list stays in one piece. -/
theorem gap_infix_weave {j : ℕ} (hi : i ≤ j) (hj : j ≤ i + l.length) :
    gap j <:+: weave gap i l := by
  induction l generalizing i with
  | nil =>
      obtain rfl : j = i := by simp at hj; omega
      exact List.infix_rfl
  | cons x rest ih =>
      rcases Nat.eq_or_lt_of_le hi with rfl | hlt
      · exact (List.prefix_append _ _).isInfix
      · have hrest := ih (i := i + 1) hlt (by rw [List.length_cons] at hj; omega)
        exact hrest.trans ((List.suffix_cons x _).trans (List.suffix_append _ _)).isInfix

theorem prefix_weave (gap : ℕ → List α) (i : ℕ) {b : ℕ} (hb : b ≤ l.length)
    (hgap : ∀ j, i ≤ j → j < i + b → gap j = []) : l.take b <+: weave gap i l := by
  induction l generalizing i b with
  | nil => simp
  | cons x rest ih =>
      cases b with
      | zero => exact List.nil_prefix
      | succ b =>
          have hrest := ih (i + 1) (by simpa using hb) fun j hj hlt =>
            hgap j (by omega) (by omega)
          rw [List.take_succ_cons, weave, hgap i le_rfl (by omega), List.nil_append]
          exact List.cons_prefix_cons.mpr ⟨rfl, hrest⟩

/-- Between places where something is put in, the list stays in one piece. -/
theorem infix_weave {a b : ℕ} (hb : b ≤ l.length)
    (hgap : ∀ j, i + a < j → j < i + b → gap j = []) :
    (l.take b).drop a <:+: weave gap i l := by
  induction l generalizing i a b with
  | nil => simp
  | cons x rest ih =>
      cases b with
      | zero => simp
      | succ b =>
          have hle : b ≤ rest.length := by simpa using hb
          cases a with
          | succ a =>
              have hrest := ih (i := i + 1) (a := a) hle fun j hj hlt =>
                hgap j (by omega) (by omega)
              rw [List.take_succ_cons, List.drop_succ_cons]
              exact hrest.trans ((List.suffix_cons x _).trans (List.suffix_append _ _)).isInfix
          | zero =>
              have hrest := prefix_weave gap (i + 1) hle fun j hj hlt =>
                hgap j (by omega) (by omega)
              rw [List.take_succ_cons, List.drop_zero, weave]
              exact (List.cons_prefix_cons.mpr ⟨rfl, hrest⟩).isInfix.trans
                (List.suffix_append _ _).isInfix

end Tessra.Data
