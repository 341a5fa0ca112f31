import Tessra.Daemon.TreeMerge

namespace Tessra.Daemon

open Tessra.Core Tessra.Data

/-! What a conflict entry keeps of the entries it stands for. -/

section Terms

variable [Crypto] {base a b : Flat}

theorem mem_conflicts {p : String} : p ∈ (merge3 base a b).2 ↔ Disputed base a b p := by
  rw [merge3, foldl_merge, List.nil_append, List.mem_filter, conflict_iff, and_iff_right_iff_imp]
  intro h
  rw [mem_sortedDedup, List.mem_append, List.mem_append]
  by_contra hnot
  rw [not_or, not_or, ← OrdMap.get?_eq_none, ← OrdMap.get?_eq_none, ← OrdMap.get?_eq_none] at hnot
  exact h.1 (hnot.1.2.trans hnot.1.1.symm)

/-- One more positive term than negative. -/
def Balanced (terms : List ConflictTerm) : Prop :=
  terms.countP (0 < ·.sign) = terms.countP (·.sign < 0) + 1

/-- The references an entry holds, its own and those of its terms. -/
def Leaf.refs (leaf : Leaf) : List ObjectId :=
  leaf.ref.toList ++ (leaf.terms.getD []).map ConflictTerm.ref

/-- The terms are balanced, and every reference of either side is among theirs. -/
def Lossless (a b : Option Leaf) (terms : List ConflictTerm) : Prop :=
  Balanced terms ∧ ∀ leaf ∈ [a, b].reduceOption, ∀ r ∈ leaf.refs, r ∈ terms.map ConflictTerm.ref

/-- Every conflict entry that the merge makes is well formed and lossless. -/
def ConflictsLossless (base a b : Flat) : Prop :=
  ∀ p ∈ (merge3 base a b).2, ∃ leaf terms, (merge3 base a b).1.get? p = some leaf ∧
    leaf.kind = .conflict ∧ leaf.terms = some terms ∧ Lossless (a.get? p) (b.get? p) terms

/-- The reference of an entry, or what stands for none. -/
def Leaf.refOrZero (leaf : Leaf) : ObjectId := leaf.ref.getD (.splat 0)

/-- The references that the entries of a path have of their own, with the empty blob for
a side that has no entry. -/
def ownRefs (base a b : Option Leaf) : List ObjectId :=
  [base, a, b].reduceOption.map Leaf.refOrZero ++
    if a = none ∨ b = none then [Crypto.objectId (.blob [])] else []

/-- The base has an entry, and what terms the sides' entries have are of references that
the three entries have of their own. -/
def Keeps (base a b : Option Leaf) : Prop :=
  base ≠ none ∧ ∀ leaf ∈ [a, b].reduceOption, ∀ t ∈ leaf.terms.getD [], t.ref ∈ ownRefs base a b

def conflictTerms (base a b : Option Leaf) : List ConflictTerm :=
  padTerms ((base.map (·.term (-1))).toList ++ [a, b].reduceOption.map (·.term 1))

theorem refs_conflictTerms {base a b : Option Leaf} (hab : a ≠ b)
    (h : base ≠ none ∨ a ≠ none ∧ b ≠ none) :
    (conflictTerms base a b).map ConflictTerm.ref = ownRefs base a b := by
  rcases base with _ | base <;> rcases a with _ | a <;> rcases b with _ | b <;>
    simp_all [conflictTerms, padTerms, ownRefs, Leaf.term, Leaf.refOrZero]

theorem balanced_conflictTerms {base a b : Option Leaf} (hab : a ≠ b)
    (h : base ≠ none ∨ a ≠ none ∧ b ≠ none) :
    Balanced (conflictTerms base a b) ↔ base ≠ none := by
  rcases base with _ | base <;> rcases a with _ | a <;> rcases b with _ | b <;>
    simp_all [conflictTerms, padTerms, Balanced, Leaf.term]

theorem lossless_iff {base a b : Option Leaf} (ha : a ≠ base) (hb : b ≠ base) (hab : a ≠ b) :
    Lossless a b (conflictTerms base a b) ↔ Keeps base a b := by
  have hsome : base ≠ none ∨ a ≠ none ∧ b ≠ none := by
    rcases base with _ | base
    · exact .inr ⟨ha, hb⟩
    · exact .inl nofun
  rw [Lossless, Keeps, balanced_conflictTerms hab hsome, refs_conflictTerms hab hsome]
  refine and_congr_right fun _ => forall₂_congr fun leaf hleaf => ?_
  have hown : ∀ r ∈ leaf.ref.toList, r ∈ ownRefs base a b := by
    intro r hr
    have hmem : leaf ∈ [base, a, b].reduceOption := by
      rw [List.reduceOption_mem_iff] at hleaf ⊢
      exact List.mem_cons_of_mem _ hleaf
    have href : leaf.refOrZero = r := by rw [Leaf.refOrZero, Option.mem_toList.mp hr]; rfl
    exact List.mem_append_left _ (List.mem_map.mpr ⟨leaf, hmem, href⟩)
  constructor
  · intro h t ht
    exact h t.ref (List.mem_append_right _ (List.mem_map_of_mem ht))
  · intro h r hr
    rcases List.mem_append.mp hr with hr | hr
    · exact hown r hr
    · obtain ⟨t, ht, rfl⟩ := List.mem_map.mp hr
      exact h t ht

theorem get?_conflict {p : String} (h : Disputed base a b p) :
    (merge3 base a b).1.get? p =
      some ⟨.conflict, none, none,
        some (conflictTerms (base.get? p) (a.get? p) (b.get? p))⟩ := by
  rw [get?_merge3, pick, if_neg h.1, if_neg (not_or.mpr ⟨h.2.1, h.2.2⟩)]
  rfl

/-- The merge makes lossless conflict entries where the base has an entry and the terms
that the sides already hold are of references the entries have of their own. -/
theorem conflictsLossless_iff :
    ConflictsLossless base a b ↔
      ∀ p, Disputed base a b p → Keeps (base.get? p) (a.get? p) (b.get? p) := by
  refine forall_congr' fun p => ?_
  rw [mem_conflicts]
  refine imp_congr_right fun h => ?_
  rw [get?_conflict h, ← lossless_iff h.1 h.2.1 h.2.2]
  constructor
  · rintro ⟨_, _, ⟨⟩, -, ⟨⟩, hlossless⟩
    exact hlossless
  · intro hlossless
    exact ⟨_, _, rfl, rfl, rfl, hlossless⟩

end Terms

section Samples

/-! Both sides add a file, and a side holds a conflict entry already. -/

def held : Leaf :=
  ⟨.conflict, none, none,
    some [⟨-1, .file, some 0, .splat 1⟩, ⟨1, .file, some 0, .splat 2⟩,
      ⟨1, .file, some 0, .splat 3⟩]⟩

def oneLeaf (leaf : Leaf) : Flat := (∅ : Flat).insert "a.txt" leaf

local instance : Crypto := .ofTable []

def addedFiles : Flat × List String :=
  merge3 ∅ (oneLeaf (.file (.splat 1) false)) (oneLeaf (.file (.splat 2) false))

def heldMerged : Flat × List String :=
  merge3 (oneLeaf (.file (.splat 1) false)) (oneLeaf held) (oneLeaf (.file (.splat 4) false))

/-- Two positive terms for a file added twice, and the terms of a conflict entry left out. -/
theorem conflict_entries_lossy :
    ¬ConflictsLossless ∅ (oneLeaf (.file (.splat 1) false)) (oneLeaf (.file (.splat 2) false)) ∧
    ¬ConflictsLossless (oneLeaf (.file (.splat 1) false)) (oneLeaf held)
      (oneLeaf (.file (.splat 4) false)) := by
  constructor
  · intro h
    obtain ⟨leaf, terms, hget, _, hterms, hlossless⟩ := h "a.txt" (by decide +kernel)
    have hadded : addedFiles.1.get? "a.txt" = some ⟨.conflict, none, none,
        some [⟨1, .file, some 0, .splat 1⟩, ⟨1, .file, some 0, .splat 2⟩]⟩ := by
      decide +kernel
    cases hadded.symm.trans hget
    cases hterms
    exact absurd hlossless.1 (by unfold Balanced; decide)
  · intro h
    obtain ⟨leaf, terms, hget, _, hterms, hlossless⟩ := h "a.txt" (by decide +kernel)
    have hmerged : heldMerged.1.get? "a.txt" = some ⟨.conflict, none, none,
        some [⟨-1, .file, some 0, .splat 1⟩, ⟨1, .conflict, none, .splat 0⟩,
          ⟨1, .file, some 0, .splat 4⟩]⟩ := by
      decide +kernel
    cases hmerged.symm.trans hget
    cases hterms
    exact absurd (hlossless.2 held (by decide +kernel) (.splat 2) (by decide +kernel))
      (by decide +kernel)

end Samples

end Tessra.Daemon
