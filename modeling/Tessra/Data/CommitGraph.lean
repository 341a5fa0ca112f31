import Mathlib.Data.List.Basic
import Mathlib.Logic.Relation

namespace Tessra.Data

open Relation

/-! Graphs that only grow: every node names nodes that were there before it. -/

universe u v

structure Node (α : Type u) (β : Type v) where
  id : α
  parents : List α
  data : β
deriving DecidableEq

section Nodes

variable {α : Type u} {β : Type v}

def ids (nodes : List (Node α β)) : List α := nodes.map Node.id

/-- Newest first, each node is new and its parents are older. -/
def Grown : List (Node α β) → Prop
  | [] => True
  | n :: rest => n.id ∉ ids rest ∧ (∀ p ∈ n.parents, p ∈ ids rest) ∧ Grown rest

/-- Is `y` the node `x`, or an ancestor of it? -/
def Behind : List (Node α β) → α → α → Prop
  | [], _, _ => False
  | n :: rest, x, y =>
      (x = n.id ∧ (y = n.id ∨ ∃ p ∈ n.parents, Behind rest p y)) ∨ (x ≠ n.id ∧ Behind rest x y)

instance [DecidableEq α] : (nodes : List (Node α β)) → (x y : α) → Decidable (Behind nodes x y)
  | [], _, _ => inferInstanceAs (Decidable False)
  | n :: rest, x, y =>
      have : ∀ p, Decidable (Behind rest p y) := fun p => instDecidableBehindOfDecidableEq rest p y
      inferInstanceAs (Decidable ((x = n.id ∧ (y = n.id ∨ ∃ p ∈ n.parents, Behind rest p y)) ∨
        (x ≠ n.id ∧ Behind rest x y)))

instance [DecidableEq α] : (nodes : List (Node α β)) → Decidable (Grown nodes)
  | [] => inferInstanceAs (Decidable True)
  | n :: rest =>
      have : Decidable (Grown rest) := instDecidableGrownOfDecidableEq rest
      inferInstanceAs (Decidable (n.id ∉ ids rest ∧ (∀ p ∈ n.parents, p ∈ ids rest) ∧ Grown rest))

/-- The nodes along first parents, newest first. -/
def firstParents [DecidableEq α] : List (Node α β) → Option α → List α
  | [], _ => []
  | n :: rest, start =>
      if start = some n.id then n.id :: firstParents rest n.parents.head?
      else firstParents rest start

end Nodes

section Laws

variable {α : Type u} {β : Type v} {nodes : List (Node α β)} {n : Node α β} {x y z : α}

theorem Behind.mem (h : Behind nodes x y) : x ∈ ids nodes ∧ y ∈ ids nodes := by
  induction nodes generalizing x with
  | nil => exact h.elim
  | cons n rest ih =>
      rcases h with ⟨rfl, rfl | ⟨p, _, hbehind⟩⟩ | ⟨_, hbehind⟩
      · exact ⟨List.mem_cons_self, List.mem_cons_self⟩
      · exact ⟨List.mem_cons_self, List.mem_cons_of_mem _ (ih hbehind).2⟩
      · exact ⟨List.mem_cons_of_mem _ (ih hbehind).1, List.mem_cons_of_mem _ (ih hbehind).2⟩

theorem behind_self (h : x ∈ ids nodes) : Behind nodes x x := by
  induction nodes with
  | nil => cases h
  | cons n rest ih =>
      by_cases hx : x = n.id
      · exact .inl ⟨hx, .inl hx⟩
      · exact .inr ⟨hx, ih ((List.mem_cons.mp h).resolve_left hx)⟩

/-- A node is in front of nothing older. -/
theorem Grown.behind_cons (h : Grown (n :: nodes)) (hx : x ∈ ids nodes) :
    Behind (n :: nodes) x y ↔ Behind nodes x y := by
  have hne : x ≠ n.id := fun heq => h.1 (heq ▸ hx)
  constructor
  · rintro (⟨heq, _⟩ | ⟨_, hbehind⟩)
    · exact absurd heq hne
    · exact hbehind
  · exact fun hbehind => .inr ⟨hne, hbehind⟩

theorem behind_head : Behind (n :: nodes) n.id y ↔ y = n.id ∨ ∃ p ∈ n.parents, Behind nodes p y := by
  constructor
  · rintro (⟨_, h⟩ | ⟨hne, _⟩)
    · exact h
    · exact absurd rfl hne
  · exact fun h => .inl ⟨rfl, h⟩

theorem Grown.not_behind_head (h : Grown (n :: nodes)) (hx : x ∈ ids nodes) :
    ¬ Behind (n :: nodes) x n.id := by
  rw [h.behind_cons hx]
  exact fun hbehind => h.1 hbehind.mem.2

theorem Behind.trans (hgrown : Grown nodes) (h : Behind nodes x y) (h' : Behind nodes y z) :
    Behind nodes x z := by
  induction nodes generalizing x y with
  | nil => exact h.elim
  | cons n rest ih =>
      rcases h with ⟨rfl, rfl | ⟨p, hp, hbehind⟩⟩ | ⟨hne, hbehind⟩
      · exact h'
      · have hlater := (hgrown.behind_cons hbehind.mem.2).mp h'
        exact .inl ⟨rfl, .inr ⟨p, hp, ih hgrown.2.2 hbehind hlater⟩⟩
      · have hlater := (hgrown.behind_cons hbehind.mem.2).mp h'
        exact .inr ⟨hne, ih hgrown.2.2 hbehind hlater⟩

theorem Grown.behind_parent (h : Grown nodes) (hn : n ∈ nodes) (hx : x ∈ n.parents) :
    Behind nodes n.id x := by
  induction nodes with
  | nil => cases hn
  | cons m rest ih =>
      rcases List.mem_cons.mp hn with rfl | hn
      · exact behind_head.mpr (.inr ⟨x, hx, behind_self (h.2.1 x hx)⟩)
      · exact (h.behind_cons (List.mem_map_of_mem hn)).mpr (ih h.2.2 hn)

/-- What is behind a node is what parents lead to. -/
theorem behind_iff (hgrown : Grown nodes) : Behind nodes x y ↔ x ∈ ids nodes ∧
    ReflTransGen (fun a b => ∃ n ∈ nodes, n.id = a ∧ b ∈ n.parents) x y := by
  constructor
  · intro h
    refine ⟨h.mem.1, ?_⟩
    induction nodes generalizing x with
    | nil => exact h.elim
    | cons n rest ih =>
        have hlift : ∀ {a b}, ReflTransGen (fun a b => ∃ n ∈ rest, n.id = a ∧ b ∈ n.parents) a b →
            ReflTransGen (fun a b => ∃ m ∈ n :: rest, m.id = a ∧ b ∈ m.parents) a b :=
          fun hpath => hpath.lift (fun a => a) fun _ _ hstep => by
            obtain ⟨m, hm, hparent⟩ := hstep
            exact ⟨m, List.mem_cons_of_mem _ hm, hparent⟩
        rcases h with ⟨rfl, rfl | ⟨p, hp, hbehind⟩⟩ | ⟨_, hbehind⟩
        · exact .refl
        · exact .head ⟨n, List.mem_cons_self, rfl, hp⟩ (hlift (ih hgrown.2.2 hbehind))
        · exact hlift (ih hgrown.2.2 hbehind)
  · rintro ⟨hx, hpath⟩
    induction hpath with
    | refl => exact behind_self hx
    | @tail y z _ hstep ih =>
        obtain ⟨n, hn, rfl, hz⟩ := hstep
        exact ih.trans hgrown (hgrown.behind_parent hn hz)

variable [DecidableEq α] {start : Option α}

theorem mem_ids_of_firstParents (h : x ∈ firstParents nodes start) : x ∈ ids nodes := by
  induction nodes generalizing start with
  | nil => cases h
  | cons n rest ih =>
      rw [firstParents] at h
      split_ifs at h
      · rcases List.mem_cons.mp h with rfl | h
        · exact List.mem_cons_self
        · exact List.mem_cons_of_mem _ (ih h)
      · exact List.mem_cons_of_mem _ (ih h)

/-- Along first parents no node is behind a later one. -/
theorem Grown.firstParents_pairwise (h : Grown nodes) (start : Option α) :
    (firstParents nodes start).Pairwise fun newer older => ¬ Behind nodes older newer := by
  induction nodes generalizing start with
  | nil => exact .nil
  | cons n rest ih =>
      have hrest : ∀ start, (firstParents rest start).Pairwise
          fun newer older => ¬ Behind (n :: rest) older newer := fun start =>
        (ih h.2.2 start).imp_of_mem fun _ holder hnot => by
          rwa [h.behind_cons (mem_ids_of_firstParents holder)]
      rw [firstParents]
      split_ifs
      · exact .cons (fun x hx => h.not_behind_head (mem_ids_of_firstParents hx)) (hrest _)
      · exact hrest _

theorem Grown.firstParents_cons (h : Grown (n :: nodes)) (hx : x ∈ ids nodes) :
    firstParents (n :: nodes) (some x) = firstParents nodes (some x) := by
  have hne : some x ≠ some n.id := fun heq => h.1 (Option.some.inj heq ▸ hx)
  rw [firstParents, if_neg hne]

variable {newer : List (Node α β)}

omit [DecidableEq α] in
theorem ids_append : ids (newer ++ nodes) = ids newer ++ ids nodes := List.map_append

omit [DecidableEq α] in
theorem mem_ids_append (hx : x ∈ ids nodes) : x ∈ ids (newer ++ nodes) := by
  rw [ids_append]
  exact List.mem_append_right _ hx

omit [DecidableEq α] in
/-- Newer nodes change nothing behind the older ones. -/
theorem Grown.behind_append (h : Grown (newer ++ nodes)) (hx : x ∈ ids nodes) :
    Behind (newer ++ nodes) x y ↔ Behind nodes x y := by
  induction newer with
  | nil => exact Iff.rfl
  | cons m newer ih =>
      have h : Grown (m :: (newer ++ nodes)) := h
      exact (h.behind_cons (mem_ids_append hx)).trans (ih h.2.2)

theorem Grown.firstParents_append (h : Grown (newer ++ nodes)) (hx : x ∈ ids nodes) :
    firstParents (newer ++ nodes) (some x) = firstParents nodes (some x) := by
  induction newer with
  | nil => rfl
  | cons m newer ih =>
      have h : Grown (m :: (newer ++ nodes)) := h
      exact (h.firstParents_cons (mem_ids_append hx)).trans (ih h.2.2)

end Laws

end Tessra.Data
