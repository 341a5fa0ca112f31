import Tessra.Core.Object
import Tessra.Data.Lists
import Tessra.Data.Splices

namespace Tessra.Daemon.OverlayTests

open Tessra.Core Tessra.Data

/-! New tests over the code of the parent, to see that they fail there. -/

section Model

/-- A slice of a text.  None where the source panics: past the end, or backwards. -/
def slice (text : Bytes) (a b : ℕ) : Option Bytes :=
  if a ≤ b ∧ b ≤ text.length then some ((text.take b).drop a) else none

def newline : Byte := 10

/-- What stands before a place on its line, if that is blank. -/
def indentAt (text : Bytes) (start : ℕ) : Bytes :=
  let indent := ((text.take start).reverse.takeWhile (· ≠ newline)).reverse
  if indent.all fun b => b = 32 || b = 9 then indent else []

variable (parentText : Bytes) (parentNodes : List Node) (changeText : Bytes)
  (changeNodes : List Node)

/-- The parent's unit that a container of the change is: the one of its identifier, or the
first of its kind and name. -/
def inParent (pid : EntityId) : Option Node :=
  (parentNodes.find? fun n => n.nid = pid).or
    ((changeNodes.find? fun n => n.nid = pid).bind fun c =>
      parentNodes.find? fun n => n.kind = c.kind && n.name = c.name)

/-- Where a test goes in a container: after the last child, or before the closing brace. -/
def placeIn (pc : Node) : ℕ :=
  match ((parentNodes.filter fun n => n.parent = some pc.nid).map fun n => n.span.2).max? with
  | some e => e
  | none =>
      let stop := min pc.span.2 parentText.length
      if (parentText.take stop).getLast? = some 125 then stop - 1 else stop

def placeOf (t : Node) : ℕ :=
  match t.parent.bind (inParent parentNodes changeNodes) with
  | some pc => placeIn parentText parentNodes pc
  | none => parentText.length

def insertOf (t : Node) : Option (ℕ × Bytes) := do
  let unit ← slice changeText t.span.1 t.span.2
  return (min (placeOf parentText parentNodes changeNodes t) parentText.length,
    [newline, newline] ++ indentAt changeText t.span.1 ++ unit)

/-- The parent's text with only the new test units added to it. -/
def overlayTests (tests : List Node) : Option Bytes := do
  let inserts ← tests.mapM (insertOf parentText parentNodes changeText changeNodes)
  return spliceAll parentText inserts

end Model

section Overlay

variable {parentText changeText out : Bytes} {parentNodes changeNodes tests : List Node}

def Within (u v : Node) : Prop := v.span.1 ≤ u.span.1 ∧ u.span.2 ≤ v.span.2

/-- The units of a text are nested, and a unit that others are in has children. -/
structure Nested (text : Bytes) (nodes : List Node) : Prop where
  span : ∀ u ∈ nodes, u.span.1 < u.span.2 ∧ u.span.2 ≤ text.length
  laminar : ∀ u ∈ nodes, ∀ v ∈ nodes,
    u.span.2 ≤ v.span.1 ∨ v.span.2 ≤ u.span.1 ∨ Within u v ∨ Within v u
  linked : ∀ u ∈ nodes, ∀ v ∈ nodes, Within u v → u = v ∨ ∃ c ∈ nodes, c.parent = some v.nid

/-- The unit contains the container that a test goes in, or a child of it. -/
def Surrounds (parentNodes changeNodes : List Node) (u t : Node) : Prop :=
  ∃ pc ∈ parentNodes, t.parent.bind (inParent parentNodes changeNodes) = some pc ∧
    (Within pc u ∨ ∃ c ∈ parentNodes, c.parent = some pc.nid ∧ Within c u)

theorem inParent_mem {pid : EntityId} {pc : Node}
    (h : inParent parentNodes changeNodes pid = some pc) : pc ∈ parentNodes := by
  rcases Option.or_eq_some_iff.mp h with h | ⟨_, h⟩
  · exact List.mem_of_find?_eq_some h
  · obtain ⟨c, _, h⟩ := Option.bind_eq_some_iff.mp h
    exact List.mem_of_find?_eq_some h

/-- A place strictly inside a unit is one for a container that the unit surrounds. -/
theorem Nested.surrounds (h : Nested parentText parentNodes) {u t : Node} (hu : u ∈ parentNodes)
    (hstart : u.span.1 < min (placeOf parentText parentNodes changeNodes t) parentText.length)
    (hend : min (placeOf parentText parentNodes changeNodes t) parentText.length < u.span.2) :
    Surrounds parentNodes changeNodes u t := by
  obtain ⟨hspan, hlen⟩ := h.span u hu
  have hplace : u.span.1 < placeOf parentText parentNodes changeNodes t ∧
      placeOf parentText parentNodes changeNodes t < u.span.2 := by omega
  rw [placeOf] at hplace
  cases hpc : t.parent.bind (inParent parentNodes changeNodes) with
  | none =>
      simp only [hpc] at hplace
      omega
  | some pc =>
      simp only [hpc] at hplace
      obtain ⟨pid, _, hin⟩ := Option.bind_eq_some_iff.mp hpc
      have hmem := inParent_mem hin
      refine ⟨pc, hmem, hpc, ?_⟩
      obtain ⟨hpcspan, hpclen⟩ := h.span pc hmem
      have hlaminar := h.laminar u hu pc hmem
      rw [placeIn] at hplace
      cases hmax : ((parentNodes.filter fun n => n.parent = some pc.nid).map
          fun n => n.span.2).max? with
      | some e =>
          simp only [hmax] at hplace
          obtain ⟨c, hc, rfl⟩ := List.mem_map.mp (List.max?_mem hmax)
          obtain ⟨hc, hparent⟩ := List.mem_filter.mp hc
          obtain ⟨hcspan, _⟩ := h.span c hc
          refine .inr ⟨c, hc, of_decide_eq_true hparent, ?_⟩
          rcases h.laminar u hu c hc with hbefore | hafter | ⟨_, hwithin⟩ | hwithin
          · omega
          · omega
          · omega
          · exact hwithin
      | none =>
          simp only [hmax] at hplace
          have hchildless : ∀ c ∈ parentNodes, c.parent ≠ some pc.nid := by
            intro c hc hparent
            have hmem : c.span.2 ∈ (parentNodes.filter fun n => n.parent = some pc.nid).map
                fun n => n.span.2 :=
              List.mem_map.mpr ⟨c, List.mem_filter.mpr ⟨hc, decide_eq_true hparent⟩, rfl⟩
            rw [List.max?_eq_none_iff] at hmax
            rw [hmax] at hmem
            cases hmem
          rcases hlaminar with hbefore | hafter | hwithin | hwithin
          · split_ifs at hplace <;> omega
          · split_ifs at hplace <;> omega
          · rcases h.linked u hu pc hmem hwithin with rfl | ⟨c, hc, hparent⟩
            · exact .inl hwithin
            · exact absurd hparent (hchildless c hc)
          · exact .inl hwithin

theorem mapM_eq_some {α β : Type} {f : α → Option β} {l : List α} {r : List β}
    (h : l.mapM f = some r) : List.Forall₂ (fun a b => f a = some b) l r := by
  induction l generalizing r with
  | nil =>
      cases h
      exact .nil
  | cons a rest ih =>
      rw [List.mapM_cons] at h
      obtain ⟨b, hb, h⟩ := Option.bind_eq_some_iff.mp h
      obtain ⟨bs, hbs, h⟩ := Option.bind_eq_some_iff.mp h
      cases h
      exact .cons hb (ih hbs)

/-- The overlay is the parent's text with each new test put in at its place; a unit of the
parent that surrounds no container of a test is in it as it was. -/
theorem overlay_keeps_parent
    (h : overlayTests parentText parentNodes changeText changeNodes tests = some out) :
    ∃ inserts, List.Forall₂
        (fun t e => insertOf parentText parentNodes changeText changeNodes t = some e)
        tests inserts ∧
      out = weave (gapOf inserts) 0 parentText ∧ parentText.Sublist out ∧
      (∀ e ∈ inserts, e.2 <:+: out) ∧
      (Nested parentText parentNodes → ∀ u ∈ parentNodes,
        (∀ t ∈ tests, ¬ Surrounds parentNodes changeNodes u t) →
          (parentText.take u.span.2).drop u.span.1 <:+: out) := by
  obtain ⟨inserts, hinserts, h⟩ := Option.bind_eq_some_iff.mp h
  cases h
  have hall := mapM_eq_some hinserts
  have hplaces : ∀ e ∈ inserts, ∃ t ∈ tests,
      e.1 = min (placeOf parentText parentNodes changeNodes t) parentText.length := by
    intro e he
    obtain ⟨t, ht, hinsert⟩ := mem_of_mapM hinserts he
    obtain ⟨unit, _, hinsert⟩ := Option.bind_eq_some_iff.mp hinsert
    cases hinsert
    exact ⟨t, ht, rfl⟩
  have hlen : ∀ e ∈ inserts, e.1 ≤ parentText.length := by
    intro e he
    obtain ⟨t, _, heq⟩ := hplaces e he
    rw [heq]
    exact min_le_right _ _
  have hweave := spliceAll_eq hlen
  change ∃ inserts', _ ∧ spliceAll parentText inserts = _ ∧
    parentText.Sublist (spliceAll parentText inserts) ∧ _
  rw [hweave]
  refine ⟨inserts, hall, rfl, sublist_weave _ _ _, fun e he => ?_, fun hnested u hu hfree => ?_⟩
  · exact (infix_gapOf he).trans
      (gap_infix_weave (Nat.zero_le _) (by rw [Nat.zero_add]; exact hlen e he))
  · refine infix_weave (hnested.span u hu).2 fun j hj hlt => ?_
    refine gapOf_eq_nil fun e he heq => ?_
    obtain ⟨t, ht, hplace⟩ := hplaces e he
    rw [Nat.zero_add] at hj hlt
    exact hfree t ht (hnested.surrounds hu (by omega) (by omega))

end Overlay

section Samples

/-! A test that a change adds to a module, after the unit that is in it. -/

def unitAt (nid : EntityId) (span : ℕ × ℕ) (parent : Option EntityId) : Node where
  nid := nid
  path := "m.rs"
  kind := "function"
  name := "f"
  span := span
  body := .splat 0
  parent := parent
  deps := none
  setlike := none

def oldModule : Bytes := [109, 123, 97, 125]

def oldUnits : List Node :=
  [unitAt (.splat 1) (0, 4) none, unitAt (.splat 2) (2, 3) (some (.splat 1))]

def newModule : Bytes := [109, 123, 97, 32, 116, 125]

def newTest : Node := unitAt (.splat 3) (4, 5) (some (.splat 1))

def overlaid : Bytes := [109, 123, 97, 10, 10, 116, 125]

theorem overlay_keeps_parent_module :
    overlayTests oldModule oldUnits newModule [] [newTest] = some overlaid ∧
      oldModule.Sublist overlaid := by
  have h : overlayTests oldModule oldUnits newModule [] [newTest] = some overlaid := by
    decide +kernel
  obtain ⟨_, _, _, hsub, _⟩ := overlay_keeps_parent h
  exact ⟨h, hsub⟩

end Samples

end Tessra.Daemon.OverlayTests
