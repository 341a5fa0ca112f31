import Tessra.Semantic.MergePlan

namespace Tessra.Semantic.Merge

open Tessra.Core Tessra.Data
open Tessra.Daemon (Rename)

/-! The text outside units: the headers and footers of the containers that are merged
child by child, and the text after the last unit. -/

section Versions

variable {α : Type} (base : Option α) (version : Side → α)

/-- Both sides changed the base, to different things. -/
def Apart : Prop := (∀ side, base ≠ some (version side)) ∧ version .a ≠ version .b

/-- The side that is kept is the only one that changed the base, if one alone did, and
its version stands for both unless the two came apart. -/
structure Kept (side : Side) : Prop where
  only : ∀ s : Side, base = some (version s.other) → base ≠ some (version s) →
    version side = version s
  together : ¬ Apart base version

end Versions

theorem kept_regionSide_iff (base : Option Bytes) (version : Side → Bytes) :
    Kept base version (regionSide base (version .a)) ↔ ¬ Apart base version := by
  refine ⟨Kept.together, fun together => ⟨fun s hother hself => ?_, together⟩⟩
  cases s with
  | a => rw [regionSide, if_neg (Ne.symm hself)]
  | b => exact congrArg version (if_pos hother.symm)

/-- A region of text outside units: how each version has it, and the piece of the output
that a side's version makes. -/
structure Region where
  base : Option Bytes
  version : Side → Bytes
  piece : Side → Piece

/-- The side that the merge takes a region from. -/
def Region.chosen (r : Region) : Side := regionSide r.base (r.version .a)

section Regions

variable (ctx : Ctx)

def headerRegion (base : Option Unit) (x y : Unit) : Region where
  base := baseRegion ctx header base
  version side := header (ctx.text side) (sides x y side)
  piece := headerPiece ctx base x y

def footerRegion (base : Option Unit) (x y : Unit) : Region where
  base := baseRegion ctx footer base
  version := footerText ctx x y
  piece := footerPiece ctx base x y

/-- The regions of every container that is merged child by child. -/
def bordering : Walk Region where
  level _ _ := []
  emit _ _ _ := []
  container b x y inner := headerRegion ctx b x y :: inner ++ [footerRegion ctx b x y]

variable {ctx} {fuel : ℕ} {base : List Unit} {units : Side → List Unit} {r : Region}

theorem mem_planned_of_bordering (h : r ∈ (bordering ctx).run ctx fuel base units) :
    r.piece r.chosen ∈ (planned ctx).run ctx fuel base units := by
  refine Walk.carry (planned ctx) (fun r : Region => r.piece r.chosen) ?_ ?_ ?_ r h
  · exact fun _ _ _ h => absurd h List.not_mem_nil
  · exact fun _ _ _ _ h => absurd h List.not_mem_nil
  · intro b x y inner inner' hinner r hr
    rcases List.mem_cons.mp hr with rfl | hr
    · exact List.mem_cons_self
    · apply List.mem_cons_of_mem
      rcases List.mem_append.mp hr with hr | hr
      · exact List.mem_append_left _ (hinner r hr)
      · rw [List.mem_singleton.mp hr]
        exact List.mem_append_right _ (List.mem_singleton_self _)

end Regions

section Files

variable (renameEdits : Bytes → List Rename → List Edit) (base : Option FileNodes)
  (file : Side → FileNodes) (ops : Side → List Rename)

def tailRegion : Region where
  base := base.map tail
  version side := tail (file side)
  piece := tailPiece file

/-- All the text of a file that is outside the units the merge takes whole. -/
def regions : List Region :=
  (bordering (fileCtx renameEdits base file ops)).ofFile renameEdits base file ops ++
    [tailRegion base file]

/-- Every region is in the output as the only side that changed it has it, and none was
changed by both sides to different bytes. -/
def KeepsText : Prop :=
  ∀ r ∈ regions renameEdits base file ops, ∃ side,
    r.piece side ∈ (mergeFile renameEdits base file ops).out ∧ Kept r.base r.version side

variable {renameEdits base file ops} {r : Region}

theorem mem_out_of_solid {m : Merged} {p : Piece} (h : p ∈ m.solid) : p ∈ m.out :=
  (List.mem_filter.mp h).1

/-- The merge emits every region, from the side it chooses. -/
theorem chosen_mem_out (h : r ∈ regions renameEdits base file ops) :
    r.piece r.chosen ∈ (mergeFile renameEdits base file ops).out := by
  apply mem_out_of_solid
  rw [solid_mergeFile]
  rcases List.mem_append.mp h with h | h
  · exact List.mem_append_left _ (mem_planned_of_bordering h)
  · rw [List.mem_singleton.mp h]
    exact List.mem_append_right _ (List.mem_singleton_self _)

theorem keepsText_iff : KeepsText renameEdits base file ops ↔
    ∀ r ∈ regions renameEdits base file ops, ¬ Apart r.base r.version := by
  constructor
  · intro h r hr
    obtain ⟨_, _, hkept⟩ := h r hr
    exact hkept.together
  · intro h r hr
    exact ⟨r.chosen, chosen_mem_out hr, (kept_regionSide_iff r.base r.version).mpr (h r hr)⟩

variable (renameEdits base file ops)

end Files

/-- A binary file of two bytes: it has no nodes. -/
def binary (byte : Byte) : FileNodes := ⟨[0, byte], []⟩

end Tessra.Semantic.Merge
