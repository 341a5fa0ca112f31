import Tessra.Semantic.Fates

namespace Tessra.Semantic.Merge

open Tessra.Core Tessra.Data
open Tessra.Daemon (Rename)

/-! The merge with its sides exchanged: other pieces, perhaps, but a conflict for a
conflict. -/

def Ctx.swap (ctx : Ctx) : Ctx where
  base := ctx.base
  text side := ctx.text side.other
  renames side := ctx.renames side.other
  recorded side := ctx.recorded side.other
  edits side := ctx.edits side.other
  baseEdits side := ctx.baseEdits side.other

section Swapped

variable {ctx : Ctx} {base : List Unit} {units : Side → List Unit} {key : Key}

theorem kids_other (x y : Unit) : (fun side => kids x y (Side.other side)) = kids y x :=
  funext fun side => by cases side <;> rfl

theorem collision_swap (level : Side → Level) (baseLevel : Level) (side : Side) (e : Unit × Key) :
    collision ctx.swap baseLevel (fun side => level side.other) side e =
      collision ctx baseLevel level side.other e := by
  cases side <;> rfl

/-- Each side's collisions, in the other order. -/
theorem collisions_swap (level : Side → Level) (baseLevel : Level) :
    collisions ctx.swap baseLevel (fun side => level side.other) = [] ↔
      collisions ctx baseLevel level = [] := by
  simp only [collisions, List.flatMap_cons, List.flatMap_nil, List.append_nil,
    List.append_eq_nil_iff, collision_swap]
  exact and_comm

theorem mem_levelKeys_swap :
    key ∈ levelKeys ctx.swap base (fun side => units side.other) ↔
      key ∈ levelKeys ctx base units := by
  rw [levelKeys, levelKeys, mem_orderedKeys, mem_orderedKeys]
  exact or_congr_right or_comm

theorem changeIsRenames_swap (side : Side) (b u : Unit) :
    changeIsRenames ctx.swap side b u = changeIsRenames ctx side.other b u := rfl

end Swapped

section Verdicts

variable {ctx : Ctx} {below below' : List Unit → (Side → List Unit) → List String}

/-- The conflicts of a verdict, when those of the level it descends to are given. -/
def Clean (ctx : Ctx) (below : List Unit → (Side → List Unit) → List String) (v : Verdict) :
    Prop := (clashing ctx).at below v = []

theorem clean_emit {conflicts : List String} {side : Side} {u : Unit} :
    Clean ctx below (.emit conflicts side u) ↔ conflicts = [] := Iff.rfl

theorem clean_descend {b : Option Unit} {x y : Unit} :
    Clean ctx below (.descend b x y) ↔ below (baseKids b) (kids x y) = [] := Iff.rfl

variable (hbelow : ∀ base units, below' base (fun side => units side.other) = [] ↔
  below base units = [])

include hbelow

/-- Both sides descend, or neither. -/
theorem clean_descend_swap {b : Option Unit} {x y : Unit} :
    Clean ctx.swap below' (.descend b y x) ↔ Clean ctx below (.descend b x y) := by
  rw [clean_descend, clean_descend, ← kids_other x y]
  exact hbelow _ _

theorem clean_bothChanged_swap (b x y : Unit) :
    Clean ctx.swap below' (bothChanged ctx.swap b y x) ↔
      Clean ctx below (bothChanged ctx b x y) := by
  have hrenames : ∀ side u, changeIsRenames ctx.swap side b u =
      changeIsRenames ctx side.other b u := fun side u => changeIsRenames_swap side b u
  by_cases hsame : x.body = y.body ∧ x.name = y.name
  · rw [bothChanged, bothChanged, if_pos hsame, if_pos ⟨hsame.1.symm, hsame.2.symm⟩]
    exact Iff.rfl
  · have hsame' : ¬ (y.body = x.body ∧ y.name = x.name) :=
      fun h => hsame ⟨h.1.symm, h.2.symm⟩
    rw [bothChanged, bothChanged, if_neg hsame, if_neg hsame']
    by_cases hnames : x.name ≠ b.name ∧ y.name ≠ b.name ∧ x.name ≠ y.name
    · rw [if_pos hnames, if_pos ⟨hnames.2.1, hnames.1, hnames.2.2.symm⟩]
      simp [clean_emit]
    · rw [if_neg hnames, if_neg fun h => hnames ⟨h.2.1, h.1, h.2.2.symm⟩, hrenames, hrenames]
      -- The first side's renames are asked for first, in either order.
      change Clean ctx.swap below' (if changeIsRenames ctx .b b y then .emit [] .b x
        else if changeIsRenames ctx .a b x then .emit [] .a y else _) ↔ _
      by_cases ha : changeIsRenames ctx .a b x = true
      · rw [if_pos ha]
        split_ifs <;> exact Iff.rfl
      by_cases hb : changeIsRenames ctx .b b y = true
      · rw [if_pos hb, if_neg ha, if_pos hb]
        exact Iff.rfl
      rw [if_neg hb, if_neg ha, if_neg ha, if_neg hb]
      by_cases hkids : x.children ≠ [] ∧ y.children ≠ [] ∧ b.children ≠ []
      · rw [if_pos hkids, if_pos ⟨hkids.2.1, hkids.1, hkids.2.2⟩]
        exact clean_descend_swap hbelow
      · rw [if_neg hkids, if_neg fun h => hkids ⟨h.2.1, h.1, h.2.2⟩]
        simp [clean_emit]

/-- A key is clean in one order exactly when it is in the other. -/
theorem clean_verdict_swap (b x y : Option Unit) :
    Clean ctx.swap below' (verdict ctx.swap b y x) ↔ Clean ctx below (verdict ctx b x y) := by
  cases x with
  | none =>
      cases y with
      | none => cases b <;> exact Iff.rfl
      | some y =>
          cases b with
          | none => exact Iff.rfl
          | some b =>
              simp only [verdict]
              split_ifs
              · simp [clean_emit]
              · exact Iff.rfl
  | some x =>
      cases y with
      | none =>
          cases b with
          | none => exact Iff.rfl
          | some b =>
              simp only [verdict]
              split_ifs
              · simp [clean_emit]
              · exact Iff.rfl
      | some y =>
          cases b with
          | none =>
              simp only [verdict]
              by_cases hbody : x.body = y.body
              · rw [if_pos hbody, if_pos hbody.symm]
                exact Iff.rfl
              · rw [if_neg hbody, if_neg fun h => hbody h.symm]
                by_cases hkids : x.children ≠ [] ∧ y.children ≠ []
                · rw [if_pos hkids, if_pos hkids.symm]
                  exact clean_descend_swap hbelow
                · rw [if_neg hkids, if_neg fun h => hkids h.symm]
                  simp [clean_emit]
          | some b =>
              simp only [verdict]
              cases hx : changed b x <;> cases hy : changed b y
              · split_ifs <;> exact Iff.rfl
              · exact Iff.rfl
              · exact Iff.rfl
              · exact clean_bothChanged_swap hbelow b x y

end Verdicts

section Runs

variable {ctx : Ctx}

theorem clashing_run_swap (ctx : Ctx) : ∀ (fuel : ℕ) (base : List Unit)
    (units : Side → List Unit),
    (clashing ctx.swap).run ctx.swap fuel base (fun side => units side.other) = [] ↔
      (clashing ctx).run ctx fuel base units = []
  | 0, _, _ => Iff.rfl
  | fuel + 1, base, units => by
      rw [Walk.run, Walk.run, List.append_eq_nil_iff, List.append_eq_nil_iff,
        List.flatMap_eq_nil_iff, List.flatMap_eq_nil_iff]
      refine and_congr ?_ (forall_congr' fun key => ?_)
      · exact collisions_swap (sideLevel ctx base units) (baseLevel base)
      · rw [mem_levelKeys_swap]
        exact imp_congr_right fun _ =>
          clean_verdict_swap (clashing_run_swap ctx fuel) _ _ _

/-- However much more fuel there is than the units are deep. -/
theorem Walk.run_fuel_add {α : Type} (w : Walk α) {fuel : ℕ} {base : List Unit}
    (units : Side → List Unit) (h : heights (units .a) < fuel) (more : ℕ) :
    w.run ctx (fuel + more) base units = w.run ctx fuel base units := by
  induction more with
  | zero => rfl
  | succ more ih =>
      rw [← ih]
      exact w.run_fuel (h.trans_le (Nat.le_add_right fuel more))

variable (renameEdits : Bytes → List Rename → List Edit) (base : Option FileNodes)
  (a b : FileNodes) (opsA opsB : List Rename)

theorem fileCtx_swap : fileCtx renameEdits base (sides b a) (sides opsB opsA) =
    (fileCtx renameEdits base (sides a b) (sides opsA opsB)).swap := by
  simp only [fileCtx, Ctx.swap, Ctx.mk.injEq, true_and]
  refine ⟨?_, ?_, ?_, ?_, ?_⟩ <;>
    · funext side
      cases side <;> rfl

/-- The merge finds a conflict in one landing order exactly when it does in the other. -/
theorem conflict_either_order :
    (mergeFile renameEdits base (sides a b) (sides opsA opsB)).conflicts ≠ [] ↔
      (mergeFile renameEdits base (sides b a) (sides opsB opsA)).conflicts ≠ [] := by
  let ctx := fileCtx renameEdits base (sides a b) (sides opsA opsB)
  have ha : heights (sideUnits (sides a b) .a) < a.nodes.length + 1 :=
    Nat.lt_succ_of_le (heights_buildUnits a.nodes)
  have hb : heights (sideUnits (sides a b) .b) < b.nodes.length + 1 :=
    Nat.lt_succ_of_le (heights_buildUnits b.nodes)
  have hunits : sideUnits (sides b a) = fun side => sideUnits (sides a b) side.other :=
    funext fun side => by cases side <;> rfl
  have hboth : (clashing ctx).run ctx (a.nodes.length + 1) (baseUnits base)
      (sideUnits (sides a b)) = [] ↔ (clashing ctx.swap).run ctx.swap (b.nodes.length + 1)
        (baseUnits base) (fun side => sideUnits (sides a b) side.other) = [] := by
    calc _ ↔ (clashing ctx).run ctx (a.nodes.length + 1 + (b.nodes.length + 1)) (baseUnits base)
          (sideUnits (sides a b)) = [] := by rw [Walk.run_fuel_add _ _ ha]
      _ ↔ (clashing ctx.swap).run ctx.swap (b.nodes.length + 1 + (a.nodes.length + 1))
          (baseUnits base) (fun side => sideUnits (sides a b) side.other) = [] := by
        rw [Nat.add_comm, clashing_run_swap]
      _ ↔ _ := by
        rw [Walk.run_fuel_add _ (fun side => sideUnits (sides a b) side.other) hb]
  rw [conflicts_mergeFile, conflicts_mergeFile, Walk.ofFile, Walk.ofFile, hunits,
    fileCtx_swap renameEdits base a b]
  exact not_congr hboth

end Runs

end Tessra.Semantic.Merge
