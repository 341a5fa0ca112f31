import Tessra.Semantic.Merging

namespace Tessra.Semantic.Merge

open Tessra.Core Tessra.Data
open Tessra.Daemon (Rename)

/-! What a merge emits, apart from the gaps: the verdicts on the keys of each level,
walked level by level.  No verdict reads the output, so the plan is a function of the
units. -/

/-- What a walk collects from a level, from a unit that is emitted, and from a container
around what its children gave. -/
structure Walk (α : Type) where
  level : List Unit → (Side → List Unit) → List α
  emit : List String → Side → Unit → List α
  container : Option Unit → Unit → Unit → List α → List α

section Walks

variable {α : Type} (ctx : Ctx) (w : Walk α)

def Walk.at (below : List Unit → (Side → List Unit) → List α) : Verdict → List α
  | .nothing => []
  | .emit conflicts side u => w.emit conflicts side u
  | .descend b x y => w.container b x y (below (baseKids b) (kids x y))

def Walk.run : ℕ → List Unit → (Side → List Unit) → List α
  | 0, _, _ => []
  | fuel + 1, base, units =>
      w.level base units ++ (levelKeys ctx base units).flatMap fun key =>
        w.at (Walk.run fuel) (verdictAt ctx base units key)

variable {ctx w}

theorem Walk.mem_run_succ {fuel : ℕ} {base : List Unit} {units : Side → List Unit} {e : α} :
    e ∈ w.run ctx (fuel + 1) base units ↔ e ∈ w.level base units ∨
      ∃ key ∈ levelKeys ctx base units, e ∈ w.at (w.run ctx fuel) (verdictAt ctx base units key) := by
  rw [run, List.mem_append, List.mem_flatMap]

/-- What one walk collects another does, when it does so at every step. -/
theorem Walk.carry {β : Type} (w' : Walk β) (f : α → β)
    (hlevel : ∀ base units, ∀ e ∈ w.level base units, f e ∈ w'.level base units)
    (hemit : ∀ conflicts side u, ∀ e ∈ w.emit conflicts side u, f e ∈ w'.emit conflicts side u)
    (hcontainer : ∀ b x y inner inner', (∀ e ∈ inner, f e ∈ inner') →
      ∀ e ∈ w.container b x y inner, f e ∈ w'.container b x y inner') :
    ∀ {fuel base units}, ∀ e ∈ w.run ctx fuel base units, f e ∈ w'.run ctx fuel base units
  | 0, _, _, _, h => absurd h List.not_mem_nil
  | fuel + 1, base, units, e, h => by
      rw [mem_run_succ] at h ⊢
      rcases h with h | ⟨key, hkey, h⟩
      · exact Or.inl (hlevel base units e h)
      · refine Or.inr ⟨key, hkey, ?_⟩
        cases hverdict : verdictAt ctx base units key with
        | nothing =>
            rw [hverdict] at h
            exact absurd h List.not_mem_nil
        | emit conflicts side u =>
            rw [hverdict] at h
            exact hemit conflicts side u e h
        | descend b x y =>
            rw [hverdict] at h
            exact hcontainer b x y _ _ (Walk.carry w' f hlevel hemit hcontainer) e h

end Walks

section Plan

variable (ctx : Ctx)

/-- The header of a container, as the merge takes it from a side. -/
def headerText (x y : Unit) (side : Side) : Bytes :=
  (applyEdits (ctx.text side) (sides x y side).span.1 (headEnd (sides x y side))
    (ctx.edits side)).1

def footerText (x y : Unit) (side : Side) : Bytes := footer (ctx.text side) (sides x y side)

def headerSide (base : Option Unit) (x : Unit) : Side :=
  regionSide (baseRegion ctx header base) (header (ctx.text .a) x)

def footerSide (base : Option Unit) (x : Unit) : Side :=
  regionSide (baseRegion ctx footer base) (footer (ctx.text .a) x)

def headerPiece (base : Option Unit) (x y : Unit) (side : Side) : Piece :=
  ⟨.header side base x y, headerText ctx x y side⟩

def footerPiece (base : Option Unit) (x y : Unit) (side : Side) : Piece :=
  ⟨.footer side base x y, footerText ctx x y side⟩

def unitPiece (side : Side) (u : Unit) : Piece := ⟨.unit side u, (renamed ctx side u).1⟩

def planned : Walk Piece where
  level _ _ := []
  emit _ side u := [unitPiece ctx side u]
  container b x y inner :=
    headerPiece ctx b x y (headerSide ctx b x) :: inner ++
      [footerPiece ctx b x y (footerSide ctx b x)]

def clashing : Walk String where
  level base units := collisions ctx (baseLevel base) (sideLevel ctx base units)
  emit conflicts _ _ := conflicts
  container _ _ _ inner := inner

end Plan

def Piece.isGap (p : Piece) : Bool :=
  match p.part with
  | .gap => true
  | _ => false

/-- The output apart from the gaps. -/
def Merged.solid (m : Merged) : List Piece := m.out.filter (!·.isGap)

section Outputs

variable {m : Merged}

@[simp] theorem solid_pushGap (gap : Bytes) : (pushGap m gap).solid = m.solid := by
  simp [pushGap, Merged.put, Merged.solid, Piece.isGap]

@[simp] theorem conflicts_pushGap (gap : Bytes) : (pushGap m gap).conflicts = m.conflicts :=
  rfl

@[simp] theorem solid_resolve (ctx : Ctx) (side : Side) (u : Unit) (applied : List ℕ) :
    (m.resolve ctx side u applied).solid = m.solid := rfl

@[simp] theorem conflicts_resolve (ctx : Ctx) (side : Side) (u : Unit) (applied : List ℕ) :
    (m.resolve ctx side u applied).conflicts = m.conflicts := rfl

@[simp] theorem solid_conflict (messages : List String) :
    (m.conflict messages).solid = m.solid := rfl

@[simp] theorem conflicts_conflict (messages : List String) :
    (m.conflict messages).conflicts = m.conflicts ++ messages := rfl

@[simp] theorem conflicts_put (part : Part) (text : Bytes) :
    (m.put part text).conflicts = m.conflicts := rfl

theorem solid_put {part : Part} (text : Bytes) (h : (Piece.mk part text).isGap = false) :
    (m.put part text).solid = m.solid ++ [⟨part, text⟩] := by
  simp [Merged.put, Merged.solid, h]

variable (ctx : Ctx) (side : Side) (u : Unit) (gap : Bytes)

theorem solid_emitLeaf : (emitLeaf ctx side u gap m).solid = m.solid ++ [unitPiece ctx side u] := by
  unfold emitLeaf
  rw [solid_put _ rfl, solid_resolve, solid_pushGap]
  rfl

theorem conflicts_emitLeaf : (emitLeaf ctx side u gap m).conflicts = m.conflicts := rfl

end Outputs

/-- A merger of levels adds to the output what one walk collects, and to the conflicts
what another does. -/
def Follows (level : List Unit → (Side → List Unit) → Merged → Merged)
    (pieces : List Unit → (Side → List Unit) → List Piece)
    (messages : List Unit → (Side → List Unit) → List String) : Prop :=
  ∀ base units m, (level base units m).solid = m.solid ++ pieces base units ∧
    (level base units m).conflicts = m.conflicts ++ messages base units

section Follow

variable {ctx : Ctx} {level : List Unit → (Side → List Unit) → Merged → Merged}
  {pieces : List Unit → (Side → List Unit) → List Piece}
  {messages : List Unit → (Side → List Unit) → List String}

theorem follows_mergeContainer (h : Follows level pieces messages) (b : Option Unit) (x y : Unit)
    (gap : Side → Bytes) (m : Merged) :
    (mergeContainer ctx level b x y gap m).solid =
        m.solid ++ (planned ctx).at pieces (.descend b x y) ∧
      (mergeContainer ctx level b x y gap m).conflicts =
        m.conflicts ++ (clashing ctx).at messages (.descend b x y) := by
  unfold mergeContainer
  constructor
  · rw [solid_put _ rfl, (h _ _ _).1, solid_put _ rfl, solid_resolve, solid_pushGap]
    simp only [List.append_assoc]
    rfl
  · rw [conflicts_put, (h _ _ _).2, conflicts_put, conflicts_resolve, conflicts_pushGap]
    rfl

theorem follows_mergeKey (h : Follows level pieces messages) (base : List Unit)
    (units : Side → List Unit) (s : Merged × Option Key) (key : Key) :
    (mergeKey ctx level base units s key).1.solid =
        s.1.solid ++ (planned ctx).at pieces (verdictAt ctx base units key) ∧
      (mergeKey ctx level base units s key).1.conflicts =
        s.1.conflicts ++ (clashing ctx).at messages (verdictAt ctx base units key) := by
  unfold mergeKey
  cases hverdict : verdictAt ctx base units key with
  | nothing => simp [Walk.at]
  | emit conflicts side u =>
      exact ⟨solid_emitLeaf ctx side u _, conflicts_emitLeaf ctx side u _⟩
  | descend b x y => exact follows_mergeContainer h b x y _ s.1

theorem follows_keys (h : Follows level pieces messages) (base : List Unit)
    (units : Side → List Unit) (keys : List Key) : ∀ s : Merged × Option Key,
    (keys.foldl (mergeKey ctx level base units) s).1.solid =
        s.1.solid ++ keys.flatMap (fun key =>
          (planned ctx).at pieces (verdictAt ctx base units key)) ∧
      (keys.foldl (mergeKey ctx level base units) s).1.conflicts =
        s.1.conflicts ++ keys.flatMap fun key =>
          (clashing ctx).at messages (verdictAt ctx base units key) := by
  induction keys with
  | nil => simp
  | cons key keys ih =>
      intro s
      obtain ⟨hsolid, hconflicts⟩ := ih (mergeKey ctx level base units s key)
      obtain ⟨hone, htwo⟩ := @follows_mergeKey ctx level pieces messages h base units s key
      rw [List.foldl_cons, hsolid, hconflicts, hone, htwo]
      simp

end Follow

/-- The merge of a level emits its plan, and reports what clashes. -/
theorem follows_mergeLevel (ctx : Ctx) : ∀ fuel,
    Follows (mergeLevel ctx fuel) ((planned ctx).run ctx fuel) ((clashing ctx).run ctx fuel)
  | 0, _, _, _ => by simp [mergeLevel, Walk.run]
  | fuel + 1, base, units, m => by
      obtain ⟨hsolid, hconflicts⟩ := follows_keys (follows_mergeLevel ctx fuel) base units
        (levelKeys ctx base units)
        (m.conflict (collisions ctx (baseLevel base) (sideLevel ctx base units)), none)
      refine ⟨?_, ?_⟩
      · rw [mergeLevel, hsolid, Walk.run]
        rfl
      · rw [mergeLevel, hconflicts, Walk.run, ← List.append_assoc]
        rfl

section Files

variable (renameEdits : Bytes → List Rename → List Edit) (base : Option FileNodes)
  (file : Side → FileNodes) (ops : Side → List Rename)

def baseUnits : List Unit := base.elim [] fun f => buildUnits f.nodes

def sideUnits (side : Side) : List Unit := buildUnits (file side).nodes

def tailSide : Side := regionSide (base.map tail) (tail (file .a))

def tailPiece (side : Side) : Piece := ⟨.tail side, tail (file side)⟩

/-- What a walk collects from a file. -/
def Walk.ofFile {α : Type} (w : Walk α) : List α :=
  w.run (fileCtx renameEdits base file ops) ((file .a).nodes.length + 1) (baseUnits base)
    (sideUnits file)

theorem solid_mergeFile : (mergeFile renameEdits base file ops).solid =
    (planned (fileCtx renameEdits base file ops)).ofFile renameEdits base file ops ++
      [tailPiece file (tailSide base file)] := by
  unfold mergeFile
  rw [solid_put _ rfl, (follows_mergeLevel _ _ _ _ _).1]
  rfl

theorem conflicts_mergeFile : (mergeFile renameEdits base file ops).conflicts =
    (clashing (fileCtx renameEdits base file ops)).ofFile renameEdits base file ops := by
  unfold mergeFile
  rw [conflicts_put, (follows_mergeLevel _ _ _ _ _).2]
  rfl

end Files

end Tessra.Semantic.Merge
