import Tessra.Semantic.Alignment

namespace Tessra.Semantic.Merge

open Tessra.Core Tessra.Data
open Tessra.Daemon (Rename)

/-! What becomes of every unit of the three versions, at every level: of those at a
level that is merged, and of those inside a container that is taken whole from one side
or dropped. -/

/-- The ids of a unit and of all below it. -/
def Unit.ids (u : Unit) : List EntityId := u.nid :: Merge.ids u.children

theorem mem_ids {us : List Unit} {nid : EntityId} : nid ∈ ids us ↔ ∃ u ∈ us, nid ∈ u.ids := by
  rw [ids_eq_flatMap, List.mem_flatMap]
  rfl

section DistinctIds

variable {us : List Unit} (h : (ids us).Nodup)
include h

theorem nodup_ids_unit {u : Unit} (hu : u ∈ us) : u.ids.Nodup := by
  rw [ids_eq_flatMap, List.nodup_flatMap] at h
  exact h.1 u hu

theorem nodup_ids_children {u : Unit} (hu : u ∈ us) : (ids u.children).Nodup :=
  (List.nodup_cons.mp (nodup_ids_unit h hu)).2

theorem nodup_nids : (us.map Unit.nid).Nodup := by
  induction us with
  | nil => exact List.nodup_nil
  | cons u rest ih =>
      rw [ids, alls, List.map_append, List.nodup_append'] at h
      obtain ⟨_, hrest, hdisjoint⟩ := h
      refine List.nodup_cons.mpr ⟨fun hmem => ?_, ih hrest⟩
      obtain ⟨w, hw, hnid⟩ := List.mem_map.mp hmem
      refine hdisjoint (a := u.nid) ?_ ?_
      · rw [u.all_eq]
        exact List.mem_cons_self
      · refine List.mem_map.mpr ⟨w, mem_alls.mpr ⟨w, hw, ?_⟩, hnid⟩
        rw [w.all_eq]
        exact List.mem_cons_self

theorem place_of_mem_ids {i j : ℕ} {u w : Unit} {nid : EntityId} (hi : us[i]? = some u)
    (hj : us[j]? = some w) (hu : nid ∈ u.ids) (hw : nid ∈ w.ids) : i = j := by
  rw [ids_eq_flatMap, List.nodup_flatMap] at h
  by_contra hne
  have apart : ∀ {i j : ℕ} {u w : Unit}, us[i]? = some u → us[j]? = some w → i < j →
      nid ∈ u.ids → nid ∈ w.ids → False := by
    intro i j u w hi hj hij hu hw
    obtain ⟨hilt, rfl⟩ := List.getElem?_eq_some_iff.mp hi
    obtain ⟨hjlt, rfl⟩ := List.getElem?_eq_some_iff.mp hj
    exact List.pairwise_iff_getElem.mp h.2 i j hilt hjlt hij hu hw
  rcases Nat.lt_or_gt_of_ne hne with hlt | hlt
  · exact apart hi hj hlt hu hw
  · exact apart hj hi hlt hw hu

end DistinctIds

section Levels

variable (ctx : Ctx) (base : List Unit) (units : Side → List Unit) (key : Key)

def baseAt : Option Unit := (baseLevel base).find key

def found (side : Side) : Option Unit := (sideLevel ctx base units side).find key

/-- The level inside the units of a key. -/
def innerUnits (side : Side) : List Unit := baseKids (found ctx base units key side)

/-- The ids of a level are distinct on every side, and in the base. -/
structure Distinct : Prop where
  base : (ids base).Nodup
  side : ∀ side, (ids (units side)).Nodup

end Levels

section Found

variable {ctx : Ctx} {base : List Unit} {units : Side → List Unit} {key : Key} {side : Side}
  {u : Unit}

theorem mem_units_of_found (h : found ctx base units key side = some u) : u ∈ units side :=
  Level.mem_of_find h

theorem mem_base_of_baseAt (h : baseAt base key = some u) : u ∈ base := Level.mem_of_find h

theorem verdict_emit {b x y cs s} (h : verdict ctx b x y = .emit cs s u) :
    sides x y s = some u := by
  unfold verdict bothChanged at h
  split at h <;> try split at h
  all_goals grind [sides]

theorem verdict_nothing {b x y} (h : verdict ctx b x y = .nothing) :
    ∃ s, sides x y s = none := by
  unfold verdict bothChanged at h
  split at h <;> try split at h
  all_goals first
    | exact ⟨.a, rfl⟩
    | exact ⟨.b, rfl⟩
    | grind

theorem verdictAt_eq : verdictAt ctx base units key =
    verdict ctx (baseAt base key) (found ctx base units key .a) (found ctx base units key .b) :=
  rfl

theorem sides_found : ∀ s, sides (found ctx base units key .a) (found ctx base units key .b) s =
    found ctx base units key s
  | .a => rfl
  | .b => rfl

theorem found_of_emit {cs s} (h : verdictAt ctx base units key = .emit cs s u) :
    found ctx base units key s = some u := by
  rw [← sides_found]
  exact verdict_emit h

theorem found_of_descend {b x y} (h : verdictAt ctx base units key = .descend b x y) :
    b = baseAt base key ∧ ∀ s, found ctx base units key s = some (sides x y s) := by
  obtain ⟨hbase, hx, hy⟩ := verdict_descend h
  refine ⟨hbase, fun s => ?_⟩
  cases s with
  | a => exact hx
  | b => exact hy

variable (hdistinct : Distinct base units)
include hdistinct

theorem Distinct.lined (side : Side) : (sideLevel ctx base units side).Lined :=
  lined_sideLevel ctx (nodup_nids hdistinct.base) units side

theorem Distinct.nodup_levelKeys : (levelKeys ctx base units).Nodup :=
  nodup_orderedKeys (lined_baseLevel (nodup_nids hdistinct.base)).distinct _ _

omit hdistinct in
theorem mem_levelKeys_of_found (h : found ctx base units key side = some u) :
    key ∈ levelKeys ctx base units := by
  obtain ⟨i, hi, _⟩ := Level.place_of_find h
  have hmem := List.mem_of_getElem? hi
  cases side with
  | a => exact mem_orderedKeys.mpr (Or.inr (Or.inl hmem))
  | b => exact mem_orderedKeys.mpr (Or.inr (Or.inr hmem))

/-- The key of an id that lies in a unit of the level is the unit's. -/
theorem Distinct.key_unique {key' : Key} {w : Unit} {nid : EntityId}
    (hfound : found ctx base units key side = some u)
    (hfound' : found ctx base units key' side = some w) (hu : nid ∈ u.ids) (hw : nid ∈ w.ids) :
    key' = key := by
  obtain ⟨i, hi, hiu⟩ := Level.place_of_find hfound
  obtain ⟨j, hj, hjw⟩ := Level.place_of_find hfound'
  have hij := place_of_mem_ids (hdistinct.side side) hiu hjw hu hw
  subst hij
  exact Option.some.inj (hj.symm.trans hi)

theorem Distinct.inner : Distinct (baseKids (baseAt base key)) (innerUnits ctx base units key) where
  base := by
    cases h : baseAt base key with
    | none => exact List.nodup_nil
    | some b => exact nodup_ids_children hdistinct.base (mem_base_of_baseAt h)
  side s := by
    unfold innerUnits
    cases h : found ctx base units key s with
    | none => exact List.nodup_nil
    | some u => exact nodup_ids_children (hdistinct.side s) (mem_units_of_found h)

end Found

/-- The ids of the units that are emitted, each with all below it. -/
def emitting : Walk (Side × EntityId) where
  level _ _ := []
  emit _ side u := u.ids.map (side, ·)
  container _ _ _ inner := inner

section Emitting

variable {ctx : Ctx} {base : List Unit} {units : Side → List Unit} {key : Key} {side : Side}
  {u : Unit} {nid : EntityId} {fuel : ℕ}

theorem kids_of_descend {b x y} (h : verdictAt ctx base units key = .descend b x y) :
    baseKids b = baseKids (baseAt base key) ∧ kids x y = innerUnits ctx base units key := by
  obtain ⟨hbase, hfound⟩ := found_of_descend h
  refine ⟨congrArg baseKids hbase, funext fun s => ?_⟩
  rw [innerUnits, hfound s]
  rfl

theorem mem_ids_of_emitting : ∀ {fuel base units},
    (side, nid) ∈ emitting.run ctx fuel base units → nid ∈ ids (units side)
  | fuel + 1, base, units, h => by
      rcases Walk.mem_run_succ.mp h with h | ⟨key, _, h⟩
      · exact absurd h List.not_mem_nil
      · cases hverdict : verdictAt ctx base units key with
        | nothing =>
            rw [hverdict] at h
            exact absurd h List.not_mem_nil
        | emit cs s u =>
            rw [hverdict] at h
            obtain ⟨id, hid, heq⟩ := List.mem_map.mp h
            cases heq
            exact mem_ids.mpr ⟨u, mem_units_of_found (found_of_emit hverdict), hid⟩
        | descend b x y =>
            rw [hverdict] at h
            have hmem : nid ∈ ids (kids x y side) := mem_ids_of_emitting h
            have hx := mem_units_of_found ((found_of_descend hverdict).2 side)
            exact mem_ids.mpr ⟨sides x y side, hx, List.mem_cons_of_mem _ hmem⟩

/-- What a key emits lies in the units that it has. -/
theorem found_of_emitting_at
    (h : (side, nid) ∈ emitting.at (emitting.run ctx fuel) (verdictAt ctx base units key)) :
    ∃ u, found ctx base units key side = some u ∧ nid ∈ u.ids := by
  cases hverdict : verdictAt ctx base units key with
  | nothing =>
      rw [hverdict] at h
      exact absurd h List.not_mem_nil
  | emit cs s u =>
      rw [hverdict] at h
      obtain ⟨id, hid, heq⟩ := List.mem_map.mp h
      cases heq
      exact ⟨u, found_of_emit hverdict, hid⟩
  | descend b x y =>
      rw [hverdict] at h
      have hmem : nid ∈ ids (kids x y side) := mem_ids_of_emitting h
      exact ⟨sides x y side, (found_of_descend hverdict).2 side, List.mem_cons_of_mem _ hmem⟩

theorem count_emitting (hdistinct : Distinct base units)
    (hfound : found ctx base units key side = some u) (hnid : nid ∈ u.ids) :
    (emitting.run ctx (fuel + 1) base units).count (side, nid) =
      (emitting.at (emitting.run ctx fuel) (verdictAt ctx base units key)).count (side, nid) := by
  have hunique : ∀ key' ∈ levelKeys ctx base units,
      (side, nid) ∈ emitting.at (emitting.run ctx fuel) (verdictAt ctx base units key') →
        key' = key := by
    intro key' _ hmem
    obtain ⟨w, hw, hmem⟩ := found_of_emitting_at hmem
    exact hdistinct.key_unique hfound hw hnid hmem
  exact count_flatMap_unique hdistinct.nodup_levelKeys (mem_levelKeys_of_found hfound) hunique

end Emitting

/-- What becomes of a level: it is merged, or it lies in a unit that is taken whole from
a side or dropped. -/
inductive Fate
  | merged
  | taken (side : Side)
  | dropped
deriving DecidableEq

def Verdict.fate : Verdict → Fate
  | .nothing => .dropped
  | .emit _ side _ => .taken side
  | .descend _ _ _ => .merged

/-- The fate of the level inside the units of a key. -/
def Fate.inner (verdict : Verdict) : Fate → Fate
  | .merged => verdict.fate
  | fate => fate

/-- The levels of three versions: the top, and what lies inside the units of a key. -/
inductive Under (ctx : Ctx) (base : List Unit) (units : Side → List Unit) :
    List Unit → (Side → List Unit) → Prop
  | top : Under ctx base units base units
  | inner {b : List Unit} {us : Side → List Unit} (h : Under ctx base units b us) {key : Key}
      (hkey : key ∈ levelKeys ctx b us) :
      Under ctx base units (baseKids (baseAt b key)) (innerUnits ctx b us key)

/-- The levels of three versions, with what becomes of them. -/
inductive Reaches (ctx : Ctx) (base : List Unit) (units : Side → List Unit) :
    Fate → List Unit → (Side → List Unit) → Prop
  | top : Reaches ctx base units .merged base units
  | inner {fate : Fate} {b : List Unit} {us : Side → List Unit}
      (h : Reaches ctx base units fate b us) {key : Key} (hkey : key ∈ levelKeys ctx b us) :
      Reaches ctx base units (fate.inner (verdictAt ctx b us key)) (baseKids (baseAt b key))
        (innerUnits ctx b us key)

section Reach

variable {ctx : Ctx} {base b : List Unit} {units us : Side → List Unit} {fate : Fate}

theorem Reaches.under (h : Reaches ctx base units fate b us) : Under ctx base units b us := by
  induction h with
  | top => exact .top
  | inner _ hkey ih => exact .inner ih hkey

theorem Under.reaches (h : Under ctx base units b us) :
    ∃ fate, Reaches ctx base units fate b us := by
  induction h with
  | top => exact ⟨.merged, .top⟩
  | inner _ hkey ih =>
      obtain ⟨fate, h⟩ := ih
      exact ⟨_, .inner h hkey⟩

theorem Under.distinct (hdistinct : Distinct base units) (h : Under ctx base units b us) :
    Distinct b us := by
  induction h with
  | top => exact hdistinct
  | inner _ _ ih => exact ih.inner

end Reach

/-- How often the output has a unit of a side, by itself or inside another. -/
def Piece.ids (p : Piece) : List (Side × EntityId) :=
  match p.part with
  | .unit side u => u.ids.map (side, ·)
  | _ => []

def Merged.emitted (m : Merged) : List (Side × EntityId) := m.out.flatMap Piece.ids

def Merged.times (m : Merged) (side : Side) (u : Unit) : ℕ := m.emitted.count (side, u.nid)

section Outputs

variable {ctx : Ctx} {m : Merged}

theorem ids_of_isGap {p : Piece} (h : p.isGap = true) : p.ids = [] := by
  unfold Piece.isGap at h
  unfold Piece.ids
  split at h
  · rename_i heq
    rw [heq]
  · cases h

theorem emitted_eq_solid : m.emitted = m.solid.flatMap Piece.ids := by
  unfold Merged.emitted Merged.solid
  induction m.out with
  | nil => rfl
  | cons p rest ih =>
      cases hgap : p.isGap with
      | true => simp [hgap, ids_of_isGap hgap, ih]
      | false => simp [hgap, ih]

theorem ids_of_planned : ∀ {fuel base units},
    ((planned ctx).run ctx fuel base units).flatMap Piece.ids = emitting.run ctx fuel base units
  | 0, _, _ => rfl
  | fuel + 1, base, units => by
      rw [Walk.run, Walk.run, List.flatMap_append, List.flatMap_assoc]
      congr 1
      refine List.flatMap_congr fun key _ => ?_
      cases verdictAt ctx base units key with
      | nothing => rfl
      | emit cs side u => exact List.append_nil _
      | descend b x y =>
          simp only [Walk.at, planned, emitting, List.flatMap_append, List.flatMap_cons,
            List.flatMap_nil, List.append_nil]
          have hinner : ((planned ctx).run ctx fuel (baseKids b) (kids x y)).flatMap Piece.ids =
            emitting.run ctx fuel (baseKids b) (kids x y) := ids_of_planned
          simp only [planned, emitting] at hinner
          rw [hinner]
          simp [Piece.ids, headerPiece, footerPiece]

end Outputs

end Tessra.Semantic.Merge
