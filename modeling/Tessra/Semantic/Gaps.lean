import Tessra.Semantic.UnitChanges

namespace Tessra.Semantic.Merge

open Tessra.Core Tessra.Data
open Tessra.Daemon (Rename)

/-! The text between the units: where in the output the gap before a unit stands, and
the side that it is taken from. -/

section Growth

variable {ctx : Ctx} {level : List Unit → (Side → List Unit) → Merged → Merged}
  {base : List Unit} {units : Side → List Unit}

/-- What is put out stays, and more follows it. -/
def Grows (f : Merged → Merged) : Prop := ∀ m, ∃ added, (f m).out = m.out ++ added

/-- The text of the gap as it is put out. -/
def leadText (m : Merged) (gap : Bytes) : Bytes :=
  if gap = [] ∧ (m.text.reverse.takeWhile (·.val ≠ 10)).any (!asciiWhitespace ·) then [10]
  else gap

theorem leadText_eq (m : Merged) (gap : Bytes) :
    leadText m gap = gap ∨ gap = [] ∧ leadText m gap = [10] := by
  unfold leadText
  split_ifs with h
  · exact Or.inr ⟨h.1, rfl⟩
  · exact Or.inl rfl

theorem out_emitLeaf (side : Side) (u : Unit) (gap : Bytes) (m : Merged) :
    (emitLeaf ctx side u gap m).out = m.out ++ [⟨.gap, leadText m gap⟩, unitPiece ctx side u] := by
  change (m.out ++ [⟨.gap, leadText m gap⟩]) ++ [unitPiece ctx side u] = _
  rw [List.append_assoc]
  rfl

/-- The output up to the children of a container. -/
def openContainer (ctx : Ctx) (base : Option Unit) (x y : Unit) (gap : Side → Bytes) (m : Merged) :
    Merged :=
  let side := headerSide ctx base x
  let (text, applied) := applyEdits (ctx.text side) (sides x y side).span.1
    (headEnd (sides x y side)) (ctx.edits side)
  ((pushGap m (gap side)).resolve ctx side x applied).put (.header side base x y) text

theorem out_openContainer (b : Option Unit) (x y : Unit) (gap : Side → Bytes) (m : Merged) :
    (openContainer ctx b x y gap m).out =
      m.out ++ [⟨.gap, leadText m (gap (headerSide ctx b x))⟩,
        headerPiece ctx b x y (headerSide ctx b x)] := by
  change (m.out ++ [⟨.gap, _⟩]) ++ [headerPiece ctx b x y (headerSide ctx b x)] = _
  rw [List.append_assoc]
  rfl

theorem out_mergeContainer (b : Option Unit) (x y : Unit) (gap : Side → Bytes) (m : Merged) :
    (mergeContainer ctx level b x y gap m).out =
      (level (baseKids b) (kids x y) (openContainer ctx b x y gap m)).out ++
        [footerPiece ctx b x y (footerSide ctx b x)] := rfl

theorem grows_mergeKey (hlevel : ∀ base units, Grows (level base units))
    (s : Merged × Option Key) (key : Key) :
    ∃ added, (mergeKey ctx level base units s key).1.out = s.1.out ++ added := by
  unfold mergeKey
  cases verdictAt ctx base units key with
  | nothing => exact ⟨[], (List.append_nil _).symm⟩
  | emit conflicts side u => exact ⟨_, out_emitLeaf side u _ _⟩
  | descend b x y =>
      let gap := fun prefer => gapBefore ctx (sideLevel ctx base units) key prefer s.2
      obtain ⟨l, hl⟩ := hlevel (baseKids b) (kids x y) (openContainer ctx b x y gap s.1)
      rw [out_openContainer, List.append_assoc] at hl
      exact ⟨_, (out_mergeContainer b x y gap s.1).trans (by rw [hl, List.append_assoc])⟩

theorem grows_keys (hlevel : ∀ base units, Grows (level base units)) (keys : List Key) :
    ∀ s : Merged × Option Key, ∃ added,
      (keys.foldl (mergeKey ctx level base units) s).1.out = s.1.out ++ added := by
  induction keys with
  | nil => exact fun s => ⟨[], (List.append_nil _).symm⟩
  | cons key keys ih =>
      intro s
      obtain ⟨l, hl⟩ := @grows_mergeKey ctx level base units hlevel s key
      obtain ⟨l', hl'⟩ := ih (mergeKey ctx level base units s key)
      exact ⟨l ++ l', by rw [List.foldl_cons, hl', hl, List.append_assoc]⟩

theorem grows_mergeLevel (ctx : Ctx) : ∀ fuel base units, Grows (mergeLevel ctx fuel base units)
  | 0, _, _ => fun _ => ⟨[], (List.append_nil _).symm⟩
  | fuel + 1, base, units => fun _ =>
      grows_keys (grows_mergeLevel ctx fuel) (levelKeys ctx base units) (_, none)

end Growth

section Places

variable {ctx : Ctx} {base b : List Unit} {units us : Side → List Unit} {key : Key} {fuel : ℕ}

/-- A level that is merged has each key put out after some of it, and before the rest. -/
theorem exists_mergeKey (fuel : ℕ) (hkey : key ∈ levelKeys ctx base units) (m : Merged) :
    ∃ (s : Merged × Option Key) (after : List Piece),
      (mergeLevel ctx (fuel + 1) base units m).out =
        (mergeKey ctx (mergeLevel ctx fuel) base units s key).1.out ++ after := by
  obtain ⟨before, rest, hsplit⟩ := List.append_of_mem hkey
  rw [mergeLevel, hsplit, List.foldl_append, List.foldl_cons]
  exact ⟨_, grows_keys (grows_mergeLevel ctx fuel) rest _⟩

/-- The output has the gap before a piece, as it is put out there. -/
def Puts (m : Merged) (gap : Bytes) (p : Piece) : Prop :=
  ∃ (m' : Merged) (after : List Piece), m.out = m'.out ++ ⟨.gap, leadText m' gap⟩ :: p :: after

theorem Puts.grow {m m' : Merged} {gap : Bytes} {p : Piece} (h : Puts m gap p) {l : List Piece}
    (hout : m'.out = m.out ++ l) : Puts m' gap p := by
  obtain ⟨m₀, after, hm⟩ := h
  exact ⟨m₀, after ++ l, by rw [hout, hm, List.append_assoc, List.cons_append, List.cons_append]⟩

theorem puts_emitLeaf (side : Side) (u : Unit) (gap : Bytes) (m : Merged) :
    Puts (emitLeaf ctx side u gap m) gap (unitPiece ctx side u) :=
  ⟨m, [], out_emitLeaf side u gap m⟩

/-- The gap before the unit of a key, wherever the key is merged. -/
theorem puts_of_emit (fuel : ℕ) (hkey : key ∈ levelKeys ctx base units) {cs : List String}
    {side : Side} {u : Unit} (hverdict : verdictAt ctx base units key = .emit cs side u) (m : Merged) :
    ∃ last, Puts (mergeLevel ctx (fuel + 1) base units m)
      (gapBefore ctx (sideLevel ctx base units) key side last) (unitPiece ctx side u) := by
  obtain ⟨s, after, hout⟩ := exists_mergeKey fuel hkey m
  refine ⟨s.2, Puts.grow ?_ hout⟩
  simp only [mergeKey, hverdict]
  exact puts_emitLeaf side u _ _

theorem puts_of_descend (fuel : ℕ) (hkey : key ∈ levelKeys ctx base units) {v : Option Unit}
    {x y : Unit} (hverdict : verdictAt ctx base units key = .descend v x y) (m : Merged) :
    ∃ last, Puts (mergeLevel ctx (fuel + 1) base units m)
      (gapBefore ctx (sideLevel ctx base units) key (headerSide ctx v x) last)
      (headerPiece ctx v x y (headerSide ctx v x)) := by
  obtain ⟨s, after, hout⟩ := exists_mergeKey fuel hkey m
  refine ⟨s.2, Puts.grow ?_ hout⟩
  simp only [mergeKey, hverdict]
  let gap := fun prefer => gapBefore ctx (sideLevel ctx base units) key prefer s.2
  obtain ⟨l, hl⟩ := grows_mergeLevel ctx fuel (baseKids v) (kids x y)
    (openContainer ctx v x y gap s.1)
  rw [out_openContainer, List.append_assoc] at hl
  refine ⟨s.1, l ++ [footerPiece ctx v x y (footerSide ctx v x)],
    (out_mergeContainer v x y gap s.1).trans ?_⟩
  rw [hl, List.append_assoc]
  rfl

/-- Where a level is merged, its output is part of the whole. -/
theorem exists_inner (hreach : Reaches ctx base units .merged b us) :
    ∀ fuel, heights (units .a) < fuel → ∀ m, ∃ fuel', heights (us .a) < fuel' ∧
      ∃ (m' : Merged) (after : List Piece),
        (mergeLevel ctx fuel base units m).out = (mergeLevel ctx fuel' b us m').out ++ after := by
  generalize hfate : Fate.merged = fate at hreach
  induction hreach with
  | top => exact fun fuel hfuel m => ⟨fuel, hfuel, m, [], (List.append_nil _).symm⟩
  | @inner fate b us _ key hkey ih =>
      intro fuel hfuel m
      cases fate with
      | taken side => exact nomatch hfate
      | dropped => exact nomatch hfate
      | merged =>
          cases hverdict : verdictAt ctx b us key with
          | nothing => exact absurd hfate (by simp [hverdict, Fate.inner, Verdict.fate])
          | emit cs side u => exact absurd hfate (by simp [hverdict, Fate.inner, Verdict.fate])
          | descend v x y =>
              obtain ⟨fuel', hfuel', m', after, hout⟩ := ih rfl fuel hfuel m
              obtain ⟨k, rfl⟩ : ∃ k, fuel' = k + 1 := ⟨fuel' - 1, by omega⟩
              obtain ⟨s, after', hkeyed⟩ := exists_mergeKey k hkey m'
              obtain ⟨hbase, hkids⟩ := kids_of_descend hverdict
              have hx := heights_children (mem_of_descend hverdict).2.1
              let gap := fun prefer => gapBefore ctx (sideLevel ctx b us) key prefer s.2
              refine ⟨k, ?_, openContainer ctx v x y gap s.1,
                [footerPiece ctx v x y (footerSide ctx v x)] ++ after' ++ after, ?_⟩
              · rw [← hkids]
                simp only [kids, sides_a]
                omega
              · rw [hout, hkeyed, ← hkids, ← hbase]
                simp only [mergeKey, hverdict]
                rw [out_mergeContainer v x y gap s.1]
                simp only [List.append_assoc]

end Places

/-- The unit or container that a piece starts, a container by the first side's unit. -/
def Piece.mark (p : Piece) : Option (Side × EntityId) :=
  match p.part with
  | .unit side u => some (side, u.nid)
  | .header _ _ x _ => some (.a, x.nid)
  | _ => none

def marking : Walk (Side × EntityId) where
  level _ _ := []
  emit _ side u := [(side, u.nid)]
  container _ x _ inner := (.a, x.nid) :: inner

section Marks

variable {ctx : Ctx} {base : List Unit} {units : Side → List Unit} {side : Side}
  {nid : EntityId}

theorem mark_of_isGap {p : Piece} (h : p.isGap = true) : p.mark = none := by
  unfold Piece.isGap at h
  unfold Piece.mark
  split at h
  · rename_i heq
    rw [heq]
  · cases h

theorem marks_eq_solid (m : Merged) :
    m.out.filterMap Piece.mark = m.solid.filterMap Piece.mark := by
  unfold Merged.solid
  induction m.out with
  | nil => rfl
  | cons p rest ih =>
      cases hgap : p.isGap with
      | true => simp [hgap, mark_of_isGap hgap, ih]
      | false => simp [hgap, ih, List.filterMap_cons]

theorem marks_of_planned : ∀ {fuel base units},
    ((planned ctx).run ctx fuel base units).filterMap Piece.mark = marking.run ctx fuel base units
  | 0, _, _ => rfl
  | fuel + 1, base, units => by
      rw [Walk.run, Walk.run, List.filterMap_append, List.filterMap_flatMap]
      congr 1
      refine List.flatMap_congr fun key _ => ?_
      cases verdictAt ctx base units key with
      | nothing => rfl
      | emit cs side u => rfl
      | descend b x y =>
          have hinner : ((planned ctx).run ctx fuel (baseKids b) (kids x y)).filterMap Piece.mark =
            marking.run ctx fuel (baseKids b) (kids x y) := marks_of_planned
          have hhead : (headerPiece ctx b x y (headerSide ctx b x)).mark = some (.a, x.nid) := rfl
          have hfoot : (footerPiece ctx b x y (footerSide ctx b x)).mark = none := rfl
          change List.filterMap Piece.mark (_ :: _ ++ [_]) = _ :: _
          rw [List.filterMap_append, List.filterMap_cons_some hhead, hinner,
            List.filterMap_cons_none hfoot]
          exact List.append_nil _

theorem mem_ids_of_marking_at {fuel : ℕ} {key : Key}
    (hrun : ∀ {base units}, (side, nid) ∈ marking.run ctx fuel base units → nid ∈ ids (units side))
    (h : (side, nid) ∈ marking.at (marking.run ctx fuel) (verdictAt ctx base units key)) :
    ∃ u, found ctx base units key side = some u ∧ nid ∈ u.ids := by
  cases hverdict : verdictAt ctx base units key with
  | nothing =>
      rw [hverdict] at h
      exact absurd h List.not_mem_nil
  | emit cs s u =>
      rw [hverdict] at h
      cases List.mem_singleton.mp h
      exact ⟨u, found_of_emit hverdict, mem_ids_self u⟩
  | descend b x y =>
      rw [hverdict] at h
      have hfound := (found_of_descend hverdict).2 side
      rcases List.mem_cons.mp h with h | h
      · cases h
        exact ⟨x, hfound, mem_ids_self x⟩
      · exact ⟨sides x y side, hfound, List.mem_cons_of_mem _ (hrun h)⟩

theorem mem_ids_of_marking : ∀ {fuel base units},
    (side, nid) ∈ marking.run ctx fuel base units → nid ∈ ids (units side)
  | fuel + 1, base, units, h => by
      rcases Walk.mem_run_succ.mp h with h | ⟨key, _, h⟩
      · exact absurd h List.not_mem_nil
      · obtain ⟨u, hu, hnid⟩ := mem_ids_of_marking_at mem_ids_of_marking h
        exact mem_ids_of_found hu hnid

/-- Each unit and container starts once. -/
theorem nodup_marking : ∀ {fuel base units}, Distinct base units →
    (marking.run ctx fuel base units).Nodup
  | 0, _, _, _ => List.nodup_nil
  | fuel + 1, base, units, hdistinct => by
      rw [Walk.run]
      change List.Nodup (List.flatMap _ _)
      refine List.nodup_flatMap.mpr ⟨fun key _ => ?_, ?_⟩
      · cases hverdict : verdictAt ctx base units key with
        | nothing => exact List.nodup_nil
        | emit cs s u => exact List.nodup_singleton _
        | descend b x y =>
            obtain ⟨hbase, hkids⟩ := kids_of_descend hverdict
            have hx := mem_units_of_found ((found_of_descend hverdict).2 .a)
            refine List.nodup_cons.mpr ⟨fun hmem => ?_, nodup_marking ?_⟩
            · exact (List.nodup_cons.mp (nodup_ids_unit (hdistinct.side .a) hx)).1
                (mem_ids_of_marking hmem)
            · rw [hbase, hkids]
              exact hdistinct.inner
      · refine hdistinct.nodup_levelKeys.imp_of_mem fun {key key'} _ _ hne => ?_
        rintro ⟨side, nid⟩ h h'
        obtain ⟨u, hu, hnid⟩ := mem_ids_of_marking_at mem_ids_of_marking h
        obtain ⟨w, hw, hnid'⟩ := mem_ids_of_marking_at mem_ids_of_marking h'
        exact hne (hdistinct.key_unique hu hw hnid hnid').symm

/-- A place is known by the mark that stands there. -/
theorem split_unique {α β : Type} {f : α → Option β} {k : β} : ∀ {l l' r r' : List α} {x x' : α},
    l ++ x :: r = l' ++ x' :: r' → ((l ++ x :: r).filterMap f).Nodup → f x = some k →
      f x' = some k → l = l'
  | [], [], _, _, _, _, _, _, _, _ => rfl
  | [], _ :: l', r, r', x, x', heq, hnodup, hx, hx' => by
      obtain ⟨rfl, rfl⟩ := List.cons.inj heq
      rw [List.nil_append, List.filterMap_cons_some hx] at hnodup
      refine absurd (List.mem_filterMap.mpr ⟨x', ?_, hx'⟩) (List.nodup_cons.mp hnodup).1
      simp
  | _ :: l, [], r, r', x, x', heq, hnodup, hx, hx' => by
      obtain ⟨rfl, rfl⟩ := List.cons.inj heq
      rw [List.cons_append, List.filterMap_cons_some hx'] at hnodup
      refine absurd (List.mem_filterMap.mpr ⟨x, ?_, hx⟩) (List.nodup_cons.mp hnodup).1
      simp
  | y :: l, _ :: l', r, r', x, x', heq, hnodup, hx, hx' => by
      obtain ⟨rfl, htail⟩ := List.cons.inj heq
      have hrest : ((l ++ x :: r).filterMap f).Nodup := by
        refine hnodup.sublist (List.Sublist.filterMap f ?_)
        exact List.sublist_cons_self y _
      rw [split_unique htail hrest hx hx']

end Marks

section Chosen

variable (ctx : Ctx)

def gapText (text : Bytes) (u : Unit) : Bytes := slice text u.gapStart u.span.1

/-- Both sides have the units of the base at a level, in the base's order. -/
def SameUnits (b : List Unit) (us : Side → List Unit) : Prop :=
  ∀ side, (sideLevel ctx b us side).keys = (baseLevel b).keys

/-- The side that changed a unit, or the header of a container that both changed: the
first where both did, and the second where neither did. -/
def unitSide (v x y : Unit) : Side :=
  match changed v x, changed v y with
  | true, false => .a
  | false, true => .b
  | false, false => if x.text (ctx.text .a) ≠ ctx.base.elim [] v.text then .a else .b
  | true, true =>
      if x.body = y.body ∧ x.name = y.name then .a
      else if changeIsRenames ctx .a v x then .b
      else if changeIsRenames ctx .b v y then .a
      else headerSide ctx (some v) x

variable {ctx} {b : List Unit} {us : Side → List Unit} {key : Key} {v x y : Unit}

theorem unitSide_of_emit {side : Side} {u : Unit}
    (h : verdict ctx (some v) (some x) (some y) = .emit [] side u) :
    unitSide ctx v x y = side := by
  simp only [verdict] at h
  unfold unitSide
  cases hx : changed v x <;> cases hy : changed v y <;> simp only [hx, hy] at h ⊢
  · split_ifs at h ⊢ <;> cases h <;> rfl
  · cases h
    rfl
  · cases h
    rfl
  · unfold bothChanged at h
    split_ifs at h ⊢ <;> cases h <;> rfl

theorem unitSide_of_descend {v' : Option Unit} {x' y' : Unit}
    (h : verdict ctx (some v) (some x) (some y) = .descend v' x' y') :
    unitSide ctx v x y = headerSide ctx (some v) x := by
  simp only [verdict] at h
  unfold unitSide
  cases hx : changed v x <;> cases hy : changed v y <;> simp only [hx, hy] at h ⊢
  · split_ifs at h
  · cases h
  · cases h
  · unfold bothChanged at h
    split_ifs at h ⊢
    rfl

/-- The gap of a side where the unit follows what it follows in the output. -/
def linedGap (ctx : Ctx) (level : Side → Level) (key : Key) (last : Option Key) (side : Side) :
    Option Bytes := do
  let i ← (level side).keys.idxOf? key
  let pred := if i = 0 then none else (level side).keys[i - 1]?
  let u ← (level side).units[i]?
  if pred = last then some (slice (ctx.text side) u.gapStart u.span.1) else none

theorem gapBefore_eq (level : Side → Level) (prefer : Side) (last : Option Key) :
    gapBefore ctx level key prefer last =
      (linedGap ctx level key last prefer <|> linedGap ctx level key last prefer.other).getD
        (((level prefer).find key).elim [] (gapText (ctx.text prefer))) := rfl

section Lined

variable {level : Side → Level} {side : Side} {i : ℕ} {last : Option Key}
  (hi : (level side).keys.idxOf? key = some i)
include hi

theorem linedGap_eq_some {u : Unit} (hu : (level side).units[i]? = some u)
    (hpred : (if i = 0 then none else (level side).keys[i - 1]?) = last) :
    linedGap ctx level key last side = some (gapText (ctx.text side) u) := by
  simp only [linedGap, hi, hu, Option.bind_eq_bind, Option.bind_some, if_pos hpred]
  rfl

theorem linedGap_eq_none
    (hpred : (if i = 0 then none else (level side).keys[i - 1]?) ≠ last) :
    linedGap ctx level key last side = none := by
  cases hu : (level side).units[i]? <;>
    simp only [linedGap, hi, hu, Option.bind_eq_bind, Option.bind_some, Option.bind_none,
      if_neg hpred]

end Lined

/-- Where the sides have the same units, the gap is the preferred side's own. -/
theorem gapBefore_of_sameUnits (hsame : SameUnits ctx b us) {prefer : Side} {u : Unit}
    (hu : found ctx b us key prefer = some u) (last : Option Key) :
    gapBefore ctx (sideLevel ctx b us) key prefer last = gapText (ctx.text prefer) u := by
  obtain ⟨i, hi, hiu⟩ := Option.bind_eq_some_iff.mp hu
  have hkeys : (sideLevel ctx b us prefer.other).keys = (sideLevel ctx b us prefer).keys :=
    (hsame _).trans (hsame _).symm
  rw [gapBefore_eq]
  by_cases hpred : (if i = 0 then none else (sideLevel ctx b us prefer).keys[i - 1]?) = last
  · rw [linedGap_eq_some hi hiu hpred]
    rfl
  · have hother : linedGap ctx (sideLevel ctx b us) key last prefer.other = none :=
      linedGap_eq_none (hkeys ▸ hi) (hkeys ▸ hpred)
    have hfind : (sideLevel ctx b us prefer).find key = some u := hu
    rw [linedGap_eq_none hi hpred, hother, hfind]
    rfl

end Chosen

section Files

variable {renameEdits : Bytes → List Rename → List Edit} {base : FileNodes}
  {file : Side → FileNodes} {ops : Side → List Rename} {b : List Unit} {us : Side → List Unit}
  {key : Key} {v : Unit} {u : Side → Unit}

/-- The piece is the unit of a side, or the header of the container that both have. -/
def IsPieceOf (v : Unit) (u : Side → Unit) (p : Piece) : Prop :=
  ∃ side, p.part = .unit side (u side) ∨ p.part = .header side (some v) (u .a) (u .b)

/-- The output has the text before the unit, or a line break for an empty one. -/
def Leads (m : Merged) (gap : Bytes) (v : Unit) (u : Side → Unit) : Prop :=
  ∃ before t p after, m.out = before ++ ⟨.gap, t⟩ :: p :: after ∧ IsPieceOf v u p ∧
    (t = gap ∨ gap = [] ∧ t = [10])

/-- A header is put out where a level descends to the children of the container. -/
theorem header_of_planned {ctx : Ctx} {top : List Unit} {tops : Side → List Unit} {p : Piece}
    {side : Side} {v : Option Unit} {x y : Unit} (hpart : p.part = .header side v x y) :
    ∀ {fuel b us}, Reaches ctx top tops .merged b us → p ∈ (planned ctx).run ctx fuel b us →
      ∃ b us, Reaches ctx top tops .merged b us ∧
        ∃ key ∈ levelKeys ctx b us, verdictAt ctx b us key = .descend v x y
  | fuel + 1, b, us, hreach, h => by
      rcases Walk.mem_run_succ.mp h with h | ⟨key, hkey, h⟩
      · exact absurd h List.not_mem_nil
      · cases hverdict : verdictAt ctx b us key with
        | nothing =>
            rw [hverdict] at h
            exact absurd h List.not_mem_nil
        | emit cs t w =>
            rw [hverdict] at h
            rw [List.mem_singleton.mp h] at hpart
            cases hpart
        | descend v' x' y' =>
            rw [hverdict] at h
            rcases List.mem_cons.mp h with rfl | h
            · cases hpart
              exact ⟨b, us, hreach, key, hkey, hverdict⟩
            · rcases List.mem_append.mp h with h | h
              · have hinner := hreach.inner hkey
                obtain ⟨hbase, hkids⟩ := kids_of_descend hverdict
                rw [← hbase, ← hkids, hverdict] at hinner
                exact header_of_planned hpart hinner h
              · rw [List.mem_singleton.mp h] at hpart
                cases hpart

theorem planned_of_header {p : Piece} {side : Side} {v : Option Unit} {x y : Unit}
    (hp : p ∈ (mergeFile renameEdits (some base) file ops).out)
    (hpart : p.part = .header side v x y) :
    p ∈ (planned (fileCtx renameEdits (some base) file ops)).ofFile renameEdits (some base) file
      ops := by
  have hsolid : p ∈ (mergeFile renameEdits (some base) file ops).solid :=
    List.mem_filter.mpr ⟨hp, by simp [Piece.isGap, hpart]⟩
  rw [solid_mergeFile] at hsolid
  rcases List.mem_append.mp hsolid with h | h
  · exact h
  · rw [List.mem_singleton.mp h] at hpart
    cases hpart

theorem nodup_marks (hdistinct : Distinct (baseUnits (some base)) (sideUnits file)) :
    ((mergeFile renameEdits (some base) file ops).out.filterMap Piece.mark).Nodup := by
  rw [marks_eq_solid, solid_mergeFile, List.filterMap_append, Walk.ofFile, marks_of_planned]
  exact (List.append_nil _).symm ▸ nodup_marking hdistinct

variable (hbase : InOrder base.nodes) (hfile : ∀ s, InOrder (file s).nodes)
  (hclean : (mergeFile renameEdits (some base) file ops).conflicts = [])
  (hreach : Reaches (fileCtx renameEdits (some base) file ops) (baseUnits (some base))
    (sideUnits file) .merged b us)
  (hkey : key ∈ levelKeys (fileCtx renameEdits (some base) file ops) b us)
  (hv : baseAt b key = some v)
  (hu : ∀ s, found (fileCtx renameEdits (some base) file ops) b us key s = some (u s))

include hbase hfile hclean hreach hkey hv hu

/-- The unit's piece stands at one place, behind the gap of the side it is taken from. -/
theorem exists_puts (hsame : SameUnits (fileCtx renameEdits (some base) file ops) b us) :
    ∃ q k, Puts (mergeFile renameEdits (some base) file ops)
        (gapText (file (unitSide (fileCtx renameEdits (some base) file ops) v (u .a) (u .b))).text
          (u (unitSide (fileCtx renameEdits (some base) file ops) v (u .a) (u .b)))) q ∧
      IsPieceOf v u q ∧ q.mark = some k ∧
      ∀ p ∈ (mergeFile renameEdits (some base) file ops).out, IsPieceOf v u p →
        p.mark = some k := by
  let ctx := fileCtx renameEdits (some base) file ops
  have hdistinct : Distinct (baseUnits (some base)) (sideUnits file) :=
    distinct_files (by simpa using hbase) hfile
  have hlevel : Distinct b us := hreach.under.distinct hdistinct
  have hmerging : Merging ctx (mergeFile renameEdits (some base) file ops) b us :=
    holds_of_reaches hdistinct hclean hreach
  have hverdictAt : verdictAt ctx b us key = verdict ctx (some v) (some (u .a)) (some (u .b)) := by
    rw [verdictAt_eq, hv, hu, hu]
  -- Where the level is merged.
  obtain ⟨fuel, hfuel, m', after, hout⟩ := exists_inner hreach ((file .a).nodes.length + 1)
    (Nat.lt_succ_of_le (heights_buildUnits _)) ⟨[], [], []⟩
  obtain ⟨fuel, rfl⟩ : ∃ k, fuel = k + 1 := ⟨fuel - 1, by omega⟩
  have hwhole : ∀ {gap q}, Puts (mergeLevel ctx (fuel + 1) b us m') gap q →
      Puts (mergeFile renameEdits (some base) file ops) gap q := by
    intro gap q hputs
    exact (Puts.grow hputs hout).grow rfl
  -- No unit of a side is put out more than once.
  have hpositive : ∀ {p : Piece} {side : Side} {w : Unit},
      p ∈ (mergeFile renameEdits (some base) file ops).out → p.part = .unit side w →
        (mergeFile renameEdits (some base) file ops).times side w ≠ 0 := by
    intro p side w hp hpart
    refine Nat.pos_iff_ne_zero.mp (List.count_pos_iff.mpr (List.mem_flatMap.mpr ⟨p, hp, ?_⟩))
    simp [Piece.ids, hpart, mem_ids_self]
  cases hverdict : verdictAt ctx b us key with
  | nothing =>
      obtain ⟨s, hs⟩ := verdict_nothing (hverdictAt ▸ hverdict)
      cases s <;> cases hs
  | emit cs s w =>
      obtain ⟨hcs, hone, hzero⟩ := hmerging.emit hlevel hkey hverdict
      subst hcs
      obtain rfl : u s = w := Option.some.inj ((hu s).symm.trans (found_of_emit hverdict))
      obtain ⟨last, hputs⟩ := puts_of_emit fuel hkey hverdict m'
      rw [gapBefore_of_sameUnits hsame (hu s)] at hputs
      rw [unitSide_of_emit (hverdictAt ▸ hverdict)]
      refine ⟨_, (s, (u s).nid), hwhole hputs, ⟨s, Or.inl rfl⟩, rfl, ?_⟩
      rintro p hp ⟨t, hpart | hpart⟩
      · rcases Side.eq_or_eq_other s t with rfl | rfl
        · simp [Piece.mark, hpart]
        · exact absurd (hzero _ (hu _) _ (mem_ids_self _)) (hpositive hp hpart)
      · have hplanned := planned_of_header hp hpart
        obtain ⟨b', us', hreach', key', hkey', hdescend⟩ := header_of_planned hpart .top hplanned
        have hmerging' : Merging ctx (mergeFile renameEdits (some base) file ops) b' us' :=
          holds_of_reaches hdistinct hclean hreach'
        have hnone := (hmerging'.descend (hreach'.under.distinct hdistinct) hkey' hdescend).2.2 s
        have hsides : sides (u .a) (u .b) s = u s := by cases s <;> rfl
        rw [hsides] at hnone
        exact absurd (hnone.symm.trans (hone _ (mem_ids_self _))) Nat.zero_ne_one
  | descend v' x y =>
      obtain ⟨hbase', hfound⟩ := found_of_descend hverdict
      obtain rfl : u .a = x := Option.some.inj ((hu .a).symm.trans (hfound .a))
      obtain rfl : u .b = y := Option.some.inj ((hu .b).symm.trans (hfound .b))
      rw [hv] at hbase'
      subst hbase'
      obtain ⟨last, hputs⟩ := puts_of_descend fuel hkey hverdict m'
      rw [gapBefore_of_sameUnits hsame (hu _)] at hputs
      rw [unitSide_of_descend (hverdictAt ▸ hverdict)]
      refine ⟨_, (.a, (u .a).nid), hwhole hputs, ⟨_, Or.inr rfl⟩, rfl, ?_⟩
      rintro p hp ⟨t, hpart | hpart⟩
      · have hnone := (hmerging.descend hlevel hkey hverdict).2.2 t
        have hsides : sides (u .a) (u .b) t = u t := by cases t <;> rfl
        rw [hsides] at hnone
        exact absurd hnone (hpositive hp hpart)
      · simp [Piece.mark, hpart]

end Files

section Comments

/-! Two functions, and a side that puts a comment between them. -/

/-- The functions `a` and `b` with the text between them. -/
def apart (gap : String) : FileNodes where
  text := ascii "fn a() {}" ++ ascii gap ++ ascii "fn b() {}"
  nodes := [sampleNode 1 "function" "a" (0, 9) 11 none,
    sampleNode 2 "function" "b" (9 + gap.length, 18 + gap.length) 12 none]

/-- The function `b` after the text. -/
def second (gap : String) : Unit where
  nid := .splat 2
  kind := "function"
  name := "b"
  span := (9 + gap.length, 18 + gap.length)
  body := .splat 12
  gapStart := 9
  children := []

def comment : String := "\n// new\n"

end Comments

end Tessra.Semantic.Merge
