import Tessra.Semantic.Fates

namespace Tessra.Semantic.Merge

open Tessra.Core Tessra.Data
open Tessra.Daemon (Rename)

/-! Every change of a unit by one side is in the output of a merge without a conflict,
where the unit is not inside a container that is taken whole from the other side. -/

/-- What the output has of the units of a key: nothing, one side's unit once, or a
container around its children. -/
inductive Outcome
  | never
  | once (side : Side)
  | split
deriving DecidableEq

section Rule

variable (ctx : Ctx) (b : Option Unit) (units : Side → Option Unit)

/-- A side added a unit, or changed its body or name. -/
def Alters (side : Side) : Prop := ∃ u, units side = some u ∧ ∀ v ∈ b, changed v u = true

instance (side : Side) : Decidable (Alters b units side) :=
  decidable_of_iff ((units side).any fun u => b.all fun v => changed v u) (by
    simp [Alters, Option.any_eq_true, Option.all_eq_true])

/-- A side's change to a unit was its renames and nothing else. -/
def OnlyRenames (side : Side) : Prop :=
  ∃ v u, b = some v ∧ units side = some u ∧ changeIsRenames ctx side v u = true

/-- What may be emitted for a key, by who changed its unit. -/
structure Fits (o : Outcome) : Prop where
  /-- What one side alone changed or added is emitted once, from it. -/
  alone : ∀ s, Alters b units s → ¬ Alters b units s.other → o = .once s
  /-- What one side deleted and the other left as it was is not emitted. -/
  deleted : ∀ s, units s = none → ¬ Alters b units s.other → o = .never
  /-- What neither changed is emitted once. -/
  kept : (∀ s, (units s).isSome) → (∀ s, ¬ Alters b units s) → ∃ s, o = .once s
  /-- What both changed or added is the same on both, or the renames of one side carried
  to the other's text, or a container merged child by child. -/
  both : ∀ x y, units .a = some x → units .b = some y → (∀ s, Alters b units s) →
    (x.body = y.body ∧ (x.name = y.name ∨ b = none) ∧ ∃ s, o = .once s) ∨
      (∃ s, OnlyRenames ctx b units s ∧ o = .once s.other) ∨ o = .split

end Rule

/-- What the output has of the units of a key. -/
def Happened (m : Merged) (ctx : Ctx) (b : Option Unit) (units : Side → Option Unit) :
    Outcome → Prop
  | .never => ∀ s, ∀ u ∈ units s, m.times s u = 0
  | .once s => (∃ u ∈ units s, m.times s u = 1) ∧ ∀ u ∈ units s.other, m.times s.other u = 0
  | .split => ∃ x ∈ units .a, ∃ y ∈ units .b, m.times .a x = 0 ∧ m.times .b y = 0 ∧
      ∃ side, headerPiece ctx b x y side ∈ m.out

def Verdict.outcome : Verdict → Outcome
  | .nothing => .never
  | .emit _ side _ => .once side
  | .descend _ _ _ => .split

/-- What becomes of a key at a level. -/
def Fate.outcome (verdict : Verdict) (units : Side → Option Unit) : Fate → Outcome
  | .merged => verdict.outcome
  | .taken side => if (units side).isSome then .once side else .never
  | .dropped => .never

section Verdicts

variable {ctx : Ctx} {b : Option Unit} {units : Side → Option Unit}

theorem forall_side {p : Side → Prop} : (∀ s, p s) ↔ p .a ∧ p .b :=
  ⟨fun h => ⟨h .a, h .b⟩, fun h s => match s with | .a => h.1 | .b => h.2⟩

theorem alters_none {s : Side} : Alters none units s ↔ (units s).isSome := by
  simp [Alters, Option.isSome_iff_exists]

theorem alters_some {v u : Unit} {s : Side} (h : units s = some u) :
    Alters (some v) units s ↔ changed v u = true := by
  simp [Alters, h]

theorem not_alters {s : Side} (h : units s = none) : ¬ Alters b units s := by
  simp [Alters, h]

theorem fits_bothChanged {v x y : Unit} (hx : changed v x = true) (hy : changed v y = true)
    (h : ∀ cs s u, bothChanged ctx v x y = .emit cs s u → cs = []) :
    Fits ctx (some v) (sides (some x) (some y)) (bothChanged ctx v x y).outcome := by
  have ha : Alters (some v) (sides (some x) (some y)) .a := (alters_some rfl).mpr hx
  have hb : Alters (some v) (sides (some x) (some y)) .b := (alters_some rfl).mpr hy
  have hall : ∀ s, Alters (some v) (sides (some x) (some y)) s := forall_side.mpr ⟨ha, hb⟩
  refine ⟨fun s _ hother => absurd (hall s.other) hother,
    fun s _ hother => absurd (hall s.other) hother, fun _ hkept => absurd ha (hkept .a), ?_⟩
  rintro _ _ ⟨rfl⟩ ⟨rfl⟩ _
  unfold bothChanged at h ⊢
  split
  · rename_i hsame
    exact Or.inl ⟨hsame.1, Or.inl hsame.2, .a, rfl⟩
  · rename_i hsame
    rw [if_neg hsame] at h
    split
    · rename_i hnames
      rw [if_pos hnames] at h
      exact absurd (h _ _ _ rfl) (List.cons_ne_nil _ _)
    · rename_i hnames
      rw [if_neg hnames] at h
      split
      · rename_i hren
        exact Or.inr (Or.inl ⟨.a, ⟨v, x, rfl, rfl, hren⟩, rfl⟩)
      · rename_i hrena
        rw [if_neg hrena] at h
        split
        · rename_i hren
          exact Or.inr (Or.inl ⟨.b, ⟨v, y, rfl, rfl, hren⟩, rfl⟩)
        · rename_i hrenb
          rw [if_neg hrenb] at h
          split
          · exact Or.inr (Or.inr rfl)
          · rename_i hchildren
            rw [if_neg hchildren] at h
            exact absurd (h _ _ _ rfl) (List.cons_ne_nil _ _)

theorem Side.eq_or_eq_other : ∀ s t : Side, t = s ∨ t = s.other
  | .a, .a => Or.inl rfl
  | .a, .b => Or.inr rfl
  | .b, .a => Or.inr rfl
  | .b, .b => Or.inl rfl

@[simp] theorem Side.other_other : ∀ s : Side, s.other.other = s
  | .a => rfl
  | .b => rfl

/-- What one side alone changed or added. -/
theorem fits_alone {s : Side} (halters : Alters b units s) (hother : ¬ Alters b units s.other) :
    Fits ctx b units (.once s) where
  alone t ht hnot := by
    rcases Side.eq_or_eq_other s t with rfl | rfl
    · rfl
    · exact absurd ht hother
  deleted t ht hnot := by
    rcases Side.eq_or_eq_other s t with rfl | rfl
    · exact absurd halters (not_alters ht)
    · rw [Side.other_other] at hnot
      exact absurd halters hnot
  kept _ hnot := absurd halters (hnot s)
  both _ _ _ _ hall := absurd (hall s.other) hother

theorem fits_deleted {s : Side} (hnone : units s = none) (hnot : ∀ t, ¬ Alters b units t) :
    Fits ctx b units .never where
  alone t ht _ := absurd ht (hnot t)
  deleted _ _ _ := rfl
  kept hall _ := absurd (hall s) (by simp [hnone])
  both _ _ _ _ hall := absurd (hall s) (hnot s)

theorem fits_kept {s : Side} (hall : ∀ t, (units t).isSome) (hnot : ∀ t, ¬ Alters b units t) :
    Fits ctx b units (.once s) where
  alone t ht _ := absurd ht (hnot t)
  deleted t hnone _ := absurd (hall t) (by simp [hnone])
  kept _ _ := ⟨s, rfl⟩
  both _ _ _ _ halters := absurd (halters s) (hnot s)

theorem fits_added {x y : Unit} {o : Outcome}
    (h : x.body = y.body ∧ o = .once .a ∨ o = .split) :
    Fits ctx none (sides (some x) (some y)) o := by
  have hall : ∀ s, Alters none (sides (some x) (some y)) s := fun s =>
    alters_none.mpr (by cases s <;> rfl)
  refine ⟨fun s _ hother => absurd (hall s.other) hother,
    fun s _ hother => absurd (hall s.other) hother, fun _ hnot => absurd (hall .a) (hnot .a), ?_⟩
  rintro _ _ ⟨rfl⟩ ⟨rfl⟩ _
  rcases h with ⟨hbody, rfl⟩ | rfl
  · exact Or.inl ⟨hbody, Or.inr rfl, .a, rfl⟩
  · exact Or.inr (Or.inr rfl)

/-- A unit that one side alone has. -/
theorem fits_single {s : Side} {u : Unit} {v : Verdict} (hu : units s = some u)
    (hother : units s.other = none)
    (hadded : b = none → v = .emit [] s u)
    (hchanged : ∀ w, b = some w → changed w u = true → ∃ cs ≠ [], v = .emit cs s u)
    (hkept : ∀ w, b = some w → changed w u = false → v = .nothing)
    (hclean : ∀ cs t w, v = .emit cs t w → cs = []) : Fits ctx b units v.outcome := by
  cases b with
  | none =>
      rw [hadded rfl]
      exact fits_alone (alters_none.mpr (by simp [hu])) (not_alters hother)
  | some w =>
      cases hw : changed w u with
      | true =>
          obtain ⟨cs, hcs, hv⟩ := hchanged w rfl hw
          exact absurd (hclean _ _ _ hv) hcs
      | false =>
          rw [hkept w rfl hw]
          refine fits_deleted hother fun t => ?_
          rcases Side.eq_or_eq_other s t with rfl | rfl
          · rw [alters_some hu, hw]
            exact Bool.false_ne_true
          · exact not_alters hother

/-- A verdict without a conflict is what the rule asks for. -/
theorem fits_verdict {x y : Option Unit}
    (h : ∀ cs s u, verdict ctx b x y = .emit cs s u → cs = []) :
    Fits ctx b (sides x y) (verdict ctx b x y).outcome := by
  rcases x with _ | x <;> rcases y with _ | y
  · have hnone : ∀ s, sides (none : Option Unit) none s = none := forall_side.mpr ⟨rfl, rfl⟩
    rw [verdict]
    exact fits_deleted (hnone .a) fun t => not_alters (hnone t)
  · refine fits_single (s := .b) rfl rfl ?_ ?_ ?_ h
    · rintro rfl
      rw [verdict]
    · rintro w rfl hw
      exact ⟨_, List.cons_ne_nil _ _, by rw [verdict, if_pos hw]⟩
    · rintro w rfl hw
      rw [verdict, if_neg (by simp [hw])]
  · refine fits_single (s := .a) rfl rfl ?_ ?_ ?_ h
    · rintro rfl
      rw [verdict]
    · rintro w rfl hw
      exact ⟨_, List.cons_ne_nil _ _, by rw [verdict, if_pos hw]⟩
    · rintro w rfl hw
      rw [verdict, if_neg (by simp [hw])]
  · cases b with
    | none =>
        simp only [verdict] at h ⊢
        split
        · rename_i hbody
          exact fits_added (Or.inl ⟨hbody, rfl⟩)
        · rename_i hbody
          rw [if_neg hbody] at h
          split
          · exact fits_added (Or.inr rfl)
          · rename_i hchildren
            rw [if_neg hchildren] at h
            exact absurd (h _ _ _ rfl) (List.cons_ne_nil _ _)
    | some v =>
        have ha : Alters (some v) (sides (some x) (some y)) .a ↔ changed v x = true :=
          alters_some rfl
        have hb : Alters (some v) (sides (some x) (some y)) .b ↔ changed v y = true :=
          alters_some rfl
        cases hx : changed v x <;> cases hy : changed v y
        · have hnot : ∀ t, ¬ Alters (some v) (sides (some x) (some y)) t :=
            forall_side.mpr ⟨by simp [ha, hx], by simp [hb, hy]⟩
          have hall : ∀ t, (sides (some x) (some y) t).isSome := forall_side.mpr ⟨rfl, rfl⟩
          simp only [verdict, hx, hy]
          split
          · exact fits_kept hall hnot
          · exact fits_kept hall hnot
        · simp only [verdict, hx, hy]
          exact fits_alone (s := .b) (hb.mpr hy) (by simp [Side.other, ha, hx])
        · simp only [verdict, hx, hy]
          exact fits_alone (s := .a) (ha.mpr hx) (by simp [Side.other, hb, hy])
        · simp only [verdict, hx, hy] at h ⊢
          exact fits_bothChanged hx hy h

end Verdicts

/-- A level that is merged without a conflict: its plan is in the output, and nothing
else of its units. -/
def Merging (ctx : Ctx) (m : Merged) (b : List Unit) (us : Side → List Unit) : Prop :=
  ∃ fuel, heights (us .a) < fuel ∧ (clashing ctx).run ctx fuel b us = [] ∧
    (∀ p ∈ (planned ctx).run ctx fuel b us, p ∈ m.out) ∧
    ∀ s, ∀ nid ∈ ids (us s),
      m.emitted.count (s, nid) = (emitting.run ctx fuel b us).count (s, nid)

/-- What the output has of a level. -/
def Fate.Holds (ctx : Ctx) (m : Merged) (b : List Unit) (us : Side → List Unit) : Fate → Prop
  | .merged => Merging ctx m b us
  | .taken side => (∀ nid ∈ ids (us side), m.emitted.count (side, nid) = 1) ∧
      ∀ nid ∈ ids (us side.other), m.emitted.count (side.other, nid) = 0
  | .dropped => (∃ s, us s = []) ∧ ∀ s, ∀ nid ∈ ids (us s), m.emitted.count (s, nid) = 0

section Counts

variable {ctx : Ctx} {m : Merged} {b : List Unit} {us : Side → List Unit} {key : Key} {s : Side}
  {u : Unit} {nid : EntityId}

theorem mem_ids_of_found (hu : found ctx b us key s = some u) (hnid : nid ∈ u.ids) :
    nid ∈ ids (us s) :=
  mem_ids.mpr ⟨u, mem_units_of_found hu, hnid⟩

theorem mem_ids_self (u : Unit) : u.nid ∈ u.ids := List.mem_cons_self

theorem mem_innerUnits (h : nid ∈ ids (innerUnits ctx b us key s)) :
    ∃ u, found ctx b us key s = some u ∧ nid ∈ ids u.children := by
  unfold innerUnits at h
  cases hfound : found ctx b us key s with
  | none =>
      rw [hfound] at h
      exact absurd h List.not_mem_nil
  | some u =>
      rw [hfound] at h
      exact ⟨u, rfl, h⟩

theorem count_map_side (side : Side) (l : List EntityId) :
    (l.map (side, ·)).count (s, nid) = if side = s then l.count nid else 0 := by
  split
  · rename_i heq
    subst heq
    exact List.count_map_of_injective l (side, ·) (fun _ _ h => (Prod.mk.inj h).2) nid
  · rename_i hne
    refine List.count_eq_zero.mpr fun hmem => ?_
    obtain ⟨_, _, heq⟩ := List.mem_map.mp hmem
    exact hne (Prod.mk.inj heq).1

section Step

variable (hdistinct : Distinct b us) (h : Merging ctx m b us)
include hdistinct h

theorem Merging.emit (hkey : key ∈ levelKeys ctx b us) {cs : List String}
    (hverdict : verdictAt ctx b us key = .emit cs s u) :
    cs = [] ∧ (∀ nid ∈ u.ids, m.emitted.count (s, nid) = 1) ∧
      ∀ w, found ctx b us key s.other = some w → ∀ nid ∈ w.ids,
        m.emitted.count (s.other, nid) = 0 := by
  obtain ⟨_ | fuel, hheight, hclean, _, hcount⟩ := h
  · exact absurd hheight (Nat.not_lt_zero _)
  have hfound := found_of_emit hverdict
  refine ⟨?_, fun nid hnid => ?_, fun w hw nid hnid => ?_⟩
  · rw [Walk.run, List.append_eq_nil_iff, List.flatMap_eq_nil_iff] at hclean
    have hempty := hclean.2 key hkey
    rwa [hverdict] at hempty
  · rw [hcount s nid (mem_ids_of_found hfound hnid), count_emitting hdistinct hfound hnid,
      hverdict]
    refine (count_map_side s u.ids).trans ?_
    rw [if_pos rfl]
    exact List.count_eq_one_of_mem
      (nodup_ids_unit (hdistinct.side s) (mem_units_of_found hfound)) hnid
  · rw [hcount s.other nid (mem_ids_of_found hw hnid), count_emitting hdistinct hw hnid, hverdict]
    refine (count_map_side s u.ids).trans (if_neg ?_)
    cases s <;> exact Side.noConfusion

theorem Merging.nothing (hverdict : verdictAt ctx b us key = .nothing)
    (hu : found ctx b us key s = some u) (hnid : nid ∈ u.ids) :
    m.emitted.count (s, nid) = 0 := by
  obtain ⟨_ | fuel, hheight, _, _, hcount⟩ := h
  · exact absurd hheight (Nat.not_lt_zero _)
  rw [hcount s nid (mem_ids_of_found hu hnid), count_emitting hdistinct hu hnid, hverdict]
  rfl

theorem Merging.descend (hkey : key ∈ levelKeys ctx b us) {v x y}
    (hverdict : verdictAt ctx b us key = .descend v x y) :
    Merging ctx m (baseKids (baseAt b key)) (innerUnits ctx b us key) ∧
      headerPiece ctx v x y (headerSide ctx v x) ∈ m.out ∧
      ∀ t, m.times t (sides x y t) = 0 := by
  obtain ⟨_ | fuel, hheight, hclean, hplan, hcount⟩ := h
  · exact absurd hheight (Nat.not_lt_zero _)
  obtain ⟨hbase, hkids⟩ := kids_of_descend hverdict
  have hfound := (found_of_descend hverdict).2
  have hat : ∀ {α : Type} (w : Walk α),
      w.at (w.run ctx fuel) (verdictAt ctx b us key) = w.container v x y
        (w.run ctx fuel (baseKids (baseAt b key)) (innerUnits ctx b us key)) := by
    intro α w
    rw [hverdict, ← hbase, ← hkids]
    rfl
  have hplanned : ∀ p ∈ (planned ctx).at ((planned ctx).run ctx fuel) (verdictAt ctx b us key),
      p ∈ m.out := fun p hp =>
    hplan p (Walk.mem_run_succ.mpr (Or.inr ⟨key, hkey, hp⟩))
  rw [hat] at hplanned
  refine ⟨⟨fuel, ?_, ?_, fun p hp => ?_, fun t nid hnid => ?_⟩, ?_, fun t => ?_⟩
  · have hlt := heights_children (mem_units_of_found (hfound .a))
    rw [← hkids]
    simp only [kids]
    omega
  · rw [Walk.run, List.append_eq_nil_iff, List.flatMap_eq_nil_iff] at hclean
    have hempty := hclean.2 key hkey
    rwa [hat] at hempty
  · exact hplanned p (List.mem_cons_of_mem _ (List.mem_append_left _ hp))
  · obtain ⟨u, hu, hnid'⟩ := mem_innerUnits hnid
    have hmem := List.mem_cons_of_mem u.nid hnid'
    rw [hcount t nid (mem_ids_of_found hu hmem), count_emitting hdistinct hu hmem, hat]
    rfl
  · exact hplanned _ List.mem_cons_self
  · have hself := mem_ids_self (sides x y t)
    rw [Merged.times, hcount t _ (mem_ids_of_found (hfound t) hself),
      count_emitting hdistinct (hfound t) hself, hat]
    refine List.count_eq_zero.mpr fun hmem => ?_
    have hinner := mem_ids_of_emitting (show (t, (sides x y t).nid) ∈ emitting.run ctx fuel
      (baseKids (baseAt b key)) (innerUnits ctx b us key) from hmem)
    obtain ⟨u, hu, hin⟩ := mem_innerUnits hinner
    rw [hfound t] at hu
    cases hu
    exact (List.nodup_cons.mp (nodup_ids_unit (hdistinct.side t)
      (mem_units_of_found (hfound t)))).1 hin

end Step

variable {fate : Fate}

/-- What the output has inside the units of a key. -/
theorem Fate.Holds.inner (hdistinct : Distinct b us) (h : fate.Holds ctx m b us)
    (hkey : key ∈ levelKeys ctx b us) :
    (fate.inner (verdictAt ctx b us key)).Holds ctx m (baseKids (baseAt b key))
      (innerUnits ctx b us key) := by
  have up : ∀ {t nid}, nid ∈ ids (innerUnits ctx b us key t) →
      ∃ u, found ctx b us key t = some u ∧ nid ∈ u.ids := by
    intro t nid hnid
    obtain ⟨u, hu, hmem⟩ := mem_innerUnits hnid
    exact ⟨u, hu, List.mem_cons_of_mem _ hmem⟩
  have below : ∀ {t nid}, nid ∈ ids (innerUnits ctx b us key t) → nid ∈ ids (us t) := by
    intro t nid hnid
    obtain ⟨u, hu, hmem⟩ := up hnid
    exact mem_ids_of_found hu hmem
  cases fate with
  | taken side => exact ⟨fun nid hnid => h.1 nid (below hnid), fun nid hnid => h.2 nid (below hnid)⟩
  | dropped =>
      obtain ⟨⟨t, ht⟩, hzero⟩ := h
      refine ⟨⟨t, ?_⟩, fun t nid hnid => hzero t nid (below hnid)⟩
      unfold innerUnits
      cases hu : found ctx b us key t with
      | none => rfl
      | some u =>
          have hmem := mem_units_of_found hu
          rw [ht] at hmem
          exact absurd hmem List.not_mem_nil
  | merged =>
      cases hverdict : verdictAt ctx b us key with
      | nothing =>
          refine ⟨?_, fun t nid hnid => ?_⟩
          · obtain ⟨t, ht⟩ := verdict_nothing (verdictAt_eq.symm.trans hverdict)
            rw [sides_found] at ht
            exact ⟨t, by rw [innerUnits, ht]; rfl⟩
          · obtain ⟨u, hu, hmem⟩ := up hnid
            exact h.nothing hdistinct hverdict hu hmem
      | emit cs side u =>
          obtain ⟨_, hone, hzero⟩ := h.emit hdistinct hkey hverdict
          refine ⟨fun nid hnid => ?_, fun nid hnid => ?_⟩
          · obtain ⟨w, hw, hmem⟩ := up hnid
            rw [found_of_emit hverdict] at hw
            cases hw
            exact hone nid hmem
          · obtain ⟨w, hw, hmem⟩ := up hnid
            exact hzero w hw nid hmem
      | descend v x y => exact (h.descend hdistinct hkey hverdict).1

/-- What the output has of the units of a key is what becomes of the key. -/
theorem Fate.Holds.happened (hdistinct : Distinct b us) (h : fate.Holds ctx m b us)
    (hkey : key ∈ levelKeys ctx b us) :
    Happened m ctx (baseAt b key) (found ctx b us key)
      (fate.outcome (verdictAt ctx b us key) (found ctx b us key)) := by
  cases fate with
  | merged =>
      rw [Fate.outcome]
      cases hverdict : verdictAt ctx b us key with
      | nothing => exact fun t u hu => h.nothing hdistinct hverdict hu (mem_ids_self u)
      | emit cs side u =>
          obtain ⟨_, hone, hzero⟩ := h.emit hdistinct hkey hverdict
          exact ⟨⟨u, found_of_emit hverdict, hone _ (mem_ids_self u)⟩,
            fun w hw => hzero w hw _ (mem_ids_self w)⟩
      | descend v x y =>
          obtain ⟨_, hheader, hzero⟩ := h.descend hdistinct hkey hverdict
          obtain ⟨hbase, hfound⟩ := found_of_descend hverdict
          rw [← hbase]
          exact ⟨x, hfound .a, y, hfound .b, hzero .a, hzero .b, _, hheader⟩
  | taken side =>
      rw [Fate.outcome]
      cases hu : found ctx b us key side with
      | none =>
          intro t u ht
          rcases Side.eq_or_eq_other side t with rfl | rfl
          · rw [hu] at ht
            cases ht
          · exact h.2 _ (mem_ids_of_found ht (mem_ids_self u))
      | some u =>
          exact ⟨⟨u, hu, h.1 _ (mem_ids_of_found hu (mem_ids_self u))⟩,
            fun w hw => h.2 _ (mem_ids_of_found hw (mem_ids_self w))⟩
  | dropped => exact fun t u hu => h.2 t _ (mem_ids_of_found hu (mem_ids_self u))

/-- Outside merged levels nothing else can have happened to a key. -/
theorem Fate.Holds.outcome_unique (hdistinct : Distinct b us) (h : fate.Holds ctx m b us)
    (hfate : fate ≠ .merged) (hkey : key ∈ levelKeys ctx b us) {o : Outcome}
    (ho : Happened m ctx (baseAt b key) (found ctx b us key) o) :
    o = fate.outcome (verdictAt ctx b us key) (found ctx b us key) := by
  have hfact := h.happened hdistinct hkey
  cases fate with
  | merged => exact absurd rfl hfate
  | taken side =>
      rw [Fate.outcome] at hfact ⊢
      cases hu : found ctx b us key side with
      | none =>
          rw [hu] at hfact
          cases o with
          | never => rfl
          | once t =>
              obtain ⟨⟨u, ht, hone⟩, _⟩ := ho
              have hzero := hfact t u ht
              omega
          | split =>
              obtain ⟨x, hx, y, hy, _⟩ := ho
              cases side <;> simp_all
      | some u =>
          rw [hu] at hfact
          have hone := h.1 _ (mem_ids_of_found hu (mem_ids_self u))
          cases o with
          | never =>
              have hzero := ho side u hu
              rw [Merged.times] at hzero
              omega
          | once t =>
              rcases Side.eq_or_eq_other side t with rfl | rfl
              · rfl
              · have hzero := ho.2 u (by rwa [Side.other_other])
                rw [Side.other_other, Merged.times] at hzero
                omega
          | split =>
              obtain ⟨x, hx, y, hy, hzerox, hzeroy, _⟩ := ho
              rw [Merged.times] at hzerox hzeroy
              cases side with
              | a =>
                  cases hx.symm.trans hu
                  omega
              | b =>
                  cases hy.symm.trans hu
                  omega
  | dropped =>
      rw [Fate.outcome] at hfact ⊢
      cases o with
      | never => rfl
      | once t =>
          obtain ⟨⟨u, ht, hone⟩, _⟩ := ho
          have hzero := hfact t u ht
          omega
      | split =>
          obtain ⟨x, hx, y, hy, _⟩ := ho
          obtain ⟨⟨t, ht⟩, _⟩ := h
          cases t with
          | a =>
              have hmem := mem_units_of_found hx
              rw [ht] at hmem
              exact absurd hmem List.not_mem_nil
          | b =>
              have hmem := mem_units_of_found hy
              rw [ht] at hmem
              exact absurd hmem List.not_mem_nil

end Counts

section Files

variable (renameEdits : Bytes → List Rename → List Edit) (base : Option FileNodes)
  (file : Side → FileNodes) (ops : Side → List Rename)

/-- At every level the output has of each key what the rule allows; no other unit is in
it, and those that are have the text of their side under the other side's renames. -/
structure LosesNoChange : Prop where
  rule : ∀ b us, Under (fileCtx renameEdits base file ops) (baseUnits base) (sideUnits file) b us →
    ∀ key ∈ levelKeys (fileCtx renameEdits base file ops) b us, ∃ o,
      Happened (mergeFile renameEdits base file ops) (fileCtx renameEdits base file ops)
        (baseAt b key) (found (fileCtx renameEdits base file ops) b us key) o ∧
      Fits (fileCtx renameEdits base file ops) (baseAt b key)
        (found (fileCtx renameEdits base file ops) b us key) o
  text : ∀ p ∈ (mergeFile renameEdits base file ops).out, ∀ s u, p.part = .unit s u →
    u ∈ alls (sideUnits file s) ∧ p.text = (renamed (fileCtx renameEdits base file ops) s u).1

/-- Inside a container that is taken whole from a side, or dropped, the other side has
nothing that the rule would not leave out. -/
def WholeFits : Prop :=
  ∀ fate b us, Reaches (fileCtx renameEdits base file ops) (baseUnits base) (sideUnits file)
    fate b us → fate ≠ .merged →
      ∀ key ∈ levelKeys (fileCtx renameEdits base file ops) b us,
        Fits (fileCtx renameEdits base file ops) (baseAt b key)
          (found (fileCtx renameEdits base file ops) b us key)
          (fate.outcome (verdictAt (fileCtx renameEdits base file ops) b us key)
            (found (fileCtx renameEdits base file ops) b us key))

variable {renameEdits base file ops}

theorem unit_of_planned {ctx : Ctx} {p : Piece} {s : Side} {u : Unit} (hpart : p.part = .unit s u) :
    ∀ {fuel b us}, p ∈ (planned ctx).run ctx fuel b us →
      u ∈ alls (us s) ∧ p.text = (renamed ctx s u).1
  | fuel + 1, b, us, h => by
      rcases Walk.mem_run_succ.mp h with h | ⟨key, _, h⟩
      · exact absurd h List.not_mem_nil
      · cases hverdict : verdictAt ctx b us key with
        | nothing =>
            rw [hverdict] at h
            exact absurd h List.not_mem_nil
        | emit cs t w =>
            rw [hverdict] at h
            rw [List.mem_singleton.mp h] at hpart ⊢
            cases hpart
            refine ⟨mem_alls.mpr ⟨u, mem_units_of_found (found_of_emit hverdict), ?_⟩, rfl⟩
            rw [u.all_eq]
            exact List.mem_cons_self
        | descend v x y =>
            rw [hverdict] at h
            rcases List.mem_cons.mp h with rfl | h
            · cases hpart
            · rcases List.mem_append.mp h with h | h
              · obtain ⟨hu, htext⟩ := unit_of_planned hpart h
                refine ⟨mem_alls.mpr ⟨sides x y s,
                  mem_units_of_found ((found_of_descend hverdict).2 s), ?_⟩, htext⟩
                rw [Unit.all_eq]
                exact List.mem_cons_of_mem _ hu
              · rw [List.mem_singleton.mp h] at hpart
                cases hpart

theorem unit_of_mergeFile {p : Piece} (hp : p ∈ (mergeFile renameEdits base file ops).out)
    {s : Side} {u : Unit} (hpart : p.part = .unit s u) :
    u ∈ alls (sideUnits file s) ∧ p.text = (renamed (fileCtx renameEdits base file ops) s u).1 := by
  have hsolid : p ∈ (mergeFile renameEdits base file ops).solid := by
    refine List.mem_filter.mpr ⟨hp, ?_⟩
    simp [Piece.isGap, hpart]
  rw [solid_mergeFile] at hsolid
  rcases List.mem_append.mp hsolid with h | h
  · exact unit_of_planned hpart h
  · rw [List.mem_singleton.mp h] at hpart
    cases hpart

theorem emitted_mergeFile : (mergeFile renameEdits base file ops).emitted =
    emitting.run (fileCtx renameEdits base file ops) ((file .a).nodes.length + 1)
      (baseUnits base) (sideUnits file) := by
  rw [emitted_eq_solid, solid_mergeFile, List.flatMap_append, Walk.ofFile, ids_of_planned]
  exact List.append_nil _

theorem distinct_files (hbase : ∀ f ∈ base, InOrder f.nodes)
    (hfile : ∀ s, InOrder (file s).nodes) : Distinct (baseUnits base) (sideUnits file) where
  base := by
    cases base with
    | none => exact List.nodup_nil
    | some f => exact (hbase f rfl).nodup_ids
  side s := (hfile s).nodup_ids

theorem merging_mergeFile (hclean : (mergeFile renameEdits base file ops).conflicts = []) :
    Merging (fileCtx renameEdits base file ops) (mergeFile renameEdits base file ops)
      (baseUnits base) (sideUnits file) := by
  rw [conflicts_mergeFile] at hclean
  refine ⟨_, Nat.lt_succ_of_le (heights_buildUnits _), hclean, fun p hp => ?_, fun s nid _ => ?_⟩
  · refine (List.mem_filter.mp (?_ : p ∈ (mergeFile renameEdits base file ops).solid)).1
    rw [solid_mergeFile]
    exact List.mem_append_left _ hp
  · rw [emitted_mergeFile]

theorem holds_of_reaches (hdistinct : Distinct (baseUnits base) (sideUnits file))
    (hclean : (mergeFile renameEdits base file ops).conflicts = []) {fate : Fate} {b : List Unit}
    {us : Side → List Unit} (h : Reaches (fileCtx renameEdits base file ops) (baseUnits base)
      (sideUnits file) fate b us) :
    fate.Holds (fileCtx renameEdits base file ops) (mergeFile renameEdits base file ops) b us := by
  induction h with
  | top => exact merging_mergeFile hclean
  | inner h hkey ih => exact ih.inner (h.under.distinct hdistinct) hkey

/-- At a level that is merged without a conflict the rule holds. -/
theorem Merging.fits {ctx : Ctx} {m : Merged} {b : List Unit} {us : Side → List Unit} {key : Key}
    (hdistinct : Distinct b us) (h : Merging ctx m b us) (hkey : key ∈ levelKeys ctx b us) :
    Fits ctx (baseAt b key) (found ctx b us key) (verdictAt ctx b us key).outcome := by
  rw [verdictAt_eq, ← show sides (found ctx b us key .a) (found ctx b us key .b) =
    found ctx b us key from funext sides_found]
  exact fits_verdict fun cs s u hverdict => (h.emit hdistinct hkey hverdict).1

variable (renameEdits base file ops)

/-- A merge without a conflict loses no change of a unit exactly when nothing clashes only
if no container that is taken whole from a side, or dropped, has in it a change that the
other side made. -/
theorem clean_losesNoChange_iff (hbase : ∀ f ∈ base, InOrder f.nodes)
    (hfile : ∀ s, InOrder (file s).nodes) :
    ((mergeFile renameEdits base file ops).conflicts = [] →
        LosesNoChange renameEdits base file ops) ↔
      ((clashing (fileCtx renameEdits base file ops)).ofFile renameEdits base file ops = [] →
        WholeFits renameEdits base file ops) := by
  have hdistinct := distinct_files hbase hfile
  rw [← conflicts_mergeFile]
  constructor
  · intro h hclean fate b us hreaches hfate key hkey
    obtain ⟨o, ho, hfits⟩ := (h hclean).rule b us hreaches.under key hkey
    have heq := (holds_of_reaches hdistinct hclean hreaches).outcome_unique
      (hreaches.under.distinct hdistinct) hfate hkey ho
    exact heq ▸ hfits
  · intro h hclean
    refine ⟨fun b us hunder key hkey => ?_, fun p hp s u hpart => unit_of_mergeFile hp hpart⟩
    obtain ⟨fate, hreaches⟩ := hunder.reaches
    have hholds := holds_of_reaches hdistinct hclean hreaches
    have hlevel := hunder.distinct hdistinct
    refine ⟨_, hholds.happened hlevel hkey, ?_⟩
    cases hfate : fate with
    | merged =>
        rw [hfate] at hholds
        exact Merging.fits hlevel hholds hkey
    | taken s => exact hfate ▸ h hclean fate b us hreaches (by simp [hfate]) key hkey
    | dropped => exact hfate ▸ h hclean fate b us hreaches (by simp [hfate]) key hkey

end Files

section Samples

/-! Two methods of one block: the first side edits the doc comment of one, which the body
of the block does not cover, and the second side the code of the other. -/

def ascii (text : String) : Bytes := text.toList.map fun c => Fin.ofNat 256 c.toNat

def sampleNode (nid : ℕ) (kind name : String) (span : ℕ × ℕ) (body : ℕ) (parent : Option ℕ) :
    Node :=
  ⟨.splat nid, "f.rs", kind, name, span, .splat body, parent.map .splat, none, none⟩

/-- A block with the methods `m` and `n`: where each starts and ends, and their bodies. -/
def block (text : String) (stop : ℕ) (m n : ℕ × ℕ) (body bodyM bodyN : ℕ) : FileNodes where
  text := ascii text
  nodes := [sampleNode 1 "impl" "S" (0, stop) body none,
    sampleNode 2 "function" "m" m bodyM (some 1), sampleNode 3 "function" "n" n bodyN (some 1)]

def blockBase : FileNodes :=
  block "impl S \x7b\n    /// One.\n    fn m() \x7b\x7d\n    fn n() \x7b\x7d\n\x7d\n" 51 (13, 35) (40, 49) 10 12 13

def blockSides : Side → FileNodes :=
  sides
    (block "impl S \x7b\n    /// First.\n    fn m() \x7b\x7d\n    fn n() \x7b\x7d\n\x7d\n" 53 (13, 37) (42, 51)
      10 22 13)
    (block "impl S \x7b\n    /// One.\n    fn m() \x7b\x7d\n    fn n() \x7b 1 \x7d\n\x7d\n" 54 (13, 35) (40, 52)
      30 12 33)

def noEdits : Bytes → List Rename → List Edit := fun _ _ => []

theorem emitted_block :
    (mergeFile noEdits (some blockBase) blockSides fun _ => []).emitted =
      [(.b, .splat 1), (.b, .splat 2), (.b, .splat 3)] := by
  decide +kernel

/-- The edit of the doc comment is gone without a conflict. -/
theorem doc_edit_lost :
    (mergeFile noEdits (some blockBase) blockSides fun _ => []).conflicts = [] ∧
      (mergeFile noEdits (some blockBase) blockSides fun _ => []).text = (blockSides .b).text ∧
      ¬ LosesNoChange noEdits (some blockBase) blockSides fun _ => [] := by
  refine ⟨by decide +kernel, by decide +kernel, fun h => ?_⟩
  have htop : Under (fileCtx noEdits (some blockBase) blockSides fun _ => [])
    (baseUnits (some blockBase)) (sideUnits blockSides) (baseUnits (some blockBase))
    (sideUnits blockSides) := .top
  have hkey : (.id (.splat 1) : Key) ∈ levelKeys (fileCtx noEdits (some blockBase) blockSides
    fun _ => []) (baseUnits (some blockBase)) (sideUnits blockSides) := by decide +kernel
  have hlevel := htop.inner hkey
  obtain ⟨o, ho, hfits⟩ := h.rule _ _ hlevel (.id (.splat 2)) (by decide +kernel)
  have honce := hfits.alone .a (by decide +kernel) (by decide +kernel)
  subst honce
  obtain ⟨⟨u, _, hone⟩, _⟩ := ho
  rw [Merged.times, emitted_block] at hone
  have hzero : [((.b : Side), (.splat 1 : EntityId)), (.b, .splat 2), (.b, .splat 3)].count
      (.a, u.nid) = 0 := List.count_eq_zero.mpr (by simp)
  exact absurd (hone.symm.trans hzero) Nat.one_ne_zero

theorem clean_losesNoChange_block :
    ((mergeFile noEdits (some blockBase) blockSides fun _ => []).conflicts = [] →
        LosesNoChange noEdits (some blockBase) blockSides fun _ => []) ↔
      ((clashing (fileCtx noEdits (some blockBase) blockSides fun _ => [])).ofFile noEdits
        (some blockBase) blockSides (fun _ => []) = [] →
        WholeFits noEdits (some blockBase) blockSides fun _ => []) := by
  refine clean_losesNoChange_iff noEdits (some blockBase) blockSides (fun _ => []) ?_ fun s => ?_
  · rintro f ⟨rfl⟩
    exact ⟨by decide +kernel, by decide +kernel⟩
  · cases s <;> exact ⟨by decide +kernel, by decide +kernel⟩

end Samples

end Tessra.Semantic.Merge
