import Tessra.Semantic.MergePlan

namespace Tessra.Semantic.Merge

open Tessra.Core Tessra.Data
open Tessra.Daemon (Rename)

/-! How deep units nest, and that neither the units of a file nor the merge of them is
cut short by the fuel. -/

mutual

def Unit.height : Unit → ℕ
  | ⟨_, _, _, _, _, _, children⟩ => heights children + 1

def heights : List Unit → ℕ
  | [] => 0
  | u :: rest => max u.height (heights rest)

end

theorem Unit.height_eq (u : Unit) : u.height = heights u.children + 1 := by
  cases u
  rw [height]

theorem height_le_heights {u : Unit} {us : List Unit} (h : u ∈ us) : u.height ≤ heights us := by
  induction us with
  | nil => exact absurd h List.not_mem_nil
  | cons first rest ih =>
      rw [heights]
      rcases List.mem_cons.mp h with rfl | h
      · exact le_max_left _ _
      · exact (ih h).trans (le_max_right _ _)

theorem heights_le {us : List Unit} {n : ℕ} (h : ∀ u ∈ us, u.height ≤ n) : heights us ≤ n := by
  induction us with
  | nil => exact n.zero_le
  | cons first rest ih =>
      rw [heights]
      exact max_le (h _ List.mem_cons_self) (ih fun u hu => h u (List.mem_cons_of_mem _ hu))

theorem heights_children {u : Unit} {us : List Unit} (h : u ∈ us) :
    heights u.children < heights us := by
  have hle := height_le_heights h
  rw [u.height_eq] at hle
  exact hle

theorem heights_make (nodes : List Node) : ∀ fuel parent start,
    heights (make nodes fuel parent start) ≤ fuel
  | 0, _, _ => le_rfl
  | fuel + 1, parent, start => by
      refine heights_le fun u hu => ?_
      obtain ⟨n, _, rfl⟩ := List.mem_map.mp hu
      rw [Unit.height_eq]
      exact Nat.succ_le_succ (heights_make nodes fuel _ _)

theorem heights_buildUnits (nodes : List Node) : heights (buildUnits nodes) ≤ nodes.length :=
  heights_make nodes _ _ _

section Verdicts

variable {ctx : Ctx} {key : Key} {base : List Unit} {units : Side → List Unit}

theorem Level.mem_of_find {l : Level} {u : Unit} (h : l.find key = some u) : u ∈ l.units := by
  obtain ⟨i, _, hi⟩ := Option.bind_eq_some_iff.mp h
  exact List.mem_of_getElem? hi

/-- A container is merged child by child only where both sides have it. -/
theorem verdict_descend {b x y b' x' y'} (h : verdict ctx b x y = .descend b' x' y') :
    b' = b ∧ x = some x' ∧ y = some y' := by
  unfold verdict bothChanged at h
  split at h <;> try split at h
  all_goals grind

theorem mem_of_descend {b x y} (h : verdictAt ctx base units key = .descend b x y) :
    b = (baseLevel base).find key ∧ x ∈ units .a ∧ y ∈ units .b := by
  obtain ⟨hbase, hx, hy⟩ := verdict_descend h
  exact ⟨hbase, Level.mem_of_find hx, Level.mem_of_find hy⟩

end Verdicts

section Fuel

variable {ctx : Ctx} {base : List Unit} {units : Side → List Unit}

theorem Walk.run_fuel {α : Type} (w : Walk α) : ∀ {fuel base units},
    heights (units .a) < fuel → w.run ctx (fuel + 1) base units = w.run ctx fuel base units
  | fuel + 1, base, units, h => by
      rw [run, run]
      congr 1
      refine List.flatMap_congr fun key _ => ?_
      cases hverdict : verdictAt ctx base units key with
      | nothing => rfl
      | emit conflicts side u => rfl
      | descend b x y =>
          have hx := heights_children (mem_of_descend hverdict).2.1
          have hkids : heights (kids x y .a) < fuel := by
            simp only [kids, sides_a]
            omega
          simp only [Walk.at, Walk.run_fuel w hkids]

theorem mergeKey_congr {level level' : List Unit → (Side → List Unit) → Merged → Merged}
    (h : ∀ b x y m, x ∈ units .a → level b (kids x y) m = level' b (kids x y) m)
    (s : Merged × Option Key) (key : Key) :
    mergeKey ctx level base units s key = mergeKey ctx level' base units s key := by
  unfold mergeKey
  cases hverdict : verdictAt ctx base units key with
  | nothing => rfl
  | emit conflicts side u => rfl
  | descend b x y =>
      have hx := (mem_of_descend hverdict).2.1
      have hcontainer : ∀ gap, mergeContainer ctx level b x y gap s.1 =
          mergeContainer ctx level' b x y gap s.1 := by
        intro gap
        simp only [mergeContainer, h _ x y _ hx]
      dsimp only
      rw [hcontainer]

/-- More fuel than the units are deep changes nothing. -/
theorem mergeLevel_fuel : ∀ {fuel base units m}, heights (units .a) < fuel →
    mergeLevel ctx (fuel + 1) base units m = mergeLevel ctx fuel base units m
  | fuel + 1, base, units, m, h => by
      rw [mergeLevel, mergeLevel]
      congr 1
      refine List.foldl_ext _ _ _ fun s key _ => mergeKey_congr (fun b x y m hx => ?_) s key
      have hkids := heights_children hx
      exact mergeLevel_fuel (show heights (kids x y .a) < fuel by
        simp only [kids, sides_a]
        omega)

end Fuel

section Documents

/-- The nodes of a version: their ids are distinct, and a parent comes before what it
holds. -/
structure InOrder (nodes : List Node) : Prop where
  distinct : (nodes.map Node.nid).Nodup
  parentsFirst : ∀ n ∈ nodes, ∀ p ∈ n.parent,
    ∃ q ∈ nodes, q.nid = p ∧ nodes.idxOf q < nodes.idxOf n

variable {nodes : List Node}

theorem mem_kidsOf {parent : Option EntityId} {n : Node} :
    n ∈ kidsOf nodes parent ↔ n ∈ nodes ∧ n.parent = parent := by
  simp [kidsOf]

theorem map_fst_withGaps : ∀ start (list : List Node), (withGaps start list).map Prod.fst = list
  | _, [] => rfl
  | _, n :: rest => congrArg (n :: ·) (map_fst_withGaps n.span.2 rest)

theorem mem_of_mem_withGaps {start : ℕ} {list : List Node} {e : Node × ℕ}
    (h : e ∈ withGaps start list) : e.1 ∈ list := by
  rw [← map_fst_withGaps start list]
  exact List.mem_map_of_mem h

variable (h : InOrder nodes)
include h

theorem InOrder.eq_of_nid {n q : Node} (hn : n ∈ nodes) (hq : q ∈ nodes) (heq : n.nid = q.nid) :
    n = q :=
  List.inj_on_of_nodup_map h.distinct hn hq heq

theorem InOrder.idxOf_lt {n q : Node} (hn : n ∈ nodes) (hq : q ∈ nodes)
    (hparent : n.parent = some q.nid) : nodes.idxOf q < nodes.idxOf n := by
  obtain ⟨p, hp, hnid, hlt⟩ := h.parentsFirst n hn q.nid hparent
  rwa [← h.eq_of_nid hp hq hnid]

/-- Below a node there is nothing but what comes after it. -/
theorem InOrder.make_fuel : ∀ {fuel start} {q : Node}, q ∈ nodes →
    nodes.length ≤ fuel + nodes.idxOf q + 1 →
    make nodes (fuel + 1) (some q.nid) start = make nodes fuel (some q.nid) start
  | 0, _, q, hq, hfuel => by
      have hkids : kidsOf nodes (some q.nid) = [] := by
        refine List.eq_nil_iff_forall_not_mem.mpr fun n hn => ?_
        obtain ⟨hn, hparent⟩ := mem_kidsOf.mp hn
        have hlt := h.idxOf_lt hn hq hparent
        have hlen := List.idxOf_lt_length_of_mem hn
        omega
      simp [make, hkids, withGaps]
  | fuel + 1, start, q, hq, hfuel => by
      rw [make, make]
      refine List.map_congr_left fun e he => ?_
      obtain ⟨hn, hparent⟩ := mem_kidsOf.mp (mem_of_mem_withGaps he)
      have hlt := h.idxOf_lt hn hq hparent
      simp only [InOrder.make_fuel hn (show nodes.length ≤ fuel + nodes.idxOf e.1 + 1 by omega)]

/-- The units of a version in order are complete. -/
theorem InOrder.buildUnits_fuel {fuel : ℕ} (hfuel : nodes.length ≤ fuel) :
    make nodes (fuel + 1) none 0 = make nodes fuel none 0 := by
  cases fuel with
  | zero => simp [List.length_eq_zero_iff.mp (Nat.le_zero.mp hfuel), make, kidsOf, withGaps]
  | succ fuel =>
      rw [make, make]
      refine List.map_congr_left fun e he => ?_
      obtain ⟨hn, _⟩ := mem_kidsOf.mp (mem_of_mem_withGaps he)
      simp only [h.make_fuel hn (show nodes.length ≤ fuel + nodes.idxOf e.1 + 1 by omega)]

end Documents

section Within

/-- A unit and all below it. -/
inductive Within (nodes : List Node) (q : Node) : Node → Prop
  | self : Within nodes q q
  | kid {n r : Node} (hr : Within nodes q r) (hn : n ∈ nodes) (hparent : n.parent = some r.nid) :
      Within nodes q n

variable {nodes : List Node} {n p q : Node}

theorem Within.mem (hq : q ∈ nodes) (hw : Within nodes q n) : n ∈ nodes := by
  induction hw with
  | self => exact hq
  | kid _ hn _ => exact hn

variable (h : InOrder nodes)
include h

theorem Within.idxOf_le (hq : q ∈ nodes) (hw : Within nodes q n) :
    nodes.idxOf q ≤ nodes.idxOf n := by
  induction hw with
  | self => exact le_rfl
  | kid hr hn hparent ih => exact ih.trans (h.idxOf_lt hn (hr.mem hq) hparent).le

/-- Nothing is below two nodes of one parent. -/
theorem Within.unique (hp : p ∈ nodes) (hq : q ∈ nodes) (hparents : p.parent = q.parent)
    (hwp : Within nodes p n) (hwq : Within nodes q n) : p = q := by
  have apart : ∀ {p q r : Node}, p ∈ nodes → q ∈ nodes → p.parent = q.parent →
      Within nodes p r → q.parent = some r.nid → False := by
    intro p q r hp hq hparents hw hparent
    have hlt := h.idxOf_lt hp (hw.mem hp) (hparents.trans hparent)
    have hle := hw.idxOf_le h hp
    omega
  induction hwp with
  | self =>
      cases hwq with
      | self => rfl
      | kid hr hn hparent => exact (apart hq hp hparents.symm hr hparent).elim
  | kid hr hn hparent ih =>
      cases hwq with
      | self => exact (apart hp hq hparents hr hparent).elim
      | kid hr' hn' hparent' =>
          have heq := h.eq_of_nid (hr.mem hp) (hr'.mem hq)
            (Option.some.inj (hparent.symm.trans hparent'))
          exact ih (heq ▸ hr')

end Within

mutual

def Unit.all : Unit → List Unit
  | ⟨nid, kind, name, span, body, gapStart, children⟩ =>
      ⟨nid, kind, name, span, body, gapStart, children⟩ :: alls children

/-- All units of a level and below it. -/
def alls : List Unit → List Unit
  | [] => []
  | u :: rest => u.all ++ alls rest

end

theorem Unit.all_eq (u : Unit) : u.all = u :: alls u.children := by
  cases u
  rw [all]

theorem alls_eq_flatMap (us : List Unit) : alls us = us.flatMap Unit.all := by
  induction us with
  | nil => rfl
  | cons u rest ih => rw [alls, ih, List.flatMap_cons]

theorem mem_alls {u : Unit} {us : List Unit} : u ∈ alls us ↔ ∃ w ∈ us, u ∈ w.all := by
  rw [alls_eq_flatMap, List.mem_flatMap]

def ids (us : List Unit) : List EntityId := (alls us).map Unit.nid

theorem ids_eq_flatMap (us : List Unit) : ids us = us.flatMap fun u => u.nid :: ids u.children := by
  rw [ids, alls_eq_flatMap, List.map_flatMap]
  refine List.flatMap_congr fun u _ => ?_
  rw [u.all_eq, List.map_cons, ids]

section Distinct

variable {nodes : List Node}

theorem within_of_mem_ids : ∀ {fuel parent start nid},
    nid ∈ ids (make nodes fuel parent start) →
      ∃ r ∈ nodes, r.parent = parent ∧ ∃ n, Within nodes r n ∧ n.nid = nid
  | fuel + 1, parent, start, nid, hmem => by
      rw [ids_eq_flatMap, make, List.flatMap_map, List.mem_flatMap] at hmem
      obtain ⟨e, he, hmem⟩ := hmem
      obtain ⟨he, hparent⟩ := mem_kidsOf.mp (mem_of_mem_withGaps he)
      refine ⟨e.1, he, hparent, ?_⟩
      rcases List.mem_cons.mp hmem with rfl | hmem
      · exact ⟨e.1, .self, rfl⟩
      · obtain ⟨r, hr, hparent', n, hw, hnid⟩ := within_of_mem_ids hmem
        refine ⟨n, ?_, hnid⟩
        clear hnid
        induction hw with
        | self => exact .kid .self hr hparent'
        | kid _ hn hp ih => exact .kid ih hn hp

/-- The ids of a node and of the units below it. -/
def idsFrom (nodes : List Node) (fuel start : ℕ) (n : Node) : List EntityId :=
  n.nid :: ids (make nodes fuel (some n.nid) start)

theorem within_of_mem_idsFrom {fuel start : ℕ} {nid : EntityId} {e : Node}
    (hmem : nid ∈ idsFrom nodes fuel start e) : ∃ n, Within nodes e n ∧ n.nid = nid := by
  rcases List.mem_cons.mp hmem with rfl | hmem
  · exact ⟨e, .self, rfl⟩
  · obtain ⟨r, hr, hparent, n, hw, hnid⟩ := within_of_mem_ids hmem
    refine ⟨n, ?_, hnid⟩
    clear hnid
    induction hw with
    | self => exact .kid .self hr hparent
    | kid _ hn hp ih => exact .kid ih hn hp

variable (h : InOrder nodes)
include h

theorem InOrder.nodup_ids_make : ∀ fuel parent start, (ids (make nodes fuel parent start)).Nodup
  | 0, _, _ => List.nodup_nil
  | fuel + 1, parent, start => by
      rw [ids_eq_flatMap, make, List.flatMap_map, List.nodup_flatMap]
      constructor
      · intro e he
        obtain ⟨he, _⟩ := mem_kidsOf.mp (mem_of_mem_withGaps he)
        refine List.nodup_cons.mpr ⟨fun hmem => ?_, InOrder.nodup_ids_make fuel _ _⟩
        obtain ⟨r, hr, hparent, n, hw, hnid⟩ := within_of_mem_ids hmem
        have heq := h.eq_of_nid (hw.mem hr) he hnid
        have hlt := h.idxOf_lt hr he hparent
        have hle := hw.idxOf_le h hr
        rw [heq] at hle
        omega
      · have hpairs : (withGaps start (kidsOf nodes parent)).Pairwise (·.1 ≠ ·.1) := by
          rw [← List.pairwise_map (f := Prod.fst), map_fst_withGaps]
          exact (List.Nodup.of_map _ h.distinct).filter _
        refine hpairs.imp_of_mem fun {p q} hp hq hne => ?_
        obtain ⟨hp, hpparent⟩ := mem_kidsOf.mp (mem_of_mem_withGaps hp)
        obtain ⟨hq, hqparent⟩ := mem_kidsOf.mp (mem_of_mem_withGaps hq)
        intro nid hnp hnq
        obtain ⟨n, hwp, hn⟩ := within_of_mem_idsFrom hnp
        obtain ⟨n', hwq, hn'⟩ := within_of_mem_idsFrom hnq
        have heq := h.eq_of_nid (hwp.mem hp) (hwq.mem hq) (hn.trans hn'.symm)
        exact hne (hwp.unique h hp hq (hpparent.trans hqparent.symm) (heq ▸ hwq))

theorem InOrder.nodup_ids : (ids (buildUnits nodes)).Nodup := h.nodup_ids_make _ _ _

end Distinct

end Tessra.Semantic.Merge
