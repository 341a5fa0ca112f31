import Tessra.Semantic.Identity

namespace Tessra.Semantic

open Tessra.Core

/-! Units that are matched against themselves keep their ids. -/

section Group

theorem foldl_fixed {α σ : Type} {step : σ → α → σ} {s : σ} : ∀ {l : List α},
    (∀ x ∈ l, step s x = s) → l.foldl step s = s
  | [], _ => rfl
  | x :: l, h => by
      rw [List.foldl_cons, h x List.mem_cons_self]
      exact foldl_fixed fun y hy => h y (List.mem_cons_of_mem _ hy)

/-- Members take themselves, in order. -/
theorem matchBodies_self (bodies : List ObjectId) : matchBodies bodies bodies =
    ((List.range bodies.length).reverse, (List.range bodies.length).map some) := by
  have htake : ∀ k, k ≤ bodies.length → matchBodies (bodies.take k) bodies =
      ((List.range k).reverse, (List.range k).map some) := by
    intro k
    induction k with
    | zero => exact fun _ => rfl
    | succ k ih =>
        intro hk
        have hfind : (List.range bodies.length).find? (fun q =>
            q ∉ (List.range k).reverse ∧ bodies[q]? = some bodies[k]) = some k := by
          refine List.find?_range_eq_some.mpr ⟨?_, List.mem_range.mpr hk, fun q hq => ?_⟩
          · simp
          · simp [hq]
        have hstep := ih (by omega)
        rw [matchBodies] at hstep ⊢
        rw [List.take_succ_eq_append_getElem (by omega), List.foldl_append, hstep,
          List.foldl_cons, List.foldl_nil]
        dsimp only
        rw [hfind, List.range_succ]
        simp
  have h := htake bodies.length (Nat.le_refl _)
  rwa [List.take_length] at h

theorem matchGroup_self (bodies : List ObjectId) :
    matchGroup bodies bodies = (List.range bodies.length).map some := by
  rw [matchGroup, matchBodies_self, foldl_fixed]
  intro m hm
  have hslot : ((List.range bodies.length).map some)[m]? = some (some m) := by
    rw [List.getElem?_map, List.getElem?_range (List.mem_range.mp hm)]
    rfl
  simp only [hslot]
  rfl

end Group

section Marks

/-- The units that are matched so far, each with its own id. -/
structure Marks (ids : ℕ → EntityId) (length : ℕ) (s : Matched) (marked : ℕ → Prop) : Prop where
  assigned : ∀ j < length, marked j → s.assigned j = some (ids j)
  free : ∀ j < length, ¬marked j → s.assigned j = none
  used : ∀ nid, nid ∈ s.used ↔ ∃ j < length, marked j ∧ nid = ids j

variable {ids : ℕ → EntityId} {length : ℕ} {s : Matched} {marked : ℕ → Prop}

theorem Marks.take (h : Marks ids length s marked)
    (hids : ∀ i < length, ∀ j < length, ids i = ids j → i = j) {i : ℕ} (hi : i < length) :
    Marks ids length (s.take i (ids i)) fun j => marked j ∨ j = i := by
  by_cases hm : marked i
  · have hsame : ∀ j, (marked j ∨ j = i) ↔ marked j := by
      intro j
      exact ⟨fun hj => hj.elim id fun hj => hj ▸ hm, .inl⟩
    rw [take_of_mem ((h.used _).mpr ⟨i, hi, hm, rfl⟩)]
    simp only [hsame]
    exact h
  · have hfree : ids i ∉ s.used := by
      intro hmem
      obtain ⟨j, hj, hmarked, heq⟩ := (h.used _).mp hmem
      exact hm (hids i hi j hj heq ▸ hmarked)
    rw [take_of_notMem hfree]
    refine ⟨fun j hj hmark => ?_, fun j hj hmark => ?_, fun nid => ?_⟩
    · by_cases heq : j = i
      · rw [heq]
        exact Function.update_self _ _ _
      · exact (Function.update_of_ne heq _ _).trans
          (h.assigned j hj (hmark.resolve_right heq))
    · rw [not_or] at hmark
      exact (Function.update_of_ne hmark.2 _ _).trans (h.free j hj hmark.1)
    · rw [List.mem_cons, h.used]
      constructor
      · rintro (rfl | ⟨j, hj, hmark, rfl⟩)
        · exact ⟨i, hi, .inr rfl, rfl⟩
        · exact ⟨j, hj, .inl hmark, rfl⟩
      · rintro ⟨j, hj, hmark | rfl, rfl⟩
        · exact .inr ⟨j, hj, hmark, rfl⟩
        · exact .inl rfl

theorem Marks.congr {marked' : ℕ → Prop} (h : Marks ids length s marked)
    (heq : ∀ j < length, marked j ↔ marked' j) : Marks ids length s marked' where
  assigned j hj hm := h.assigned j hj ((heq j hj).mpr hm)
  free j hj hm := h.free j hj (mt (heq j hj).mp hm)
  used nid := (h.used nid).trans (exists_congr fun j => and_congr_right fun hj =>
    and_congr (heq j hj) Iff.rfl)

theorem Marks.takeAll (hids : ∀ i < length, ∀ j < length, ids i = ids j → i = j) :
    ∀ {found : List (ℕ × Node)} {s marked}, Marks ids length s marked →
      (∀ f ∈ found, f.1 < length ∧ f.2.nid = ids f.1) →
      Marks ids length (s.takeAll found) fun j => marked j ∨ j ∈ found.map Prod.fst
  | [], s, marked, h, _ => h.congr fun j _ => by simp
  | f :: found, s, marked, h, hown => by
      obtain ⟨hlt, hnid⟩ := hown f List.mem_cons_self
      have hstep := h.take hids hlt
      rw [← hnid] at hstep
      have hrest := hstep.takeAll hids fun g hg => hown g (List.mem_cons_of_mem _ hg)
      refine hrest.congr fun j _ => ?_
      rw [List.map_cons, List.mem_cons, or_assoc]

end Marks

section Passes

/-- The nodes of the units, with these ids. -/
structure Indexes (raw : List RawNode) (ids : ℕ → EntityId) (nodes : List Node) : Prop where
  length_eq : nodes.length = raw.length
  injective : ∀ i < raw.length, ∀ j < raw.length, ids i = ids j → i = j
  node : ∀ i r n, raw[i]? = some r → nodes[i]? = some n → n.nid = ids i ∧ n.kind = r.kind ∧
    n.name = r.name ∧ n.body = r.body ∧ n.parent = r.parent.map ids

/-- Every unit that has children is named. -/
def NamedParents (raw : List RawNode) : Prop :=
  ∀ (i : ℕ) (r r' : RawNode) (p : ℕ), raw[i]? = some r → r.parent = some p →
    raw[p]? = some r' → r'.name ≠ ""

variable {raw : List RawNode} {ids : ℕ → EntityId} {nodes : List Node} {s : Matched}
  {marked : ℕ → Prop} {r : RawNode} {k : ℕ}

/-- A parent that is matched is found by its own id. -/
theorem Marks.parentNid_eq (h : Marks ids raw.length s marked) (hraw : Ordered raw)
    (hr : raw[k]? = some r) (hparent : ∀ p, r.parent = some p → marked p) :
    s.parentNid r = r.parent.map ids := by
  unfold Matched.parentNid
  cases hp : r.parent with
  | none => rfl
  | some p =>
      have hlt := hraw k r hr p hp
      have hk := (List.getElem?_eq_some_iff.mp hr).1
      exact h.assigned p (by omega) (hparent p hp)

/-- Units have the same parent id where they have the same parent. -/
theorem Indexes.parent_eq_iff (h : Indexes raw ids nodes) (hraw : Ordered raw) {r' : RawNode}
    {n : Node} {j : ℕ} (hr : raw[k]? = some r) (hr' : raw[j]? = some r')
    (hn : nodes[j]? = some n) : n.parent = r.parent.map ids ↔ r'.parent = r.parent := by
  rw [(h.node j r' n hr' hn).2.2.2.2]
  have hbound : ∀ {i : ℕ} {r : RawNode} {p : ℕ}, raw[i]? = some r → r.parent = some p →
      p < raw.length := by
    intro i r p hr hp
    have hlt := hraw i r hr p hp
    have hi := (List.getElem?_eq_some_iff.mp hr).1
    omega
  cases hp : r.parent with
  | none => cases r'.parent <;> simp
  | some p =>
      cases hp' : r'.parent with
      | none => simp
      | some p' =>
          simp only [Option.map_some, Option.some.injEq]
          exact ⟨h.injective p' (hbound hr' hp') p (hbound hr hp), congrArg ids⟩

/-- The units of a group, each with its node. -/
def group (raw : List RawNode) (nodes : List Node) (r : RawNode) : List ((RawNode × ℕ) × Node) :=
  (raw.zipIdx.zip nodes).filter fun e => key e.1.1 = key r

theorem mem_zip_nodes {e : (RawNode × ℕ) × Node} (he : e ∈ raw.zipIdx.zip nodes) :
    raw[e.1.2]? = some e.1.1 ∧ nodes[e.1.2]? = some e.2 := by
  obtain ⟨i, hi⟩ := List.mem_iff_getElem?.mp he
  rw [List.getElem?_zip_eq_some, List.getElem?_zipIdx] at hi
  obtain ⟨r', hr', heq⟩ := Option.map_eq_some_iff.mp hi.1
  have hidx : e.1.2 = i := by rw [← heq]; exact Nat.zero_add i
  exact ⟨by rw [hidx, hr', ← heq], by rw [hidx]; exact hi.2⟩

theorem map_fst_group (h : Indexes raw ids nodes) :
    (group raw nodes r).map Prod.fst = raw.zipIdx.filter fun e => key e.1 = key r := by
  have hzip : (raw.zipIdx.zip nodes).map Prod.fst = raw.zipIdx :=
    List.map_fst_zip (by rw [List.length_zipIdx, h.length_eq])
  rw [group]
  conv_rhs => rw [← hzip]
  rw [List.filter_map]
  rfl

theorem map_snd_group (h : Indexes raw ids nodes) (hraw : Ordered raw) (hr : raw[k]? = some r)
    (hname : r.name ≠ "") : (group raw nodes r).map Prod.snd = nodes.filter fun n =>
      n.name ≠ "" ∧ n.parent = r.parent.map ids ∧ n.kind = r.kind ∧ n.name = r.name := by
  have hzip : (raw.zipIdx.zip nodes).map Prod.snd = nodes :=
    List.map_snd_zip (by rw [List.length_zipIdx, h.length_eq])
  rw [group]
  conv_rhs => rw [← hzip]
  rw [List.filter_map]
  refine congrArg _ (List.filter_congr fun e he => decide_eq_decide.mpr ?_)
  obtain ⟨hraw', hnode⟩ := mem_zip_nodes he
  obtain ⟨_, hkind, hname', _, _⟩ := h.node _ _ _ hraw' hnode
  rw [h.parent_eq_iff hraw hr hraw' hnode, hkind, hname', key, key, Prod.mk.injEq, Prod.mk.injEq]
  exact ⟨fun ⟨hp, hk, hn⟩ => ⟨hn ▸ hname, hp, hk, hn⟩, fun ⟨_, hrest⟩ => hrest⟩

theorem filterMap_zip_range {α β γ : Type} (l : List (α × β)) (place : α → γ) :
    (((l.map Prod.fst).zip ((List.range l.length).map some)).filterMap fun m =>
      (m.2.bind ((l.map Prod.snd)[·]?)).map (place m.1, ·)) =
      l.map fun e => (place e.1, e.2) := by
  have hzip : (l.map Prod.fst).zip ((List.range l.length).map some) =
      l.zipIdx.map fun e => (e.1.1, some e.2) := by
    rw [List.zip_map, List.zipIdx_eq_zip_range', ← List.range_eq_range']
    rfl
  rw [hzip, List.filterMap_map]
  have hsome : ∀ e ∈ l.zipIdx, ((fun m : α × Option ℕ =>
      (m.2.bind ((l.map Prod.snd)[·]?)).map (place m.1, ·)) ∘
        fun e : (α × β) × ℕ => (e.1.1, some e.2)) e = some (place e.1.1, e.1.2) := by
    intro e he
    have hget := List.mem_zipIdx_iff_getElem?.mp he
    simp [hget]
  rw [List.filterMap_congr hsome, List.filterMap_eq_map']
  conv_rhs => rw [← List.zipIdx_map_fst 0 l, List.map_map]
  rfl

/-- The group of a unit finds itself. -/
theorem byName_self (h : Indexes raw ids nodes) (hraw : Ordered raw) (hr : raw[k]? = some r)
    (hname : r.name ≠ "") (hfirst : (raw.take k).any (key · = key r) = false)
    (hparent : s.parentNid r = r.parent.map ids) :
    byName raw nodes s (r, k) = (group raw nodes r).map fun e => (e.1.2, e.2) := by
  have hmembers : ((raw.zipIdx.drop k).filter fun e => key e.1 = key r) =
      (group raw nodes r).map Prod.fst := by
    have hnone : (raw.zipIdx.take k).filter (fun e => key e.1 = key r) = [] := by
      refine List.filter_eq_nil_iff.mpr fun e he hkey => ?_
      have hmem : e.1 ∈ raw.take k := by
        rw [← List.zipIdx_map_fst 0 raw, ← List.map_take]
        exact List.mem_map_of_mem he
      rw [List.any_eq_false] at hfirst
      exact hfirst e.1 hmem hkey
    rw [map_fst_group h]
    conv_rhs => rw [← List.take_append_drop k raw.zipIdx, List.filter_append, hnone]
    rfl
  have hprevs : (nodes.filter fun n =>
      n.name ≠ "" ∧ n.parent = s.parentNid r ∧ n.kind = r.kind ∧ n.name = r.name) =
      (group raw nodes r).map Prod.snd := by
    rw [map_snd_group h hraw hr hname, hparent]
  have hbodies : ((group raw nodes r).map Prod.fst).map (·.1.body) =
      ((group raw nodes r).map Prod.snd).map Node.body := by
    rw [List.map_map, List.map_map]
    refine List.map_congr_left fun e he => ?_
    obtain ⟨hraw', hnode⟩ := mem_zip_nodes (List.mem_filter.mp he).1
    exact (h.node _ _ _ hraw' hnode).2.2.2.1.symm
  have hskip : ¬(r.name = "" ∨ (raw.take k).any (key · = key r) = true) := by
    rw [not_or, hfirst]
    exact ⟨hname, nofun⟩
  unfold byName
  dsimp only
  rw [if_neg hskip, hmembers, hprevs, hbodies, matchGroup_self, List.length_map, List.length_map]
  exact filterMap_zip_range (group raw nodes r) Prod.snd

/-- What each unit in turn preserves, a run over all units does. -/
theorem foldl_zipIdx {σ : Type} {step : σ → RawNode × ℕ → σ} (I : ℕ → σ → Prop)
    (hstep : ∀ k r s, raw[k]? = some r → I k s → I (k + 1) (step s (r, k))) :
    ∀ {l : List RawNode} {k : ℕ} {s : σ}, raw.drop k = l → I k s →
      I (k + l.length) ((l.zipIdx k).foldl step s)
  | [], k, s, _, h => h
  | r :: l, k, s, hl, h => by
      have hr : raw[k]? = some r := by
        rw [← List.head?_drop, hl, List.head?_cons]
      have hrest : raw.drop (k + 1) = l := by
        rw [← List.drop_drop, hl, List.drop_one, List.tail_cons]
      have hnext := foldl_zipIdx I hstep hrest (hstep k r s hr h)
      rw [List.zipIdx_cons, List.foldl_cons, List.length_cons,
        show k + (l.length + 1) = k + 1 + l.length by omega]
      exact hnext

theorem pass_induct {found : Matched → RawNode × ℕ → List (ℕ × Node)} (I : ℕ → Matched → Prop)
    (hstep : ∀ k r s, raw[k]? = some r → I k s → I (k + 1) (s.takeAll (found s (r, k))))
    (h : I 0 s) : I raw.length (pass raw found s) := by
  have hrun : I (0 + raw.length)
      ((raw.zipIdx 0).foldl (fun s e => s.takeAll (found s e)) s) :=
    foldl_zipIdx I hstep List.drop_zero h
  rwa [Nat.zero_add] at hrun

/-- The named units of the groups that begin before a place. -/
def GroupedBefore (raw : List RawNode) (k j : ℕ) : Prop :=
  ∃ r r' i, raw[j]? = some r ∧ r.name ≠ "" ∧ raw[i]? = some r' ∧ i < k ∧ key r' = key r

theorem mem_group {j : ℕ} (h : Indexes raw ids nodes) :
    j ∈ ((group raw nodes r).map fun e => (e.1.2, e.2)).map Prod.fst ↔
      ∃ r', raw[j]? = some r' ∧ key r' = key r := by
  have hlist : ((group raw nodes r).map fun e => (e.1.2, e.2)).map Prod.fst =
      ((group raw nodes r).map Prod.fst).map Prod.snd := by
    rw [List.map_map, List.map_map]
    rfl
  rw [hlist, map_fst_group h, List.mem_map]
  constructor
  · rintro ⟨e, he, rfl⟩
    obtain ⟨hmem, hkey⟩ := List.mem_filter.mp he
    exact ⟨e.1, List.mem_zipIdx_iff_getElem?.mp hmem, of_decide_eq_true hkey⟩
  · rintro ⟨r', hr', hkey⟩
    exact ⟨(r', j), List.mem_filter.mpr
      ⟨List.mem_zipIdx_iff_getElem?.mpr hr', decide_eq_true hkey⟩, rfl⟩

theorem marks_byName (h : Indexes raw ids nodes) (hraw : Ordered raw) (hnamed : NamedParents raw)
    (hr : raw[k]? = some r) (hs : Marks ids raw.length s (GroupedBefore raw k)) :
    Marks ids raw.length (s.takeAll (byName raw nodes s (r, k))) (GroupedBefore raw (k + 1)) := by
  by_cases hskip : r.name = "" ∨ (raw.take k).any (key · = key r) = true
  · have hnil : byName raw nodes s (r, k) = [] := if_pos hskip
    rw [hnil]
    refine hs.congr fun j _ => ⟨?_, ?_⟩
    · rintro ⟨r₁, r₂, i, hr₁, hname, hr₂, hlt, hkey⟩
      exact ⟨r₁, r₂, i, hr₁, hname, hr₂, by omega, hkey⟩
    · rintro ⟨r₁, r₂, i, hr₁, hname, hr₂, hlt, hkey⟩
      by_cases hik : i = k
      · subst hik
        obtain rfl := Option.some.inj (hr.symm.trans hr₂)
        rcases hskip with hempty | hany
        · have hsame : r.name = r₁.name := congrArg (fun k => k.2.2) hkey
          exact absurd (hsame.symm.trans hempty) hname
        · obtain ⟨r₃, hr₃, hkey'⟩ := List.any_eq_true.mp hany
          obtain ⟨i', hi', hget⟩ := List.mem_take_iff_getElem.mp hr₃
          refine ⟨r₁, r₃, i', hr₁, hname, ?_, by omega,
            (of_decide_eq_true hkey').trans hkey⟩
          rw [← hget]
          exact List.getElem?_eq_getElem (by omega)
      · exact ⟨r₁, r₂, i, hr₁, hname, hr₂, by omega, hkey⟩
  · rw [not_or, Bool.not_eq_true] at hskip
    have hparent : s.parentNid r = r.parent.map ids := by
      refine hs.parentNid_eq hraw hr fun p hp => ?_
      have hlt := hraw k r hr p hp
      have hk := (List.getElem?_eq_some_iff.mp hr).1
      have hget : raw[p]? = some raw[p] := List.getElem?_eq_getElem (by omega)
      exact ⟨raw[p], raw[p], p, hget, hnamed k r raw[p] p hr hp hget, hget, hlt, rfl⟩
    rw [byName_self h hraw hr hskip.1 hskip.2 hparent]
    refine (hs.takeAll h.injective fun f hf => ?_).congr fun j _ => ?_
    · obtain ⟨e, he, rfl⟩ := List.mem_map.mp hf
      obtain ⟨hraw', hnode⟩ := mem_zip_nodes (List.mem_filter.mp he).1
      exact ⟨(List.getElem?_eq_some_iff.mp hraw').1, (h.node _ _ _ hraw' hnode).1⟩
    · rw [mem_group h]
      constructor
      · rintro (⟨r₁, r₂, i, hr₁, hname, hr₂, hlt, hkey⟩ | ⟨r₁, hr₁, hkey⟩)
        · exact ⟨r₁, r₂, i, hr₁, hname, hr₂, by omega, hkey⟩
        · have hsame : r₁.name = r.name := congrArg (fun k => k.2.2) hkey
          exact ⟨r₁, r, k, hr₁, hsame ▸ hskip.1, hr, by omega, hkey.symm⟩
      · rintro ⟨r₁, r₂, i, hr₁, hname, hr₂, hlt, hkey⟩
        by_cases hik : i = k
        · subst hik
          obtain rfl := Option.some.inj (hr.symm.trans hr₂)
          exact .inr ⟨r₁, hr₁, hkey.symm⟩
        · exact .inl ⟨r₁, r₂, i, hr₁, hname, hr₂, by omega, hkey⟩

/-- The named units, and the units before a place. -/
def NamedOrBefore (raw : List RawNode) (k j : ℕ) : Prop :=
  j < k ∨ ∃ r, raw[j]? = some r ∧ r.name ≠ ""

theorem marks_byBody (h : Indexes raw ids nodes) (hraw : Ordered raw) (hnamed : NamedParents raw)
    (hr : raw[k]? = some r) (hs : Marks ids raw.length s (NamedOrBefore raw k)) :
    Marks ids raw.length (s.takeAll (byBody nodes s (r, k))) (NamedOrBefore raw (k + 1)) := by
  have hk := (List.getElem?_eq_some_iff.mp hr).1
  have hsucc : ∀ j, NamedOrBefore raw (k + 1) j ↔ NamedOrBefore raw k j ∨ j = k := by
    intro j
    unfold NamedOrBefore
    rw [Nat.lt_succ_iff_lt_or_eq, or_assoc, or_assoc]
    exact or_congr Iff.rfl or_comm
  by_cases hname : r.name = ""
  · have hfree : ¬NamedOrBefore raw k k := by
      rintro (hlt | ⟨r', hr', hname'⟩)
      · omega
      · obtain rfl := Option.some.inj (hr.symm.trans hr')
        exact hname' hname
    obtain ⟨n, hn⟩ : ∃ n, nodes[k]? = some n :=
      ⟨_, List.getElem?_eq_getElem (by rw [h.length_eq]; exact hk)⟩
    obtain ⟨hnid, hkind, _, hbody, hparent⟩ := h.node k r n hr hn
    have hparents : s.parentNid r = r.parent.map ids := by
      refine hs.parentNid_eq hraw hr fun p hp => .inr ?_
      have hlt := hraw k r hr p hp
      have hget : raw[p]? = some raw[p] := List.getElem?_eq_getElem (by omega)
      exact ⟨raw[p], hget, hnamed k r raw[p] p hr hp hget⟩
    have hunused : n.nid ∉ s.used := by
      intro hmem
      obtain ⟨j, hj, hmarked, heq⟩ := (hs.used _).mp hmem
      exact hfree (h.injective k hk j hj (hnid.symm.trans heq) ▸ hmarked)
    have hfind : (nodes.find? fun n => n.parent = s.parentNid r ∧ n.kind = r.kind ∧
        n.body = r.body ∧ n.nid ∉ s.used) = some n := by
      refine List.find?_eq_some_iff_getElem.mpr ⟨decide_eq_true
        ⟨hparent.trans hparents.symm, hkind, hbody, hunused⟩, k, ?_, ?_, fun j hj => ?_⟩
      · rw [h.length_eq]
        exact hk
      · exact (List.getElem?_eq_some_iff.mp hn).2
      · rw [Bool.not_eq_true', decide_eq_false_iff_not]
        rintro ⟨-, -, -, hfresh⟩
        have hget : raw[j]? = some raw[j] := List.getElem?_eq_getElem (by omega)
        have hown := (h.node j _ _ hget (List.getElem?_eq_getElem (by rw [h.length_eq]; omega))).1
        exact hfresh ((hs.used _).mpr ⟨j, by omega, .inl hj, hown⟩)
    have hfound : byBody nodes s (r, k) = [(k, n)] := by
      unfold byBody
      dsimp only
      rw [if_neg (by rw [hs.free k hk hfree]; exact nofun), hfind]
      rfl
    rw [hfound]
    refine (hs.takeAll h.injective fun f hf => ?_).congr fun j _ => ?_
    · obtain rfl := List.mem_singleton.mp hf
      exact ⟨hk, hnid⟩
    · rw [hsucc, List.map_cons, List.map_nil, List.mem_singleton]
  · have hmarked : NamedOrBefore raw k k := .inr ⟨r, hr, hname⟩
    have hnil : byBody nodes s (r, k) = [] := if_pos (by rw [hs.assigned k hk hmarked]; rfl)
    rw [hnil]
    exact hs.congr fun j _ => (hsucc j).trans (or_iff_left_of_imp fun hj => hj ▸ hmarked) |>.symm

theorem positionStep_matched {anchors : ℕ → Option ℕ} {t : Matched × ℕ} {e : RawNode × ℕ}
    (h : (t.1.assigned e.2).isSome = true) : positionStep raw nodes anchors t e = t := by
  have hnone : byPosition raw nodes anchors t e = none := if_pos (.inl h)
  rw [positionStep, hnone]

theorem bySimilarity_matched {shingles : EntityId → Option (List ℕ)} {e : RawNode × ℕ}
    (h : (s.assigned e.2).isSome = true) : bySimilarity nodes shingles s e = [] :=
  if_pos (.inl h)

/-- The passes give every unit the id it had. -/
theorem matching_self (h : Indexes raw ids nodes) (hraw : Ordered raw) (hnamed : NamedParents raw)
    (extract : String → Bytes → List RawNode) (path : String) :
    ∀ i < raw.length, (matching raw nodes extract path none).assigned i = some (ids i) := by
  have hstart : Marks ids raw.length start (GroupedBefore raw 0) := by
    refine ⟨fun j _ hj => ?_, fun j _ _ => rfl, fun nid => ?_⟩
    · obtain ⟨_, _, i, _, _, _, hlt, _⟩ := hj
      omega
    · refine ⟨fun hmem => absurd hmem List.not_mem_nil, ?_⟩
      rintro ⟨j, _, ⟨_, _, i, _, _, _, hlt, _⟩, _⟩
      omega
  have hbyName : Marks ids raw.length (pass raw (byName raw nodes) start)
      (GroupedBefore raw raw.length) :=
    pass_induct (fun k s => Marks ids raw.length s (GroupedBefore raw k))
      (fun k r s hr hs => marks_byName h hraw hnamed hr hs) hstart
  have hnames : ∀ j < raw.length, GroupedBefore raw raw.length j ↔ NamedOrBefore raw 0 j := by
    intro j hj
    constructor
    · rintro ⟨r, _, _, hr, hname, _⟩
      exact .inr ⟨r, hr, hname⟩
    · rintro (hlt | ⟨r, hr, hname⟩)
      · omega
      · exact ⟨r, r, j, hr, hname, hr, hj, rfl⟩
  have hbyBody : Marks ids raw.length
      (pass raw (byBody nodes) (pass raw (byName raw nodes) start))
      (NamedOrBefore raw raw.length) :=
    pass_induct (fun k s => Marks ids raw.length s (NamedOrBefore raw k))
      (fun k r s hr hs => marks_byBody h hraw hnamed hr hs) (hbyName.congr hnames)
  intro i hi
  have hassigned : ∀ e ∈ raw.zipIdx, ((pass raw (byBody nodes)
      (pass raw (byName raw nodes) start)).assigned e.2).isSome = true := by
    intro e he
    have hlt := (List.getElem?_eq_some_iff.mp (List.mem_zipIdx_iff_getElem?.mp he)).1
    rw [hbyBody.assigned e.2 hlt (.inl hlt)]
    rfl
  have hposition : positionPass raw nodes (pass raw (byBody nodes)
      (pass raw (byName raw nodes) start)) = pass raw (byBody nodes)
        (pass raw (byName raw nodes) start) := by
    rw [positionPass, foldl_fixed fun e he => positionStep_matched (hassigned e he)]
  rw [matching, hposition, pass, foldl_fixed]
  · exact hbyBody.assigned i hi (.inl hi)
  · intro e he
    rw [bySimilarity_matched (hassigned e he)]
    rfl

end Passes

section Owned

/-- No two units have one id, and the ids are the previous version's. -/
structure Owned (previous : List Node) (s : Matched) : Prop where
  mem_used : ∀ {i nid}, s.assigned i = some nid → nid ∈ s.used
  injective : ∀ {i j nid}, s.assigned i = some nid → s.assigned j = some nid → i = j
  mem_previous : ∀ {nid}, nid ∈ s.used → nid ∈ previous.map Node.nid

variable {raw : List RawNode} {previous : List Node} {s : Matched}

theorem owned_start : Owned previous start where
  mem_used h := by cases h
  injective h _ := by cases h
  mem_previous h := absurd h List.not_mem_nil

theorem Owned.take (h : Owned previous s) {n : Node} (hn : n ∈ previous) (i : ℕ) :
    Owned previous (s.take i n.nid) := by
  by_cases hused : n.nid ∈ s.used
  · rwa [take_of_mem hused]
  · have hcases : ∀ {j nid}, (s.take i n.nid).assigned j = some nid →
        j = i ∧ nid = n.nid ∨ s.assigned j = some nid := by
      intro j nid hj
      by_cases heq : j = i
      · rw [take_of_notMem hused, heq] at hj
        simp only [Function.update_self, Option.some.injEq] at hj
        exact .inl ⟨heq, hj.symm⟩
      · rw [assigned_take_of_ne heq] at hj
        exact .inr hj
    refine ⟨fun hj => ?_, fun hj hj' => ?_, fun hmem => ?_⟩
    · rw [take_of_notMem hused]
      rcases hcases hj with ⟨-, rfl⟩ | hj
      · exact List.mem_cons_self
      · exact List.mem_cons_of_mem _ (h.mem_used hj)
    · rcases hcases hj with ⟨rfl, rfl⟩ | hold <;> rcases hcases hj' with ⟨rfl, heq⟩ | hold'
      · rfl
      · exact absurd (h.mem_used hold') hused
      · exact absurd (heq ▸ h.mem_used hold) hused
      · exact h.injective hold hold'
    · rw [take_of_notMem hused] at hmem
      rcases List.mem_cons.mp hmem with rfl | hmem
      · exact List.mem_map_of_mem hn
      · exact h.mem_previous hmem

theorem Owned.takeAll : ∀ {found : List (ℕ × Node)} {s}, Owned previous s →
    (∀ f ∈ found, f.2 ∈ previous) → Owned previous (s.takeAll found)
  | [], _, h, _ => h
  | f :: found, s, h, hmem => by
      have hstep := h.take (hmem f List.mem_cons_self) f.1
      exact hstep.takeAll fun g hg => hmem g (List.mem_cons_of_mem _ hg)

theorem owned_pass {found : Matched → RawNode × ℕ → List (ℕ × Node)} (h : Owned previous s)
    (hfound : ∀ s r i, raw[i]? = some r → ∀ f ∈ found s (r, i), f.2 ∈ previous) :
    Owned previous (pass raw found s) :=
  pass_induct (fun _ s => Owned previous s)
    (fun k r s hr hs => hs.takeAll (hfound s r k hr)) h

theorem owned_positionPass (hraw : Ordered raw) (h : Owned previous s) :
    Owned previous (positionPass raw previous s) := by
  refine foldl_zipIdx (fun _ (t : Matched × ℕ) => Owned previous t.1) (fun k r t hr ht => ?_)
    List.drop_zero h
  rw [view_positionStep]
  exact ht.takeAll fun f hf => ((fitAll_foundAt hraw hr).fits f hf).mem

/-- Whatever the previous version is, no two units are matched to one id. -/
theorem owned_matching (hraw : Ordered raw) (extract : String → Bytes → List RawNode)
    (path : String) (source : Option Bytes) :
    Owned previous (matching raw previous extract path source) := by
  refine owned_pass (owned_positionPass hraw (owned_pass (owned_pass owned_start ?_) ?_)) ?_
  · exact fun s r i hr f hf => (mem_byName hf).2.2.1
  · exact fun s r i hr f hf => ((fitAll_byBody hraw hr).fits f hf).mem
  · exact fun s r i hr f hf => ((fitAll_bySimilarity hraw hr _).fits f hf).mem

end Owned

section Reindexed

variable {raw : List RawNode} {previous : List Node} {extract : String → Bytes → List RawNode}
  {fresh : ℕ → EntityId} {path : String}

/-- The id of the unit at a place. -/
def idAt (raw : List RawNode) (previous : List Node) (extract : String → Bytes → List RawNode)
    (fresh : ℕ → EntityId) (path : String) (i : ℕ) : EntityId :=
  ((matching raw previous extract path none).assigned i).getD (fresh i)

theorem idAt_inj (hraw : Ordered raw) (hfresh : Fresh raw previous fresh) :
    ∀ i < raw.length, ∀ j < raw.length,
      idAt raw previous extract fresh path i = idAt raw previous extract fresh path j → i = j := by
  have howned : Owned previous (matching raw previous extract path none) :=
    owned_matching hraw extract path none
  intro i hi j hj heq
  unfold idAt at heq
  cases hsi : (matching raw previous extract path none).assigned i with
  | some nid =>
      have hprev := howned.mem_previous (howned.mem_used hsi)
      cases hsj : (matching raw previous extract path none).assigned j with
      | some nid' =>
          rw [hsi, hsj] at heq
          exact howned.injective hsi (hsj.trans (congrArg some heq.symm))
      | none =>
          rw [hsi, hsj, Option.getD_some, Option.getD_none] at heq
          exact absurd (heq ▸ hprev) (hfresh.unused j hj)
  | none =>
      cases hsj : (matching raw previous extract path none).assigned j with
      | some nid' =>
          have hprev := howned.mem_previous (howned.mem_used hsj)
          rw [hsi, hsj, Option.getD_some, Option.getD_none] at heq
          exact absurd (heq.symm ▸ hprev) (hfresh.unused i hi)
      | none =>
          rw [hsi, hsj] at heq
          exact hfresh.injective i hi j hj heq

theorem indexes_assignIds (hraw : Ordered raw) (hfresh : Fresh raw previous fresh) :
    Indexes raw (idAt raw previous extract fresh path)
      (assignIds raw previous extract fresh path) := by
  refine ⟨by simp [assignIds, assignIdsWithRefs, assignOnly], idAt_inj hraw hfresh, ?_⟩
  intro i r n hr hn
  obtain ⟨m, deps, hm, rfl⟩ : ∃ m deps,
      (assignOnly raw previous extract fresh path none)[i]? = some m ∧
        n = { m with deps := deps } := by
    rw [assignIds, assignIdsWithRefs, List.map_map, List.getElem?_map] at hn
    obtain ⟨⟨m, r'⟩, hzip, rfl⟩ := Option.map_eq_some_iff.mp hn
    exact ⟨m, _, (List.getElem?_zip_eq_some.mp hzip).1, rfl⟩
  rw [assignOnly, List.getElem?_map, List.getElem?_zipIdx, hr, Nat.zero_add] at hm
  cases hm
  exact ⟨rfl, rfl, rfl, rfl, rfl⟩

/-- Matching units against what they were matched to changes no id. -/
theorem reindexed (hraw : Ordered raw) (hnamed : NamedParents raw)
    (hfresh : Fresh raw previous fresh) (later : ℕ → EntityId) :
    (assignIds raw (assignIds raw previous extract fresh path) extract later path).map Node.nid =
      (assignIds raw previous extract fresh path).map Node.nid := by
  have hindexes : Indexes raw (idAt raw previous extract fresh path)
      (assignIds raw previous extract fresh path) := indexes_assignIds hraw hfresh
  have hself := matching_self hindexes hraw hnamed extract path
  have hnids : ∀ (prev : List Node) (fresh : ℕ → EntityId),
      (assignIds raw prev extract fresh path).map Node.nid =
        raw.zipIdx.map fun e => idAt raw prev extract fresh path e.2 := by
    intro prev fresh
    have hsame : (assignIds raw prev extract fresh path).map identity =
        (assignOnly raw prev extract fresh path none).map identity := identity_withRefs
    have hfst := congrArg (List.map Prod.fst) hsame
    rw [List.map_map, List.map_map] at hfst
    refine hfst.trans ?_
    rw [assignOnly, List.map_map]
    rfl
  rw [hnids, hnids]
  refine List.map_congr_left fun e he => ?_
  have hlt := (List.getElem?_eq_some_iff.mp (List.mem_zipIdx_iff_getElem?.mp he)).1
  rw [idAt, hself e.2 hlt, Option.getD_some]

end Reindexed

section Sample

theorem namedParents_nested : NamedParents nested := by
  intro i r r' p hr hp hr'
  rcases i with _ | _ | _ | i
  · cases hr
    cases hp
  · cases hr
    cases hp
    cases hr'
    decide
  · cases hr
    cases hp
  · cases hr

theorem reindexed_nested :
    (assignIds nested (assignIds nested topLevel (fun _ _ => []) freshId "a.py")
      (fun _ _ => []) freshId "a.py").map Node.nid =
      (assignIds nested topLevel (fun _ _ => []) freshId "a.py").map Node.nid :=
  reindexed ordered_nested namedParents_nested ⟨by decide +kernel, by decide +kernel⟩ freshId

end Sample

end Tessra.Semantic
