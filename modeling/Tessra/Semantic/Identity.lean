import Tessra.Semantic.Matching

namespace Tessra.Semantic

open Tessra.Core Tessra.Data

/-! What the passes match: no id twice, units of one kind, and parents that have
the ids of the previous parents, unless a unit is matched before its parent is. -/

section Taking

variable (raw : List RawNode) (previous : List Node)

/-- The unit has a parent that has no id yet, and is looked up as if it had none. -/
def Orphan (s : Matched) (r : RawNode) : Prop := r.parent ≠ none ∧ s.parentNid r = none

/-- What the passes keep. -/
structure Sits (s : Matched) : Prop where
  mem_used : ∀ {i nid}, s.assigned i = some nid → nid ∈ s.used
  injective : ∀ {i j nid}, s.assigned i = some nid → s.assigned j = some nid → i = j
  matched : ∀ {i nid}, s.assigned i = some nid → ∃ r n, raw[i]? = some r ∧ n ∈ previous ∧
    n.nid = nid ∧ n.kind = r.kind ∧ (n.parent = none ∨ n.parent = s.parentNid r)

/-- A unit with a parent has the id of a previous unit without one. -/
def Stray (s : Matched) : Prop :=
  ∃ i r n, raw[i]? = some r ∧ n ∈ previous ∧ s.assigned i = some n.nid ∧ r.parent ≠ none ∧
    n.parent = none

/-- The unit may take the id: the kinds are the same, and the parent that it was
looked up under is that of the previous unit. -/
structure Fits (s : Matched) (parent : Option ℕ) (f : ℕ × Node) : Prop where
  free : s.assigned f.1 = none
  mem : f.2 ∈ previous
  unit : ∃ r, raw[f.1]? = some r ∧ r.parent = parent ∧ f.2.kind = r.kind
  parent_eq : f.2.parent = parent.bind s.assigned

variable {raw previous} {s : Matched} {i : ℕ} {nid : EntityId} {parent : Option ℕ}
  {f : ℕ × Node} {found : List (ℕ × Node)}

theorem take_of_mem (h : nid ∈ s.used) : s.take i nid = s := if_pos h

theorem take_of_notMem (h : nid ∉ s.used) :
    s.take i nid = ⟨nid :: s.used, Function.update s.assigned i (some nid)⟩ := if_neg h

theorem assigned_take_of_ne {j : ℕ} (h : j ≠ i) : (s.take i nid).assigned j = s.assigned j := by
  unfold Matched.take
  split_ifs
  · rfl
  · exact Function.update_of_ne h _ _

theorem assigned_take_of_some {j : ℕ} {nid' : EntityId} (hfree : s.assigned i = none)
    (h : s.assigned j = some nid') : (s.take i nid).assigned j = some nid' := by
  have hne : j ≠ i := by
    rintro rfl
    rw [hfree] at h
    cases h
  rw [assigned_take_of_ne hne, h]

/-- An id that the parent had, it keeps. -/
theorem bind_take (hfree : s.assigned i = none) (parent : Option ℕ) :
    parent.bind s.assigned = none ∨
      parent.bind s.assigned = parent.bind (s.take i nid).assigned := by
  cases parent with
  | none => exact .inl rfl
  | some p =>
      rw [Option.bind_some, Option.bind_some]
      cases hp : s.assigned p with
      | none => exact .inl rfl
      | some nid => exact .inr (assigned_take_of_some hfree hp).symm

theorem Sits.take (hs : Sits raw previous s) (hf : Fits raw previous s parent f) :
    Sits raw previous (s.take f.1 f.2.nid) := by
  by_cases hused : f.2.nid ∈ s.used
  · rwa [take_of_mem hused]
  · have hcases : ∀ {j nid}, (s.take f.1 f.2.nid).assigned j = some nid →
        j = f.1 ∧ nid = f.2.nid ∨ s.assigned j = some nid := by
      intro j nid h
      by_cases hj : j = f.1
      · rw [take_of_notMem hused] at h
        rw [hj] at h
        simp only [Function.update_self, Option.some.injEq] at h
        exact .inl ⟨hj, h.symm⟩
      · rw [assigned_take_of_ne hj] at h
        exact .inr h
    refine ⟨fun h => ?_, fun h h' => ?_, fun h => ?_⟩
    · rw [take_of_notMem hused]
      rcases hcases h with ⟨-, rfl⟩ | h
      · exact List.mem_cons_self
      · exact List.mem_cons_of_mem _ (hs.mem_used h)
    · rcases hcases h with ⟨rfl, rfl⟩ | h <;> rcases hcases h' with ⟨rfl, heq⟩ | h'
      · rfl
      · exact absurd (hs.mem_used h') hused
      · exact absurd (heq ▸ hs.mem_used h) hused
      · exact hs.injective h h'
    · rcases hcases h with ⟨rfl, rfl⟩ | h
      · obtain ⟨r, hr, hparent, hkind⟩ := hf.unit
        refine ⟨r, f.2, hr, hf.mem, rfl, hkind, ?_⟩
        rw [hf.parent_eq, Matched.parentNid, hparent]
        exact bind_take hf.free parent
      · obtain ⟨r, n, hr, hn, hnid, hkind, hparent⟩ := hs.matched h
        refine ⟨r, n, hr, hn, hnid, hkind, ?_⟩
        rcases hparent with hnone | hparent
        · exact .inl hnone
        · rw [hparent]
          exact bind_take hf.free r.parent

/-- A unit goes astray where its parent is not matched yet. -/
theorem stray_take_iff (hnodup : (previous.map Node.nid).Nodup)
    (hf : Fits raw previous s parent f) : Stray raw previous (s.take f.1 f.2.nid) ↔
      Stray raw previous s ∨
        (parent ≠ none ∧ parent.bind s.assigned = none) ∧ f.2.nid ∉ s.used := by
  by_cases hused : f.2.nid ∈ s.used
  · simp [take_of_mem hused, hused]
  · constructor
    · rintro ⟨j, r, n, hr, hn, hassigned, hparent, hnone⟩
      by_cases hj : j = f.1
      · subst hj
        rw [take_of_notMem hused] at hassigned
        simp only [Function.update_self, Option.some.injEq] at hassigned
        obtain rfl := List.inj_on_of_nodup_map hnodup hf.mem hn hassigned
        obtain ⟨r', hr', rfl, -⟩ := hf.unit
        obtain rfl := Option.some.inj (hr.symm.trans hr')
        exact .inr ⟨⟨hparent, hf.parent_eq ▸ hnone⟩, hused⟩
      · rw [assigned_take_of_ne hj] at hassigned
        exact .inl ⟨j, r, n, hr, hn, hassigned, hparent, hnone⟩
    · rintro (⟨j, r, n, hr, hn, hassigned, hparent, hnone⟩ | ⟨⟨hparent, hnone⟩, -⟩)
      · exact ⟨j, r, n, hr, hn, assigned_take_of_some hf.free hassigned, hparent, hnone⟩
      · obtain ⟨r, hr, rfl, -⟩ := hf.unit
        refine ⟨f.1, r, f.2, hr, hf.mem, ?_, hparent, hf.parent_eq.trans hnone⟩
        rw [take_of_notMem hused]
        simp

/-- Several units with one parent. -/
structure FitAll (raw : List RawNode) (previous : List Node) (s : Matched) (parent : Option ℕ)
    (found : List (ℕ × Node)) : Prop where
  nodup : (found.map Prod.fst).Nodup
  fits : ∀ f ∈ found, Fits raw previous s parent f
  apart : ∀ p, parent = some p → p ∉ found.map Prod.fst

theorem FitAll.bind_eq (h : FitAll raw previous s parent (f :: found)) :
    parent.bind (s.take f.1 f.2.nid).assigned = parent.bind s.assigned := by
  cases hparent : parent with
  | none => rfl
  | some p =>
      have hp := h.apart p hparent
      rw [List.map_cons, List.mem_cons, not_or] at hp
      exact assigned_take_of_ne hp.1

theorem FitAll.tail (h : FitAll raw previous s parent (f :: found)) :
    FitAll raw previous (s.take f.1 f.2.nid) parent found := by
  obtain ⟨hhead, htail⟩ := List.nodup_cons.mp h.nodup
  refine ⟨htail, fun f' hf' => ?_, fun p hp hmem => h.apart p hp (List.mem_cons_of_mem _ hmem)⟩
  have hfits := h.fits f' (List.mem_cons_of_mem f hf')
  have hne : f'.1 ≠ f.1 := fun heq => hhead (heq ▸ List.mem_map_of_mem hf')
  exact ⟨(assigned_take_of_ne hne).trans hfits.free, hfits.mem, hfits.unit,
    hfits.parent_eq.trans h.bind_eq.symm⟩

theorem FitAll.takeAll (hnodup : (previous.map Node.nid).Nodup)
    (h : FitAll raw previous s parent found) (hs : Sits raw previous s) :
    Sits raw previous (s.takeAll found) ∧ (Stray raw previous (s.takeAll found) ↔
      Stray raw previous s ∨ (parent ≠ none ∧ parent.bind s.assigned = none) ∧
        ∃ f ∈ found, f.2.nid ∉ s.used) := by
  induction found generalizing s with
  | nil => exact ⟨hs, by simp [Matched.takeAll]⟩
  | cons f found ih =>
      have hfits := h.fits f List.mem_cons_self
      obtain ⟨hsits, hstray⟩ := ih h.tail (hs.take hfits)
      refine ⟨hsits, hstray.trans ?_⟩
      rw [stray_take_iff hnodup hfits]
      by_cases hused : f.2.nid ∈ s.used
      · simp [take_of_mem hused, hused]
      · rw [h.bind_eq]
        simp only [hused, not_false_eq_true, and_true, List.mem_cons, exists_eq_or_imp, true_or]
        tauto

theorem mem_of_assigned_takeAll {j : ℕ} (h : (s.takeAll found).assigned j ≠ none) :
    s.assigned j ≠ none ∨ j ∈ found.map Prod.fst := by
  induction found generalizing s with
  | nil => exact .inl h
  | cons f found ih =>
      rw [List.map_cons, List.mem_cons]
      rcases ih h with h | h
      · by_cases hj : j = f.1
        · exact .inr (.inl hj)
        · exact .inl (by rwa [assigned_take_of_ne hj] at h)
      · exact .inr (.inr h)

end Taking

section Runs

variable {raw : List RawNode} {previous : List Node} {σ : Type} (view : σ → Matched)
  (step : σ → RawNode × ℕ → σ) (found : σ → RawNode × ℕ → List (ℕ × Node))

/-- What a unit finds before its parent is matched is taken already. -/
def Clear : σ → List (RawNode × ℕ) → Prop
  | _, [] => True
  | t, e :: l =>
      (Orphan (view t) e.1 → ∀ f ∈ found t e, f.2.nid ∈ (view t).used) ∧ Clear (step t e) l

variable {view step found}

theorem run_spec (hnodup : (previous.map Node.nid).Nodup)
    (hview : ∀ t e, view (step t e) = (view t).takeAll (found t e)) (I : ℕ → σ → Prop)
    (hI : ∀ t r i, raw[i]? = some r → I i t → I (i + 1) (step t (r, i)))
    (hfit : ∀ t r i, raw[i]? = some r → I i t →
      FitAll raw previous (view t) r.parent (found t (r, i)))
    {l : List RawNode} {k : ℕ} (hl : raw.drop k = l) {t : σ} (ht : I k t)
    (hs : Sits raw previous (view t)) :
    Sits raw previous (view ((l.zipIdx k).foldl step t)) ∧
      (Stray raw previous (view ((l.zipIdx k).foldl step t)) ↔
        Stray raw previous (view t) ∨ ¬ Clear view step found t (l.zipIdx k)) := by
  induction l generalizing k t with
  | nil => exact ⟨hs, by simp [Clear]⟩
  | cons r l ih =>
      have hr : raw[k]? = some r := by
        rw [← List.head?_drop, hl, List.head?_cons]
      have hrest : raw.drop (k + 1) = l := by
        rw [← List.drop_drop, hl, List.drop_one, List.tail_cons]
      obtain ⟨hsits, hstray⟩ := (hfit t r k hr ht).takeAll hnodup hs
      rw [← hview t (r, k)] at hsits hstray
      obtain ⟨hsits', hstray'⟩ := ih hrest (hI t r k hr ht) hsits
      rw [List.zipIdx_cons, List.foldl_cons]
      refine ⟨hsits', hstray'.trans ?_⟩
      rw [hstray, Clear]
      unfold Orphan Matched.parentNid
      simp only [not_and_or, not_forall, exists_prop, or_assoc]

end Runs

section Lookups

variable {raw : List RawNode} {previous : List Node} {s : Matched} {r : RawNode} {i : ℕ}

/-- Parents precede their children. -/
def Ordered (raw : List RawNode) : Prop :=
  ∀ (i : ℕ) (r : RawNode), raw[i]? = some r → ∀ p, r.parent = some p → p < i

theorem fitAll_one (hraw : Ordered raw) (hr : raw[i]? = some r) (hfree : s.assigned i = none)
    {n : Node} (hn : n ∈ previous) (hkind : n.kind = r.kind) (hparent : n.parent = s.parentNid r) :
    FitAll raw previous s r.parent [(i, n)] where
  nodup := List.nodup_singleton i
  fits f hf := by
    obtain rfl := List.mem_singleton.mp hf
    exact ⟨hfree, hn, ⟨r, hr, rfl, hkind⟩, hparent⟩
  apart p hp hmem := by
    have hlt := hraw i r hr p hp
    have heq : p = i := List.mem_singleton.mp hmem
    omega

theorem fitAll_nil : FitAll raw previous s r.parent [] :=
  ⟨List.nodup_nil, by simp, by simp⟩

theorem fitAll_toList (hraw : Ordered raw) (hr : raw[i]? = some r) (hfree : s.assigned i = none)
    {found : Option Node} (hfound : ∀ n, found = some n →
      n ∈ previous ∧ n.kind = r.kind ∧ n.parent = s.parentNid r) :
    FitAll raw previous s r.parent (found.map (i, ·)).toList := by
  cases hn : found with
  | none => exact fitAll_nil
  | some n =>
      obtain ⟨hmem, hkind, hparent⟩ := hfound n hn
      exact fitAll_one hraw hr hfree hmem hkind hparent

/-- Units are matched by name when the first of their group is met. -/
def Grouped (raw : List RawNode) (k : ℕ) (s : Matched) : Prop :=
  ∀ j, s.assigned j ≠ none → ∃ r r' i, raw[j]? = some r ∧ raw[i]? = some r' ∧ i < k ∧
    key r' = key r

theorem mem_byName {f : ℕ × Node} (h : f ∈ byName raw previous s (r, i)) :
    (∃ r', raw[f.1]? = some r' ∧ i ≤ f.1 ∧ key r' = key r) ∧
      (∀ r' ∈ raw.take i, key r' ≠ key r) ∧ f.2 ∈ previous ∧ f.2.parent = s.parentNid r ∧
        f.2.kind = r.kind := by
  unfold byName at h
  dsimp only at h
  split_ifs at h with hskip
  · cases h
  · rw [not_or] at hskip
    obtain ⟨m, hm, hmap⟩ := List.mem_filterMap.mp h
    obtain ⟨n, hn, rfl⟩ := Option.map_eq_some_iff.mp hmap
    obtain ⟨q, -, hq⟩ := Option.bind_eq_some_iff.mp hn
    obtain ⟨hprev, hgroup⟩ := List.mem_filter.mp (List.mem_of_getElem? hq)
    obtain ⟨-, hparent, hkind, -⟩ := of_decide_eq_true hgroup
    obtain ⟨hmem, hkey⟩ := List.mem_filter.mp (List.of_mem_zip hm).1
    obtain ⟨d, hd⟩ := List.mem_iff_getElem?.mp hmem
    rw [List.getElem?_drop, List.getElem?_zipIdx] at hd
    obtain ⟨r', hr', heq⟩ := Option.map_eq_some_iff.mp hd
    simp only [Nat.zero_add, Prod.ext_iff] at heq
    refine ⟨⟨r', ?_, ?_, ?_⟩, ?_, hprev, hparent, hkind⟩
    · rw [← heq.2]
      exact hr'
    · dsimp only
      omega
    · rw [heq.1]
      exact of_decide_eq_true hkey
    · intro r' hr' heq
      exact hskip.2 (List.any_eq_true.mpr ⟨r', hr', decide_eq_true heq⟩)

theorem sublist_zip {α β γ δ : Type} (place : α → γ) (found : α × β → Option δ) (l : List α)
    (l' : List β) : (((l.zip l').filterMap fun m =>
      (found m).map (place m.1, ·)).map Prod.fst).Sublist (l.map place) := by
  induction l generalizing l' with
  | nil => simp
  | cons x l ih =>
      cases l' with
      | nil => simp
      | cons y l' =>
          rw [List.zip_cons_cons, List.filterMap_cons, List.map_cons]
          cases found (x, y) with
          | none => exact (ih l').cons _
          | some z => exact (ih l').cons_cons _

theorem nodup_byName : ((byName raw previous s (r, i)).map Prod.fst).Nodup := by
  unfold byName
  dsimp only
  split_ifs
  · exact List.nodup_nil
  · refine (sublist_zip Prod.snd _ _ _).nodup ?_
    have hsub := (List.filter_sublist (p := fun e => decide (key e.1 = key r))
      (l := raw.zipIdx.drop i)).trans (List.drop_sublist i raw.zipIdx)
    exact (hsub.map Prod.snd).nodup (List.nodup_zipIdx_map_snd raw)

theorem fitAll_byName (hraw : Ordered raw) (hr : raw[i]? = some r) (hs : Grouped raw i s) :
    FitAll raw previous s r.parent (byName raw previous s (r, i)) := by
  refine ⟨nodup_byName, fun f hf => ?_, fun p hp hmem => ?_⟩
  · obtain ⟨⟨r', hr', hle, hkey⟩, hfirst, hmem, hparent, hkind⟩ := mem_byName hf
    refine ⟨?_, hmem, ⟨r', hr', congrArg Prod.fst hkey,
      hkind.trans (congrArg (fun k => k.2.1) hkey).symm⟩, hparent⟩
    by_contra hassigned
    obtain ⟨r₁, r₂, i', hr₁, hr₂, hlt, hkey'⟩ := hs f.1 hassigned
    obtain rfl := Option.some.inj (hr₁.symm.trans hr')
    refine hfirst r₂ ?_ (hkey'.trans hkey)
    exact List.mem_of_getElem? (i := i') (by rw [List.getElem?_take_of_lt hlt, hr₂])
  · obtain ⟨f, hf, rfl⟩ := List.mem_map.mp hmem
    obtain ⟨⟨_, _, hle, _⟩, -⟩ := mem_byName hf
    have hlt := hraw i r hr f.1 hp
    omega

theorem grouped_takeAll (hr : raw[i]? = some r) (hs : Grouped raw i s) :
    Grouped raw (i + 1) (s.takeAll (byName raw previous s (r, i))) := by
  intro j hj
  rcases mem_of_assigned_takeAll hj with hj | hj
  · obtain ⟨r₁, r₂, i', hr₁, hr₂, hlt, hkey⟩ := hs j hj
    exact ⟨r₁, r₂, i', hr₁, hr₂, by omega, hkey⟩
  · obtain ⟨f, hf, rfl⟩ := List.mem_map.mp hj
    obtain ⟨⟨r', hr', -, hkey⟩, -⟩ := mem_byName hf
    exact ⟨r', r, i, hr', hr, by omega, hkey.symm⟩

theorem fitAll_byBody (hraw : Ordered raw) (hr : raw[i]? = some r) :
    FitAll raw previous s r.parent (byBody previous s (r, i)) := by
  unfold byBody
  dsimp only
  split_ifs with hassigned
  · exact fitAll_nil
  · refine fitAll_toList hraw hr (by simpa using hassigned) fun n hn => ?_
    have hfound := List.find?_some hn
    obtain ⟨hparent, hkind, -, -⟩ := of_decide_eq_true hfound
    exact ⟨List.mem_of_find?_eq_some hn, hkind, hparent⟩

/-- What a nameless unit finds. -/
def foundAt (raw : List RawNode) (previous : List Node) (anchors : ℕ → Option ℕ)
    (t : Matched × ℕ) (e : RawNode × ℕ) : List (ℕ × Node) :=
  (((byPosition raw previous anchors t e).map Prod.fst).map (e.2, ·)).toList

theorem view_positionStep (anchors : ℕ → Option ℕ) (t : Matched × ℕ) (e : RawNode × ℕ) :
    (positionStep raw previous anchors t e).1 = t.1.takeAll (foundAt raw previous anchors t e) := by
  unfold positionStep foundAt
  cases byPosition raw previous anchors t e <;> rfl

theorem fitAll_foundAt (hraw : Ordered raw) (hr : raw[i]? = some r) {anchors : ℕ → Option ℕ}
    {t : Matched × ℕ} : FitAll raw previous t.1 r.parent (foundAt raw previous anchors t (r, i)) := by
  unfold foundAt byPosition
  dsimp only
  split_ifs with hskip
  · exact fitAll_nil
  · rw [not_or] at hskip
    refine fitAll_toList hraw hr (by simpa using hskip.1) fun n hn => ?_
    obtain ⟨⟨n', p⟩, hfind, rfl⟩ := Option.map_eq_some_iff.mp hn
    have hfound := List.find?_some hfind
    obtain ⟨-, hkind, hparent, -⟩ := of_decide_eq_true hfound
    have hmem := List.mem_of_mem_take (List.mem_of_mem_drop (List.mem_of_find?_eq_some hfind))
    exact ⟨List.fst_mem_of_mem_zipIdx hmem, hkind, hparent⟩

theorem foldl_chooses {α : Type} {step : Option α → α → Option α}
    (hstep : ∀ start x, step start x = some x ∨ step start x = start) {best : α} :
    ∀ (l : List α) (start : Option α), l.foldl step start = some best →
      start = some best ∨ best ∈ l := by
  intro l
  induction l with
  | nil => exact fun start h => .inl h
  | cons x l ih =>
      intro start h
      rw [List.foldl_cons] at h
      rcases ih _ h with h | h
      · rcases hstep start x with hnew | hold
        · exact .inr (Option.some.inj (hnew.symm.trans h) ▸ List.mem_cons_self)
        · exact .inl (hold.symm.trans h)
      · exact .inr (List.mem_cons_of_mem x h)

theorem mem_of_maxScore {scores : List (Node × ℚ)} {best : Node × ℚ}
    (h : maxScore scores = some best) : best ∈ scores := by
  unfold maxScore at h
  refine (foldl_chooses (fun start x => ?_) scores none h).resolve_left (by simp)
  cases start with
  | none => exact .inl rfl
  | some b =>
      by_cases hle : b.2 ≤ x.2
      · exact .inl (if_pos hle)
      · exact .inr (if_neg hle)

theorem fitAll_bySimilarity (hraw : Ordered raw) (hr : raw[i]? = some r)
    (shingles : EntityId → Option (List ℕ)) :
    FitAll raw previous s r.parent (bySimilarity previous shingles s (r, i)) := by
  unfold bySimilarity
  dsimp only
  split_ifs with hskip
  · exact fitAll_nil
  · rw [not_or] at hskip
    generalize hbest : (maxScore ((previous.filter fun n => n.nid ∉ s.used ∧ n.name ≠ "" ∧
      n.kind = r.kind ∧ n.parent = s.parentNid r).filterMap fun n =>
        (shingles n.nid).map fun sh => (n, jaccard sh r.shingles))).filter
          (fun b => similarity ≤ b.2) = best
    have hcomp : best.map (fun b => (i, b.1)) = (best.map Prod.fst).map (i, ·) := by
      rw [Option.map_map]
      rfl
    rw [hcomp]
    refine fitAll_toList hraw hr (by simpa using hskip.1) fun n hn => ?_
    subst hbest
    obtain ⟨best, hbest, rfl⟩ := Option.map_eq_some_iff.mp hn
    have hmem := mem_of_maxScore (Option.filter_eq_some_iff.mp hbest).1
    obtain ⟨n, hcandidate, hscore⟩ := List.mem_filterMap.mp hmem
    obtain ⟨_, _, rfl⟩ := Option.map_eq_some_iff.mp hscore
    obtain ⟨hprev, hgroup⟩ := List.mem_filter.mp hcandidate
    obtain ⟨-, -, hkind, hparent⟩ := of_decide_eq_true hgroup
    exact ⟨hprev, hkind, hparent⟩

end Lookups

section Identities

variable (raw : List RawNode) (previous : List Node) (extract : String → Bytes → List RawNode)
  (fresh : ℕ → EntityId) (path : String) (source : Option Bytes)

def PassClear (found : Matched → RawNode × ℕ → List (ℕ × Node)) (s : Matched) : Prop :=
  Clear id (fun s e => s.takeAll (found s e)) found s raw.zipIdx

def PositionClear (s : Matched) : Prop :=
  let anchors := anchor previous s.assigned
  Clear Prod.fst (positionStep raw previous anchors) (foundAt raw previous anchors) (s, 0) raw.zipIdx

/-- In no pass does a unit whose parent is not matched yet find a previous unit that
no other unit has taken: such a unit is looked up among those without a parent. -/
def Settled : Prop :=
  let s₁ := pass raw (byName raw previous) start
  let s₂ := pass raw (byBody previous) s₁
  let s₃ := positionPass raw previous s₂
  PassClear raw (byName raw previous) start ∧ PassClear raw (byBody previous) s₁ ∧
    PositionClear raw previous s₂ ∧
    PassClear raw (bySimilarity previous (prevShingles raw previous extract path source s₃)) s₃

/-- The ids are distinct, and a unit with the id of a previous unit has its kind and
the id of its parent for a parent. -/
structure Identified (previous nodes : List Node) : Prop where
  distinct : (nodes.map Node.nid).Nodup
  keeps : ∀ node ∈ nodes, ∀ n ∈ previous, n.nid = node.nid →
    n.kind = node.kind ∧ n.parent = node.parent

variable {raw previous}

theorem pass_spec (hnodup : (previous.map Node.nid).Nodup)
    {found : Matched → RawNode × ℕ → List (ℕ × Node)} (I : ℕ → Matched → Prop)
    (hI : ∀ s r i, raw[i]? = some r → I i s → I (i + 1) (s.takeAll (found s (r, i))))
    (hfit : ∀ s r i, raw[i]? = some r → I i s →
      FitAll raw previous s r.parent (found s (r, i)))
    {s : Matched} (h : I 0 s) (hs : Sits raw previous s) :
    Sits raw previous (pass raw found s) ∧ (Stray raw previous (pass raw found s) ↔
      Stray raw previous s ∨ ¬ PassClear raw found s) :=
  @run_spec raw previous Matched id (fun s e => s.takeAll (found s e)) found hnodup
    (fun _ _ => rfl) I hI hfit raw 0 List.drop_zero s h hs

theorem positionPass_spec (hraw : Ordered raw) (hnodup : (previous.map Node.nid).Nodup)
    {s : Matched} (hs : Sits raw previous s) :
    Sits raw previous (positionPass raw previous s) ∧
      (Stray raw previous (positionPass raw previous s) ↔
        Stray raw previous s ∨ ¬ PositionClear raw previous s) :=
  have hview : ∀ t e, (positionStep raw previous (anchor previous s.assigned) t e).1 =
      t.1.takeAll (foundAt raw previous (anchor previous s.assigned) t e) :=
    view_positionStep (anchor previous s.assigned)
  run_spec hnodup hview
    (fun _ _ => True) (fun _ _ _ _ _ => trivial) (fun _ _ _ hr _ => fitAll_foundAt hraw hr)
    List.drop_zero (t := (s, 0)) trivial hs

theorem matching_spec (hraw : Ordered raw) (hnodup : (previous.map Node.nid).Nodup) :
    Sits raw previous (matching raw previous extract path source) ∧
      (Stray raw previous (matching raw previous extract path source) ↔
        ¬ Settled raw previous extract path source) := by
  have hstart : Sits raw previous start := by
    constructor <;> intros <;> contradiction
  have hclean : ¬ Stray raw previous start := by
    rintro ⟨_, _, _, _, _, h, _⟩
    cases h
  obtain ⟨hs₁, hstray₁⟩ := @pass_spec raw previous hnodup (byName raw previous) (Grouped raw)
    (fun s r i hr hs => grouped_takeAll hr hs) (fun s r i hr hs => fitAll_byName hraw hr hs)
    start (fun j hj => absurd rfl hj) hstart
  obtain ⟨hs₂, hstray₂⟩ := pass_spec hnodup (fun _ _ => True) (fun _ _ _ _ _ => trivial)
    (fun s r i hr _ => fitAll_byBody hraw hr) trivial hs₁
  obtain ⟨hs₃, hstray₃⟩ := positionPass_spec hraw hnodup hs₂
  obtain ⟨hs₄, hstray₄⟩ := pass_spec hnodup (fun _ _ => True) (fun _ _ _ _ _ => trivial)
    (fun s r i hr _ => fitAll_bySimilarity hraw hr
      (prevShingles raw previous extract path source (positionPass raw previous
        (pass raw (byBody previous) (pass raw (byName raw previous) start))))) trivial hs₃
  refine ⟨hs₄, hstray₄.trans ?_⟩
  rw [hstray₃, hstray₂, hstray₁, Settled]
  simp only [hclean, false_or, not_and_or, or_assoc]

/-- The fresh ids are new, and no two are the same. -/
structure Fresh (raw : List RawNode) (previous : List Node) (fresh : ℕ → EntityId) : Prop where
  injective : ∀ i < raw.length, ∀ j < raw.length, fresh i = fresh j → i = j
  unused : ∀ i < raw.length, fresh i ∉ previous.map Node.nid

variable {extract fresh path source}

theorem nid_inj {s : Matched} (hs : Sits raw previous s) (hfresh : Fresh raw previous fresh)
    {i j : ℕ} (hi : i < raw.length) (hj : j < raw.length)
    (h : (s.assigned i).getD (fresh i) = (s.assigned j).getD (fresh j)) : i = j := by
  have hprev : ∀ {i nid}, s.assigned i = some nid → nid ∈ previous.map Node.nid := by
    intro i nid h
    obtain ⟨_, n, _, hn, rfl, _⟩ := hs.matched h
    exact List.mem_map_of_mem hn
  cases hsi : s.assigned i with
  | some nid =>
      cases hsj : s.assigned j with
      | some nid' =>
          rw [hsi, hsj] at h
          exact hs.injective hsi (hsj.trans (congrArg some h.symm))
      | none =>
          rw [hsi, hsj, Option.getD_some, Option.getD_none] at h
          exact absurd (h ▸ hprev hsi) (hfresh.unused j hj)
  | none =>
      cases hsj : s.assigned j with
      | some nid' =>
          rw [hsi, hsj, Option.getD_some, Option.getD_none] at h
          exact absurd (h.symm ▸ hprev hsj) (hfresh.unused i hi)
      | none =>
          rw [hsi, hsj] at h
          exact hfresh.injective i hi j hj h

theorem identified_assignOnly_iff (hraw : Ordered raw) (hnodup : (previous.map Node.nid).Nodup)
    (hfresh : Fresh raw previous fresh) :
    Identified previous (assignOnly raw previous extract fresh path source) ↔
      Settled raw previous extract path source := by
  obtain ⟨hs, hstray⟩ := matching_spec extract path source hraw hnodup
  have hlt : ∀ {e : RawNode × ℕ}, e ∈ raw.zipIdx → raw[e.2]? = some e.1 ∧ e.2 < raw.length := by
    intro e he
    have hget := List.mem_zipIdx_iff_getElem?.mp he
    exact ⟨hget, (List.getElem?_eq_some_iff.mp hget).1⟩
  constructor
  · intro h
    by_contra hnot
    obtain ⟨i, r, n, hr, hn, hassigned, hparent, hnone⟩ := hstray.mpr hnot
    have hnode := h.keeps _ (List.mem_map_of_mem
      (List.mem_zipIdx_iff_getElem?.mpr hr : (r, i) ∈ raw.zipIdx)) n hn (by simp [hassigned])
    exact hparent (Option.map_eq_none_iff.mp (hnode.2.symm.trans hnone))
  · intro h
    have hclean : ¬ Stray raw previous (matching raw previous extract path source) := fun hst =>
      hstray.mp hst h
    refine ⟨?_, ?_⟩
    · unfold assignOnly
      rw [List.map_map]
      refine List.Nodup.map_on ?_ (.of_map Prod.snd (List.nodup_zipIdx_map_snd raw))
      intro e he e' he' heq
      have hsame := nid_inj hs hfresh (hlt he).2 (hlt he').2 heq
      refine Prod.ext (Option.some.inj ?_) hsame
      rw [← (hlt he).1, ← (hlt he').1, hsame]
    · intro node hnode n hn hnid
      obtain ⟨⟨r, i⟩, he, rfl⟩ := List.mem_map.mp hnode
      dsimp only at hnid ⊢
      cases hassigned : (matching raw previous extract path source).assigned i with
      | none =>
          rw [hassigned, Option.getD_none] at hnid
          exact absurd (hnid ▸ List.mem_map_of_mem hn) (hfresh.unused i (hlt he).2)
      | some nid =>
          rw [hassigned, Option.getD_some] at hnid
          obtain ⟨r', n', hr', hn', hnid', hkind, hparent⟩ := hs.matched hassigned
          obtain rfl := Option.some.inj ((hlt he).1.symm.trans hr')
          obtain rfl := List.inj_on_of_nodup_map hnodup hn' hn (hnid'.trans hnid.symm)
          refine ⟨hkind, ?_⟩
          cases hp : r.parent with
          | none =>
              rcases hparent with hnone | hparent
              · exact hnone
              · rw [hparent, Matched.parentNid, hp]
                rfl
          | some p =>
              have hnone : n'.parent ≠ none := fun hnone =>
                hclean ⟨i, r, n', hr', hn, by rw [hassigned, hnid], by simp [hp], hnone⟩
              have heq := hparent.resolve_left hnone
              rw [Matched.parentNid, hp, Option.bind_some] at heq
              rw [Option.map_some]
              cases hpid : (matching raw previous extract path source).assigned p with
              | none => exact absurd (heq.trans hpid) hnone
              | some nid => rw [heq, hpid, Option.getD_some]

/-- What identity is about. -/
def identity (n : Node) : EntityId × String × Option EntityId := (n.nid, n.kind, n.parent)

theorem Identified.congr {nodes nodes' : List Node} (h : Identified previous nodes)
    (hsame : nodes.map identity = nodes'.map identity) : Identified previous nodes' := by
  refine ⟨?_, fun node hnode n hn hnid => ?_⟩
  · have hnids := congrArg (List.map Prod.fst) hsame
    rw [List.map_map, List.map_map] at hnids
    exact hnids ▸ h.distinct
  · have hmem := List.mem_map_of_mem (f := identity) hnode
    rw [← hsame] at hmem
    obtain ⟨node', hnode', heq⟩ := List.mem_map.mp hmem
    simp only [identity, Prod.mk.injEq] at heq
    obtain ⟨hkind, hparent⟩ := h.keeps node' hnode' n hn (hnid.trans heq.1.symm)
    exact ⟨hkind.trans heq.2.1, hparent.trans heq.2.2⟩

/-- The references of the units leave their identities alone. -/
theorem identity_withRefs :
    (assignIdsWithRefs raw previous extract fresh path source).1.map identity =
      (assignOnly raw previous extract fresh path source).map identity := by
  have hlength : (assignOnly raw previous extract fresh path source).length ≤ raw.length := by
    simp [assignOnly]
  have hfst := congrArg (List.map identity) (List.map_fst_zip hlength)
  rw [List.map_map] at hfst
  rw [← hfst]
  simp only [assignIdsWithRefs, List.map_map]
  rfl

/-- Identity respects containment and uniqueness if and only if no unit finds a
previous unit before its parent has. -/
theorem identified_iff (hraw : Ordered raw) (hnodup : (previous.map Node.nid).Nodup)
    (hfresh : Fresh raw previous fresh) :
    Identified previous (assignIdsWithRefs raw previous extract fresh path source).1 ↔
      Settled raw previous extract path source := by
  have hiff : Identified previous (assignOnly raw previous extract fresh path source) ↔
      Settled raw previous extract path source := identified_assignOnly_iff hraw hnodup hfresh
  rw [← hiff]
  exact ⟨fun h => h.congr identity_withRefs, fun h => h.congr identity_withRefs.symm⟩

end Identities

section Samples

/-! A function moves into a new class, and one of its name stays at top level. -/

def unit (kind name : String) (body : ℕ) (parent : Option ℕ) : RawNode :=
  ⟨kind, name, (0, 0), .splat body, parent, false, [], []⟩

def nested : List RawNode :=
  [unit "class" "C" 1 none, unit "fn" "run" 2 (some 0), unit "fn" "run" 3 none]

def runFn : Node := ⟨.splat 9, "a.py", "fn", "run", (0, 0), .splat 3, none, none, none⟩

def topLevel : List Node := [runFn]

def freshId (i : ℕ) : EntityId := .splat i

theorem ordered_nested : Ordered nested := by
  intro i r hr p hp
  rcases i with _ | _ | _ | i
  · cases hr
    cases hp
  · cases hr
    cases hp
    decide
  · cases hr
    cases hp
  · cases hr

/-- The method takes the id of the function, which gets a fresh one. -/
theorem method_takes_function :
    (assignIds nested topLevel (fun _ _ => []) freshId "a.py").map identity =
      [(.splat 0, "class", none), (.splat 9, "fn", some (.splat 0)), (.splat 2, "fn", none)] ∧
    ¬ Identified topLevel (assignIds nested topLevel (fun _ _ => []) freshId "a.py") := by
  have hnodes : (assignIds nested topLevel (fun _ _ => []) freshId "a.py").map identity =
      [(.splat 0, "class", none), (.splat 9, "fn", some (.splat 0)),
        (.splat 2, "fn", none)] := by decide +kernel
  refine ⟨hnodes, fun h => ?_⟩
  have hmem : (.splat 9, "fn", some (.splat 0)) ∈
      (assignIds nested topLevel (fun _ _ => []) freshId "a.py").map identity := by
    rw [hnodes]
    simp
  obtain ⟨node, hnode, heq⟩ := List.mem_map.mp hmem
  simp only [identity, Prod.mk.injEq] at heq
  have hkeeps := h.keeps node hnode runFn List.mem_cons_self heq.1.symm
  rw [heq.2.2] at hkeeps
  exact absurd hkeeps.2 (by decide)

theorem identified_nested :
    Identified topLevel (assignIdsWithRefs nested topLevel (fun _ _ => []) freshId "a.py" none).1 ↔
      Settled nested topLevel (fun _ _ => []) "a.py" none :=
  identified_iff ordered_nested (by decide +kernel) ⟨by decide +kernel, by decide +kernel⟩

end Samples

end Tessra.Semantic
