import Tessra.Semantic.Gaps

namespace Tessra.Semantic.Merge

open Tessra.Core Tessra.Data
open Tessra.Daemon (Rename)

/-! Merging with a side that is the base: when the output is the other side's text. -/

section OwnKeys

variable {base : List Unit}

/-- The base lines up with itself by id. -/
theorem out_alignIds (hbase : (base.map Unit.nid).Nodup) : ∀ (rest : List Unit) (k : ℕ)
    (s : Aligned), base.drop k = rest → (∀ b ∈ s.taken, b < k) →
    (∀ i u, i < k → base[i]? = some u → s.out i = some (.id u.nid)) →
    ∀ i u, base[i]? = some u →
      ((rest.zipIdx k).foldl (alignId base) s).out i = some (.id u.nid)
  | [], k, s, hdrop, _, hout, i, u, hu => by
      have hlen : base.length ≤ k := List.drop_eq_nil_iff.mp hdrop
      have hi := (List.getElem?_eq_some_iff.mp hu).1
      exact hout i u (by omega) hu
  | v :: rest, k, s, hdrop, htaken, hout, i, u, hu => by
      have hv : base[k]? = some v := by
        rw [← List.head?_drop, hdrop, List.head?_cons]
      have hfree : k ∉ s.taken := fun h => (htaken k h).ne rfl
      have hstep : alignId base s (v, k) = s.take k k v.nid := by
        simp only [alignId, byNid_of_getElem? hbase hv, if_neg hfree]
      rw [List.zipIdx_cons, List.foldl_cons, hstep]
      refine out_alignIds hbase rest (k + 1) _ ?_ ?_ ?_ i u hu
      · rw [← List.tail_drop, hdrop, List.tail_cons]
      · intro b hb
        rcases List.mem_cons.mp hb with rfl | hb
        · exact Nat.lt_succ_self b
        · exact (htaken b hb).trans (Nat.lt_succ_self k)
      · intro j w hj hw
        simp only [Aligned.take, Function.update_apply]
        split_ifs with heq
        · subst heq
          rw [hv] at hw
          cases hw
          rfl
        · exact hout j w (by omega) hw

theorem alignGroup_of_isSome {side : List Unit} {s : Aligned × List (String × String)}
    {e : Unit × ℕ} (h : (s.1.out e.2).isSome) : alignGroup base side s e = s := by
  rw [alignGroup, if_pos (Or.inl h)]

theorem keys_self (hbase : (base.map Unit.nid).Nodup) :
    keys base base [] = base.map (Key.id ·.nid) := by
  have hids : ∀ i u, base[i]? = some u →
      (base.zipIdx.foldl (alignId base) ⟨[], fun _ => none⟩).out i = some (.id u.nid) :=
    out_alignIds hbase base 0 _ rfl (fun b hb => absurd hb List.not_mem_nil)
      fun i u hi => absurd hi (Nat.not_lt_zero i)
  have hall : aligned base base [] = base.zipIdx.foldl (alignId base) ⟨[], fun _ => none⟩ := by
    have hkeep : ∀ l : List (Unit × ℕ), (∀ e ∈ l, e ∈ base.zipIdx) →
        ∀ s : Aligned × List (String × String), (∀ i u, base[i]? = some u →
          s.1.out i = some (.id u.nid)) → l.foldl (alignGroup base base) s = s := by
      intro l
      induction l with
      | nil => exact fun _ s _ => rfl
      | cons e l ih =>
          intro hl s hs
          have he := List.mem_zipIdx_iff_getElem?.mp (hl e List.mem_cons_self)
          rw [List.foldl_cons, alignGroup_of_isSome (by rw [hs _ _ he]; rfl)]
          exact ih (fun e he => hl e (List.mem_cons_of_mem _ he)) s hs
    change (base.zipIdx.foldl (alignGroup base base) (_, [])).1 = _
    rw [hkeep _ (fun e he => he) _ hids]
    rfl
  have hpoint : ∀ e ∈ base.zipIdx, ((aligned base base []).out e.2).getD
      (.new e.1.kind e.1.name ((base.zipIdx.take e.2).filter fun e' =>
        ((aligned base base []).out e'.2).isNone ∧ e'.1.kind = e.1.kind ∧
          e'.1.name = e.1.name).length) = .id e.1.nid := by
    intro e he
    rw [hall, hids _ _ (List.mem_zipIdx_iff_getElem?.mp he), Option.getD_some]
  calc keys base base [] = base.zipIdx.map fun e => .id e.1.nid := List.map_congr_left hpoint
    _ = (base.zipIdx.map Prod.fst).map (Key.id ·.nid) := by
        rw [List.map_map]
        rfl
    _ = base.map (Key.id ·.nid) := by rw [List.zipIdx_map_fst]

end OwnKeys

section Order

variable {base side done rest : List Key} {key : Key} {s : List Key × Option Key}

theorem insertKeys_of_subset (h : ∀ k ∈ side, k ∈ base) (before : List Key)
    (hbefore : ∀ k ∈ base, k ∈ before) (last : Option Key) :
    (side.foldl (insertKey base) (before, last)).1 = before := by
  induction side generalizing last with
  | nil => rfl
  | cons key side ih =>
      have hkey := hbefore key (h key List.mem_cons_self)
      rw [List.foldl_cons, insertKey, if_pos hkey]
      exact ih (fun k hk => h k (List.mem_cons_of_mem _ hk)) (some key)

/-- What is put in order so far: the side's keys that are done, with base keys between them,
and behind the last of them base keys only, in which the rest keep their order. -/
def InOrderSoFar (base side done rest : List Key) (s : List Key × Option Key) : Prop :=
  ∃ front back, s.1 = front ++ back ∧ s.1.Nodup ∧ s.2 = done.getLast? ∧
    front.getLast? = done.getLast? ∧ front.filter (· ∈ side) = done ∧
    back.filter (· ∈ side) = rest.filter (· ∈ base) ∧ ∀ k ∈ back, k ∈ base

/-- The key at the end is the only one of its kind, so the place behind it is the end. -/
theorem placeAfter_getLast {front back : List Key} (hnodup : (front ++ back).Nodup) :
    placeAfter (front ++ back) front.getLast? = front.length := by
  rcases List.eq_nil_or_concat' front with rfl | ⟨front, p, rfl⟩
  · rfl
  · have hfresh : p ∉ front := by
      rw [List.append_assoc] at hnodup
      exact fun h => (List.nodup_append.mp hnodup).2.2 p h p (by simp) rfl
    have hidx : (front ++ [p] ++ back).idxOf? p = some front.length := by
      rw [List.append_assoc]
      refine List.idxOf?_eq_some_iff.mpr ⟨by simp, by simp, fun j hj heq => ?_⟩
      rw [List.getElem_append_left hj] at heq
      exact hfresh (heq ▸ List.getElem_mem hj)
    rw [List.getLast?_concat, placeAfter, hidx]
    simp

theorem InOrderSoFar.step (hside : (done ++ key :: rest).Nodup)
    (hmem : ∀ k, k ∈ side ↔ k ∈ done ++ key :: rest)
    (h : InOrderSoFar base side done (key :: rest) s) :
    InOrderSoFar base side (done ++ [key]) rest (insertKey base s key) := by
  obtain ⟨front, back, hsplit, hnodup, hlast, hend, hfront, hback, hbase⟩ := h
  have hkey : key ∈ side := (hmem key).mpr (by simp)
  have hnew : key ∉ done := fun h =>
    (List.nodup_append.mp hside).2.2 key h key List.mem_cons_self rfl
  have hnotfront : key ∉ front := fun h =>
    hnew (hfront ▸ List.mem_filter.mpr ⟨h, by simpa using hkey⟩)
  by_cases hin : key ∈ base
  · rw [List.filter_cons_of_pos (by simpa using hin)] at hback
    obtain ⟨skip, back', rfl, hskip, -, hback'⟩ := List.filter_eq_cons_iff.mp hback
    have hplace : key ∈ s.1 := by rw [hsplit]; simp
    rw [insertKey, if_pos hplace]
    refine ⟨front ++ skip ++ [key], back', by simp [hsplit], hnodup, by simp, by simp, ?_,
      hback', fun k hk => hbase k (by simp [hk])⟩
    have hnone : skip.filter (· ∈ side) = [] := List.filter_eq_nil_iff.mpr hskip
    rw [List.filter_append, List.filter_append, hfront, hnone, List.append_nil,
      List.filter_cons_of_pos (by simpa using hkey), List.filter_nil]
  · have hnotback : key ∉ back := fun h => hin (hbase key h)
    have hplace : key ∉ s.1 := by
      rw [hsplit, List.mem_append]
      exact not_or.mpr ⟨hnotfront, hnotback⟩
    have hafter : placeAfter s.1 s.2 = front.length := by
      rw [hsplit, hlast, ← hend]
      exact placeAfter_getLast (hsplit ▸ hnodup)
    have hpast : (s.1.drop front.length).takeWhile (· ∉ base) = [] := by
      rw [hsplit, List.drop_left]
      cases back with
      | nil => rfl
      | cons k back => simp [hbase k List.mem_cons_self]
    have hinsert : (insertKey base s key).1 = front ++ key :: back := by
      rw [insertKey, if_neg hplace, hafter]
      simp only [hpast, List.length_nil, Nat.add_zero]
      rw [hsplit, insertIdx_length]
    refine ⟨front ++ [key], back, by simp [hinsert], nodup_insertKey hnodup, ?_, by simp, ?_, ?_,
      hbase⟩
    · rw [insertKey, if_neg hplace]
      simp
    · rw [List.filter_append, hfront, List.filter_cons_of_pos (by simpa using hkey),
        List.filter_nil]
    · rw [hback, List.filter_cons_of_neg (by simpa using hin)]

theorem InOrderSoFar.steps (hmem : ∀ k, k ∈ side ↔ k ∈ done ++ rest)
    (hside : (done ++ rest).Nodup) (h : InOrderSoFar base side done rest s) :
    InOrderSoFar base side (done ++ rest) [] (rest.foldl (insertKey base) s) := by
  induction rest generalizing done s with
  | nil => simpa using h
  | cons key rest ih =>
      rw [List.foldl_cons]
      have hassoc : done ++ key :: rest = done ++ [key] ++ rest := by simp
      rw [hassoc] at hmem hside ⊢
      exact ih hmem hside (InOrderSoFar.step (hassoc ▸ hside) (hassoc ▸ hmem) h)

/-- Where the side keeps the base's order, so do all its keys in the merged order. -/
theorem filter_insertKeys (hbase : base.Nodup) (hside : side.Nodup)
    (hkept : (side.filter (· ∈ base)).Sublist base) :
    (side.foldl (insertKey base) (base, none)).1.filter (· ∈ side) = side := by
  have hstart : InOrderSoFar base side [] side (base, none) := by
    refine ⟨[], base, rfl, hbase, rfl, rfl, rfl, ?_, fun k hk => hk⟩
    have hsub : (side.filter (· ∈ base)).Sublist (base.filter (· ∈ side)) := by
      have hself : (side.filter (· ∈ base)).filter (· ∈ side) = side.filter (· ∈ base) :=
        List.filter_eq_self.mpr fun k hk => by simpa using (List.mem_filter.mp hk).1
      exact hself ▸ hkept.filter _
    have hperm : (side.filter (· ∈ base)).Perm (base.filter (· ∈ side)) :=
      (List.perm_ext_iff_of_nodup (hside.filter _) (hbase.filter _)).mpr fun k => by
        simp [and_comm]
    exact (hsub.eq_of_length hperm.length_eq).symm
  have hend := InOrderSoFar.steps (fun k => Iff.rfl) (by exact hside) hstart
  obtain ⟨front, back, hsplit, -, -, -, hfront, hback, -⟩ := hend
  rw [List.nil_append] at hfront hback
  rw [hsplit, List.filter_append, hfront, hback, List.filter_nil, List.append_nil]

end Order

section Laid

/-- Where the unit at a place starts with the gap before it. -/
def startOf (us : List Unit) (i : ℕ) : ℕ := ((us.take i).getLast?.map (·.span.2)).getD 0

theorem gapStart_map_withGaps {g : Node × ℕ → Unit} (hgap : ∀ n, (g n).gapStart = n.2)
    (hspan : ∀ n, (g n).span = n.1.span) : ∀ (list : List Node) (start i : ℕ) (u : Unit),
    ((withGaps start list).map g)[i]? = some u →
      u.gapStart = ((((withGaps start list).map g).take i).getLast?.map (·.span.2)).getD start
  | [], _, _, _, h => by simp [withGaps] at h
  | n :: list, start, 0, u, h => by
      have hu : g (n, start) = u := by simpa [withGaps] using h
      simp [← hu, hgap]
  | n :: list, start, i + 1, u, h => by
      rw [withGaps, List.map_cons, List.getElem?_cons_succ] at h
      rw [gapStart_map_withGaps hgap hspan list n.span.2 i u h, withGaps, List.map_cons,
        List.take_succ_cons]
      cases hlast : (((withGaps n.span.2 list).map g).take i).getLast? with
      | none =>
          rw [List.getLast?_eq_none_iff.mp hlast]
          simp [hspan]
      | some w => simp [List.getLast?_cons, hlast]

theorem gapStart_buildUnits {nodes : List Node} {i : ℕ} {u : Unit}
    (h : (buildUnits nodes)[i]? = some u) : u.gapStart = startOf (buildUnits nodes) i := by
  unfold buildUnits at h ⊢
  cases nodes with
  | nil => simp [make] at h
  | cons n nodes =>
      rw [List.length_cons, make] at h ⊢
      exact gapStart_map_withGaps (fun _ => rfl) (fun _ => rfl) _ 0 i u h

theorem startOf_succ {us : List Unit} {i : ℕ} {u : Unit} (h : us[i]? = some u) :
    startOf us (i + 1) = u.span.2 := by
  rw [startOf, List.take_add_one, h]
  simp

theorem startOf_length (us : List Unit) :
    startOf us us.length = (us.getLast?.map (·.span.2)).getD 0 := by
  rw [startOf, List.take_length]

theorem take_append_slice {text : Bytes} {i j : ℕ} (h : i ≤ j) :
    text.take i ++ slice text i j = text.take j := by
  have htake : text.take i = (text.take j).take i := by rw [List.take_take, Nat.min_eq_left h]
  rw [slice, htake, List.take_append_drop]

/-- The units of a version lie one behind the other in its text, none of them empty. -/
def Laid (f : FileNodes) : Prop :=
  ∀ u ∈ buildUnits f.nodes, u.gapStart ≤ u.span.1 ∧ u.span.1 < u.span.2 ∧
    u.span.2 ≤ f.text.length

/-- Something stands in the last line of the text. -/
def lineOpen (text : Bytes) : Bool :=
  (text.reverse.takeWhile (·.val ≠ 10)).any (!asciiWhitespace ·)

end Laid

section Spelling

variable {ctx : Ctx} {base : List Unit} {units : Side → List Unit} {level : List Unit →
  (Side → List Unit) → Merged → Merged} {f : FileNodes} {keys : List Key}

/-- The key puts out the text of the unit, behind the gap before it. -/
def Spells (ctx : Ctx) (base : List Unit) (units : Side → List Unit) (f : FileNodes)
    (last : Option Key) (key : Key) (u : Unit) : Prop :=
  ∃ side w, verdictAt ctx base units key = .emit [] side w ∧
    (renamed ctx side w).1 = u.text f.text ∧
    gapBefore ctx (sideLevel ctx base units) key side last = gapText f.text u

theorem text_emitLeaf (side : Side) (u : Unit) (gap : Bytes) (m : Merged) :
    (emitLeaf ctx side u gap m).text = m.text ++ leadText m gap ++ (renamed ctx side u).1 := by
  rw [Merged.text, out_emitLeaf, List.flatMap_append, List.append_assoc]
  simp [Merged.text, unitPiece]

/-- What a unit that is spelled adds, a line break or none before it. -/
theorem mergeKey_text (level : List Unit → (Side → List Unit) → Merged → Merged)
    {s : Merged × Option Key} {key : Key} {u : Unit}
    (hspells : Spells ctx base units f s.2 key u) (hunit : u.span.1 < u.span.2 ∧
      u.span.2 ≤ f.text.length) :
    (mergeKey ctx level base units s key).1.text =
        s.1.text ++ leadText (s.1.conflict []) (gapText f.text u) ++ u.text f.text ∧
      (mergeKey ctx level base units s key).1.conflicts = s.1.conflicts ∧
      (mergeKey ctx level base units s key).2 = some key := by
  obtain ⟨side, w, hverdict, hunit', hbefore⟩ := hspells
  have hlonger : (emitLeaf ctx side w (gapText f.text u) (s.1.conflict [])).text.length ≠
      s.1.text.length := by
    have hsame : (s.1.conflict []).text = s.1.text := rfl
    rw [text_emitLeaf, hunit', hsame, List.length_append, List.length_append]
    simp only [Unit.text, slice, List.length_drop, List.length_take]
    omega
  have hkey : mergeKey ctx level base units s key =
      (emitLeaf ctx side w (gapText f.text u) (s.1.conflict []), some key) := by
    simp only [mergeKey, hverdict, hbefore, if_pos hlonger]
  rw [hkey, text_emitLeaf, hunit']
  exact ⟨rfl, List.append_nil _, rfl⟩

theorem mergeKey_spells (level : List Unit → (Side → List Unit) → Merged → Merged)
    {s : Merged × Option Key} {key : Key} {u : Unit} {start : ℕ}
    (hspells : Spells ctx base units f s.2 key u) (htext : s.1.text = f.text.take start)
    (hgap : u.gapStart = start) (hlaid : u.gapStart ≤ u.span.1 ∧ u.span.1 < u.span.2 ∧
      u.span.2 ≤ f.text.length)
    (hline : u.gapStart = u.span.1 → lineOpen (f.text.take u.span.1) = false) :
    (mergeKey ctx level base units s key).1.text = f.text.take u.span.2 ∧
      (mergeKey ctx level base units s key).1.conflicts = s.1.conflicts ∧
      (mergeKey ctx level base units s key).2 = some key := by
  obtain ⟨hle, hlt, hend⟩ := hlaid
  obtain ⟨hout, hclean, hnext⟩ := mergeKey_text level hspells ⟨hlt, hend⟩
  have hlead : leadText (s.1.conflict []) (gapText f.text u) = gapText f.text u := by
    rw [leadText, if_neg]
    rintro ⟨hnil, hopen⟩
    have hlen : (gapText f.text u).length = 0 := by rw [hnil]; rfl
    have hsame : u.gapStart = u.span.1 := by
      simp only [gapText, slice, List.length_drop, List.length_take] at hlen
      omega
    have hopen' : lineOpen s.1.text = true := hopen
    rw [htext, ← hgap, hsame, hline hsame] at hopen'
    exact Bool.false_ne_true hopen'
  refine ⟨?_, hclean, hnext⟩
  rw [hout, hlead, htext, gapText, hgap, take_append_slice (hgap ▸ hle)]
  exact take_append_slice hlt.le

theorem exists_getElem? {α : Type} {l : List α} {i : ℕ} (h : i < l.length) : ∃ x, l[i]? = some x :=
  ⟨l[i], List.getElem?_eq_getElem h⟩

/-- Keys that each spell their unit spell the text. -/
theorem foldl_spells (hlaid : Laid f) (hlen : keys.length = (buildUnits f.nodes).length)
    (hspells : ∀ i key u, keys[i]? = some key → (buildUnits f.nodes)[i]? = some u →
      Spells ctx base units f (if i = 0 then none else keys[i - 1]?) key u)
    (hline : ∀ u ∈ buildUnits f.nodes, u.gapStart = u.span.1 →
      lineOpen (f.text.take u.span.1) = false) :
    ∀ (n i : ℕ) (s : Merged × Option Key), i + n = keys.length →
      s.1.text = f.text.take (startOf (buildUnits f.nodes) i) →
      s.2 = (if i = 0 then none else keys[i - 1]?) →
      ((keys.drop i).foldl (mergeKey ctx level base units) s).1.text =
          f.text.take (startOf (buildUnits f.nodes) keys.length) ∧
        ((keys.drop i).foldl (mergeKey ctx level base units) s).1.conflicts = s.1.conflicts
  | 0, i, s, hi, htext, _ => by
      obtain rfl : i = keys.length := hi
      rw [List.drop_length]
      exact ⟨htext, rfl⟩
  | n + 1, i, s, hi, htext, hlast => by
      obtain ⟨key, hkey⟩ := exists_getElem? (l := keys) (i := i) (by omega)
      obtain ⟨u, hu⟩ := exists_getElem? (l := buildUnits f.nodes) (i := i) (by omega)
      have hmem := List.mem_of_getElem? hu
      obtain ⟨hstep, hclean, hnext⟩ := mergeKey_spells level
        (hlast ▸ hspells i key u hkey hu) htext (gapStart_buildUnits hu) (hlaid u hmem)
        (hline u hmem)
      obtain ⟨hall, hconflicts⟩ := foldl_spells hlaid hlen hspells hline n (i + 1)
        (mergeKey ctx level base units s key) (by omega)
        (hstep.trans (by rw [startOf_succ hu])) (hnext.trans (by simpa using hkey.symm))
      rw [List.drop_eq_getElem?_toList_append, hkey, Option.toList_some, List.singleton_append,
        List.foldl_cons]
      exact ⟨hall, hconflicts.trans hclean⟩

theorem length_leadText (m : Merged) (gap : Bytes) : gap.length ≤ (leadText m gap).length := by
  unfold leadText
  split_ifs with h
  · rw [h.1]
    exact Nat.zero_le _
  · exact le_rfl

/-- Keys that each spell their unit put out no less than the text, and the text only where
no line break is put before a unit. -/
theorem ownLine_of_foldl (hlaid : Laid f) (hlen : keys.length = (buildUnits f.nodes).length)
    (hspells : ∀ i key u, keys[i]? = some key → (buildUnits f.nodes)[i]? = some u →
      Spells ctx base units f (if i = 0 then none else keys[i - 1]?) key u) :
    ∀ (n i : ℕ) (s : Merged × Option Key), i + n = keys.length →
      s.2 = (if i = 0 then none else keys[i - 1]?) →
      startOf (buildUnits f.nodes) keys.length + s.1.text.length ≤
          ((keys.drop i).foldl (mergeKey ctx level base units) s).1.text.length +
            startOf (buildUnits f.nodes) i ∧
        (s.1.text = f.text.take (startOf (buildUnits f.nodes) i) →
          startOf (buildUnits f.nodes) i ≤ f.text.length →
          ((keys.drop i).foldl (mergeKey ctx level base units) s).1.text.length =
            startOf (buildUnits f.nodes) keys.length →
          ∀ j u, i ≤ j → (buildUnits f.nodes)[j]? = some u → u.gapStart = u.span.1 →
            lineOpen (f.text.take u.span.1) = false)
  | 0, i, s, hi, _ => by
      obtain rfl : i = keys.length := hi
      rw [List.drop_length, Nat.add_comm]
      refine ⟨le_rfl, fun _ _ _ j u hj hu => ?_⟩
      exact absurd (List.getElem?_eq_some_iff.mp hu).1 (by omega)
  | n + 1, i, s, hi, hlast => by
      obtain ⟨key, hkey⟩ := exists_getElem? (l := keys) (i := i) (by omega)
      obtain ⟨u, hu⟩ := exists_getElem? (l := buildUnits f.nodes) (i := i) (by omega)
      obtain ⟨hgapLe, hlt, hend⟩ := hlaid u (List.mem_of_getElem? hu)
      have hstart := gapStart_buildUnits hu
      obtain ⟨htext, -, hnext⟩ := mergeKey_text level (hlast ▸ hspells i key u hkey hu)
        ⟨hlt, hend⟩
      obtain ⟨hlonger, hlines⟩ := ownLine_of_foldl hlaid hlen hspells n (i + 1)
        (mergeKey ctx level base units s key) (by omega) (hnext.trans (by simpa using hkey.symm))
      rw [startOf_succ hu] at hlonger hlines
      rw [List.drop_eq_getElem?_toList_append, hkey, Option.toList_some, List.singleton_append,
        List.foldl_cons]
      have hlead := length_leadText (s.1.conflict []) (gapText f.text u)
      have hlength := congrArg List.length htext
      have hgapLength : (gapText f.text u).length = u.span.1 - u.gapStart := by
        simp only [gapText, slice, List.length_drop, List.length_take]
        omega
      have hunitLength : (u.text f.text).length = u.span.2 - u.span.1 := by
        simp only [Unit.text, slice, List.length_drop, List.length_take]
        omega
      simp only [List.length_append] at hlength
      refine ⟨by omega, fun hs hle hall j w hj hw hempty => ?_⟩
      have hsLength : s.1.text.length = startOf (buildUnits f.nodes) i := by
        rw [hs, List.length_take]
        omega
      -- No line break is put here, so the output is still the text.
      have hexact : leadText (s.1.conflict []) (gapText f.text u) = gapText f.text u := by
        rcases leadText_eq (s.1.conflict []) (gapText f.text u) with h | ⟨hnil, h⟩
        · exact h
        · rw [hnil] at hgapLength
          rw [h] at hlength
          simp only [List.length_cons, List.length_nil] at hlength hgapLength
          omega
      have hprefix : (mergeKey ctx level base units s key).1.text = f.text.take u.span.2 := by
        rw [htext, hexact, hs, ← hstart, gapText, take_append_slice hgapLe]
        exact take_append_slice hlt.le
      rcases Nat.lt_or_eq_of_le hj with hlater | rfl
      · exact hlines hprefix hend hall j w hlater hw hempty
      · obtain rfl : u = w := Option.some.inj (hu.symm.trans hw)
        by_contra hopen
        have hnil : gapText f.text u = [] := by
          rw [← List.length_eq_zero_iff]
          omega
        have hbreak : leadText (s.1.conflict []) (gapText f.text u) = [10] := by
          refine if_pos ⟨hnil, ?_⟩
          have hsame : (s.1.conflict []).text = f.text.take u.span.1 := by
            rw [← hempty, hstart]
            exact hs
          rw [hsame]
          exact Bool.eq_true_of_not_eq_false hopen
        rw [hexact, hnil] at hbreak
        exact List.cons_ne_nil _ _ hbreak.symm

end Spelling

/-- The other side of the level is the base, and has no renames. -/
structure OneSided (ctx : Ctx) (base : List Unit) (units : Side → List Unit) (e : Side) :
    Prop where
  same : units e.other = base
  recorded : ∀ s, ctx.recorded s = []
  baseText : ctx.base = some (ctx.text e.other)
  edits : ctx.edits e = []
  renames : ctx.renames e.other = []
  distinct : (base.map Unit.nid).Nodup

/-- The key before another. -/
def keyBefore (keys : List Key) (key : Key) : Option Key :=
  (keys.idxOf? key).bind fun i => if i = 0 then none else keys[i - 1]?

section OneSided

variable {ctx : Ctx} {base : List Unit} {units : Side → List Unit} {e : Side} {key : Key}
  {y : Unit} (h : OneSided ctx base units e)
include h

theorem OneSided.level_other : sideLevel ctx base units e.other = baseLevel base := by
  rw [sideLevel, h.same, h.recorded, keys_self h.distinct]
  rfl

theorem OneSided.found_other : found ctx base units key e.other = baseAt base key := by
  rw [found, h.level_other]
  rfl

omit h in
theorem changed_self (v : Unit) : changed v v = false := by simp [changed]

omit h in
/-- The second side gives its units itself. -/
theorem OneSided.verdict_second (h : OneSided ctx base units .b)
    (hy : found ctx base units key .b = some y) :
    verdictAt ctx base units key = .emit [] .b y := by
  have hother : found ctx base units key .a = baseAt base key := h.found_other
  have hbase : ctx.base = some (ctx.text .a) := h.baseText
  rw [verdictAt_eq, hy, hother]
  cases hv : baseAt base key with
  | none => rfl
  | some v =>
      cases hchanged : changed v y with
      | true => simp only [verdict, hchanged, changed_self]
      | false =>
          simp only [verdict, hchanged, changed_self, hbase, Option.elim_some]
          exact if_neg (not_not.mpr rfl)

/-- A unit of the side is put out from it, or from the base where nothing of it changed. -/
theorem OneSided.verdict_of_found (hy : found ctx base units key e = some y) :
    verdictAt ctx base units key = .emit [] e y ∨ ∃ v, baseAt base key = some v ∧
      changed v y = false ∧ y.text (ctx.text e) = v.text (ctx.text e.other) ∧
      verdictAt ctx base units key = .emit [] e.other v := by
  cases e with
  | b => exact Or.inl (h.verdict_second hy)
  | a =>
      have hother : found ctx base units key .b = baseAt base key := h.found_other
      have hbase : ctx.base = some (ctx.text .b) := h.baseText
      rw [verdictAt_eq, hy, hother]
      cases hv : baseAt base key with
      | none => exact Or.inl rfl
      | some v =>
          cases hchanged : changed v y with
          | true => exact Or.inl (by simp only [verdict, hchanged, changed_self])
          | false =>
              by_cases htext : y.text (ctx.text .a) = v.text (ctx.text .b)
              · refine Or.inr ⟨v, rfl, hchanged, htext, ?_⟩
                simp only [verdict, hchanged, changed_self, hbase, Option.elim_some]
                exact if_neg (not_not.mpr htext)
              · refine Or.inl ?_
                simp only [verdict, hchanged, changed_self, hbase, Option.elim_some]
                exact if_pos htext

theorem OneSided.verdict_of_none (hnone : found ctx base units key e = none) :
    verdictAt ctx base units key = .nothing := by
  have hother : found ctx base units key e.other = baseAt base key := h.found_other
  rw [verdictAt_eq]
  cases e with
  | a =>
      change found ctx base units key .b = _ at hother
      rw [hnone, hother]
      cases baseAt base key with
      | none => rfl
      | some v => simp [verdict, changed_self]
  | b =>
      change found ctx base units key .a = _ at hother
      rw [hnone, hother]
      cases baseAt base key with
      | none => rfl
      | some v => simp [verdict, changed_self]

omit h in
theorem renamed_of_no_edits {side : Side} {u : Unit} (hedits : ctx.edits side = [])
    (hle : u.span.1 ≤ u.span.2) (hend : u.span.2 ≤ (ctx.text side).length) :
    (renamed ctx side u).1 = u.text (ctx.text side) := by
  rw [renamed, hedits, applyEdits]
  simp only [List.foldl_nil, List.nil_append, Nat.min_eq_left hend, Nat.min_eq_left hle]
  rfl

theorem OneSided.idxOf?_key {i : ℕ} (hi : (sideLevel ctx base units e).keys[i]? = some key) :
    (sideLevel ctx base units e).keys.idxOf? key = some i := by
  have hlined : (sideLevel ctx base units e).Lined := lined_sideLevel ctx h.distinct units e
  obtain ⟨hilt, hkey⟩ := List.getElem?_eq_some_iff.mp hi
  refine List.idxOf?_eq_some_iff.mpr ⟨hilt, hkey, fun j hj heq => ?_⟩
  exact hj.ne ((List.Nodup.getElem_inj_iff hlined.distinct).mp (heq.trans hkey.symm))

theorem OneSided.found_getElem {i : ℕ} (hi : (sideLevel ctx base units e).keys[i]? = some key)
    (hu : (units e)[i]? = some y) : found ctx base units key e = some y :=
  ((lined_sideLevel ctx h.distinct units e).find_getElem hi).trans hu

theorem OneSided.linedGap_own {i : ℕ} (hi : (sideLevel ctx base units e).keys[i]? = some key)
    (hu : (units e)[i]? = some y) :
    linedGap ctx (sideLevel ctx base units) key
      (if i = 0 then none else (sideLevel ctx base units e).keys[i - 1]?) e =
        some (gapText (ctx.text e) y) :=
  linedGap_eq_some (h.idxOf?_key hi) hu rfl

/-- A unit that the side itself gives is spelled. -/
theorem OneSided.spells_own {f : FileNodes} (htext : f.text = ctx.text e) {i : ℕ}
    (hi : (sideLevel ctx base units e).keys[i]? = some key) (hu : (units e)[i]? = some y)
    (hlaid : y.gapStart ≤ y.span.1 ∧ y.span.1 < y.span.2 ∧ y.span.2 ≤ f.text.length)
    (hverdict : verdictAt ctx base units key = .emit [] e y) :
    Spells ctx base units f (if i = 0 then none else (sideLevel ctx base units e).keys[i - 1]?)
      key y := by
  refine ⟨e, y, hverdict, ?_, ?_⟩
  · rw [htext]
    exact renamed_of_no_edits h.edits hlaid.2.1.le (htext ▸ hlaid.2.2)
  · rw [gapBefore_eq, h.linedGap_own hi hu, htext]
    rfl

/-- A side's unit is spelled, an untouched one under conditions. -/
theorem OneSided.spells {f : FileNodes} (htext : f.text = ctx.text e) {i : ℕ}
    (hi : (sideLevel ctx base units e).keys[i]? = some key) (hu : (units e)[i]? = some y)
    (hlaid : y.gapStart ≤ y.span.1 ∧ y.span.1 < y.span.2 ∧ y.span.2 ≤ f.text.length)
    (huntouched : ∀ v, baseAt base key = some v → changed v y = false →
      y.text (ctx.text e) = v.text (ctx.text e.other) →
        (renamed ctx e.other v).1 = v.text (ctx.text e.other) ∧
          (gapText (ctx.text e) y = gapText (ctx.text e.other) v ∨
            keyBefore (sideLevel ctx base units e).keys key ≠
              keyBefore (baseLevel base).keys key)) :
    Spells ctx base units f (if i = 0 then none else (sideLevel ctx base units e).keys[i - 1]?)
      key y := by
  rcases h.verdict_of_found (h.found_getElem hi hu) with hverdict | ⟨v, hv, hsame, hunit, hverdict⟩
  · exact h.spells_own htext hi hu hlaid hverdict
  · obtain ⟨hrenamed, hgap⟩ := huntouched v hv hsame hunit
    refine ⟨e.other, v, hverdict, by rw [hrenamed, htext, hunit], ?_⟩
    obtain ⟨j, hj, hjv⟩ := Option.bind_eq_some_iff.mp hv
    have hlevel := h.level_other
    have hj' : (sideLevel ctx base units e.other).keys.idxOf? key = some j := by
      rw [hlevel]
      exact hj
    have hjv' : (sideLevel ctx base units e.other).units[j]? = some v := by
      rw [hlevel]
      exact hjv
    have htwice : e.other.other = e := by cases e <;> rfl
    rw [gapBefore_eq, htwice, h.linedGap_own hi hu, htext]
    by_cases hpred : (if j = 0 then none
        else (sideLevel ctx base units e.other).keys[j - 1]?) =
        if i = 0 then none else (sideLevel ctx base units e).keys[i - 1]?
    · rw [linedGap_eq_some hj' hjv' hpred]
      refine (hgap.resolve_right (not_not.mpr ?_)).symm
      rw [keyBefore, keyBefore, h.idxOf?_key hi, ← hlevel, hj']
      exact hpred.symm
    · rw [linedGap_eq_none hj' hpred]
      rfl

/-- No unit that the base knows takes a name that the base gives another of its kind. -/
def Unclaimed (base : List Unit) (units : List Unit) (keys : List Key) : Prop :=
  ∀ p ∈ units.zip keys, ∀ nid v, p.2 = .id nid → baseAt base p.2 = some v →
    p.1.name ≠ v.name → isIdent p.1.name = true →
      ∀ x ∈ base, x.nid ≠ nid → x.kind = p.1.kind → x.name ≠ p.1.name

omit h in
theorem zip_baseLevel : (baseLevel base).units.zip (baseLevel base).keys =
    base.map fun u => (u, .id u.nid) := by
  change base.zip (base.map _) = _
  induction base with
  | nil => rfl
  | cons u rest ih => rw [List.map_cons, List.zip_cons_cons, ih, List.map_cons]

theorem OneSided.collision_own {p : Unit × Key}
    (hp : p ∈ (units e).zip (sideLevel ctx base units e).keys)
    (hfree : Unclaimed base (units e) (sideLevel ctx base units e).keys) :
    collision ctx (baseLevel base) (sideLevel ctx base units) e p = none := by
  obtain ⟨u, key⟩ := p
  cases key with
  | new kind name ordinal => simp [collision, h.renames]
  | id nid =>
      cases hv : (baseLevel base).find (.id nid) with
      | none => simp [collision, hv]
      | some v =>
          by_cases hname : u.name = v.name ∨ (!isIdent u.name) = true
          · simp only [collision, hv, Option.bind_eq_bind, Option.bind_some, if_pos hname]
          · push Not at hname
            have hclaim : ∀ x ∈ base, x.nid ≠ nid → x.kind = u.kind → x.name ≠ u.name :=
              hfree (u, .id nid) hp nid v rfl hv hname.1 (by simpa using hname.2)
            have hnone : (baseLevel base).units.any
                (fun x => x.nid ≠ nid ∧ x.kind = u.kind ∧ x.name = u.name) = false := by
              refine List.any_eq_false.mpr fun x hx => ?_
              simp only [decide_eq_true_eq, not_and]
              exact hclaim x hx
            simp only [collision, hv, Option.bind_eq_bind, Option.bind_some, hnone]
            rw [if_neg (by simpa [not_or] using hname), if_neg Bool.false_ne_true]
            refine Option.bind_eq_none_iff.mpr fun o ho => ?_
            obtain ⟨x, hx, hfound⟩ := List.exists_of_findSome?_eq_some ho
            rw [h.level_other, zip_baseLevel] at hx
            obtain ⟨w, hw, rfl⟩ := List.mem_map.mp hx
            simp only at hfound
            split_ifs at hfound with hsame
            exact absurd hsame.2.1 (hclaim w hw hsame.2.2 hsame.1)

/-- A name that is taken is a conflict. -/
theorem OneSided.unclaimed_of_collisions
    (hnone : collisions ctx (baseLevel base) (sideLevel ctx base units) = []) :
    Unclaimed base (units e) (sideLevel ctx base units e).keys := by
  rintro ⟨u, key⟩ hp nid v hkey hv hname hident x hx hne hkind hclaim
  obtain rfl : key = .id nid := hkey
  have hnone' :
      collision ctx (baseLevel base) (sideLevel ctx base units) e (u, .id nid) = none := by
    have hside : e ∈ [Side.a, .b] := by cases e <;> simp
    exact List.filterMap_eq_nil_iff.mp (List.flatMap_eq_nil_iff.mp hnone e hside) _ hp
  have hany : (baseLevel base).units.any
      (fun x => x.nid ≠ nid ∧ x.kind = u.kind ∧ x.name = u.name) = true :=
    List.any_eq_true.mpr ⟨x, hx, decide_eq_true ⟨hne, hkind, hclaim⟩⟩
  have hfind : (baseLevel base).find (.id nid) = some v := hv
  simp only [collision, hfind, Option.bind_eq_bind, Option.bind_some, hany] at hnone'
  rw [if_neg (by simpa [not_or] using ⟨hname, hident⟩), if_pos trivial] at hnone'
  exact nomatch hnone'

theorem OneSided.collision_other {p : Unit × Key}
    (hp : p ∈ (units e.other).zip (sideLevel ctx base units e.other).keys) :
    collision ctx (baseLevel base) (sideLevel ctx base units) e.other p = none := by
  rw [h.same, h.level_other] at hp
  change p ∈ (baseLevel base).units.zip (baseLevel base).keys at hp
  rw [zip_baseLevel] at hp
  obtain ⟨w, hw, rfl⟩ := List.mem_map.mp hp
  obtain ⟨i, hi⟩ := List.mem_iff_getElem?.mp hw
  have hkey : (baseLevel base).keys[i]? = some (.id w.nid) := by
    simp [baseLevel, hi]
  have hfind : (baseLevel base).find (.id w.nid) = some w :=
    ((lined_baseLevel h.distinct).find_getElem hkey).trans hi
  simp only [collision, hfind, Option.bind_eq_bind, Option.bind_some]
  exact if_pos (Or.inl trivial)

theorem OneSided.collisions_eq_nil
    (hfree : Unclaimed base (units e) (sideLevel ctx base units e).keys) :
    collisions ctx (baseLevel base) (sideLevel ctx base units) = [] := by
  have hboth : ∀ side, ((sideLevel ctx base units side).units.zip
      (sideLevel ctx base units side).keys).filterMap
        (collision ctx (baseLevel base) (sideLevel ctx base units) side) = [] := by
    intro side
    refine List.filterMap_eq_nil_iff.mpr fun p hp => ?_
    rcases Side.eq_or_eq_other e side with rfl | rfl
    · exact h.collision_own hp hfree
    · exact h.collision_other hp
  simp only [collisions, List.flatMap_cons, List.flatMap_nil, hboth, List.append_nil]

omit h in
/-- Keys that a fold passes over may be left out of it. -/
theorem foldl_filter_of_fixed {α β : Type} {f : β → α → β} {p : α → Bool} (l : List α)
    (hfixed : ∀ k ∈ l, p k = false → ∀ s, f s k = s) (s : β) :
    l.foldl f s = (l.filter p).foldl f s := by
  induction l generalizing s with
  | nil => rfl
  | cons k l ih =>
      have hrest := ih fun k hk => hfixed k (List.mem_cons_of_mem _ hk)
      rw [List.foldl_cons]
      cases hp : p k with
      | true => rw [List.filter_cons_of_pos hp, List.foldl_cons, hrest]
      | false =>
          rw [List.filter_cons_of_neg (by simp [hp]), hfixed k List.mem_cons_self hp, hrest]

theorem OneSided.levelKeys_filter
    (hkept : ((sideLevel ctx base units e).keys.filter (· ∈ (baseLevel base).keys)).Sublist
      (baseLevel base).keys) :
    (levelKeys ctx base units).filter (· ∈ (sideLevel ctx base units e).keys) =
      (sideLevel ctx base units e).keys := by
  have hbase := (lined_baseLevel h.distinct).distinct
  have hside : (sideLevel ctx base units e).keys.Nodup :=
    (lined_sideLevel ctx h.distinct units e).distinct
  have hlevel := h.level_other
  have hall : levelKeys ctx base units =
      ((sideLevel ctx base units e).keys.foldl (insertKey (baseLevel base).keys)
        ((baseLevel base).keys, none)).1 := by
    unfold levelKeys orderedKeys
    cases e with
    | a =>
        change sideLevel ctx base units .b = _ at hlevel
        rw [hlevel]
        refine insertKeys_of_subset (fun k hk => hk) _ (fun k hk => ?_) none
        exact (mem_insertKeys _ _).mpr (Or.inl hk)
    | b =>
        change sideLevel ctx base units .a = _ at hlevel
        rw [hlevel]
        have hsame := insertKeys_of_subset (fun k hk => hk) (baseLevel base).keys
          (fun k hk => hk) none
        simp only [hsame]
  rw [hall]
  exact filter_insertKeys hbase hside hkept

theorem OneSided.mergeKey_of_none {level : List Unit → (Side → List Unit) → Merged → Merged}
    (hkey : key ∉ (sideLevel ctx base units e).keys) (s : Merged × Option Key) :
    mergeKey ctx level base units s key = s := by
  have hnone : found ctx base units key e = none := by
    rw [found, Level.find, List.idxOf?_eq_none_iff.mpr hkey]
    rfl
  simp only [mergeKey, h.verdict_of_none hnone]
  rw [if_neg (not_not.mpr rfl)]

theorem OneSided.mergeLevel_eq (fuel : ℕ) (m : Merged)
    (hkept : ((sideLevel ctx base units e).keys.filter (· ∈ (baseLevel base).keys)).Sublist
      (baseLevel base).keys) :
    mergeLevel ctx (fuel + 1) base units m =
      ((sideLevel ctx base units e).keys.foldl (mergeKey ctx (mergeLevel ctx fuel) base units)
        (m.conflict (collisions ctx (baseLevel base) (sideLevel ctx base units)), none)).1 := by
  have hskip : ∀ key ∈ levelKeys ctx base units,
      decide (key ∈ (sideLevel ctx base units e).keys) = false →
        ∀ s, mergeKey ctx (mergeLevel ctx fuel) base units s key = s :=
    fun key _ hkey s => h.mergeKey_of_none (of_decide_eq_false hkey) s
  rw [mergeLevel, foldl_filter_of_fixed _ hskip, h.levelKeys_filter hkept]

end OneSided

section Files

variable (locate : Bytes → List Rename → List Edit) (base b : FileNodes)

/-- Where renames land in a text, by the parser when there are any. -/
def located (text : Bytes) (renames : List Rename) : List Edit :=
  if renames = [] then [] else locate text renames

def unitKeys : List Key := keys (buildUnits base.nodes) (buildUnits b.nodes) []

/-- The merge is without conflicts, and it is the version. -/
def Reproduced (file : Side → FileNodes) : Prop :=
  (mergeFile (located locate) (some base) file fun _ => []).conflicts = [] ∧
    (mergeFile (located locate) (some base) file fun _ => []).text = b.text

instance (file : Side → FileNodes) : Decidable (Reproduced locate base b file) :=
  inferInstanceAs (Decidable (_ ∧ _))

/-- What a side may do to the base so that the merge with the base is the side. -/
structure Neutral : Prop where
  /-- It keeps the order of the base's units that it keeps. -/
  ordered : ((unitKeys base b).filter (· ∈ (baseLevel (buildUnits base.nodes)).keys)).Sublist
    (baseLevel (buildUnits base.nodes)).keys
  /-- It has no unit directly behind the one before it, in one line with something. -/
  ownLine : ∀ u ∈ buildUnits b.nodes, u.gapStart = u.span.1 →
    lineOpen (b.text.take u.span.1) = false
  unclaimed : Unclaimed (buildUnits base.nodes) (buildUnits b.nodes) (unitKeys base b)
  /-- Of what it leaves as it is no name is renamed, and the text before it stays, unless it
  comes behind another unit. -/
  untouched : ∀ p ∈ (buildUnits b.nodes).zip (unitKeys base b), ∀ v,
    baseAt (buildUnits base.nodes) p.2 = some v → changed v p.1 = false →
      p.1.text b.text = v.text base.text →
        (applyEdits base.text v.span.1 v.span.2
          (located locate base.text (inferredRenames base.nodes b.nodes))).1 = v.text base.text ∧
        (gapText b.text p.1 = gapText base.text v ∨
          keyBefore (unitKeys base b) p.2 ≠
            keyBefore (baseLevel (buildUnits base.nodes)).keys p.2)

variable {locate base b} {file : Side → FileNodes} {e : Side}

theorem inferredRenames_self {nodes : List Node} (h : InOrder nodes) :
    inferredRenames nodes nodes = [] := by
  refine List.filterMap_eq_nil_iff.mpr fun n hn => Option.bind_eq_none_iff.mpr fun b hb => ?_
  have hmem : b ∈ nodes := List.mem_reverse.mp (List.mem_of_find?_eq_some hb)
  have hnid : b.nid = n.nid := by simpa using List.find?_some hb
  obtain rfl := List.inj_on_of_nodup_map h.distinct hmem hn hnid
  exact if_neg fun hname => hname.1 rfl

theorem oneSided_fileCtx (hbase : InOrder base.nodes) (hother : file e.other = base) :
    OneSided (fileCtx (located locate) (some base) file fun _ => []) (buildUnits base.nodes)
      (sideUnits file) e := by
  have hnone : (fileCtx (located locate) (some base) file fun _ => []).renames e.other = [] := by
    change allRenames (inferredRenames base.nodes (file e.other).nodes) [] = []
    rw [hother, inferredRenames_self hbase]
    rfl
  exact {
    same := by rw [sideUnits, hother]
    recorded := fun _ => rfl
    baseText := by
      change some base.text = some (file e.other).text
      rw [hother]
    edits := if_pos hnone
    renames := hnone
    distinct := nodup_nids hbase.nodup_ids }

theorem tail_neutral (he : file e = b) (hother : file e.other = base) :
    tail (file (regionSide (some (tail base)) (tail (file .a)))) = tail b := by
  cases e with
  | a =>
      change file .b = base at hother
      rw [he, regionSide]
      split_ifs with hsame
      · rw [hother]
        exact (Option.some.inj hsame).symm
      · rw [he]
  | b =>
      change file .a = base at hother
      rw [hother, regionSide, if_pos rfl, he]

theorem text_mergeFile (he : file e = b) (hother : file e.other = base) :
    (mergeFile (located locate) (some base) file fun _ => []).text =
      (mergeLevel (fileCtx (located locate) (some base) file fun _ => [])
        ((file .a).nodes.length + 1) (buildUnits base.nodes) (sideUnits file)
        ⟨[], [], []⟩).text ++ tail b := by
  rw [← tail_neutral he hother]
  simp [mergeFile, Merged.put, Merged.text]
  rfl

theorem keys_neutral (he : file e = b) :
    (sideLevel (fileCtx (located locate) (some base) file fun _ => []) (buildUnits base.nodes)
      (sideUnits file) e).keys = unitKeys base b := by
  rw [unitKeys, ← he]
  rfl

theorem length_unitKeys : (unitKeys base b).length = (buildUnits b.nodes).length := by
  simp [unitKeys, keys]

/-- The units of the side are each spelled by their key. -/
def Spelled (locate : Bytes → List Rename → List Edit) (base b : FileNodes)
    (file : Side → FileNodes) : Prop :=
  ∀ i key u, (unitKeys base b)[i]? = some key → (buildUnits b.nodes)[i]? = some u →
    Spells (fileCtx (located locate) (some base) file fun _ => []) (buildUnits base.nodes)
      (sideUnits file) b (if i = 0 then none else (unitKeys base b)[i - 1]?) key u

section Spelled

variable (hbase : InOrder base.nodes) (hlaid : Laid b) (he : file e = b)
  (hother : file e.other = base) (hordered : ((unitKeys base b).filter
    (· ∈ (baseLevel (buildUnits base.nodes)).keys)).Sublist
      (baseLevel (buildUnits base.nodes)).keys) (hspells : Spelled locate base b file)
include hbase hlaid he hother hordered hspells

theorem mergeFile_spelled
    (hunclaimed : Unclaimed (buildUnits base.nodes) (buildUnits b.nodes) (unitKeys base b))
    (hline : ∀ u ∈ buildUnits b.nodes, u.gapStart = u.span.1 →
      lineOpen (b.text.take u.span.1) = false) : Reproduced locate base b file := by
  have hone : OneSided (fileCtx (located locate) (some base) file fun _ => [])
    (buildUnits base.nodes) (sideUnits file) e := oneSided_fileCtx hbase hother
  have hkeys := @keys_neutral locate base b file e he
  have hcollisions := hone.collisions_eq_nil (by rw [hkeys, sideUnits, he]; exact hunclaimed)
  have hlevel := hone.mergeLevel_eq (file .a).nodes.length ⟨[], [], []⟩ (hkeys ▸ hordered)
  rw [hcollisions, hkeys] at hlevel
  obtain ⟨htext, hconflicts⟩ := @foldl_spells _ _ _ (mergeLevel (fileCtx (located locate)
      (some base) file fun _ => []) (file .a).nodes.length) _ _ hlaid length_unitKeys hspells hline
    (unitKeys base b).length 0 ((⟨[], [], []⟩ : Merged).conflict [], none) (Nat.zero_add _) rfl rfl
  rw [List.drop_zero, ← hlevel] at htext hconflicts
  refine ⟨hconflicts, ?_⟩
  rw [text_mergeFile he hother, htext, length_unitKeys, startOf_length]
  exact List.take_append_drop _ _

theorem ownLine_of_mergeFile
    (htext : (mergeFile (located locate) (some base) file fun _ => []).text = b.text) :
    ∀ u ∈ buildUnits b.nodes, u.gapStart = u.span.1 →
      lineOpen (b.text.take u.span.1) = false := by
  intro u hu hempty
  have hone : OneSided (fileCtx (located locate) (some base) file fun _ => [])
    (buildUnits base.nodes) (sideUnits file) e := oneSided_fileCtx hbase hother
  have hkeys := @keys_neutral locate base b file e he
  have hlevel := hone.mergeLevel_eq (file .a).nodes.length ⟨[], [], []⟩ (hkeys ▸ hordered)
  rw [hkeys] at hlevel
  have hstart : startOf (buildUnits b.nodes) (unitKeys base b).length ≤ b.text.length := by
    rw [length_unitKeys, startOf_length]
    cases hlast : (buildUnits b.nodes).getLast? with
    | none => exact Nat.zero_le _
    | some w => exact (hlaid w (List.mem_of_getLast? hlast)).2.2
  rw [text_mergeFile he hother, hlevel] at htext
  have hlength := congrArg List.length htext
  rw [List.length_append, tail, List.length_drop, ← startOf_length, ← length_unitKeys] at hlength
  obtain ⟨j, hj⟩ := List.mem_iff_getElem?.mp hu
  have hlines := (@ownLine_of_foldl _ _ _ (mergeLevel (fileCtx (located locate) (some base) file
      fun _ => []) (file .a).nodes.length) _ _ hlaid length_unitKeys hspells
    (unitKeys base b).length 0 ((⟨[], [], []⟩ : Merged).conflict (collisions (fileCtx
      (located locate) (some base) file fun _ => []) (baseLevel (buildUnits base.nodes))
      (sideLevel (fileCtx (located locate) (some base) file fun _ => []) (buildUnits base.nodes)
        (sideUnits file))), none) (Nat.zero_add _) rfl).2 rfl (Nat.zero_le _)
  rw [List.drop_zero] at hlines
  exact hlines (Nat.add_right_cancel (hlength.trans (Nat.add_sub_cancel' hstart).symm)) j u
    (Nat.zero_le j) hj hempty

end Spelled

variable (hbase : InOrder base.nodes) (hlaid : Laid b)
include hbase hlaid

/-- The merge with the base as the other side is the side. -/
theorem mergeFile_neutral (hneutral : Neutral locate base b) (he : file e = b)
    (hother : file e.other = base) : Reproduced locate base b file := by
  have hone : OneSided (fileCtx (located locate) (some base) file fun _ => [])
    (buildUnits base.nodes) (sideUnits file) e := oneSided_fileCtx hbase hother
  let ctx := fileCtx (located locate) (some base) file fun _ => []
  have hkeys := @keys_neutral locate base b file e he
  have hunits : sideUnits file e = buildUnits b.nodes := by rw [sideUnits, he]
  have htext : b.text = ctx.text e := by
    change b.text = (file e).text
    rw [he]
  have htextOther : ctx.text e.other = base.text := by
    change (file e.other).text = base.text
    rw [hother]
  have hedits : ctx.edits e.other =
      located locate base.text (inferredRenames base.nodes b.nodes) := by
    change located locate (file e.other).text
      (allRenames (inferredRenames base.nodes (file e.other.other).nodes) []) = _
    have htwice : e.other.other = e := by cases e <;> rfl
    rw [hother, htwice, he]
    rfl
  refine mergeFile_spelled hbase hlaid he hother hneutral.ordered (fun i key u hi hu => ?_)
    hneutral.unclaimed hneutral.ownLine
  have hzip : (u, key) ∈ (buildUnits b.nodes).zip (unitKeys base b) :=
    List.mem_iff_getElem?.mpr ⟨i, List.getElem?_zip_eq_some.mpr ⟨hu, hi⟩⟩
  have hspell := hone.spells htext (hkeys ▸ hi) (hunits ▸ hu)
    (hlaid u (List.mem_of_getElem? hu)) fun v hv hchanged hsame => by
      rw [← htext, htextOther] at hsame
      have huntouched := hneutral.untouched (u, key) hzip v hv hchanged hsame
      rw [hkeys, ← htext, htextOther, renamed, htextOther, hedits]
      exact huntouched
  rwa [hkeys] at hspell

/-- With the base first and its order kept, the merge is the second side but for names that
are taken and for units that are not on a line of their own. -/
theorem mergeFile_second_iff (hordered : ((unitKeys base b).filter
      (· ∈ (baseLevel (buildUnits base.nodes)).keys)).Sublist
        (baseLevel (buildUnits base.nodes)).keys) :
    Reproduced locate base b (sides base b) ↔
      Unclaimed (buildUnits base.nodes) (buildUnits b.nodes) (unitKeys base b) ∧
        ∀ u ∈ buildUnits b.nodes, u.gapStart = u.span.1 →
          lineOpen (b.text.take u.span.1) = false := by
  have hone : OneSided (fileCtx (located locate) (some base) (sides base b) fun _ => [])
    (buildUnits base.nodes) (sideUnits (sides base b)) .b := oneSided_fileCtx hbase rfl
  have hspells : Spelled locate base b (sides base b) := fun i key u hi hu =>
    hone.spells_own rfl hi hu (hlaid u (List.mem_of_getElem? hu))
      (hone.verdict_second (hone.found_getElem hi hu))
  constructor
  · rintro ⟨hclean, htext⟩
    have hlined := @ownLine_of_mergeFile locate base b (sides base b) .b hbase hlaid rfl rfl
      hordered hspells htext
    refine ⟨hone.unclaimed_of_collisions ?_, hlined⟩
    rw [conflicts_mergeFile, Walk.ofFile, Walk.run] at hclean
    exact (List.append_eq_nil_iff.mp hclean).1
  · rintro ⟨hunclaimed, hline⟩
    exact mergeFile_spelled (e := .b) hbase hlaid rfl rfl hordered hspells hunclaimed hline

end Files

section Versions

/-- The function `b` edited in the file of two functions. -/
def edited : FileNodes where
  text := ascii "fn a() {}\nfn b() {1}"
  nodes := [sampleNode 1 "function" "a" (0, 9) 11 none,
    sampleNode 2 "function" "b" (10, 20) 13 none]

/-- The functions in the other order. -/
def exchanged : FileNodes where
  text := ascii "fn b() {}\nfn a() {}"
  nodes := [sampleNode 2 "function" "b" (0, 9) 12 none,
    sampleNode 1 "function" "a" (10, 19) 11 none]

/-- The first function under the name of the second. -/
def namedTwice : FileNodes where
  text := ascii "fn b() {}\nfn b() {}"
  nodes := [sampleNode 1 "function" "b" (0, 9) 11 none,
    sampleNode 2 "function" "b" (10, 19) 12 none]

/-- The second function with a mention of the first, which has the name. -/
def mention (name : String) : FileNodes where
  text := ascii "fn " ++ ascii name ++ ascii "() {}\nfn b() {a}"
  nodes := [sampleNode 1 "function" name (0, 9) 11 none,
    sampleNode 2 "function" "b" (10, 20) 14 none]

/-- The two places where the first function is named, when it is renamed to `z`. -/
def mentions : Bytes → List Rename → List Edit :=
  fun _ _ => [⟨3, 4, ascii "z", [0]⟩, ⟨18, 19, ascii "z", [0]⟩]

end Versions

end Tessra.Semantic.Merge
