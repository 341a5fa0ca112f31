import Tessra.Oplog.ViewRefine

namespace Tessra.Oplog

open Tessra.Core Tessra.Data StoreM

/-! The laws of the view merge: a side that did not change gives way to the
other, and the two sides may be taken in either order. -/

section Parts

/-! What each part of a view merges to. -/

theorem threeWay_left (policy : MergePolicy) (base a : Option TrieValue) :
    threeWay policy base a base = a := by
  unfold threeWay
  split_ifs with h
  · exact h.symm
  · rfl
  · simp_all

theorem threeWay_right (policy : MergePolicy) (base b : Option TrieValue) :
    threeWay policy base base b = b := by
  simp [threeWay]

theorem union_left {fbase fa : Bytes → Option TrieValue} (ha : IsSet fa) (hbase : IsSet fbase)
    (hgrows : ∀ k, fbase k = some .set → fa k = some .set) (k : Bytes) :
    Contents.union [fbase, fa, fbase] k = fa k := by
  cases hk : fa k with
  | some x => simp [Contents.union, hk, ha k x hk]
  | none =>
      cases hb : fbase k with
      | none => simp [Contents.union, hk, hb]
      | some x =>
          obtain rfl := hbase k x hb
          rw [hgrows k hb] at hk
          cases hk

theorem union_right {fbase fb : Bytes → Option TrieValue} (hb : IsSet fb)
    (hbase : IsSet fbase) (hgrows : ∀ k, fbase k = some .set → fb k = some .set)
    (k : Bytes) : Contents.union [fbase, fbase, fb] k = fb k := by
  rw [← union_left hb hbase hgrows k]
  have hswap : [fbase, fbase, fb].any (fun f => (f k).isSome) =
      [fbase, fb, fbase].any fun f => (f k).isSome := by
    cases hk : (fbase k).isSome <;> simp [hk]
  rw [Contents.union, hswap, Contents.union]

variable {α : Type} [LinearOrder α]

theorem mem_mergeSetVec {base a b : List α} {x : α} : x ∈ mergeSetVec base a b ↔
    (x ∈ a ∧ x ∈ b) ∨ (x ∈ a ∧ x ∉ base) ∨ (x ∈ b ∧ x ∉ base) := by
  simp only [mergeSetVec, List.mem_filter, mem_sortedDedup, List.mem_append, decide_eq_true_eq]
  tauto

theorem mergeSetVec_left (base : List α) {a : List α} (ha : a.Pairwise (· < ·)) :
    mergeSetVec base a base = a := by
  apply (mergeSetVec_pairwise base a base).eq_of_mem_iff ha
  intro x
  rw [mem_mergeSetVec]
  tauto

theorem mergeSetVec_comm (base a b : List α) : mergeSetVec base a b = mergeSetVec base b a := by
  apply (mergeSetVec_pairwise base a b).eq_of_mem_iff (mergeSetVec_pairwise base b a)
  intro x
  rw [mem_mergeSetVec, mem_mergeSetVec]
  tauto

theorem get?_mergeDeployed (base a b : OrdMap EntityId ObjectId) (target : EntityId) :
    (mergeDeployed base a b).get? target =
      mergeDeployedAt (base.get? target) (a.get? target) (b.get? target) := by
  rw [mergeDeployed, OrdMap.get?_tabulate]
  split_ifs with htarget
  · rfl
  · simp only [List.mem_append, not_or] at htarget
    rw [OrdMap.get?_eq_none.mpr htarget.1.1, OrdMap.get?_eq_none.mpr htarget.1.2,
      OrdMap.get?_eq_none.mpr htarget.2]
    rfl

theorem mergeDeployed_left (base a : OrdMap EntityId ObjectId) :
    mergeDeployed base a base = a := by
  apply OrdMap.ext
  intro target
  rw [get?_mergeDeployed]
  unfold mergeDeployedAt
  split_ifs with h h'
  · exact h.symm
  · rfl
  · simp at h'

theorem mergeDeployedAt_comm (base a b : Option ObjectId) :
    mergeDeployedAt base a b = mergeDeployedAt base b a := by
  unfold mergeDeployedAt
  by_cases ha : a = base
  · by_cases hb : b = base <;> simp [ha, hb]
  · by_cases hb : b = base
    · simp [ha, hb]
    · by_cases hab : a = b
      · simp [hab]
      · simp only [ha, hb, hab, Ne.symm hab, or_self, if_false]
        cases a <;> cases b <;> simp [min_comm]

theorem mergeDeployed_comm (base a b : OrdMap EntityId ObjectId) :
    mergeDeployed base a b = mergeDeployed base b a := by
  apply OrdMap.ext
  intro target
  rw [get?_mergeDeployed, get?_mergeDeployed, mergeDeployedAt_comm]

theorem mergeLines_left {base a : View} (h : LinesFrom base a) :
    mergeLines base.lines a.lines base.lines = a.lines := by
  apply OrdMap.ext
  intro name
  rw [get?_mergeLines]
  cases hbase : base.lines.get? name with
  | none => cases ha : a.lines.get? name <;> rfl
  | some bs =>
      obtain ⟨x, hx, _⟩ := h.kept hbase
      rw [hx]
      by_cases heq : x = bs
      · simp [mergeLineAt, heq]
      · simp [mergeLineAt, heq]

theorem mergeLines_right {base b : View} (h : LinesFrom base b) :
    mergeLines base.lines base.lines b.lines = b.lines := by
  apply OrdMap.ext
  intro name
  rw [get?_mergeLines]
  cases hbase : base.lines.get? name with
  | none => cases hb : b.lines.get? name <;> rfl
  | some bs =>
      obtain ⟨y, hy, _⟩ := h.kept hbase
      rw [hy]
      by_cases heq : bs = y
      · simp [mergeLineAt, heq]
      · simp [mergeLineAt, heq]

theorem union_swap (fbase fa fb : Bytes → Option TrieValue) :
    Contents.union [fbase, fa, fb] = Contents.union [fbase, fb, fa] := by
  funext k
  have hswap : [fbase, fa, fb].any (fun f => (f k).isSome) =
      [fbase, fb, fa].any fun f => (f k).isSome := by
    simp only [List.any_cons, List.any_nil, Bool.or_false]
    rw [Bool.or_comm (fa k).isSome]
  rw [Contents.union, hswap, Contents.union]

theorem Contents.merge_comm (base a b : Contents) :
    Contents.merge base a b = Contents.merge base b a := by
  simp only [Contents.merge, union_swap, Contents.mk.injEq, and_true]
  refine ⟨?_, ?_, ?_, ?_⟩ <;> funext k <;> exact threeWay_comm _ _ _ _

end Parts

section Lines

/-! Lines known to the base merge the same either way; a line that both sides
created does so only where they agree on it. -/

theorem mergeLine_comm {bs x y : LineState} (hid : x.id = y.id) {p q : Pointer}
    (hx : x.head = p.toValue) (hy : y.head = q.toValue) :
    mergeLine bs x y = mergeLine bs y x := by
  have hhead : (mergeLine bs x y).head = (mergeLine bs y x).head := by
    simp only [mergeLine]
    by_cases hxb : x.head = bs.head
    · by_cases hyb : y.head = bs.head
      · simp [hxb, hyb]
      · simp [hxb, hyb]
    · by_cases hyb : y.head = bs.head
      · simp [hxb, hyb]
      · by_cases hxy : x.head = y.head
        · simp [hxy]
        · simp only [hxb, hyb, hxy, Ne.symm hxy, or_self, if_false]
          rw [hx, hy]
          simp [Pointer.union_comm]
  have hcoordinator : (mergeLine bs x y).coordinator = (mergeLine bs y x).coordinator := by
    simp only [mergeLine]
    by_cases hxb : x.coordinator = bs.coordinator
    · by_cases hyb : y.coordinator = bs.coordinator
      · simp [hxb, hyb]
      · simp [hxb, hyb]
    · by_cases hyb : y.coordinator = bs.coordinator
      · simp [hxb, hyb]
      · by_cases hxy : x.coordinator = y.coordinator
        · simp [hxy]
        · simp only [hxb, hyb, hxy, Ne.symm hxy, or_self, if_false]
          exact min_comm _ _
  have hseq : (mergeLine bs x y).seq = (mergeLine bs y x).seq := max_comm _ _
  calc
    mergeLine bs x y = ⟨(mergeLine bs x y).id, (mergeLine bs x y).head,
        (mergeLine bs x y).seq, (mergeLine bs x y).coordinator⟩ := rfl
    _ = mergeLine bs y x := by
      rw [hhead, hseq, hcoordinator, show (mergeLine bs x y).id = (mergeLine bs y x).id from hid]

theorem mergeLineAt_comm {bs x y : LineState} (hid : x.id = y.id) {p q : Pointer}
    (hx : x.head = p.toValue) (hy : y.head = q.toValue) :
    mergeLineAt (some bs) (some x) (some y) = mergeLineAt (some bs) (some y) (some x) := by
  simp only [mergeLineAt]
  by_cases hxy : x = y
  · simp [hxy]
  · by_cases hxb : x = bs
    · subst hxb
      simp [hxy, Ne.symm hxy]
    · by_cases hyb : y = bs
      · subst hyb
        simp [hxy, Ne.symm hxy]
      · simp only [hxy, Ne.symm hxy, hxb, hyb, if_false, mergeLine_comm hid hx hy]

/-- With no base, the second side's head and coordinator are taken. -/
theorem mergeLine_self (x y : LineState) :
    mergeLine x x y = ⟨x.id, y.head, max x.seq y.seq, y.coordinator⟩ := by
  simp [mergeLine]

theorem mergeLineAt_created (x y : LineState) :
    mergeLineAt none (some x) (some y) = mergeLineAt none (some y) (some x) ↔
      x.id = y.id ∧ x.head = y.head ∧ x.coordinator = y.coordinator := by
  simp only [mergeLineAt]
  by_cases hxy : x = y
  · simp [hxy]
  · simp only [hxy, Ne.symm hxy, if_false, mergeLine_self, Option.some.injEq,
      LineState.mk.injEq, max_comm y.seq, true_and]
    constructor
    · intro h
      exact ⟨h.1, h.2.1.symm, h.2.2.symm⟩
    · intro h
      exact ⟨h.1, h.2.1.symm, h.2.2.symm⟩

/-- The sides agree on the lines that both created. -/
def LinesAgree (base a b : OrdMap String LineState) : Prop :=
  ∀ name x y, base.get? name = none → a.get? name = some x → b.get? name = some y →
    x.id = y.id ∧ x.head = y.head ∧ x.coordinator = y.coordinator

theorem mergeLines_comm {base a b : View} (ha : LinesFrom base a) (hb : LinesFrom base b)
    (hheads : HeadsParse a.lines) (hheads' : HeadsParse b.lines) :
    mergeLines base.lines a.lines b.lines = mergeLines base.lines b.lines a.lines ↔
      LinesAgree base.lines a.lines b.lines := by
  constructor
  · intro h name x y hbase hx hy
    have hname := congrArg (fun lines => lines.get? name) h
    simp only [get?_mergeLines, hbase, hx, hy] at hname
    exact (mergeLineAt_created x y).mp hname
  · intro h
    apply OrdMap.ext
    intro name
    rw [get?_mergeLines, get?_mergeLines]
    cases hbase : base.lines.get? name with
    | some bs =>
        obtain ⟨x, hx, hid⟩ := ha.kept hbase
        obtain ⟨y, hy, hid'⟩ := hb.kept hbase
        obtain ⟨p, hp⟩ := hheads name x hx
        obtain ⟨q, hq⟩ := hheads' name y hy
        rw [hx, hy]
        exact mergeLineAt_comm (hid.trans hid'.symm) hp hq
    | none =>
        cases hx : a.lines.get? name with
        | none => cases hy : b.lines.get? name <;> rfl
        | some x =>
            cases hy : b.lines.get? name with
            | none => rfl
            | some y => exact (mergeLineAt_created x y).mpr (h name x y hbase hx hy)

theorem Pointer.union_ids {i j : ObjectId} (h : i ≠ j) :
    ∃ ids, (Pointer.id i).union (.id j) = .conflict ids ∧ i ∈ ids ∧ j ∈ ids := by
  have hmem : ∀ k, k ∈ sortedDedup [i, j] ↔ k = i ∨ k = j := by simp
  have hi := (hmem i).mpr (.inl rfl)
  have hj := (hmem j).mpr (.inr rfl)
  refine ⟨sortedDedup [i, j], ?_, hi, hj⟩
  unfold Pointer.union
  rw [show (Pointer.id i).ids ++ (Pointer.id j).ids = [i, j] from rfl]
  split
  · rename_i k hk
    rw [hk, List.mem_singleton] at hi hj
    exact absurd (hi.trans hj.symm) h
  · rfl

/-- A line head that moved to different revisions on both sides. -/
structure MovedApart (base a b : View) (name : String) (x y : LineState) : Prop where
  first : a.lines.get? name = some x
  second : b.lines.get? name = some y
  apart : x.head ≠ y.head
  moved : ∀ bs, base.lines.get? name = some bs → x.head ≠ bs.head ∧ y.head ≠ bs.head

theorem MovedApart.head_eq {base a b : View} {name : String} {x y : LineState}
    (h : MovedApart base a b name x y) (ha : LinesFrom base a) (hb : LinesFrom base b) :
    ∃ i j, x.head = (Pointer.id i).toValue ∧ y.head = (Pointer.id j).toValue := by
  have hnew : ∀ {c : View} {ls : LineState}, LinesFrom base c → c.lines.get? name = some ls →
      (∀ bs, base.lines.get? name = some bs → ls.head ≠ bs.head) →
      ∃ i, ls.head = (Pointer.id i).toValue := by
    intro c ls hc hls hne
    rcases hc.moved hls with ⟨bs, hbs, hhead⟩ | hmoved
    · exact absurd hhead (hne bs hbs)
    · exact hmoved
  obtain ⟨i, hi⟩ := hnew ha h.first fun bs hbs => (h.moved bs hbs).1
  obtain ⟨j, hj⟩ := hnew hb h.second fun bs hbs => (h.moved bs hbs).2
  exact ⟨i, j, hi, hj⟩

/-- Over a base that knows the line, the merge keeps both heads. -/
theorem MovedApart.joined {base a b : View} {name : String} {x y bs : LineState}
    (h : MovedApart base a b name x y) (ha : LinesFrom base a) (hb : LinesFrom base b)
    (hbs : base.lines.get? name = some bs) :
    ∃ m ids, (mergeLines base.lines a.lines b.lines).get? name = some m ∧
      lineHead m = some (.conflict ids) ∧
      ∀ p, lineHead x = some p ∨ lineHead y = some p → p.ids ⊆ ids := by
  obtain ⟨i, j, hi, hj⟩ := h.head_eq ha hb
  have hij : i ≠ j := by
    intro heq
    exact h.apart (by rw [hi, hj, heq])
  obtain ⟨ids, hunion, hmem, hmem'⟩ := Pointer.union_ids hij
  obtain ⟨hxb, hyb⟩ := h.moved bs hbs
  have hxy : x ≠ y := fun heq => h.apart (congrArg LineState.head heq)
  have hx : x ≠ bs := fun heq => hxb (congrArg LineState.head heq)
  have hy : y ≠ bs := fun heq => hyb (congrArg LineState.head heq)
  refine ⟨mergeLine bs x y, ids, ?_, ?_, ?_⟩
  · rw [get?_mergeLines, hbs, h.first, h.second, mergeLineAt, if_neg hxy, if_neg hx, if_neg hy]
  · have hhead : (mergeLine bs x y).head = (Pointer.conflict ids).toValue := by
      simp only [mergeLine, if_neg hxb, hyb, h.apart, or_self, if_false]
      rw [hi, hj, Pointer.fromValue_toValue, Pointer.fromValue_toValue, ← hunion]
    rw [lineHead, hhead, Pointer.fromValue_toValue]
  · intro p hp
    rw [lineHead, lineHead, hi, hj, Pointer.fromValue_toValue, Pointer.fromValue_toValue] at hp
    rcases hp with hp | hp
    · cases hp
      simpa [Pointer.ids] using hmem
    · cases hp
      simpa [Pointer.ids] using hmem'

end Lines

section Paused

theorem sortedScopes_ext {l l' : List PauseState}
    (hl : l.Pairwise fun x y => x.scope ≤ y.scope)
    (hl' : l'.Pairwise fun x y => x.scope ≤ y.scope)
    (hnodup : (l.map PauseState.scope).Nodup) (hnodup' : (l'.map PauseState.scope).Nodup)
    (h : ∀ p, p ∈ l ↔ p ∈ l') : l = l' := by
  have hperm : l.Perm l' := (List.perm_ext_iff_of_nodup hnodup.of_map hnodup'.of_map).mpr h
  refine hperm.eq_of_pairwise (fun p q hp hq hpq hqp => ?_) hl hl'
  exact List.inj_on_of_nodup_map hnodup ((h p).mp hp |> (h p).mpr) ((h q).mpr hq)
    (le_antisymm hpq hqp)

/-- What both lists pause, sorted: all of the first, and what only the second does. -/
theorem mem_mergePaused {a b : Option (List PauseState)} (ha : PausedOnce a)
    (hb : PausedOnce b) {p : PauseState} : p ∈ (mergePaused a b).getD [] ↔
      p ∈ a.getD [] ∨ (p ∈ b.getD [] ∧ ∀ q ∈ a.getD [], q.scope ≠ p.scope) := by
  rw [mergePaused, keepPaused_getD, List.mem_insertionSort,
    firstOfScopes_append ha.nodup hb.nodup]
  simp

theorem mergePaused_sorted (a b : Option (List PauseState)) :
    ((mergePaused a b).getD []).Pairwise fun x y => x.scope ≤ y.scope := by
  rw [mergePaused, keepPaused_getD]
  exact List.pairwise_insertionSort (fun x y : PauseState => x.scope ≤ y.scope) _

theorem PausedOnce.ext {a b : Option (List PauseState)} (ha : PausedOnce a)
    (hb : PausedOnce b) : a = b ↔ a.getD [] = b.getD [] := by
  constructor
  · intro h
    rw [h]
  · intro h
    rw [ha.eq_keepPaused, h, ← hb.eq_keepPaused]

/-- The list is sorted by scope, as a merge leaves it. -/
def SortedScopes (paused : Option (List PauseState)) : Prop :=
  (paused.getD []).Pairwise fun x y => x.scope ≤ y.scope

/-- The first side's list stays just when it is sorted and resumed nothing. -/
theorem mergePaused_left {base a : Option (List PauseState)} (ha : PausedOnce a)
    (hbase : PausedOnce base) : mergePaused a base = a ↔
      SortedScopes a ∧ ∀ p ∈ base.getD [], ∃ q ∈ a.getD [], q.scope = p.scope := by
  rw [(ha.merge hbase).ext ha]
  constructor
  · intro h
    have hsorted := mergePaused_sorted a base
    rw [h] at hsorted
    refine ⟨hsorted, fun p hp => ?_⟩
    by_contra hnone
    push Not at hnone
    have hmem : p ∈ a.getD [] := by
      rw [← h, mem_mergePaused ha hbase]
      exact .inr ⟨hp, hnone⟩
    exact hnone p hmem rfl
  · intro h
    obtain ⟨hsorted, hscopes⟩ := h
    apply sortedScopes_ext (mergePaused_sorted a base) hsorted (ha.merge hbase).nodup ha.nodup
    intro p
    rw [mem_mergePaused ha hbase]
    constructor
    · intro hp
      rcases hp with hp | ⟨hp, hnone⟩
      · exact hp
      · obtain ⟨q, hq, heq⟩ := hscopes p hp
        exact absurd heq (hnone q hq)
    · exact .inl

/-- The second side's list stays just when it is sorted and kept every entry. -/
theorem mergePaused_right {base b : Option (List PauseState)} (hb : PausedOnce b)
    (hbase : PausedOnce base) : mergePaused base b = b ↔
      SortedScopes b ∧ ∀ p ∈ base.getD [], p ∈ b.getD [] := by
  rw [(hbase.merge hb).ext hb]
  constructor
  · intro h
    have hsorted := mergePaused_sorted base b
    rw [h] at hsorted
    refine ⟨hsorted, fun p hp => ?_⟩
    rw [← h, mem_mergePaused hbase hb]
    exact .inl hp
  · intro h
    obtain ⟨hsorted, hentries⟩ := h
    apply sortedScopes_ext (mergePaused_sorted base b) hsorted (hbase.merge hb).nodup hb.nodup
    intro p
    rw [mem_mergePaused hbase hb]
    constructor
    · intro hp
      rcases hp with hp | ⟨hp, _⟩
      · exact hentries p hp
      · exact hp
    · intro hp
      by_cases hscope : ∃ q ∈ base.getD [], q.scope = p.scope
      · obtain ⟨q, hq, heq⟩ := hscope
        have hsame := List.inj_on_of_nodup_map hb.nodup (hentries q hq) hp heq
        exact .inl (hsame ▸ hq)
      · push Not at hscope
        exact .inr ⟨hp, hscope⟩

/-- Whoever paused a scope on both sides is the same. -/
def PausedAgree (a b : Option (List PauseState)) : Prop :=
  ∀ p ∈ a.getD [], ∀ q ∈ b.getD [], p.scope = q.scope → p = q

theorem mergePaused_comm {a b : Option (List PauseState)} (ha : PausedOnce a)
    (hb : PausedOnce b) : mergePaused a b = mergePaused b a ↔ PausedAgree a b := by
  rw [(ha.merge hb).ext (hb.merge ha)]
  constructor
  · intro h p hp q hq hscope
    have hpm : p ∈ (mergePaused a b).getD [] := (mem_mergePaused ha hb).mpr (.inl hp)
    have hqm : q ∈ (mergePaused a b).getD [] := h ▸ (mem_mergePaused hb ha).mpr (.inl hq)
    exact List.inj_on_of_nodup_map (ha.merge hb).nodup hpm hqm hscope
  · intro h
    apply sortedScopes_ext (mergePaused_sorted a b) (mergePaused_sorted b a)
      (ha.merge hb).nodup (hb.merge ha).nodup
    have hone : ∀ {a b : Option (List PauseState)}, PausedOnce a → PausedOnce b →
        PausedAgree a b → ∀ p, p ∈ (mergePaused a b).getD [] → p ∈ (mergePaused b a).getD [] := by
      intro a b ha hb hagree p hp
      rw [mem_mergePaused hb ha]
      rcases (mem_mergePaused ha hb).mp hp with hp | ⟨hp, _⟩
      · by_cases hscope : ∃ q ∈ b.getD [], q.scope = p.scope
        · obtain ⟨q, hq, heq⟩ := hscope
          exact .inl (hagree p hp q hq heq.symm ▸ hq)
        · push Not at hscope
          exact .inr ⟨hp, hscope⟩
      · exact .inl hp
    intro p
    refine ⟨hone ha hb h p, hone hb ha ?_ p⟩
    intro q hq p hp hscope
    exact (h p hp q hq hscope.symm).symm

end Paused

end Tessra.Oplog
