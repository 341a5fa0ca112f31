import Tessra.Data.OrdMap
import Tessra.Core.Object

namespace Tessra.Daemon

open Tessra.Core Tessra.Data

/-! One id for a unit that both sides of a landing introduced. -/

section Reconcile

/-- What has been paired so far: the merged units taken, their new ids, and the aliases. -/
structure Pairing where
  taken : List EntityId
  renumber : OrdMap EntityId EntityId
  aliases : OrdMap Bytes EntityId

def Pairing.empty : Pairing := ⟨[], ∅, ∅⟩

/-- The lower id survives, and the other becomes its alias. -/
def Pairing.pair (s : Pairing) (o m : EntityId) : Pairing :=
  if o < m then ⟨m :: s.taken, s.renumber.insert m o, s.aliases.insert m.bytes o⟩
  else ⟨m :: s.taken, s.renumber, s.aliases.insert o.bytes m⟩

def resolve (renumber : OrdMap EntityId EntityId) (id : EntityId) : EntityId :=
  (renumber.get? id).getD id

def renumberNode (renumber : OrdMap EntityId EntityId) (n : Node) : Node :=
  { n with
    nid := resolve renumber n.nid
    parent := n.parent.map (resolve renumber)
    deps := n.deps.map fun deps => sortedDedup (deps.map (resolve renumber)) }

def renumberAll (renumber : OrdMap EntityId EntityId) (merged : List Node) : List Node :=
  if renumber.keys.isEmpty then merged else merged.map (renumberNode renumber)

variable (merged : List Node) (baseIds : List EntityId)

/-- A merged unit that the other side's may be: of the same kind and name first, of the
same body then. -/
def candidate (taken : List EntityId) (o : Node) : Option Node :=
  let free := merged.filter fun m =>
    m.path = o.path ∧ m.nid ∉ baseIds ∧ m.nid ∉ taken
  (free.find? fun m =>
    m.kind = o.kind ∧ m.name = o.name ∧ m.parent.isSome = o.parent.isSome).or
    (free.find? fun m => m.kind = o.kind ∧ m.body = o.body)

def pairStep (s : Pairing) (o : Node) : Pairing :=
  if o.nid ∈ baseIds ∨ o.nid ∈ merged.map Node.nid then s
  else
    match candidate merged baseIds s.taken o with
    | none => s
    | some m => s.pair o.nid m.nid

/-- The ids of the base index. -/
def baseIdsOf (base : Option NodeIndex) : List EntityId :=
  (base.map fun b => b.nodes.map Node.nid).getD []

/-- Where both sides introduced a unit, its lower id survives in the merged nodes and the
other is recorded as its alias. -/
def reconcileAliases (base : Option NodeIndex) (other : NodeIndex) :
    List Node × OrdMap Bytes EntityId :=
  let s := other.nodes.foldl (pairStep merged (baseIdsOf base)) .empty
  (renumberAll s.renumber merged, s.aliases)

end Reconcile

section Invariant

variable (merged : List Node) (baseIds : List EntityId)

/-- The pairs of the other side's units seen so far with merged units, apart from each other. -/
structure Apart (seen : List EntityId) (s : Pairing) : Prop where
  renumbered : ∀ m o, s.renumber.get? m = some o →
    m ∈ s.taken ∧ m ∈ merged.map Node.nid ∧ m ∉ baseIds ∧ o ∈ seen ∧
      o ∉ merged.map Node.nid ∧ o < m
  distinct : ∀ m m' o, s.renumber.get? m = some o → s.renumber.get? m' = some o → m = m'
  aliased : ∀ k t, s.aliases.get? k = some t →
    (∃ m, k = m.bytes ∧ s.renumber.get? m = some t) ∨
    ∃ o, k = o.bytes ∧ o ∈ seen ∧ o ∉ merged.map Node.nid ∧ t ∈ s.taken ∧
      t ∈ merged.map Node.nid ∧ t < o ∧ s.renumber.get? t = none ∧
      ∀ m, s.renumber.get? m ≠ some o

variable {merged baseIds} {seen : List EntityId} {s : Pairing} {o m : Node}

theorem candidate_spec {taken : List EntityId} (h : candidate merged baseIds taken o = some m) :
    m.nid ∈ merged.map Node.nid ∧ m.nid ∉ baseIds ∧ m.nid ∉ taken := by
  have hfree : m ∈ merged.filter fun m =>
      m.path = o.path ∧ m.nid ∉ baseIds ∧ m.nid ∉ taken := by
    rcases Option.or_eq_some_iff.mp h with h | ⟨_, h⟩
    · exact List.mem_of_find?_eq_some h
    · exact List.mem_of_find?_eq_some h
  obtain ⟨hm, hcond⟩ := List.mem_filter.mp hfree
  exact ⟨List.mem_map_of_mem hm, (of_decide_eq_true hcond).2⟩

theorem apart_empty : Apart merged baseIds [] .empty where
  renumbered _ _ h := by cases h
  distinct _ _ _ h := by cases h
  aliased _ _ h := by cases h

theorem Apart.mono {o : EntityId} (h : Apart merged baseIds seen s) :
    Apart merged baseIds (o :: seen) s where
  renumbered m o' hm := by
    obtain ⟨htaken, hmem, hbase, hseen, hfresh, hlt⟩ := h.renumbered m o' hm
    exact ⟨htaken, hmem, hbase, List.mem_cons_of_mem _ hseen, hfresh, hlt⟩
  distinct := h.distinct
  aliased k t hk := by
    rcases h.aliased k t hk with hleft | ⟨o', hbytes, hseen, hrest⟩
    · exact .inl hleft
    · exact .inr ⟨o', hbytes, List.mem_cons_of_mem _ hseen, hrest⟩

theorem Apart.pair {o m : EntityId} (h : Apart merged baseIds seen s)
    (hmem : m ∈ merged.map Node.nid) (hbase : m ∉ baseIds) (htaken : m ∉ s.taken)
    (hfresh : o ∉ merged.map Node.nid) (hseen : o ∉ seen) :
    Apart merged baseIds (o :: seen) (s.pair o m) := by
  have hfree : s.renumber.get? m = none :=
    Option.eq_none_iff_forall_ne_some.mpr fun o' ho' => htaken (h.renumbered m o' ho').1
  have hnew : ∀ m', s.renumber.get? m' ≠ some o :=
    fun m' hm' => hseen (h.renumbered m' o hm').2.2.2.1
  unfold Pairing.pair
  split
  · rename_i hlt
    refine ⟨fun m' o' hm' => ?_, fun m' m'' o' hm' hm'' => ?_, fun k t hk => ?_⟩
    · rw [OrdMap.get?_insert] at hm'
      split_ifs at hm' with heq
      · cases heq
        cases hm'
        exact ⟨List.mem_cons_self, hmem, hbase, List.mem_cons_self, hfresh, hlt⟩
      · obtain ⟨ht, hm, hb, hs, hf, hl⟩ := h.renumbered m' o' hm'
        exact ⟨List.mem_cons_of_mem _ ht, hm, hb, List.mem_cons_of_mem _ hs, hf, hl⟩
    · rw [OrdMap.get?_insert] at hm' hm''
      split_ifs at hm' hm'' with heq heq'
      · exact heq.symm.trans heq'
      · cases hm'
        exact absurd hm'' (hnew m'')
      · cases hm''
        exact absurd hm' (hnew m')
      · exact h.distinct m' m'' o' hm' hm''
    · rw [OrdMap.get?_insert] at hk
      split_ifs at hk with heq
      · cases hk
        exact .inl ⟨m, heq.symm, by rw [OrdMap.get?_insert, if_pos rfl]⟩
      · rcases h.aliased k t hk with ⟨m', hbytes, hm'⟩ | ⟨o', hbytes, hs, hf, ht, htm, hl, hn, ho'⟩
        · have hne : m ≠ m' := by
            rintro rfl
            exact heq hbytes.symm
          exact .inl ⟨m', hbytes, by rw [OrdMap.get?_insert, if_neg hne]; exact hm'⟩
        · have hne : m ≠ t := by
            rintro rfl
            exact htaken ht
          refine .inr ⟨o', hbytes, List.mem_cons_of_mem _ hs, hf, List.mem_cons_of_mem _ ht, htm, hl,
            by rw [OrdMap.get?_insert, if_neg hne]; exact hn, fun m' hm' => ?_⟩
          rw [OrdMap.get?_insert] at hm'
          split_ifs at hm'
          · cases hm'
            exact hseen hs
          · exact ho' m' hm'
  · rename_i hlt
    have hne : m ≠ o := by
      rintro rfl
      exact hfresh hmem
    refine ⟨fun m' o' hm' => ?_, h.distinct, fun k t hk => ?_⟩
    · obtain ⟨ht, hm, hb, hs, hf, hl⟩ := h.renumbered m' o' hm'
      exact ⟨List.mem_cons_of_mem _ ht, hm, hb, List.mem_cons_of_mem _ hs, hf, hl⟩
    · rw [OrdMap.get?_insert] at hk
      split_ifs at hk with heq
      · cases hk
        exact .inr ⟨o, heq.symm, List.mem_cons_self, hfresh, List.mem_cons_self, hmem,
          lt_of_le_of_ne (not_lt.mp hlt) hne, hfree, hnew⟩
      · rcases h.aliased k t hk with hleft | ⟨o', hbytes, hs, hf, ht, hrest⟩
        · exact .inl hleft
        · exact .inr ⟨o', hbytes, List.mem_cons_of_mem _ hs, hf, List.mem_cons_of_mem _ ht, hrest⟩

/-- One unit of the other side keeps the pairs apart. -/
theorem Apart.step (h : Apart merged baseIds seen s) (hseen : o.nid ∉ seen) :
    Apart merged baseIds (o.nid :: seen) (pairStep merged baseIds s o) := by
  unfold pairStep
  split
  · exact h.mono
  · rename_i hnot
    split
    · exact h.mono
    · rename_i m hm
      obtain ⟨hmem, hbase, htaken⟩ := candidate_spec hm
      exact h.pair hmem hbase htaken (fun hmem => hnot (.inr hmem)) hseen

theorem Apart.run : ∀ {l : List Node} {seen s}, Apart merged baseIds seen s →
    (∀ o ∈ l, o.nid ∉ seen) → (l.map Node.nid).Nodup →
    Apart merged baseIds ((l.map Node.nid).reverse ++ seen) (l.foldl (pairStep merged baseIds) s)
  | [], _, _, h, _, _ => h
  | o :: l, seen, s, h, hseen, hnodup => by
      obtain ⟨hnot, hnodup⟩ := List.nodup_cons.mp hnodup
      rw [List.map_cons, List.reverse_cons, List.append_assoc]
      refine (h.step (hseen o List.mem_cons_self)).run (fun o' ho' hmem => ?_) hnodup
      rcases List.mem_cons.mp hmem with heq | hmem
      · exact hnot (heq ▸ List.mem_map_of_mem ho')
      · exact hseen o' (List.mem_cons_of_mem _ ho') hmem

end Invariant

section Consistent

variable {merged : List Node} {base : Option NodeIndex} {other : NodeIndex}

theorem map_nid_renumberAll (renumber : OrdMap EntityId EntityId) (merged : List Node) :
    (renumberAll renumber merged).map Node.nid =
      (merged.map Node.nid).map (resolve renumber) := by
  unfold renumberAll
  split
  · rename_i h
    have hresolve : resolve renumber = id := by
      funext m
      have hnone := OrdMap.get?_eq_none.mpr (show m ∉ renumber.keys by
        rw [List.isEmpty_iff.mp h]
        exact List.not_mem_nil)
      rw [resolve, hnone]
      rfl
    rw [hresolve, List.map_id]
  · rw [List.map_map, List.map_map]
    rfl

theorem getElem?_renumberAll (renumber : OrdMap EntityId EntityId) {i : ℕ} {n : Node}
    (h : merged[i]? = some n) : ∃ n', (renumberAll renumber merged)[i]? = some n' ∧
      n'.nid = resolve renumber n.nid ∧ n'.parent = n.parent.map (resolve renumber) := by
  unfold renumberAll
  split
  · rename_i hempty
    have hresolve : ∀ m, resolve renumber m = m := by
      intro m
      have hnone := OrdMap.get?_eq_none.mpr (show m ∉ renumber.keys by
        rw [List.isEmpty_iff.mp hempty]
        exact List.not_mem_nil)
      rw [resolve, hnone]
      rfl
    refine ⟨n, h, (hresolve n.nid).symm, ?_⟩
    cases n.parent with
    | none => rfl
    | some p => exact congrArg some (hresolve p).symm
  · exact ⟨_, by rw [List.getElem?_map, h]; rfl, rfl, rfl⟩

/-- What a reconciled index keeps of the merged one, and what its aliases lead to. -/
structure Consistent (merged : List Node) (base : Option NodeIndex) (other : NodeIndex)
    (result : List Node × OrdMap Bytes EntityId) : Prop where
  nodup : (result.1.map Node.nid).Nodup
  kept : ∀ (i : ℕ) (n : Node), merged[i]? = some n → n.nid ∈ baseIdsOf base →
    ∃ n' : Node, result.1[i]? = some n' ∧ n'.nid = n.nid
  parents : ∀ (i j : ℕ) (n u : Node), merged[i]? = some n → merged[j]? = some u →
    n.parent = some u.nid →
    ∃ n' u' : Node, result.1[i]? = some n' ∧ result.1[j]? = some u' ∧ n'.parent = some u'.nid
  aliased : ∀ k t, result.2.get? k = some t → ∃ id : EntityId, k = id.bytes ∧
    id ∉ result.1.map Node.nid ∧ t ∈ result.1.map Node.nid ∧ t < id ∧
    (id ∈ merged.map Node.nid ∧ t ∈ other.nodes.map Node.nid ∨
      id ∈ other.nodes.map Node.nid ∧ t ∈ merged.map Node.nid)
  resolved : ∀ k t, result.2.get? k = some t → result.2.get? t.bytes = none

section Resolved

variable {baseIds seen : List EntityId} {s : Pairing} {m m' o : EntityId}

theorem resolve_of_some {renumber : OrdMap EntityId EntityId} (h : renumber.get? m = some o) :
    resolve renumber m = o := by
  rw [resolve, h]
  rfl

theorem resolve_of_none {renumber : OrdMap EntityId EntityId} (h : renumber.get? m = none) :
    resolve renumber m = m := by
  rw [resolve, h]
  rfl

theorem Apart.resolve_inj (h : Apart merged baseIds seen s) (hm : m ∈ merged.map Node.nid)
    (hm' : m' ∈ merged.map Node.nid) (heq : resolve s.renumber m = resolve s.renumber m') :
    m = m' := by
  cases hr : s.renumber.get? m with
  | none =>
      cases hr' : s.renumber.get? m' with
      | none => rwa [resolve_of_none hr, resolve_of_none hr'] at heq
      | some o =>
          rw [resolve_of_none hr, resolve_of_some hr'] at heq
          exact absurd (heq ▸ hm) (h.renumbered m' o hr').2.2.2.2.1
  | some o =>
      cases hr' : s.renumber.get? m' with
      | none =>
          rw [resolve_of_some hr, resolve_of_none hr'] at heq
          exact absurd (heq ▸ hm') (h.renumbered m o hr).2.2.2.2.1
      | some o' =>
          rw [resolve_of_some hr, resolve_of_some hr'] at heq
          exact h.distinct m m' o' (heq ▸ hr) hr'

theorem Apart.notMem_of_some (h : Apart merged baseIds seen s)
    (hr : s.renumber.get? m = some o) :
    m ∉ (merged.map Node.nid).map (resolve s.renumber) := by
  intro hmem
  obtain ⟨m', hm', heq⟩ := List.mem_map.mp hmem
  cases hr' : s.renumber.get? m' with
  | none =>
      rw [resolve_of_none hr'] at heq
      rw [heq, hr] at hr'
      cases hr'
  | some o' =>
      rw [resolve_of_some hr'] at heq
      exact (h.renumbered m' o' hr').2.2.2.2.1 (heq ▸ (h.renumbered m o hr).2.1)

theorem Apart.notMem_of_unpaired (hfresh : o ∉ merged.map Node.nid)
    (hr : ∀ m, s.renumber.get? m ≠ some o) :
    o ∉ (merged.map Node.nid).map (resolve s.renumber) := by
  intro hmem
  obtain ⟨m', hm', heq⟩ := List.mem_map.mp hmem
  cases hr' : s.renumber.get? m' with
  | none =>
      rw [resolve_of_none hr'] at heq
      exact hfresh (heq ▸ hm')
  | some o' =>
      rw [resolve_of_some hr'] at heq
      exact hr m' (heq ▸ hr')

/-- A target of an alias is not an alias. -/
theorem Apart.resolved (h : Apart merged baseIds seen s) {k : Bytes} {t : EntityId}
    (hk : s.aliases.get? k = some t) : s.aliases.get? t.bytes = none := by
  refine Option.eq_none_iff_forall_ne_some.mpr fun t' ht' => ?_
  rcases h.aliased k t hk with ⟨m, _, hm⟩ | ⟨o, _, _, _, _, htm, _, hnone, _⟩
  · obtain ⟨_, _, _, _, hfresh, _⟩ := h.renumbered m t hm
    rcases h.aliased _ t' ht' with ⟨m', hbytes, hm'⟩ | ⟨o', hbytes, _, _, _, _, _, _, hr⟩
    · exact hfresh (EntityId.bytes_injective hbytes ▸ (h.renumbered m' t' hm').2.1)
    · exact hr m (EntityId.bytes_injective hbytes ▸ hm)
  · rcases h.aliased _ t' ht' with ⟨m', hbytes, hm'⟩ | ⟨o', hbytes, _, hfresh', _⟩
    · rw [EntityId.bytes_injective hbytes, hm'] at hnone
      cases hnone
    · exact hfresh' (EntityId.bytes_injective hbytes ▸ htm)

end Resolved

end Consistent

section Sample

/-! Both sides introduce a function and a class around it, under other ids. -/

def introduced (method owner : ℕ) : List Node :=
  [⟨.splat method, "a.py", "method", "run", (0, 9), .splat 1, some (.splat owner), none, none⟩,
   ⟨.splat owner, "a.py", "class", "Job", (0, 20), .splat 2, none, none, none⟩]

def introducedIndex (method owner : ℕ) : NodeIndex :=
  ⟨.splat 0, "", [], introduced method owner, none⟩

end Sample

end Tessra.Daemon
