import Tessra.Data.History
import Tessra.Oplog.Dag
import Tessra.Oplog.ViewRefine

namespace Tessra.Oplog

open Tessra.Core Tessra.Data StoreM Relation

/-! What the ancestors and the latest common ancestor of ops are. -/

variable [Crypto] {S S' : Store} {dom : Finset ObjectId} {o x : ObjectId}

open OpLog

def Ancestor (S : Store) (x o : ObjectId) : Prop :=
  ReflTransGen (fun p c => StepsTo (parentsIn S) c p) x o

theorem ancestor_iff : Ancestor S x o ↔ ReflTransGen (StepsTo (parentsIn S)) o x :=
  reflTransGen_swap

/-- Every op of the set is in the store, and its parents are in the set. -/
def OpsClosed (S : Store) (dom : Finset ObjectId) : Prop :=
  ∀ x ∈ dom, ∃ parents, parentsIn S x = .ok parents ∧ ∀ p ∈ parents, p ∈ dom

theorem parentsIn_ok {parents : List ObjectId} (h : parentsIn S x = .ok parents) :
    ∃ op, Object.op op ∈ S ∧ Crypto.objectId (.op op) = x ∧ op.parents = parents := by
  unfold parentsIn at h
  cases hop : (getOp x).value S with
  | error => rw [hop] at h; cases h
  | ok op =>
      rw [hop] at h
      cases h
      exact ⟨op, (get_ok hop).1, (get_ok hop).2, rfl⟩

theorem parentsIn_of_mem (hfree : CollisionFree S) {op : Op} (hop : Object.op op ∈ S) :
    parentsIn S (Crypto.objectId (.op op)) = .ok op.parents := by
  have hget : (getOp (Crypto.objectId (.op op))).value S = .ok op := value_get hfree hop
  rw [parentsIn, hget]
  rfl

theorem parentsIn_mono (hsub : S ⊆ S') (hfree : CollisionFree S') {parents : List ObjectId}
    (h : parentsIn S x = .ok parents) : parentsIn S' x = .ok parents := by
  obtain ⟨op, hop, rfl, rfl⟩ := parentsIn_ok h
  exact parentsIn_of_mem hfree (hsub hop)

theorem sum_parents_le (hdom : OpsClosed S dom) :
    ∑ x ∈ dom, outDegree (parentsIn S) x ≤ (S.map parentCount).sum := by
  have hobject : ∀ x ∈ dom, ∃ o ∈ S, Crypto.objectId o = x ∧
      outDegree (parentsIn S) x ≤ parentCount o := by
    intro x hx
    obtain ⟨parents, hparents, _⟩ := hdom x hx
    obtain ⟨op, hop, hid, rfl⟩ := parentsIn_ok hparents
    exact ⟨_, hop, hid, by rw [outDegree, hparents]; exact le_rfl⟩
  have hnonempty : Nonempty Object := ⟨.blob []⟩
  choose! object hmem hid hcount using hobject
  refine sum_outDegree_le (f := object) ?_ hmem hcount
  intro x hx y hy heq
  rw [← hid x hx, ← hid y hy, heq]

theorem mem_ancestors {a : List ObjectId} (h : (ancestors o).value S = .ok a) :
    x ∈ a ↔ Ancestor S x o := by
  have hpending : Pending (parentsIn S) [] [o] := by
    intro y hy
    cases hy
  rw [mem_worklist hpending h, ancestor_iff]
  simp

theorem ancestors_ok (hdom : OpsClosed S dom) (ho : o ∈ dom) :
    ∃ a, (ancestors o).value S = .ok a := by
  refine worklist_ok dom hdom (by simpa using ho) ?_
  have hsum := sum_parents_le hdom
  simp only [List.length_singleton, List.toFinset_nil, Finset.sdiff_empty]
  omega

theorem closed_ancestors {a : List ObjectId} (h : (ancestors o).value S = .ok a) :
    OpsClosed S a.toFinset := by
  have hpending : Pending (parentsIn S) [] [o] := by
    intro y hy
    cases hy
  intro y hy
  obtain ⟨parents, hparents, hmem⟩ := pending_worklist hpending h y (List.mem_toFinset.mp hy)
  refine ⟨parents, hparents, fun p hp => ?_⟩
  rcases hmem p hp with hp | hp
  · exact List.mem_toFinset.mpr hp
  · cases hp

theorem readOnly_ancestors (o : ObjectId) : (ancestors o).ReadOnly := fun S =>
  List.append_nil S

theorem OpsClosed.mono (h : OpsClosed S dom) (hsub : S ⊆ S') (hfree : CollisionFree S') :
    OpsClosed S' dom := by
  intro x hx
  obtain ⟨parents, hparents, hclosed⟩ := h x hx
  exact ⟨parents, parentsIn_mono hsub hfree hparents, hclosed⟩

theorem lasting_ancestors (o : ObjectId) : (ancestors o).Lasting := by
  refine ⟨readOnly_ancestors o, ?_⟩
  intro S S' a hsub hfree h
  have hclosed := (closed_ancestors h).mono hsub hfree
  have ho : o ∈ a.toFinset := List.mem_toFinset.mpr ((mem_ancestors h).mpr .refl)
  obtain ⟨a', ha'⟩ := ancestors_ok hclosed ho
  -- Both runs end, so they end alike with the fuel of both.
  have hmono : ∀ x out, parentsIn S x = .ok out → parentsIn S' x = .ok out := fun x out hx =>
    parentsIn_mono hsub hfree hx
  have hsame := worklist_mono hmono (Nat.le_max_left _ (1 + (S'.map parentCount).sum)) h
  have hsame' := worklist_mono (fun _ _ hx => hx)
    (Nat.le_max_right (1 + (S.map parentCount).sum) _) ha'
  rw [hsame] at hsame'
  cases hsame'
  exact ha'

theorem lasting_commonAncestors (ops : List ObjectId) : (commonAncestors ops).Lasting := by
  cases ops with
  | nil => exact lasting_pure []
  | cons o rest =>
      refine (lasting_ancestors o).bind fun a => Lasting.foldlM (fun common o' => ?_) rest a
      exact (lasting_ancestors o').bind fun a => lasting_pure _

theorem lasting_lca (ops : List ObjectId) : (lca ops).Lasting := by
  refine (lasting_commonAncestors ops).bind fun common => ?_
  refine (Lasting.foldlM (fun latest c => ?_) _ _).bind fun latest => lasting_pure _
  exact (lasting_ancestors c).bind fun anc => lasting_pure _

theorem Ancestor.mem (hdom : OpsClosed S dom) (h : Ancestor S x o) (ho : o ∈ dom) :
    x ∈ dom := by
  induction h using ReflTransGen.head_induction_on with
  | refl => exact ho
  | head hstep _ ih =>
      obtain ⟨parents, hparents, hp⟩ := hstep
      obtain ⟨parents', hparents', hclosed⟩ := hdom _ ih
      rw [hparents] at hparents'
      cases hparents'
      exact hclosed _ hp

theorem returns_ancestors (hdom : OpsClosed S dom) (ho : o ∈ dom) :
    (ancestors o).Returns S fun a S' => S' = S ∧ ∀ x, x ∈ a ↔ Ancestor S x o := by
  intro _
  obtain ⟨a, ha⟩ := ancestors_ok hdom ho
  exact ⟨a, ha, readOnly_ancestors o S, fun x => mem_ancestors ha⟩

theorem returns_commonAncestors (hdom : OpsClosed S dom) {ops : List ObjectId}
    (hne : ops ≠ []) (hops : ∀ o ∈ ops, o ∈ dom) :
    (commonAncestors ops).Returns S fun common S' =>
      S' = S ∧ ∀ x, x ∈ common ↔ ∀ o ∈ ops, Ancestor S x o := by
  cases ops with
  | nil => exact absurd rfl hne
  | cons o rest =>
      refine (returns_ancestors hdom (hops o List.mem_cons_self)).bind ?_
      intro a S₁ _ ha
      obtain ⟨rfl, ha⟩ := ha
      have hfold := Returns.foldlM (S := S₁) (s := a) (f := fun common o => do
          let a ← ancestors o
          return common.filter (· ∈ a))
        (fun done common S' => S' = S₁ ∧ ∀ x, x ∈ common ↔ ∀ o' ∈ o :: done, Ancestor S₁ x o')
        [] rest ⟨rfl, by simpa using ha⟩ ?_
      · simpa using hfold
      · intro done o' common S₂ ho' _ hcommon
        obtain ⟨rfl, hcommon⟩ := hcommon
        refine (returns_ancestors hdom (hops o' (List.mem_cons_of_mem _ ho'))).bind ?_
        intro a' S₃ _ ha'
        obtain ⟨rfl, ha'⟩ := ha'
        refine returns_pure ⟨rfl, fun x => ?_⟩
        simp only [List.mem_filter, decide_eq_true_eq, hcommon, ha', List.mem_cons,
          List.mem_append]
        grind

theorem returns_lca (hdom : OpsClosed S dom) {ops : List ObjectId} (hne : ops ≠ [])
    (hops : ∀ o ∈ ops, o ∈ dom) :
    (lca ops).Returns S fun b S' => S' = S ∧ ∀ x ∈ b, ∀ o ∈ ops, Ancestor S x o := by
  refine (returns_commonAncestors hdom hne hops).bind ?_
  intro common S₁ _ hcommon
  obtain ⟨rfl, hcommon⟩ := hcommon
  have hmem : ∀ c ∈ common, c ∈ dom := by
    intro c hc
    obtain ⟨o, ho⟩ := List.exists_mem_of_ne_nil ops hne
    exact ((hcommon c).mp hc o ho).mem hdom (hops o ho)
  have hfold := Returns.foldlM (S := S₁) (s := sortedDedup common) (f := fun latest c => do
      let anc ← ancestors c
      return latest.filter fun d => ¬ (d ∈ anc ∧ d ≠ c))
    (fun _ latest S' => S' = S₁ ∧ latest ⊆ common) [] common
    ⟨rfl, fun x hx => mem_sortedDedup.mp hx⟩ ?_
  · refine hfold.bind ?_
    intro latest S₂ _ hlatest
    obtain ⟨rfl, hlatest⟩ := hlatest
    refine returns_pure ⟨rfl, fun x hx => ?_⟩
    exact (hcommon x).mp (hlatest (List.mem_of_mem_head? hx))
  · intro done c latest S₂ hc _ hlatest
    obtain ⟨rfl, hlatest⟩ := hlatest
    refine (returns_ancestors hdom (hmem c hc)).bind ?_
    intro anc S₃ _ hanc
    obtain ⟨rfl, _⟩ := hanc
    exact returns_pure ⟨rfl, List.Subset.trans (List.filter_subset_self _) hlatest⟩

end Tessra.Oplog
