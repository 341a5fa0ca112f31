import Tessra.Oplog.DagRefine

namespace Tessra.Oplog

open Tessra.Core Tessra.Data StoreM OpLog

/-! The latest common ancestor of ops. -/

section LatestAncestors

variable [Crypto] {S : Store} {dom : Finset ObjectId} {ops : List ObjectId} {b c x : ObjectId}

/-- An ancestor of every op. -/
def CommonAncestor (S : Store) (ops : List ObjectId) (x : ObjectId) : Prop :=
  ∀ o ∈ ops, Ancestor S x o

/-- A common ancestor that is not an ancestor of another. -/
def LatestAncestor (S : Store) (ops : List ObjectId) (x : ObjectId) : Prop :=
  CommonAncestor S ops x ∧ ∀ c, CommonAncestor S ops c → Ancestor S x c → c = x

/-- No op is an ancestor of one of its own ancestors. -/
def Acyclic (S : Store) : Prop := ∀ x y, Ancestor S x y → Ancestor S y x → x = y

theorem Ancestor.trans (h : Ancestor S x b) (h' : Ancestor S b c) : Ancestor S x c :=
  Relation.ReflTransGen.trans h h'

/-- Among common ancestors there is a latest one. -/
theorem exists_latest (hdom : OpsClosed S dom) (hacyclic : Acyclic S) (hne : ops ≠ [])
    (hops : ∀ o ∈ ops, o ∈ dom) (hx : CommonAncestor S ops x) : ∃ b, LatestAncestor S ops b := by
  classical
  have hmem : ∀ c, CommonAncestor S ops c → c ∈ dom := by
    intro c hc
    obtain ⟨o, ho⟩ := List.exists_mem_of_ne_nil ops hne
    exact (hc o ho).mem hdom (hops o ho)
  -- One with the most ancestors is an ancestor of no other.
  let count := fun c => (dom.filter (Ancestor S · c)).card
  obtain ⟨b, hb, hmax⟩ := (dom.filter (CommonAncestor S ops)).exists_max_image count
    ⟨x, Finset.mem_filter.mpr ⟨hmem x hx, hx⟩⟩
  have hcommon := (Finset.mem_filter.mp hb).2
  refine ⟨b, hcommon, fun c hc hbc => ?_⟩
  by_contra hne
  have hsub : dom.filter (Ancestor S · b) ⊂ dom.filter (Ancestor S · c) := by
    refine (Finset.ssubset_iff_of_subset fun y hy => ?_).mpr ⟨c, ?_, ?_⟩
    · obtain ⟨hy, hyb⟩ := Finset.mem_filter.mp hy
      exact Finset.mem_filter.mpr ⟨hy, hyb.trans hbc⟩
    · exact Finset.mem_filter.mpr ⟨hmem c hc, .refl⟩
    · exact fun hcb => hne (hacyclic c b (Finset.mem_filter.mp hcb).2 hbc)
  have hle := hmax c (Finset.mem_filter.mpr ⟨hmem c hc, hc⟩)
  exact absurd (Finset.card_lt_card hsub) (Nat.not_lt.mpr hle)

/-- What is left once the ancestors of each are taken out. -/
theorem returns_latest (hdom : OpsClosed S dom) (hne : ops ≠ []) (hops : ∀ o ∈ ops, o ∈ dom) :
    (lca ops).Returns S fun result S' => S' = S ∧ ∃ latest : List ObjectId,
      latest.Pairwise (· < ·) ∧ (∀ x, x ∈ latest ↔ LatestAncestor S ops x) ∧
      result = latest.head? := by
  refine (returns_commonAncestors hdom hne hops).bind ?_
  intro common S₁ _ hcommon
  obtain ⟨rfl, hcommon⟩ := hcommon
  have hmem : ∀ c ∈ common, c ∈ dom := by
    intro c hc
    obtain ⟨o, ho⟩ := List.exists_mem_of_ne_nil ops hne
    exact ((hcommon c).mp hc o ho).mem hdom (hops o ho)
  have hfold := Returns.foldlM (S := S₁) (s := sortedDedup common) (f := fun latest c => do
      let anc ← ancestors c
      return latest.filter fun d => ¬ (d ∈ anc ∧ d ≠ c))
    (fun done latest S' => S' = S₁ ∧ latest.Pairwise (· < ·) ∧
      ∀ x, x ∈ latest ↔ x ∈ common ∧ ∀ c ∈ done, Ancestor S₁ x c → x = c) [] common
    ⟨rfl, sortedDedup_pairwise common, fun x => by simp [mem_sortedDedup]⟩ ?_
  · refine hfold.bind ?_
    intro latest S₂ _ hlatest
    obtain ⟨rfl, hsorted, hlatest⟩ := hlatest
    refine returns_pure ⟨rfl, latest, hsorted, fun x => ?_, rfl⟩
    rw [hlatest, List.nil_append, hcommon]
    simp only [LatestAncestor, CommonAncestor, hcommon, eq_comm]
  · intro done c latest S₂ hc _ hlatest
    obtain ⟨rfl, hsorted, hlatest⟩ := hlatest
    refine (returns_ancestors hdom (hmem c hc)).bind ?_
    intro anc S₃ _ hanc
    obtain ⟨rfl, hanc⟩ := hanc
    refine returns_pure ⟨rfl, hsorted.filter _, fun x => ?_⟩
    simp only [List.mem_filter, decide_eq_true_eq, hlatest, hanc, List.mem_append,
      List.mem_singleton]
    grind

/-- The latest common ancestor is none where the ops have no common ancestor, and else the
lowest of the common ancestors that are not ancestors of another. -/
theorem lca_latest (hdom : OpsClosed S dom) (hacyclic : Acyclic S) (hfree : CollisionFree S)
    (hne : ops ≠ []) (hops : ∀ o ∈ ops, o ∈ dom) :
    ∃ result, (lca ops).value S = .ok result ∧
      (result = none ↔ ¬ ∃ x, CommonAncestor S ops x) ∧
      ∀ b, result = some b ↔ LatestAncestor S ops b ∧ ∀ c, LatestAncestor S ops c → b ≤ c := by
  have hread : (lca ops).after S = S := (lasting_lca ops).readOnly S
  obtain ⟨result, hvalue, -, latest, hsorted, hlatest, rfl⟩ :=
    returns_latest hdom hne hops (by rwa [hread])
  refine ⟨latest.head?, hvalue, ?_, fun b => ?_⟩
  · rw [List.head?_eq_none_iff, List.eq_nil_iff_forall_not_mem]
    constructor
    · rintro h ⟨x, hx⟩
      obtain ⟨b, hb⟩ := exists_latest hdom hacyclic hne hops hx
      exact h b ((hlatest b).mpr hb)
    · exact fun h b hb => h ⟨b, ((hlatest b).mp hb).1⟩
  · cases latest with
    | nil =>
        refine iff_of_false (by simp) fun h => ?_
        exact absurd ((hlatest b).mpr h.1) List.not_mem_nil
    | cons first rest =>
        have hfirst : LatestAncestor S ops first := (hlatest first).mp List.mem_cons_self
        have hleast : ∀ c, LatestAncestor S ops c → first ≤ c := by
          intro c hc
          rcases List.mem_cons.mp ((hlatest c).mpr hc) with rfl | hmem
          · exact le_rfl
          · exact ((List.pairwise_cons.mp hsorted).1 c hmem).le
        rw [List.head?_cons, Option.some.injEq]
        constructor
        · rintro rfl
          exact ⟨hfirst, hleast⟩
        · exact fun h => le_antisymm (hleast b h.1) (h.2 first hfirst)

end LatestAncestors

section Fork

/-! Two ops over one. -/

def forkedOp (parents : List ObjectId) (time : ℤ) : Op where
  parents := parents
  author := .splat 1
  key := ⟨List.replicate 32 0, by decide⟩
  cap := none
  kind := "snapshot"
  args := ∅
  effects := []
  view := .splat 9
  time := time
  desc := none
  sig := none

def forkedStore : Store :=
  [.op (forkedOp [] 0), .op (forkedOp [.splat 0] 1), .op (forkedOp [.splat 0] 2)]

local instance forkedHash : Crypto := .ofTable forkedStore

theorem mem_forkedStore {op : Op} (h : Object.op op ∈ forkedStore) :
    op = forkedOp [] 0 ∨ op = forkedOp [.splat 0] 1 ∨ op = forkedOp [.splat 0] 2 := by
  simpa [forkedStore] using h

theorem acyclic_forked : Acyclic forkedStore := by
  have hstep : ∀ x y, Ancestor forkedStore x y → x = y ∨ x = .splat 0 ∧ y ≠ .splat 0 := by
    intro x y h
    induction h with
    | refl => exact Or.inl rfl
    | @tail c y _ hy ih =>
        obtain ⟨out, hout, hc⟩ := hy
        obtain ⟨op, hop, rfl, rfl⟩ := parentsIn_ok hout
        rcases mem_forkedStore hop with rfl | rfl | rfl
        · exact absurd hc List.not_mem_nil
        · obtain rfl := List.mem_singleton.mp hc
          exact Or.inr ⟨ih.elim id And.left, by decide +kernel⟩
        · obtain rfl := List.mem_singleton.mp hc
          exact Or.inr ⟨ih.elim id And.left, by decide +kernel⟩
  intro x y hxy hyx
  rcases hstep x y hxy with h | ⟨hx, hy⟩
  · exact h
  · rcases hstep y x hyx with h | ⟨hy', -⟩
    · exact h.symm
    · exact absurd hy' hy

theorem lca_latest_forked : ∃ result,
    (lca [.splat 1, .splat 2]).value forkedStore = .ok result ∧
      (result = none ↔ ¬ ∃ x, CommonAncestor forkedStore [.splat 1, .splat 2] x) ∧
      ∀ b, result = some b ↔ LatestAncestor forkedStore [.splat 1, .splat 2] b ∧
        ∀ c, LatestAncestor forkedStore [.splat 1, .splat 2] c → b ≤ c := by
  have hdom : OpsClosed forkedStore {.splat 0, .splat 1, .splat 2} := by
    intro x hx
    simp only [Finset.mem_insert, Finset.mem_singleton] at hx
    rcases hx with rfl | rfl | rfl
    · exact ⟨[], by decide +kernel, by simp⟩
    · exact ⟨[.splat 0], by decide +kernel, by simp⟩
    · exact ⟨[.splat 0], by decide +kernel, by simp⟩
  exact lca_latest hdom acyclic_forked (collisionFree_ofTable (by decide) fun _ h => h)
    (by simp) (by simp)

end Fork

end Tessra.Oplog
