import Tessra.Oplog.LogRuns

namespace Tessra.Oplog

open Tessra.Core Tessra.Data StoreM OpLog

/-! Sets of a view that ops add to and nothing removes from. -/

/-- A set that a view's contents hold, and what the effects of an op add to it. -/
structure Growing (α : Type) where
  holds : Contents → α → Prop
  adds : List Effect → α → Prop
  empty : ∀ x, ¬ holds .empty x
  actAll : ∀ effects c x, holds (c.actAll effects) x ↔ adds effects x ∨ holds c x
  merge : ∀ base a b x, holds (.merge base a b) x ↔ holds base x ∨ holds a x ∨ holds b x

theorem isSome_union {sets : List (Bytes → Option TrieValue)} {k : Bytes} :
    (Contents.union sets k).isSome ↔ ∃ f ∈ sets, (f k).isSome := by
  unfold Contents.union
  split_ifs with h
  · simpa using h
  · simpa using h

theorem isSome_update {α : Type} [DecidableEq α] {key : α → Bytes}
    (hkey : Function.Injective key) (f : Bytes → Option TrieValue) (x y : α) :
    (Function.update f (key x) (some .set) (key y)).isSome ↔ x = y ∨ (f (key y)).isSome := by
  rw [update_at hkey]
  split_ifs with h
  · simp [h]
  · simp [h]

theorem isSome_revoked_actAll {effects : List Effect} {p : EntityId} {c : Contents} :
    ((c.actAll effects).revoked p.bytes).isSome ↔
      .revoke p ∈ effects ∨ (c.revoked p.bytes).isSome := by
  induction effects generalizing c with
  | nil => simp [Contents.actAll]
  | cons e rest ih =>
      have hcons : c.actAll (e :: rest) = (c.act e).actAll rest := rfl
      have hact : ((c.act e).revoked p.bytes).isSome ↔
          .revoke p = e ∨ (c.revoked p.bytes).isSome := by
        cases e with
        | revoke q =>
            rw [Contents.act, isSome_update EntityId.bytes_injective, Effect.revoke.injEq, eq_comm]
        | _ => simp [Contents.act]
      rw [hcons, ih, hact, List.mem_cons, ← or_assoc, or_comm (a := _ ∈ rest)]

theorem isSome_tombstoned_actAll {effects : List Effect} {i : ObjectId} {c : Contents} :
    ((c.actAll effects).tombstoned i.bytes).isSome ↔
      (∃ tomb, .tomb i tomb ∈ effects) ∨ (c.tombstoned i.bytes).isSome := by
  induction effects generalizing c with
  | nil => simp [Contents.actAll]
  | cons e rest ih =>
      have hcons : c.actAll (e :: rest) = (c.act e).actAll rest := rfl
      have hact : ((c.act e).tombstoned i.bytes).isSome ↔
          (∃ tomb, .tomb i tomb = e) ∨ (c.tombstoned i.bytes).isSome := by
        cases e with
        | tomb j t =>
            rw [Contents.act, isSome_update ObjectId.bytes_injective]
            simp [eq_comm (a := i)]
        | _ => simp [Contents.act]
      rw [hcons, ih, hact]
      simp only [List.mem_cons, exists_or]
      rw [← or_assoc, or_comm (a := ∃ tomb, _ ∈ rest)]

/-- The revoked principals. -/
def revokedSet : Growing EntityId where
  holds c p := (c.revoked p.bytes).isSome
  adds effects p := .revoke p ∈ effects
  empty p := by simp [Contents.empty]
  actAll _ _ _ := isSome_revoked_actAll
  merge _ _ _ p := by simp [Contents.merge, isSome_union]

/-- The tombstoned objects. -/
def tombstonedSet : Growing ObjectId where
  holds c i := (c.tombstoned i.bytes).isSome
  adds effects i := ∃ tomb, .tomb i tomb ∈ effects
  empty i := by simp [Contents.empty]
  actAll _ _ _ := isSome_tombstoned_actAll
  merge _ _ _ i := by simp [Contents.merge, isSome_union]

namespace Growing

variable [Crypto] {α : Type} {G : Growing α} {F S : Store} {log : OpLog} {o x : ObjectId}

/-- An op of the store that adds to the set. -/
def AddsIn (G : Growing α) (F : Store) (o : ObjectId) (a : α) : Prop :=
  ∃ op, (getOp o).value F = .ok op ∧ G.adds op.effects a

/-- A merged view holds what an op at or below the merged ones adds. -/
def Along (G : Growing α) (F : Store) (ops : Set ObjectId) (_v : View) (c : Contents) : Prop :=
  ∀ a, G.holds c a ↔ ∃ x ∈ ops, ∃ o, Ancestor F o x ∧ G.AddsIn F o a

theorem ancestor_cases {parents : List ObjectId} (h : parentsIn F x = .ok parents) :
    Ancestor F o x ↔ o = x ∨ ∃ p ∈ parents, Ancestor F o p := by
  simp only [ancestor_iff]
  exact reach_iff h

theorem along_merge (G : Growing α) : MergeInvariant F (G.Along F) where
  empty := by
    intro v _ a
    simp [G.empty]
  merge := by
    intro A B next base va vb v cbase ca cb _ hbelow hbase ha hb _ a
    rw [G.merge, hbase a, ha a, hb a]
    constructor
    · intro h
      rcases h with ⟨x, hx, o, hox, ho⟩ | ⟨x, hx, hrest⟩ | ⟨x, hx, hrest⟩
      · obtain ⟨y, hy, hxy⟩ := hbelow x hx
        exact ⟨y, .inr hy, o, hox.trans hxy, ho⟩
      · exact ⟨x, .inr hx, hrest⟩
      · exact ⟨x, .inl hx, hrest⟩
    · intro h
      obtain ⟨x, hx, hrest⟩ := h
      rcases hx with rfl | hx
      · exact .inr (.inr ⟨x, rfl, hrest⟩)
      · exact .inr (.inl ⟨x, hx, hrest⟩)

theorem preserves_along (G : Growing α) (hfree : CollisionFree F) {op : Op}
    (hop : Object.op op ∈ F) : Preserves (G.Along F) op := by
  intro S v c parentOp _ hinv
  refine ensures_trivial.mono fun _ _ _ _ a => ?_
  have hget : (getOp (Crypto.objectId (.op op))).value F = .ok op := value_get hfree hop
  have hself : G.AddsIn F (Crypto.objectId (.op op)) a ↔ G.adds op.effects a := by
    rw [AddsIn, hget]
    simp
  have hexists : (∃ x ∈ ({Crypto.objectId (.op op)} : Set ObjectId), ∃ o, Ancestor F o x ∧
      G.AddsIn F o a) ↔ ∃ o, Ancestor F o (Crypto.objectId (.op op)) ∧ G.AddsIn F o a := by
    simp
  rw [G.actAll, hinv a, hexists, ← hself]
  simp only [ancestor_cases (parentsIn_of_mem hfree hop)]
  constructor
  · intro h
    rcases h with h | ⟨x, hx, o, hox, ho⟩
    · exact ⟨_, .inl rfl, h⟩
    · exact ⟨o, .inr ⟨x, hx, hox⟩, ho⟩
  · intro h
    obtain ⟨o, hbelow, ho⟩ := h
    rcases hbelow with rfl | ⟨x, hx, hox⟩
    · exact .inl ho
    · exact .inr ⟨x, hx, o, hox, ho⟩

theorem kept (G : Growing α) (h : LogReached S log) (hF : S ⊆ F) (hfree : CollisionFree F) :
    Kept (G.Along F) S log := by
  refine h.kept G.along_merge hF hfree fun op htook => G.preserves_along hfree ?_
  obtain ⟨o, _, hop⟩ := htook
  exact hF (get_ok hop).1

end Growing

end Tessra.Oplog
