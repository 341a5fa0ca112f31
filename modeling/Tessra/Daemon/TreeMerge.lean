import Tessra.Daemon.Flattening

namespace Tessra.Daemon

open Tessra.Core Tessra.Data StoreM

/-! A merge keeps files and directories apart unless one side adds a file where
the other adds a directory. -/

section Merging

/-- The first path is that of a directory that the second lies in. -/
def Above (p q : String) : Prop := p.toList ++ ['/'] <+: q.toList

instance (p q : String) : Decidable (Above p q) :=
  inferInstanceAs (Decidable (_ <+: _))

/-- No path is a proper directory prefix of another. -/
def PrefixFree (flat : Flat) : Prop := ∀ p ∈ flat.keys, ∀ q ∈ flat.keys, ¬ Above p q

instance (flat : Flat) : Decidable (PrefixFree flat) :=
  inferInstanceAs (Decidable (∀ p ∈ flat.keys, ∀ q ∈ flat.keys, ¬ Above p q))

/-- The sides changed the path, and not in the same way. -/
def Disputed (base a b : Flat) (p : String) : Prop :=
  a.get? p ≠ base.get? p ∧ b.get? p ≠ base.get? p ∧ a.get? p ≠ b.get? p

/-- One side adds a path where the other adds a directory. -/
def Nests (base a b : Flat) : Prop :=
  ∃ p q, Above p q ∧ p ∉ base.keys ∧ q ∉ base.keys ∧ p ∈ a.keys ∧ q ∈ b.keys

variable [Crypto] {base a b : Flat}

/-- What the merge keeps of some paths. -/
def picked (base a b : Flat) (l : List String) : List (String × Leaf) :=
  l.filterMap fun p => (pick (base.get? p) (a.get? p) (b.get? p)).1.map (p, ·)

theorem foldl_merge (l : List String) (s : Flat × List String) :
    l.foldl (fun s p =>
      let (leaf, conflict) := pick (base.get? p) (a.get? p) (b.get? p)
      (leaf.elim s.1 (s.1.insert p), if conflict then s.2 ++ [p] else s.2)) s =
      (s.1.insertAll (picked base a b l),
        s.2 ++ l.filter fun p => (pick (base.get? p) (a.get? p) (b.get? p)).2) := by
  induction l generalizing s with
  | nil => simp [picked, OrdMap.insertAll]
  | cons p l ih =>
      rw [List.foldl_cons, ih, picked, picked, List.filterMap_cons, List.filter_cons]
      rcases pick (base.get? p) (a.get? p) (b.get? p) with ⟨leaf, conflict⟩
      cases leaf <;> cases conflict <;> simp [OrdMap.insertAll]

theorem nodup_picked {l : List String} (hl : l.Nodup) :
    ((picked base a b l).map Prod.fst).Nodup := by
  rw [List.Nodup, List.pairwise_map, picked, List.pairwise_filterMap]
  refine hl.imp fun hne e he e' he' => ?_
  obtain ⟨_, _, rfl⟩ := Option.map_eq_some_iff.mp he
  obtain ⟨_, _, rfl⟩ := Option.map_eq_some_iff.mp he'
  exact hne

theorem get?_merge3 (p : String) : (merge3 base a b).1.get? p =
    (pick (base.get? p) (a.get? p) (b.get? p)).1 := by
  refine Option.ext fun leaf => ?_
  rw [merge3, foldl_merge, OrdMap.get?_insertAll_empty
    (nodup_picked ((sortedDedup_pairwise _).imp fun h => h.ne)), picked, List.mem_filterMap]
  constructor
  · rintro ⟨q, -, hq⟩
    obtain ⟨leaf', hleaf, heq⟩ := Option.map_eq_some_iff.mp hq
    cases heq
    exact hleaf
  · intro h
    refine ⟨p, ?_, by rw [h]; rfl⟩
    rw [mem_sortedDedup, List.mem_append, List.mem_append]
    by_contra hnot
    rw [not_or, not_or, ← OrdMap.get?_eq_none, ← OrdMap.get?_eq_none, ← OrdMap.get?_eq_none] at hnot
    rw [hnot.1.1, hnot.1.2, hnot.2] at h
    cases h

theorem conflict_iff {p : String} :
    (pick (base.get? p) (a.get? p) (b.get? p)).2 = true ↔ Disputed base a b p := by
  unfold pick Disputed
  split_ifs with ha hb
  · simp [ha]
  · rcases hb with hb | hb <;> simp [hb]
  · rw [not_or] at hb
    simp [ha, hb.1, hb.2]

theorem conflicts_eq_nil : (merge3 base a b).2 = [] ↔ ∀ p, ¬ Disputed base a b p := by
  rw [merge3, foldl_merge, List.nil_append, List.filter_eq_nil_iff]
  simp only [conflict_iff]
  refine ⟨fun h p hp => ?_, fun h p _ => h p⟩
  refine h p ?_ hp
  rw [mem_sortedDedup, List.mem_append, List.mem_append]
  by_contra hnot
  rw [not_or, not_or, ← OrdMap.get?_eq_none, ← OrdMap.get?_eq_none, ← OrdMap.get?_eq_none] at hnot
  exact hp.1 (hnot.1.2.trans hnot.1.1.symm)

/-- Where the sides do not conflict, a path is kept that one side has and the
other side has too, or did not change. -/
theorem mem_keys_merge3 (h : ∀ p, ¬ Disputed base a b p) (p : String) :
    p ∈ (merge3 base a b).1.keys ↔
      p ∈ a.keys ∧ p ∈ b.keys ∨ p ∉ base.keys ∧ (p ∈ a.keys ∨ p ∈ b.keys) := by
  have hp := h p
  have hkeys : ∀ flat : Flat, p ∈ flat.keys ↔ flat.get? p ≠ none := fun flat => by
    rw [Ne, OrdMap.get?_eq_none, not_not]
  unfold Disputed at hp
  rw [hkeys, hkeys, hkeys, hkeys, get?_merge3, pick]
  generalize base.get? p = base, a.get? p = a, b.get? p = b at *
  split_ifs <;> grind

theorem prefixFree_merge3_iff (ha : PrefixFree a) (hb : PrefixFree b)
    (h : ∀ p, ¬ Disputed base a b p) :
    PrefixFree (merge3 base a b).1 ↔ ¬ Nests base a b ∧ ¬ Nests base b a := by
  constructor
  · refine fun hfree => ⟨?_, ?_⟩
    · rintro ⟨p, q, habove, hp, hq, hpa, hqb⟩
      exact hfree p ((mem_keys_merge3 h p).mpr (.inr ⟨hp, .inl hpa⟩)) q
        ((mem_keys_merge3 h q).mpr (.inr ⟨hq, .inr hqb⟩)) habove
    · rintro ⟨p, q, habove, hp, hq, hpb, hqa⟩
      exact hfree p ((mem_keys_merge3 h p).mpr (.inr ⟨hp, .inr hpb⟩)) q
        ((mem_keys_merge3 h q).mpr (.inr ⟨hq, .inl hqa⟩)) habove
  · rintro ⟨hab, hba⟩ p hp q hq habove
    rcases (mem_keys_merge3 h p).mp hp with ⟨hpa, hpb⟩ | ⟨hpbase, hp⟩
    · rcases (mem_keys_merge3 h q).mp hq with ⟨hqa, -⟩ | ⟨-, hqa | hqb⟩
      · exact ha p hpa q hqa habove
      · exact ha p hpa q hqa habove
      · exact hb p hpb q hqb habove
    · rcases (mem_keys_merge3 h q).mp hq with ⟨hqa, hqb⟩ | ⟨hqbase, hq⟩
      · rcases hp with hpa | hpb
        · exact ha p hpa q hqa habove
        · exact hb p hpb q hqb habove
      · rcases hp with hpa | hpb <;> rcases hq with hqa | hqb
        · exact ha p hpa q hqa habove
        · exact hab ⟨p, q, habove, hpbase, hqbase, hpa, hqb⟩
        · exact hba ⟨p, q, habove, hpbase, hqbase, hpb, hqa⟩
        · exact hb p hpb q hqb habove

/-- A merge of trees reports a conflict or is a tree, unless one side adds a path
where the other adds a directory; and a map is built into one tree that flattens
to it, unless a path has an empty first segment or a leaf is itself a directory. -/
theorem merged_trees_iff (shardSlot : String → Byte) {flat : Flat} {S : Store}
    (ha : PrefixFree a) (hb : PrefixFree b)
    (hfree : CollisionFree ((build shardSlot flat).after S)) :
    ((merge3 base a b).2 ≠ [] ∨ PrefixFree (merge3 base a b).1 ↔
      (∃ p, Disputed base a b p) ∨ ¬ Nests base a b ∧ ¬ Nests base b a) ∧
    (RoundTrips shardSlot S flat ↔
      ∀ p leaf, flat.get? p = some leaf → ¬ Rooted p ∧ leaf.kind ≠ .dir) := by
  refine ⟨?_, roundTrips_iff shardSlot hfree⟩
  by_cases h : ∀ p, ¬ Disputed base a b p
  · have hnone : ¬ ∃ p, Disputed base a b p := not_exists.mpr h
    rw [Ne, conflicts_eq_nil.mpr h, prefixFree_merge3_iff ha hb h]
    simp [hnone]
  · have hsome : (merge3 base a b).2 ≠ [] := fun hnil => h (conflicts_eq_nil.mp hnil)
    exact iff_of_true (.inl hsome) (.inl (not_forall_not.mp h))

end Merging

section Samples

/-! One side adds a file, and the other a directory of the same name. -/

def oneFile (path : String) : Flat := (∅ : Flat).insert path (.file (.splat 9) false)

def builtTable : List Object :=
  [.tree (Tree.flat [(Leaf.file (.splat 9) false).entry "main.rs"]),
   .tree (Tree.flat [⟨"src", .dir, none, some (.splat 0), none⟩])]

local instance : Crypto := .ofTable builtTable

theorem file_over_directory :
    PrefixFree (∅ : Flat) ∧ PrefixFree (oneFile "src") ∧ PrefixFree (oneFile "src/main.rs") ∧
    (merge3 ∅ (oneFile "src") (oneFile "src/main.rs")).2 = [] ∧
    ¬ PrefixFree (merge3 ∅ (oneFile "src") (oneFile "src/main.rs")).1 := by
  decide +kernel

theorem merged_trees_apart :
    ((merge3 ∅ (oneFile "src") (oneFile "docs/main.md")).2 ≠ [] ∨
        PrefixFree (merge3 ∅ (oneFile "src") (oneFile "docs/main.md")).1 ↔
      (∃ p, Disputed ∅ (oneFile "src") (oneFile "docs/main.md") p) ∨
        ¬ Nests ∅ (oneFile "src") (oneFile "docs/main.md") ∧
          ¬ Nests ∅ (oneFile "docs/main.md") (oneFile "src")) ∧
    (RoundTrips (fun _ => 0) [] (oneFile "src/main.rs") ↔
      ∀ p leaf, (oneFile "src/main.rs").get? p = some leaf → ¬ Rooted p ∧ leaf.kind ≠ .dir) :=
  merged_trees_iff (fun _ => 0) (by decide +kernel) (by decide +kernel)
    (collisionFree_ofTable (by decide) (by decide +kernel))

end Samples

end Tessra.Daemon
