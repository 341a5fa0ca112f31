import Tessra.Core.TrieEntries

namespace Tessra.Core

open Tessra.Data StoreM RadixTree

/-! Tries as finite maps over keys of one length. -/

section Maps

variable [Crypto] {L : ℕ} {S : Store} {root : ObjectId} {f : Bytes → Option TrieValue}
  {roots : List ObjectId}

/-- Every operation on these roots does what it does to a finite map, and fails on
none of them. -/
structure FiniteMaps (L : ℕ) (S : Store) (roots : List ObjectId) : Prop where
  get : ∀ root ∈ roots, ∀ k, k.length = L → ∃ v, (Trie.get root k).value S = .ok v
  insert : ∀ root ∈ roots, ∀ k v, k.length = L → CollisionFree ((Trie.insert root k v).after S) →
    ∃ root', (Trie.insert root k v).value S = .ok root' ∧ ∀ k', k'.length = L →
      (Trie.get root' k').value ((Trie.insert root k v).after S) =
        if k' = k then .ok (some v) else (Trie.get root k').value S
  remove : ∀ root ∈ roots, ∀ k, k.length = L → CollisionFree ((Trie.remove root k).after S) →
    ∃ root', (Trie.remove root k).value S = .ok root' ∧ ∀ k', k'.length = L →
      (Trie.get root' k').value ((Trie.remove root k).after S) =
        if k' = k then .ok none else (Trie.get root k').value S
  entries : ∀ root ∈ roots, ∃ out, (Trie.entries root).value S = .ok out ∧
    out.Pairwise (fun e e' => e.1 < e'.1) ∧ ∀ k v, (k, v) ∈ out ↔
      k.length = L ∧ (Trie.get root k).value S = .ok (some v)
  merge3 : ∀ base ∈ roots, ∀ a ∈ roots, ∀ b ∈ roots, ∀ policy,
    CollisionFree ((Trie.merge3 base a b policy).after S) →
    ∃ root, (Trie.merge3 base a b policy).value S = .ok root

/-- What is read where the contents are updated. -/
theorem Represents.get_update {S' : Store} {root' : ObjectId} {k : Bytes} {w : Option TrieValue}
    (h : Represents L S root f) (hfree : CollisionFree S)
    (h' : Represents L S' root' (Function.update f k w)) (hfree' : CollisionFree S') {k' : Bytes}
    (hk' : k'.length = L) :
    (Trie.get root' k').value S' = if k' = k then .ok w else (Trie.get root k').value S := by
  rw [h'.get_value hfree' hk', h.get_value hfree hk']
  split_ifs with heq
  · rw [heq, Function.update_self]
  · rw [Function.update_of_ne heq]

omit [Crypto] in
theorem readOnly_visit {walkBelow : ObjectId → List (Bytes × TrieValue) →
    StoreM (List (Bytes × TrieValue))} (hwalk : ∀ id out, (walkBelow id out).ReadOnly)
    (slots : List Slot) (out : List (Bytes × TrieValue)) :
    (slots.foldlM (Trie.visit walkBelow) out).ReadOnly := by
  induction slots generalizing out with
  | nil => exact readOnly_pure out
  | cons slot slots ih =>
      rw [List.foldlM_cons]
      refine ReadOnly.bind ?_ ih
      cases slot with
      | leaf k v => exact readOnly_pure _
      | node id => exact hwalk id out

theorem readOnly_walk (fuel : ℕ) (id : ObjectId) (out : List (Bytes × TrieValue)) :
    (Trie.walk fuel id out).ReadOnly := by
  induction fuel generalizing id out with
  | zero => exact readOnly_throw _
  | succ fuel ih => exact (readOnly_get TrieNode id).bind fun node => readOnly_visit ih node.slots out

theorem Represents.entries_value (h : Represents L S root f) (hfree : CollisionFree S) :
    ∃ out, (Trie.entries root).value S = .ok out ∧ out.Pairwise (fun e e' => e.1 < e'.1) ∧
      ∀ k v, (k, v) ∈ out ↔ k.length = L ∧ f k = some v := by
  obtain ⟨child, rfl, hsits⟩ := h
  have hafter : (Trie.entries (idOf child)).after S = S := readOnly_walk _ _ _ S
  have hfree' : CollisionFree ((Trie.entries (idOf child)).after S) := by rwa [hafter]
  obtain ⟨out, hvalue, _, rfl⟩ := returns_entries_listed hsits hfree'
  exact ⟨_, hvalue, hsits.pairwise_listed, hsits.mem_listed⟩

end Maps

section Samples

local instance mapHash : Crypto := .ofTable partingTable

end Samples

end Tessra.Core
