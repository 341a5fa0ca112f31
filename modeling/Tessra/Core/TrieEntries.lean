import Tessra.Core.TrieRuns

namespace Tessra.Core

open Tessra.Data StoreM RadixTree

/-! Walking a trie lists its entries. -/

variable [Crypto] {L : ℕ} {S : Store} {f : Bytes → Option TrieValue}

/-- A walk over the slots of some nibbles lists the entries below them. -/
theorem returns_walkSlots {fuel : ℕ} {child : Nibble → TrieTree}
    (hwalk : ∀ n grandchild out, child n = .node grandchild →
      (Trie.walk fuel (idOf grandchild) out).Returns S fun out' S' =>
        S' = S ∧ out' = out ++ (child n).listed)
    (nibbles : List Nibble) (out : List (Bytes × TrieValue)) :
    ((nibbles.filterMap fun n => (subOf (child n)).toSlot).foldlM
        (Trie.visit (Trie.walk fuel)) out).Returns S fun out' S' =>
      S' = S ∧ out' = out ++ nibbles.flatMap fun n => (child n).listed := by
  induction nibbles generalizing out with
  | nil => exact returns_pure ⟨rfl, (List.append_nil out).symm⟩
  | cons n nibbles ih =>
      rw [List.filterMap_cons, List.flatMap_cons]
      cases hn : child n with
      | empty => exact ih out
      | leaf k v =>
          simp only [subOf, Sub.toSlot, List.foldlM_cons, Trie.visit, pure_bind]
          refine (ih (out ++ [(k, v)])).mono fun out' S' _ h => ⟨h.1, ?_⟩
          rw [h.2, List.append_assoc, listed]
      | node grandchild =>
          refine (hwalk n grandchild out hn).bind fun out' S' _ h => ?_
          obtain ⟨rfl, rfl⟩ := h
          refine (ih _).mono fun out'' S'' _ h => ⟨h.1, ?_⟩
          rw [h.2, List.append_assoc, hn]

theorem returns_walk (fuel : ℕ) {path : List Nibble} {child : Nibble → TrieTree}
    (hstored : Stored S (.node child)) (htidy : Tidy (keySpace L) path (.node child))
    (hfuel : 2 * L < fuel + path.length) (out : List (Bytes × TrieValue)) :
    (Trie.walk fuel (idOf child) out).Returns S fun out' S' =>
      S' = S ∧ out' = out ++ (RadixTree.node child).listed := by
  induction fuel generalizing path child out with
  | zero =>
      have hdepth : path.length < 2 * L := htidy.node_depth
      omega
  | succ fuel ih =>
      refine Returns.load_bind hstored (returns_walkSlots (fun n grandchild out' hn => ?_) _ out)
      have hgrand : Tidy (keySpace L) (path ++ [n]) (.node grandchild) := hn ▸ htidy.2 n
      rw [hn]
      exact ih (hn ▸ hstored.2 n) hgrand (by simp; omega) out'

/-- The entries of a stored trie are those of its tree, in order. -/
theorem returns_entries_listed {child : Nibble → TrieTree} (h : Sits L S [] (.node child) f) :
    (Trie.entries (idOf child)).Returns S fun out S' =>
      S' = S ∧ out = (RadixTree.node child).listed := by
  have hrun : Trie.entries (idOf child) S =
      Trie.walk (S.trieDepth + 1) (idOf child) [] S := rfl
  refine Returns.of_run hrun (Returns.load_bind h.stored ?_)
  refine (returns_walkSlots (fun n grandchild out hn => ?_) _ []).mono fun out S' _ hout => hout
  have htidy : Tidy (keySpace L) [n] (.node grandchild) := hn ▸ h.loose n
  have hdepth := depth_of_child h (n := n) (by rw [hn]; intro hempty; cases hempty)
  rw [hn]
  exact returns_walk _ (hn ▸ h.stored.2 n) htidy (by simp; omega) out

theorem Sits.mem_listed {child : Nibble → TrieTree} (h : Sits L S [] (.node child) f)
    (k : Bytes) (v : TrieValue) :
    (k, v) ∈ (RadixTree.node child).listed ↔ k.length = L ∧ f k = some v := by
  rw [RadixTree.mem_listed, has_node]
  constructor
  · intro hhas
    obtain ⟨n, hk⟩ := hhas
    exact ⟨((h.loose n).key hk).1, (h.loose n).reads_has (h.reads.child n) hk⟩
  · intro hf
    exact has_node.mp (h.reads.has (K := keySpace L) hf.1 List.nil_prefix hf.2)

theorem returns_entries {root : ObjectId} (h : Represents L S root f) :
    (Trie.entries root).Returns S fun out S' =>
      S' = S ∧ ∀ k v, (k, v) ∈ out ↔ k.length = L ∧ f k = some v := by
  obtain ⟨child, rfl, hsits⟩ := h
  refine (returns_entries_listed hsits).mono fun out S' _ hout => ⟨hout.1, fun k v => ?_⟩
  rw [hout.2]
  exact hsits.mem_listed k v

omit [Crypto] in
theorem byte_eq {b b' : Byte} (hhigh : b.high = b'.high) (hlow : b.low = b'.low) : b = b' := by
  simp only [Byte.high, Byte.low, Fin.mk.injEq] at hhigh hlow
  exact Fin.ext (by omega)

omit [Crypto] in
theorem byte_lt {b b' : Byte} (h : b.high < b'.high ∨ b.high = b'.high ∧ b.low < b'.low) :
    b < b' := by
  simp only [Byte.high, Byte.low, Fin.mk.injEq, Fin.mk_lt_mk] at h
  exact Fin.lt_def.mpr (by omega)

omit [Crypto] in
/-- Keys of one length are ordered by their bytes as by their nibbles. -/
theorem lt_of_digits_lt {k k' : Bytes} (hlength : k.length = k'.length)
    (h : digits k < digits k') : k < k' := by
  induction k generalizing k' with
  | nil =>
      obtain rfl := List.eq_nil_of_length_eq_zero hlength.symm
      exact absurd h (lt_irrefl _)
  | cons b k ih =>
      cases k' with
      | nil => cases hlength
      | cons b' k' =>
          have hcons : b.high :: b.low :: digits k < b'.high :: b'.low :: digits k' := h
          rw [List.cons_lt_cons_iff, List.cons_lt_cons_iff] at hcons
          rw [List.cons_lt_cons_iff]
          rcases hcons with hhigh | ⟨hhigh, hlow | ⟨hlow, hrest⟩⟩
          · exact .inl (byte_lt (.inl hhigh))
          · exact .inl (byte_lt (.inr ⟨hhigh, hlow⟩))
          · exact .inr ⟨byte_eq hhigh hlow, ih (Nat.succ.inj hlength) hrest⟩

theorem Sits.pairwise_listed {child : Nibble → TrieTree} (h : Sits L S [] (.node child) f) :
    (RadixTree.node child).listed.Pairwise fun e e' => e.1 < e'.1 := by
  have hordered : (RadixTree.node child).listed.Pairwise fun e e' => digits e.1 < digits e'.1 :=
    h.loose.pairwise_listed
  refine hordered.imp_of_mem fun he he' hlt => ?_
  have hlength := ((h.mem_listed _ _).mp he).1
  have hlength' := ((h.mem_listed _ _).mp he').1
  exact lt_of_digits_lt (hlength.trans hlength'.symm) hlt

end Tessra.Core
