import Tessra.Core.Trie
import Tessra.Data.RadixTree

namespace Tessra.Core

open Tessra.Data

/-! Stored tries as radix trees: every operation of a trie, run over a store,
computes the canonical radix tree of the contents it should have. -/

section Digits

def digits (key : Bytes) : List Nibble := key.flatMap Byte.nibbles

theorem length_digits (key : Bytes) : (digits key).length = 2 * key.length := by
  induction key with
  | nil => rfl
  | cons b key ih =>
      rw [digits, List.flatMap_cons, List.length_append, ← digits, ih, List.length_cons]
      simp only [Byte.nibbles, List.length_cons, List.length_nil]
      omega

theorem digits_injective : Function.Injective digits := by
  intro key
  induction key with
  | nil =>
      intro key' h
      cases key' with
      | nil => rfl
      | cons b key' => cases h
  | cons b key ih =>
      intro key' h
      cases key' with
      | nil => cases h
      | cons b' key' =>
          have hcons : b.nibbles ++ digits key = b'.nibbles ++ digits key' := h
          have hsplit := List.append_inj hcons rfl
          rw [Byte.nibbles_injective hsplit.1, ih hsplit.2]

theorem nibbleAt_eq {key : Bytes} {depth : ℕ} {n : Nibble}
    (h : (digits key)[depth]? = some n) : nibbleAt key depth = pure n := by
  induction key generalizing depth with
  | nil => cases h
  | cons b key ih =>
      match depth with
      | 0 | 1 =>
          cases h
          rfl
      | depth + 2 =>
          have hrest : nibbleAt (b :: key) (depth + 2) = nibbleAt key depth := by
            simp [nibbleAt]
          rw [hrest]
          exact ih h

theorem nibbleAt_append {key : Bytes} {path rest : List Nibble} {n : Nibble}
    (h : digits key = path ++ n :: rest) : nibbleAt key path.length = pure n :=
  nibbleAt_eq (by rw [h, List.getElem?_append_right (le_refl _), Nat.sub_self]; rfl)

theorem length_lt_of_next {key : Bytes} {L : ℕ} {path rest : List Nibble} {n : Nibble}
    (hkey : key.length = L) (h : digits key = path ++ n :: rest) : path.length < 2 * L := by
  have hlen := congrArg List.length h
  rw [length_digits, hkey] at hlen
  simp only [List.length_append, List.length_cons] at hlen
  omega

theorem ne_nil_of_node_depth {key : Bytes} {L : ℕ} {path rest : List Nibble} {n : Nibble}
    (hkey : key.length = L) (h : digits key = path ++ n :: rest)
    (hdepth : (path ++ [n]).length < 2 * L) : rest ≠ [] := by
  have hlen := congrArg List.length h
  rw [length_digits, hkey] at hlen
  rintro rfl
  simp only [List.length_append, List.length_cons, List.length_nil] at hlen hdepth
  omega

/-- Keys of `L` bytes, read nibble by nibble. -/
def keySpace (L : ℕ) : KeySpace Bytes Nibble where
  digits := digits
  depth := 2 * L
  valid key := key.length = L
  length_digits := fun {key} h => by rw [length_digits, h]
  digits_inj := fun _ _ h => digits_injective h

end Digits

abbrev TrieTree := RadixTree Nibble Bytes TrieValue

variable [Crypto] {L : ℕ}

open Crypto (objectId)
open TrieNode (ofSlots)

/-- How a subtree stands in a slot of a stored node. -/
def subOf : TrieTree → Sub
  | .empty => .empty
  | .leaf key value => .leaf key value
  | .node child => .node (objectId (.trie (ofSlots fun n => (subOf (child n)).toSlot)))

def nodeOf (child : Nibble → TrieTree) : TrieNode :=
  ofSlots fun n => (subOf (child n)).toSlot

def idOf (child : Nibble → TrieTree) : ObjectId := objectId (.trie (nodeOf child))

theorem subOf_node (child : Nibble → TrieTree) : subOf (.node child) = .node (idOf child) :=
  rfl

/-- Every node of a tree is in the store. -/
def Stored (S : Store) : TrieTree → Prop
  | .node child => Object.trie (nodeOf child) ∈ S ∧ ∀ n, Stored S (child n)
  | _ => True

theorem Stored.mono {S S' : Store} {t : TrieTree} (h : Stored S t) (hsub : S ⊆ S') :
    Stored S' t := by
  induction t with
  | empty => trivial
  | leaf => trivial
  | node child ih => exact ⟨hsub h.1, fun n => ih n (h.2 n)⟩

theorem subOf_inj {S : Store} (hfree : CollisionFree S) {t t' : TrieTree}
    (ht : Stored S t) (ht' : Stored S t') (h : subOf t = subOf t') : t = t' := by
  induction t generalizing t' with
  | empty => cases t' <;> cases h; rfl
  | leaf => cases t' <;> cases h; rfl
  | node child ih =>
      cases t' with
      | empty => cases h
      | leaf => cases h
      | node child' =>
          have hid : objectId (.trie (nodeOf child)) = objectId (.trie (nodeOf child')) :=
            Sub.node.inj h
          have hnode := Object.trie.inj (hfree _ ht.1 _ ht'.1 hid)
          apply congrArg
          funext n
          apply ih n (ht.2 n) (ht'.2 n)
          exact Sub.toSlot_injective (congrFun (TrieNode.ofSlots_injective hnode) n)

theorem getSlot_nodeOf (child : Nibble → TrieTree) (n : Nibble) :
    (nodeOf child).getSlot n = pure (subOf (child n)).toSlot :=
  TrieNode.getSlot_ofSlots _ n

theorem setSlot_nodeOf (child : Nibble → TrieTree) (n : Nibble) (t : TrieTree) :
    (nodeOf child).setSlot n (subOf t).toSlot =
      pure (nodeOf (Function.update child n t)) := by
  rw [nodeOf, TrieNode.setSlot_ofSlots, nodeOf]
  congr 2
  funext m
  by_cases hm : m = n
  · subst hm
    simp
  · simp [hm]

theorem empty_eq_nodeOf : TrieNode.empty = nodeOf fun _ => .empty :=
  TrieNode.empty_eq_ofSlots

theorem setSlot_leaf (child : Nibble → TrieTree) (n : Nibble) (key : Bytes)
    (value : TrieValue) : (nodeOf child).setSlot n (some (.leaf key value)) =
      pure (nodeOf (Function.update child n (.leaf key value))) :=
  setSlot_nodeOf child n (.leaf key value)

theorem setSlot_node (child grandchild : Nibble → TrieTree) (n : Nibble) :
    (nodeOf child).setSlot n (some (.node (idOf grandchild))) =
      pure (nodeOf (Function.update child n (.node grandchild))) :=
  setSlot_nodeOf child n (.node grandchild)

/-- A subtree at `path`: canonical below its top, stored, and holding `f`. -/
structure Sits (L : ℕ) (S : Store) (path : List Nibble) (t : TrieTree)
    (f : Bytes → Option TrieValue) : Prop where
  loose : t.Loose (keySpace L) path
  stored : Stored S t
  reads : t.Reads (keySpace L) path f

/-- The branches under a node that is not itself stored yet. -/
structure Branching (L : ℕ) (S : Store) (path : List Nibble) (child : Nibble → TrieTree)
    (f : Bytes → Option TrieValue) : Prop where
  tidy : ∀ n, (child n).Tidy (keySpace L) (path ++ [n])
  stored : ∀ n, Stored S (child n)
  reads : (RadixTree.node child).Reads (keySpace L) path f

/-- The root of a trie over keys of `L` bytes with contents `f`. -/
def Represents (L : ℕ) (S : Store) (root : ObjectId) (f : Bytes → Option TrieValue) : Prop :=
  ∃ child, root = idOf child ∧ Sits L S [] (.node child) f

theorem Sits.mono {S S' : Store} {path : List Nibble} {t : TrieTree}
    {f : Bytes → Option TrieValue} (h : Sits L S path t f) (hsub : S ⊆ S') :
    Sits L S' path t f :=
  ⟨h.loose, h.stored.mono hsub, h.reads⟩

theorem Branching.mono {S S' : Store} {path : List Nibble} {child : Nibble → TrieTree}
    {f : Bytes → Option TrieValue} (h : Branching L S path child f) (hsub : S ⊆ S') :
    Branching L S' path child f :=
  ⟨h.tidy, fun n => (h.stored n).mono hsub, h.reads⟩

theorem Sits.branching {S : Store} {path : List Nibble} {child : Nibble → TrieTree}
    {f : Bytes → Option TrieValue} (h : Sits L S path (.node child) f) :
    Branching L S path child f :=
  ⟨h.loose, h.stored.2, h.reads⟩

theorem Branching.sits {S : Store} {path : List Nibble} {child : Nibble → TrieTree}
    {f : Bytes → Option TrieValue} (h : Branching L S path child f)
    (hnode : Object.trie (nodeOf child) ∈ S) : Sits L S path (.node child) f :=
  ⟨h.tidy, ⟨hnode, h.stored⟩, h.reads⟩

theorem Represents.mono {S S' : Store} {root : ObjectId} {f : Bytes → Option TrieValue}
    (h : Represents L S root f) (hsub : S ⊆ S') : Represents L S' root f := by
  obtain ⟨child, hroot, hsits⟩ := h
  exact ⟨child, hroot, hsits.mono hsub⟩

theorem Represents.congr {S : Store} {root : ObjectId} {f g : Bytes → Option TrieValue}
    (h : Represents L S root f) (heq : ∀ key, key.length = L → f key = g key) :
    Represents L S root g := by
  obtain ⟨child, hroot, hsits⟩ := h
  exact ⟨child, hroot, hsits.loose, hsits.stored, hsits.reads.congr fun key hkey _ =>
    heq key hkey⟩

theorem Represents.unique {S S' : Store} {root root' : ObjectId}
    {f g : Bytes → Option TrieValue} (h : Represents L S root f)
    (h' : Represents L S' root' g) (heq : ∀ key, key.length = L → f key = g key) :
    root = root' := by
  obtain ⟨child, rfl, hsits⟩ := h
  obtain ⟨child', rfl, hsits'⟩ := h'
  have hreads := hsits.reads.congr (g := g) fun key hkey _ => heq key hkey
  rw [RadixTree.TidyRoot.ext_reads hsits.loose hsits'.loose hreads hsits'.reads]

section Operations

open StoreM RadixTree

variable {S : Store} {path rest : List Nibble} {child : Nibble → TrieTree}
  {f : Bytes → Option TrieValue} {key : Bytes} {α : Type} {post : α → Store → Prop}

theorem Branching.update (h : Branching L S path child f) (hlt : path.length < 2 * L)
    {n : Nibble} {t : TrieTree} {g : Bytes → Option TrieValue}
    (htidy : t.Tidy (keySpace L) (path ++ [n])) (hstored : Stored S t)
    (hreads : t.Reads (keySpace L) (path ++ [n]) g)
    (hother : ∀ k, k.length = L → path <+: digits k → ¬ path ++ [n] <+: digits k →
      g k = f k) :
    Branching L S path (Function.update child n t) g := by
  refine ⟨fun m => ?_, fun m => ?_, reads_node hlt fun m => ?_⟩
  · by_cases hm : m = n
    · subst hm
      simpa using htidy
    · simpa [hm] using h.tidy m
  · by_cases hm : m = n
    · subst hm
      simpa using hstored
    · simpa [hm] using h.stored m
  · by_cases hm : m = n
    · subst hm
      simpa using hreads
    · rw [Function.update_of_ne hm]
      refine (h.reads.child m).congr fun k hk hpath => (hother k hk ?_ fun hn => hm ?_).symm
      · exact (List.prefix_append path [m]).trans hpath
      · exact next_unique (K := keySpace L) hpath hn

theorem returns_load {post : TrieNode → Store → Prop} (h : Stored S (.node child))
    (hpost : post (nodeOf child) S) : (Trie.load (idOf child)).Returns S post :=
  returns_get (t := nodeOf child) h.1 hpost

theorem Returns.load_bind {g : TrieNode → StoreM α} (h : Stored S (.node child))
    (hg : (g (nodeOf child)).Returns S post) :
    (Trie.load (idOf child) >>= g).Returns S post := by
  refine Returns.bind (P := fun node S' => node = nodeOf child ∧ S' = S)
    (returns_load h ⟨rfl, rfl⟩) ?_
  rintro _ _ _ ⟨rfl, rfl⟩
  exact hg

theorem Returns.save_bind {g : ObjectId → StoreM α}
    (hg : ∀ S', S ⊆ S' → Object.trie (nodeOf child) ∈ S' → (g (idOf child)).Returns S' post) :
    (Trie.save (nodeOf child) >>= g).Returns S post := by
  refine Returns.bind (P := fun id S' => id = idOf child ∧ Object.trie (nodeOf child) ∈ S')
    (returns_put (t := nodeOf child) fun S' _ hmem => ⟨rfl, hmem⟩) ?_
  rintro _ S' hsub ⟨rfl, hmem⟩
  exact hg S' hsub hmem

theorem Branching.empty (hlt : path.length < 2 * L)
    (hf : ∀ k, k.length = L → path <+: digits k → f k = none) :
    Branching L S path (fun _ => .empty) f :=
  ⟨fun _ => trivial, fun _ => trivial, reads_node hlt fun _ => reads_empty fun k hk hpath =>
    hf k hk ((List.prefix_append _ _).trans hpath)⟩

theorem Branching.update_leaf (h : Branching L S path child f) {n : Nibble} {rest : List Nibble}
    (hkey : key.length = L) (hrest : digits key = path ++ n :: rest) (value : TrieValue)
    (hothers : ∀ k, k.length = L → path ++ [n] <+: digits k → k ≠ key → f k = none) :
    Branching L S path (Function.update child n (.leaf key value))
      (Function.update f key (some value)) := by
  have hpath : path ++ [n] <+: digits key := prefix_next hrest
  have hlt := length_lt_of_next hkey hrest
  refine h.update hlt (t := .leaf key value) ⟨hkey, hpath⟩ trivial ?_ ?_
  · refine reads_leaf (by simp) fun k hk hk' hne => ?_
    rw [Function.update_of_ne hne, hothers k hk hk' hne]
  · intro k _ _ hk
    refine Function.update_of_ne ?_ _ _
    rintro rfl
    exact hk hpath

theorem returns_pairNode {k₁ k₂ : Bytes} {v₁ v₂ : TrieValue} (hne : k₁ ≠ k₂)
    (hk₁ : k₁.length = L) (hk₂ : k₂.length = L) {rest₁ rest₂ : List Nibble}
    (h₁ : digits k₁ = path ++ rest₁) (h₂ : digits k₂ = path ++ rest₂)
    (hf₁ : f k₁ = some v₁) (hf₂ : f k₂ = some v₂)
    (hf : ∀ k, k.length = L → path <+: digits k → k ≠ k₁ → k ≠ k₂ → f k = none) :
    (Trie.pairNode k₁ v₁ k₂ v₂ rest₂.length path.length).Returns S fun node S' =>
      ∃ child, node = nodeOf child ∧ Branching L S' path child f := by
  have hdepth : path.length + rest₁.length = path.length + rest₂.length := by
    rw [← List.length_append, ← List.length_append, ← h₁, ← h₂, length_digits,
      length_digits, hk₁, hk₂]
  induction rest₂ generalizing path rest₁ S with
  | nil =>
      obtain rfl : rest₁ = [] := List.length_eq_zero_iff.mp (by simpa using hdepth)
      exact absurd (digits_injective (h₁.trans h₂.symm)) hne
  | cons n₂ rest₂ ih =>
      obtain ⟨n₁, rest₁, rfl⟩ : ∃ n rest, rest₁ = n :: rest :=
        List.exists_cons_of_length_pos (by simp only [List.length_cons] at hdepth; omega)
      have hlt := length_lt_of_next hk₂ h₂
      simp only [List.length_cons, Trie.pairNode, nibbleAt_append h₁, nibbleAt_append h₂,
        pure_bind, empty_eq_nodeOf]
      split_ifs with hn
      · subst hn
        have hchild : (Trie.pairNode k₁ v₁ k₂ v₂ rest₂.length (path ++ [n₁]).length).Returns S
            fun node S' => ∃ child, node = nodeOf child ∧
              Branching L S' (path ++ [n₁]) child f :=
          ih (by simpa using h₁) (by simpa using h₂)
          (fun k hk hpath => hf k hk ((List.prefix_append _ _).trans hpath))
          (by simpa using hdepth)
        rw [show (path ++ [n₁]).length = path.length + 1 by simp] at hchild
        refine hchild.bind ?_
        rintro _ S₁ _ ⟨grandchild, rfl, hgrand⟩
        refine Returns.save_bind fun S₂ hsub hmem => ?_
        rw [setSlot_node]
        refine returns_pure ⟨_, rfl, ?_⟩
        have hsits := (hgrand.mono hsub).sits hmem
        have hbranches : Branches grandchild := branches_of_two_keys hne
          (hgrand.reads.has hk₁ (prefix_next h₁) hf₁)
          (hgrand.reads.has hk₂ (prefix_next h₂) hf₂)
        refine (Branching.empty (f := fun _ => none) hlt fun _ _ _ => rfl).update hlt
          ⟨hbranches, hsits.loose⟩ hsits.stored hsits.reads ?_
        intro k hk hpath hother
        refine hf k hk hpath ?_ ?_
        · rintro rfl
          exact hother (prefix_next h₁)
        · rintro rfl
          exact hother (prefix_next h₂)
      · rw [setSlot_leaf, pure_bind, setSlot_leaf]
        refine returns_pure ⟨_, rfl, ?_⟩
        have hboth := ((Branching.empty (S := S) (f := fun _ => none) hlt
          fun _ _ _ => rfl).update_leaf hk₁ h₁ v₁ fun _ _ _ _ => rfl).update_leaf hk₂ h₂ v₂ ?_
        · refine ⟨hboth.tidy, hboth.stored, hboth.reads.congr fun k hk hpath => ?_⟩
          by_cases hk₂' : k = k₂
          · subst hk₂'
            simp [hf₂]
          · by_cases hk₁' : k = k₁
            · subst hk₁'
              simp [hk₂', hf₁]
            · simp [hk₁', hk₂', hf k hk hpath hk₁' hk₂']
        · intro k hk hpath _
          refine Function.update_of_ne ?_ _ _
          rintro rfl
          exact hn (next_unique (K := keySpace L) (prefix_next h₁) hpath)

theorem returns_getIn (h : Branching L S path child f) (hkey : key.length = L)
    (hrest : digits key = path ++ rest) :
    (Trie.getIn key rest.length path.length (nodeOf child)).Returns S fun v S' =>
      v = f key ∧ S' = S := by
  induction rest generalizing path child with
  | nil =>
      refine returns_pure ⟨?_, rfl⟩
      exact h.reads key [] hkey hrest
  | cons n rest ih =>
      have hvalue : (child n).lookup rest key = f key :=
        h.reads.child n key rest hkey (by simpa [keySpace] using hrest)
      simp only [List.length_cons, Trie.getIn, nibbleAt_append hrest, pure_bind, getSlot_nodeOf]
      cases hchild : child n with
      | empty =>
          rw [hchild] at hvalue
          exact returns_pure ⟨hvalue, rfl⟩
      | leaf k v =>
          rw [hchild] at hvalue
          exact returns_pure ⟨hvalue, rfl⟩
      | node grandchild =>
          have hstored : Stored S (.node grandchild) := hchild ▸ h.stored n
          have hgrand : Branching L S (path ++ [n]) grandchild f :=
            ⟨(hchild ▸ h.tidy n : Tidy _ _ (.node grandchild)).2, hstored.2,
              hchild ▸ h.reads.child n⟩
          refine Returns.load_bind hstored ?_
          simpa using ih hgrand (by simpa using hrest)

theorem returns_insertIn (value : TrieValue) (h : Branching L S path child f)
    (hkey : key.length = L) (hrest : digits key = path ++ rest) (hne : rest ≠ []) :
    (Trie.insertIn key value rest.length path.length (nodeOf child)).Returns S fun node S' =>
      ∃ child', node = nodeOf child' ∧
        Branching L S' path child' (Function.update f key (some value)) := by
  induction rest generalizing path child S with
  | nil => exact absurd rfl hne
  | cons n rest ih =>
      have hlt := length_lt_of_next hkey hrest
      have hpath := prefix_next hrest
      have hother : ∀ k, k.length = L → path <+: digits k → ¬ path ++ [n] <+: digits k →
          Function.update f key (some value) k = f k := fun k _ _ hk =>
        Function.update_of_ne (fun heq : k = key => hk (heq ▸ hpath)) _ _
      simp only [List.length_cons, Trie.insertIn, nibbleAt_append hrest, pure_bind,
        getSlot_nodeOf]
      cases hchild : child n with
      | empty =>
          simp only [subOf, Sub.toSlot, setSlot_leaf]
          refine returns_pure ⟨_, rfl, h.update_leaf hkey hrest value fun k hk hpath _ => ?_⟩
          obtain ⟨tail, htail⟩ := hpath
          rw [← h.reads.child n k tail hk htail.symm, hchild]
          rfl
      | leaf k v =>
          have hreads := h.reads.child n
          have hleaf := h.tidy n
          rw [hchild] at hreads hleaf
          have hvalue : f k = some v := hleaf.reads_has hreads .leaf
          have hnone : ∀ k', k'.length = L → path ++ [n] <+: digits k' → k' ≠ k →
              f k' = none := by
            rintro k' hk' ⟨tail, htail⟩ hne'
            rw [← hreads k' tail hk' htail.symm]
            simp [lookup, Ne.symm hne']
          simp only [subOf, Sub.toSlot]
          by_cases hk : k = key
          · subst hk
            simp only [if_true, setSlot_leaf]
            exact returns_pure ⟨_, rfl, h.update_leaf hkey hrest value hnone⟩
          · have hlength : ¬ k.length ≠ key.length := fun hne => hne (hleaf.1.trans hkey.symm)
            obtain ⟨tail, htail⟩ := hleaf.2
            have hpair : (Trie.pairNode k v key value rest.length
                (path ++ [n]).length).Returns S fun node S' => ∃ child, node = nodeOf child ∧
                  Branching L S' (path ++ [n]) child (Function.update f key (some value)) :=
              returns_pairNode hk hleaf.1 hkey
              htail.symm (by simpa using hrest) (by rw [Function.update_of_ne hk, hvalue])
              (Function.update_self ..) fun k' hk' hpath' hne₁ hne₂ => by
                rw [Function.update_of_ne hne₂, hnone k' hk' hpath' hne₁]
            rw [show (path ++ [n]).length = path.length + 1 by simp] at hpair
            simp only [if_neg hk, if_neg hlength]
            refine hpair.bind ?_
            rintro _ S₁ hsub ⟨grandchild, rfl, hgrand⟩
            refine Returns.save_bind fun S₂ hsub' hmem => ?_
            rw [setSlot_node]
            have hsits := (hgrand.mono hsub').sits hmem
            have hbranches : Branches grandchild := branches_of_two_keys hk
              (hgrand.reads.has hleaf.1 hleaf.2 ((Function.update_of_ne hk ..).trans hvalue))
              (hgrand.reads.has hkey hpath (Function.update_self ..))
            exact returns_pure ⟨_, rfl, ((h.mono hsub).mono hsub').update hlt
              ⟨hbranches, hsits.loose⟩ hsits.stored hsits.reads hother⟩
      | node grandchild =>
          have hstored : Stored S (.node grandchild) := hchild ▸ h.stored n
          have htidy : Tidy (keySpace L) (path ++ [n]) (.node grandchild) := hchild ▸ h.tidy n
          have hreads : Reads (keySpace L) (path ++ [n]) (.node grandchild) f :=
            hchild ▸ h.reads.child n
          have hinsert := ih (S := S) ⟨htidy.2, hstored.2, hreads⟩ (by simpa using hrest)
            (ne_nil_of_node_depth hkey hrest htidy.node_depth)
          rw [show (path ++ [n]).length = path.length + 1 by simp] at hinsert
          simp only [subOf_node, Sub.toSlot_node]
          refine Returns.load_bind hstored (hinsert.bind ?_)
          rintro _ S₁ hsub ⟨child', rfl, hchild'⟩
          refine Returns.save_bind fun S₂ hsub' hmem => ?_
          rw [setSlot_node]
          have hsits := (hchild'.mono hsub').sits hmem
          have hbranches : Branches child' := by
            refine htidy.branches_of_reads hreads hchild'.reads fun k hk => ?_
            by_cases heq : k = key
            · simp [heq]
            · rwa [Function.update_of_ne heq]
          exact returns_pure ⟨_, rfl, ((h.mono hsub).mono hsub').update hlt
            ⟨hbranches, hsits.loose⟩ hsits.stored hsits.reads hother⟩

theorem subOf_toSlot_eq_none {t : TrieTree} : (subOf t).toSlot = none ↔ t = .empty := by
  cases t <;> simp [subOf, Sub.toSlot]

theorem subOf_toSlot_eq_leaf {t : TrieTree} {k : Bytes} {v : TrieValue} :
    (subOf t).toSlot = some (.leaf k v) ↔ t = .leaf k v := by
  cases t <;> simp [subOf, Sub.toSlot]

theorem normalize_cases (child : Nibble → TrieTree) :
    (∃ t, Collapses child t ∧ Stored S t ∧
      Trie.normalize (nodeOf child) = pure (subOf t)) ∨
    (Branches child ∧ Trie.normalize (nodeOf child) = do
      return .node (← Trie.save (nodeOf child))) := by
  have hslots : (nodeOf child).slots = pack fun n => (subOf (child n)).toSlot := rfl
  rcases hpack : pack (fun n => (subOf (child n)).toSlot) with _ | ⟨slot, _ | ⟨slot', slots⟩⟩
  · refine .inl ⟨.empty, .empty fun n => ?_, trivial, ?_⟩
    · exact subOf_toSlot_eq_none.mp (pack_eq_nil.mp hpack n)
    · rw [Trie.normalize, hslots, hpack]
      rfl
  · obtain ⟨n, hn, hother⟩ := pack_eq_singleton.mp hpack
    cases slot with
    | leaf k v =>
        refine .inl ⟨.leaf k v, .leaf (subOf_toSlot_eq_leaf.mp hn) fun m hm => ?_, trivial, ?_⟩
        · exact subOf_toSlot_eq_none.mp (hother m hm)
        · rw [Trie.normalize, hslots, hpack]
          rfl
    | node id =>
        refine .inr ⟨.inr ?_, ?_⟩
        · cases hchild : child n with
          | node grandchild => exact ⟨n, grandchild, hchild⟩
          | _ => simp [hchild, subOf, Sub.toSlot] at hn
        · rw [Trie.normalize, hslots, hpack]
  · obtain ⟨m, hm⟩ := mem_pack.mp (hpack ▸ List.mem_cons_self :
      slot ∈ pack fun n => (subOf (child n)).toSlot)
    refine .inr ⟨.inl ?_, ?_⟩
    · by_contra hnone
      have hsingle : pack (fun n => (subOf (child n)).toSlot) = [slot] := by
        refine pack_eq_singleton.mpr ⟨m, hm, fun n hn => subOf_toSlot_eq_none.mpr ?_⟩
        by_contra hne
        refine hnone ⟨m, n, Ne.symm hn, fun hempty => ?_, hne⟩
        rw [subOf_toSlot_eq_none.mpr hempty] at hm
        cases hm
      rw [hpack] at hsingle
      cases hsingle
    · rw [Trie.normalize, hslots, hpack]
      cases slot <;> rfl

theorem returns_normalize (h : Branching L S path child f) (hlt : path.length < 2 * L) :
    (Trie.normalize (nodeOf child)).Returns S fun sub S' =>
      ∃ t, sub = subOf t ∧ Sits L S' path t f ∧ t.Tidy (keySpace L) path := by
  have hreads := fun n => h.reads.child n
  rcases normalize_cases (S := S) child with ⟨t, hcollapses, hstored, hrun⟩ | ⟨hbranches, hrun⟩
  · rw [hrun]
    have htidy := hcollapses.tidy h.tidy
    exact returns_pure ⟨t, rfl, ⟨htidy.loose, hstored, hcollapses.reads hlt h.tidy hreads⟩, htidy⟩
  · rw [hrun]
    refine Returns.save_bind fun S' hsub hmem => returns_pure ?_
    exact ⟨.node child, rfl, (h.mono hsub).sits hmem, hbranches, h.tidy⟩

theorem returns_removeIn (h : Branching L S path child f) (hkey : key.length = L)
    (hrest : digits key = path ++ rest) (hne : rest ≠ []) :
    (Trie.removeIn key rest.length path.length (nodeOf child)).Returns S fun sub S' =>
      ∃ t, sub = subOf t ∧ Sits L S' path t (Function.update f key none) ∧
        (Branches child → t.Tidy (keySpace L) path) := by
  induction rest generalizing path child S with
  | nil => exact absurd rfl hne
  | cons n rest ih =>
      have hlt := length_lt_of_next hkey hrest
      have hpath := prefix_next hrest
      have hother : ∀ k, k.length = L → path <+: digits k → ¬ path ++ [n] <+: digits k →
          Function.update f key none k = f k := fun k _ _ hk =>
        Function.update_of_ne (fun heq : k = key => hk (heq ▸ hpath)) _ _
      -- The key is not below the node, which is saved as it was.
      have hkeep : f key = none → (do return Sub.node (← Trie.save (nodeOf child)) :
          StoreM Sub).Returns S fun sub S' =>
          ∃ t, sub = subOf t ∧ Sits L S' path t (Function.update f key none) ∧
            (Branches child → t.Tidy (keySpace L) path) := by
        intro hnone
        refine Returns.save_bind fun S' hsub hmem => returns_pure ?_
        rw [Function.update_eq_self_iff.mpr hnone.symm]
        exact ⟨.node child, rfl, (h.mono hsub).sits hmem, fun hbranches => ⟨hbranches, h.tidy⟩⟩
      have hvalue : (child n).lookup rest key = f key :=
        h.reads.child n key rest hkey (by simpa [keySpace] using hrest)
      simp only [List.length_cons, Trie.removeIn, nibbleAt_append hrest, pure_bind,
        getSlot_nodeOf]
      cases hchild : child n with
      | empty =>
          rw [hchild] at hvalue
          exact hkeep hvalue.symm
      | leaf k v =>
          rw [hchild] at hvalue
          simp only [subOf, Sub.toSlot]
          split_ifs with hk
          · exact hkeep (by rw [← hvalue]; simp [lookup, hk])
          · obtain rfl : k = key := not_not.mp hk
            rw [show (none : Option Slot) = (subOf .empty).toSlot from rfl, setSlot_nodeOf,
              pure_bind]
            have hremoved := h.update hlt (n := n) (t := .empty) trivial trivial
              (g := Function.update f k none) (reads_empty fun k' hk' hpath' => by
                by_cases heq : k' = k
                · simp [heq]
                · obtain ⟨tail, htail⟩ := hpath'
                  rw [Function.update_of_ne heq, ← h.reads.child n k' tail hk' htail.symm,
                    hchild]
                  simp [lookup, Ne.symm heq]) hother
            refine (returns_normalize hremoved hlt).mono ?_
            rintro _ S' _ ⟨t, rfl, hsits, htidy⟩
            exact ⟨t, rfl, hsits, fun _ => htidy⟩
      | node grandchild =>
          have hstored : Stored S (.node grandchild) := hchild ▸ h.stored n
          have htidy : Tidy (keySpace L) (path ++ [n]) (.node grandchild) := hchild ▸ h.tidy n
          have hreads : Reads (keySpace L) (path ++ [n]) (.node grandchild) f :=
            hchild ▸ h.reads.child n
          have hremove := ih (S := S) ⟨htidy.2, hstored.2, hreads⟩ (by simpa using hrest)
            (ne_nil_of_node_depth hkey hrest htidy.node_depth)
          rw [show (path ++ [n]).length = path.length + 1 by simp] at hremove
          simp only [subOf_node, Sub.toSlot_node]
          refine Returns.load_bind hstored (hremove.bind ?_)
          rintro _ S₁ hsub ⟨t, rfl, hsits, hjustified⟩
          rw [setSlot_nodeOf, pure_bind]
          have hremoved := (h.mono hsub).update hlt (hjustified htidy.1) hsits.stored
            hsits.reads hother
          refine (returns_normalize hremoved hlt).mono ?_
          rintro _ S' _ ⟨t', rfl, hsits', htidy'⟩
          exact ⟨t', rfl, hsits', fun _ => htidy'⟩

theorem returns_saveRoot {t : TrieTree} (hpos : 0 < L) (h : Sits L S [] t f) :
    (Trie.saveRoot (subOf t)).Returns S fun root S' => Represents L S' root f := by
  have hsave : ∀ child, Branching L S [] child f →
      (Trie.save (nodeOf child)).Returns S fun root S' => Represents L S' root f := by
    intro child hchild
    refine returns_put fun S' hsub hmem => ?_
    exact ⟨child, rfl, (hchild.mono hsub).sits hmem⟩
  have hlt : ([] : List Nibble).length < 2 * L := by
    simp only [List.length_nil]
    omega
  cases t with
  | empty =>
      have hempty : Branching L S [] (fun _ => .empty) f :=
        Branching.empty hlt fun k hk _ => (h.reads k _ hk rfl).symm
      have hrun := hsave _ hempty
      rw [← empty_eq_nodeOf] at hrun
      exact hrun
  | leaf k v =>
      obtain ⟨hk, _⟩ : Tidy (keySpace L) [] (.leaf k v) := h.loose
      obtain ⟨n, rest, hrest⟩ := exists_next (K := keySpace L) hk (List.nil_prefix) hlt
      have hdigits : digits k = [] ++ n :: rest := by simpa [keySpace] using hrest.symm
      have hnibble : nibbleAt k 0 = pure n := nibbleAt_append hdigits
      simp only [subOf, Trie.saveRoot, hnibble, pure_bind, empty_eq_nodeOf, setSlot_leaf]
      apply hsave
      refine (Branching.empty (f := fun _ => none) hlt fun _ _ _ => rfl).update hlt
        (t := .leaf k v) ⟨hk, prefix_next hdigits⟩ trivial ?_ ?_
      · intro k' rest' hk' hrest'
        exact h.reads k' (n :: rest') hk' (by simpa using hrest')
      · intro k' hk' _ hother
        rw [← h.reads k' (digits k') hk' rfl]
        have hne : k ≠ k' := by
          rintro rfl
          exact hother (prefix_next hdigits)
        simp [lookup, hne]
  | node child =>
      exact returns_pure ⟨child, rfl, h⟩

end Operations

end Tessra.Core
