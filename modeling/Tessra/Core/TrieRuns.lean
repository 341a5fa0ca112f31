import Tessra.Core.TrieMerge

namespace Tessra.Core

open Tessra.Data

/-! Runs of trie operations over a store: what each operation does to the
contents of the tries it is given, and what holds of every root of a run. -/

section Operations

open StoreM RadixTree

variable [Crypto] {L : ℕ}

variable {S : Store} {root base a b : ObjectId} {f fbase fa fb : Bytes → Option TrieValue}
  {key : Bytes}

theorem Represents.load (h : Represents L S root f) {α : Type} {g : TrieNode → StoreM α}
    {post : α → Store → Prop}
    (hg : ∀ child, Branching L S [] child f → (g (nodeOf child)).Returns S post) :
    (Trie.load root >>= g).Returns S post := by
  obtain ⟨child, rfl, hsits⟩ := h
  exact Returns.load_bind hsits.stored (hg child hsits.branching)

omit [Crypto] in
theorem digits_ne_nil (hkey : key.length = L) (hpos : 0 < L) : digits key ≠ [] := by
  intro h
  have hlen := congrArg List.length h
  rw [length_digits, hkey, List.length_nil] at hlen
  omega

theorem returns_emptyRoot :
    Trie.emptyRoot.Returns S fun root S' => ∀ L, Represents L S' root fun _ => none := by
  rw [Trie.emptyRoot, empty_eq_nodeOf]
  refine returns_put fun S' _ hmem L => ⟨_, rfl, fun _ => trivial, ⟨hmem, fun _ => trivial⟩, ?_⟩
  intro k rest _ _
  cases rest <;> rfl

theorem returns_get (h : Represents L S root f) (hkey : key.length = L) :
    (Trie.get root key).Returns S fun v S' => v = f key ∧ S' = S := by
  refine h.load fun child hchild => ?_
  have hrun := returns_getIn hchild hkey (List.nil_append (digits key)).symm
  rwa [length_digits, Nat.mul_comm] at hrun

theorem returns_insert (h : Represents L S root f) (hpos : 0 < L) (hkey : key.length = L)
    (value : TrieValue) :
    (Trie.insert root key value).Returns S fun root' S' =>
      Represents L S' root' (Function.update f key (some value)) := by
  refine h.load fun child hchild => ?_
  have hrun := returns_insertIn value hchild hkey (List.nil_append (digits key)).symm
    (digits_ne_nil hkey hpos)
  rw [length_digits, Nat.mul_comm] at hrun
  refine hrun.bind ?_
  rintro _ S₁ - ⟨child', rfl, hchild'⟩
  refine returns_put fun S₂ hsub hmem => ?_
  exact ⟨child', rfl, (hchild'.mono hsub).sits hmem⟩

theorem returns_remove (h : Represents L S root f) (hpos : 0 < L) (hkey : key.length = L) :
    (Trie.remove root key).Returns S fun root' S' =>
      Represents L S' root' (Function.update f key none) := by
  refine h.load fun child hchild => ?_
  have hrun := returns_removeIn hchild hkey (List.nil_append (digits key)).symm
    (digits_ne_nil hkey hpos)
  rw [length_digits, Nat.mul_comm] at hrun
  refine hrun.bind ?_
  rintro _ S₁ - ⟨t, rfl, hsits, -⟩
  exact returns_saveRoot hpos hsits

/-- Every key of a stored tree stands in a leaf of a stored node. -/
theorem Stored.leaf_mem {child : Nibble → TrieTree} (h : Stored S (.node child))
    {v : TrieValue} (hkey : Has key v (.node child)) :
    ∃ node, Object.trie node ∈ S ∧ Slot.leaf key v ∈ node.slots := by
  generalize ht : RadixTree.node child = t at h hkey
  induction hkey generalizing child with
  | leaf => cases ht
  | @node child' n hkey ih =>
      cases ht
      cases hn : child' n with
      | empty => exact absurd (hn ▸ hkey) has_empty
      | leaf k x =>
          obtain ⟨rfl, rfl⟩ := has_leaf.mp (hn ▸ hkey)
          exact ⟨nodeOf child', h.1, mem_pack.mpr ⟨n, by rw [hn]; rfl⟩⟩
      | node grandchild => exact ih hn.symm (h.2 n)

omit [Crypto] in
theorem le_trieDepth {node : TrieNode} {v : TrieValue} (hnode : Object.trie node ∈ S)
    (hleaf : Slot.leaf key v ∈ node.slots) : 2 * key.length ≤ S.trieDepth := by
  refine le_trans ?_ (List.le_sum_of_mem (List.mem_map_of_mem hnode))
  have hslot : slotDepth (.leaf key v) ≤ (node.slots.map slotDepth).sum :=
    List.le_sum_of_mem (List.mem_map_of_mem hleaf)
  exact le_add_left hslot

/-- The store is deep enough for any key a root holds. -/
theorem depth_of_child {child : Nibble → TrieTree} {n : Nibble}
    (h : Sits L S [] (.node child) f) (hn : child n ≠ .empty) :
    0 < 2 * L ∧ 2 * L ≤ S.trieDepth := by
  obtain ⟨k, v, hk⟩ := (h.loose n).exists_key hn
  obtain ⟨hlen, hpath⟩ := (h.loose n).key hk
  obtain ⟨node, hnode, hleaf⟩ := h.stored.leaf_mem (.node n hk)
  have hpos := hpath.length_le
  rw [show (keySpace L).digits k = digits k from rfl, length_digits,
    show k.length = L from hlen] at hpos
  have hdepth := le_trieDepth hnode hleaf
  rw [show k.length = L from hlen] at hdepth
  exact ⟨hpos, hdepth⟩

theorem depth_of_ne {child child' : Nibble → TrieTree} (hne : child ≠ child')
    (h : Sits L S [] (.node child) f) (h' : Sits L S [] (.node child') fa) :
    0 < 2 * L ∧ 2 * L ≤ S.trieDepth := by
  obtain ⟨n, hn⟩ := Function.ne_iff.mp hne
  by_cases hempty : child n = .empty
  · exact depth_of_child (n := n) h' fun hempty' => hn (hempty.trans hempty'.symm)
  · exact depth_of_child h hempty

theorem returns_merge3 (hbase : Represents L S base fbase) (ha : Represents L S a fa)
    (hb : Represents L S b fb) (policy : MergePolicy) :
    (Trie.merge3 base a b policy).Returns S fun root S' =>
      Represents L S' root fun k => threeWay policy (fbase k) (fa k) (fb k) := by
  obtain ⟨base, rfl, hbase⟩ := hbase
  obtain ⟨a, rfl, ha⟩ := ha
  obtain ⟨b, rfl, hb⟩ := hb
  have hmerge : (Trie.mergeRoots (idOf base) (idOf a) (idOf b) policy).Returns S
      fun sub S' => ∃ t, sub = subOf t ∧ (0 < L ∨ ∃ child, t = .node child) ∧
        Sits L S' [] t fun k => threeWay policy (fbase k) (fa k) (fb k) := by
    by_cases hne : a = base
    · subst hne
      have hrun : Trie.mergeRoots (idOf a) (idOf a) (idOf b) policy S =
          (pure (subOf (.node b)) : StoreM Sub) S := by
        rw [Trie.mergeRoots, Trie.mergeSub, if_pos rfl, subOf_node]
      refine Returns.of_run hrun (returns_pure ?_)
      refine ⟨.node b, rfl, .inr ⟨b, rfl⟩, hb.congr fun k hk hpath => ?_⟩
      simp [threeWay, ha.agree hbase hk hpath]
    · obtain ⟨hpos, hdepth⟩ := depth_of_ne hne ha hbase
      have hrun := returns_mergeSub policy (S.trieDepth + 1) (.inl hpos) hpos.le
        (by simp only [List.length_nil]; omega) hbase ha hb
      have hroots : Trie.mergeRoots (idOf base) (idOf a) (idOf b) policy S =
          Trie.mergeSub policy (S.trieDepth + 1) 0 (subOf (.node base)) (subOf (.node a))
            (subOf (.node b)) S := rfl
      refine Returns.of_run hroots (hrun.mono ?_)
      rintro _ S' - ⟨t, rfl, hsits, -⟩
      exact ⟨t, rfl, .inl (by omega), hsits⟩
  refine hmerge.bind ?_
  rintro _ S' - ⟨t, rfl, hpos | ⟨child, rfl⟩, hsits⟩
  · exact returns_saveRoot hpos hsits
  · exact returns_pure ⟨child, rfl, hsits⟩

end Operations

section Runs

open StoreM RadixTree

variable [Crypto] {L : ℕ}

/-- An operation on the tries of a store, which computes a root. -/
inductive TrieOp
  | emptyRoot
  | insert (root : ObjectId) (key : Bytes) (value : TrieValue)
  | remove (root : ObjectId) (key : Bytes)
  | merge3 (base a b : ObjectId) (policy : MergePolicy)

namespace TrieOp

def run : TrieOp → StoreM ObjectId
  | .emptyRoot => Trie.emptyRoot
  | .insert root key value => Trie.insert root key value
  | .remove root key => Trie.remove root key
  | .merge3 base a b policy => Trie.merge3 base a b policy

/-- The operation takes known roots and a key of `L` bytes. -/
def Over (L : ℕ) (roots : List ObjectId) : TrieOp → Prop
  | .emptyRoot => True
  | .insert root key _ | .remove root key => root ∈ roots ∧ key.length = L
  | .merge3 base a b _ => base ∈ roots ∧ a ∈ roots ∧ b ∈ roots

end TrieOp

/-- The stores and roots of runs of trie operations over keys of `L` bytes,
between which any other objects may be put. -/
inductive Reached (L : ℕ) : Store → List ObjectId → Prop
  | start : Reached L [] []
  | put {S : Store} {roots : List ObjectId} (o : Object) :
      Reached L S roots → Reached L (S ++ [o]) roots
  | step {S : Store} {roots : List ObjectId} {op : TrieOp} {root : ObjectId} :
      Reached L S roots → op.Over L roots → op.run.value S = .ok root →
      Reached L (op.run.after S) (root :: roots)

theorem insert_nil {S : Store} {root root' : ObjectId} {value : TrieValue} :
    (Trie.insert root [] value).value S ≠ .ok root' := by
  intro h
  obtain ⟨_, _, hrest, _⟩ := bind_ok h
  obtain ⟨_, hinsert, _⟩ := bind_ok hrest
  cases hinsert

theorem remove_nil {S : Store} {root root' : ObjectId} :
    (Trie.remove root []).value S ≠ .ok root' := by
  intro h
  obtain ⟨_, _, hrest, _⟩ := bind_ok h
  obtain ⟨_, hremove, _⟩ := bind_ok hrest
  cases hremove

/-- An operation on represented roots computes a represented root. -/
theorem TrieOp.represents {S : Store} {roots : List ObjectId} {op : TrieOp} {root : ObjectId}
    (hroots : ∀ r ∈ roots, ∃ f, Represents L S r f) (hover : op.Over L roots)
    (hrun : op.run.value S = .ok root) (hfree : CollisionFree (op.run.after S)) :
    ∃ f, Represents L (op.run.after S) root f := by
  have hdone : ∀ {f}, op.run.Returns S (fun root S' => Represents L S' root f) →
      ∃ f, Represents L (op.run.after S) root f := by
    intro f hreturns
    obtain ⟨root', hroot', hrepresents⟩ := hreturns hfree
    rw [hrun] at hroot'
    cases hroot'
    exact ⟨f, hrepresents⟩
  cases op with
  | emptyRoot => exact hdone (returns_emptyRoot.mono fun _ _ _ hroot => hroot L)
  | insert r key value =>
      obtain ⟨f, hf⟩ := hroots r hover.1
      rcases Nat.eq_zero_or_pos L with rfl | hpos
      · obtain rfl := List.length_eq_zero_iff.mp hover.2
        exact absurd hrun insert_nil
      · exact hdone (returns_insert hf hpos hover.2 value)
  | remove r key =>
      obtain ⟨f, hf⟩ := hroots r hover.1
      rcases Nat.eq_zero_or_pos L with rfl | hpos
      · obtain rfl := List.length_eq_zero_iff.mp hover.2
        exact absurd hrun remove_nil
      · exact hdone (returns_remove hf hpos hover.2)
  | merge3 base a b policy =>
      obtain ⟨_, hbase⟩ := hroots base hover.1
      obtain ⟨_, ha⟩ := hroots a hover.2.1
      obtain ⟨_, hb⟩ := hroots b hover.2.2
      exact hdone (returns_merge3 hbase ha hb policy)

/-- Every root of a run is the root of a canonical trie. -/
theorem Reached.represents {S : Store} {roots : List ObjectId} (hrun : Reached L S roots)
    (hfree : CollisionFree S) : ∀ root ∈ roots, ∃ f, Represents L S root f := by
  induction hrun with
  | start => simp
  | put o _ ih =>
      intro root hroot
      obtain ⟨f, hf⟩ := ih (hfree.mono (List.subset_append_left _ _)) root hroot
      exact ⟨f, hf.mono (List.subset_append_left _ _)⟩
  | @step S roots op root _ hover hvalue ih =>
      have hroots := ih (hfree.mono (op.run.subset_after S))
      intro r hr
      rcases List.mem_cons.mp hr with rfl | hr
      · exact op.represents hroots hover hvalue hfree
      · obtain ⟨f, hf⟩ := hroots r hr
        exact ⟨f, hf.mono (op.run.subset_after S)⟩

omit [Crypto] in
theorem readOnly_nibbleAt (key : Bytes) (depth : ℕ) : (nibbleAt key depth).ReadOnly := by
  unfold nibbleAt
  split
  · exact readOnly_throw _
  · split_ifs <;> exact readOnly_pure _

omit [Crypto] in
theorem readOnly_getSlot (node : TrieNode) (n : Nibble) : (node.getSlot n).ReadOnly := by
  unfold TrieNode.getSlot
  split
  · exact readOnly_pure _
  · split
    · exact readOnly_pure _
    · exact readOnly_throw _

theorem readOnly_getIn (key : Bytes) (left depth : ℕ) (node : TrieNode) :
    (Trie.getIn key left depth node).ReadOnly := by
  induction left generalizing depth node with
  | zero => exact readOnly_pure _
  | succ left ih =>
      refine (readOnly_nibbleAt key depth).bind fun n =>
        (readOnly_getSlot node n).bind fun slot => ?_
      rcases slot with _ | ⟨k, v⟩ | id
      · exact readOnly_pure _
      · exact readOnly_pure _
      · exact (readOnly_get TrieNode id).bind fun child => ih (depth + 1) child

theorem readOnly_trieGet (root : ObjectId) (key : Bytes) : (Trie.get root key).ReadOnly :=
  (readOnly_get TrieNode root).bind fun node => readOnly_getIn key _ 0 node

theorem Represents.get_value {S : Store} {root : ObjectId} {f : Bytes → Option TrieValue}
    (h : Represents L S root f) (hfree : CollisionFree S) {key : Bytes}
    (hkey : key.length = L) : (Trie.get root key).value S = .ok (f key) := by
  obtain ⟨v, hv, rfl, -⟩ := returns_get h hkey (by rwa [readOnly_trieGet root key S])
  exact hv

theorem merge3_pointwise {S : Store} {roots : List ObjectId} (hrun : Reached L S roots)
    {base a b : ObjectId} (hbase : base ∈ roots) (ha : a ∈ roots) (hb : b ∈ roots)
    (policy : MergePolicy) (hfree : CollisionFree ((Trie.merge3 base a b policy).after S))
    (hfree' : CollisionFree ((Trie.merge3 base b a policy).after S)) :
    ∃ root, (Trie.merge3 base a b policy).value S = .ok root ∧
      (Trie.merge3 base b a policy).value S = .ok root ∧
      ∀ key, key.length = L → ∃ vbase va vb,
        (Trie.get base key).value S = .ok vbase ∧ (Trie.get a key).value S = .ok va ∧
        (Trie.get b key).value S = .ok vb ∧
        (Trie.get root key).value ((Trie.merge3 base a b policy).after S) =
          .ok (threeWay policy vbase va vb) := by
  have hstart := hfree.mono (subset_after _ S)
  obtain ⟨fbase, hbase⟩ := hrun.represents hstart base hbase
  obtain ⟨fa, ha⟩ := hrun.represents hstart a ha
  obtain ⟨fb, hb⟩ := hrun.represents hstart b hb
  obtain ⟨root, hroot, hmerged⟩ := returns_merge3 hbase ha hb policy hfree
  obtain ⟨root', hroot', hmerged'⟩ := returns_merge3 hbase hb ha policy hfree'
  have hsame : root' = root := hmerged'.unique hmerged fun key _ => threeWay_comm ..
  refine ⟨root, hroot, hsame ▸ hroot', fun key hkey => ?_⟩
  exact ⟨fbase key, fa key, fb key, hbase.get_value hstart hkey, ha.get_value hstart hkey,
    hb.get_value hstart hkey, hmerged.get_value hfree hkey⟩

end Runs

section Parting

/-- Two keys that part at their last nibble, inserted on two sides. -/
def partingTable : List Object :=
  [.trie .empty,
   .trie ⟨0b10, [.leaf [.ofNat 0x10] (.id (.splat 7))]⟩,
   .trie ⟨0b10, [.leaf [.ofNat 0x11] (.id (.splat 8))]⟩,
   .trie ⟨0b11, [.leaf [.ofNat 0x10] (.id (.splat 7)), .leaf [.ofNat 0x11] (.id (.splat 8))]⟩,
   .trie ⟨0b10, [.node (.splat 3)]⟩]

local instance : Crypto := .ofTable partingTable

private theorem parting_reached :
    Reached 1 (partingTable.take 3) [.splat 2, .splat 1, .splat 0] := by
  let insertFirst : TrieOp := .insert (.splat 0) [.ofNat 0x10] (.id (.splat 7))
  let insertSecond : TrieOp := .insert (.splat 0) [.ofNat 0x11] (.id (.splat 8))
  have hempty : Reached 1 (TrieOp.emptyRoot.run.after []) [.splat 0] := .step .start trivial rfl
  have hfirst : Reached 1 (insertFirst.run.after (partingTable.take 1)) [.splat 1, .splat 0] :=
    .step hempty ⟨by decide, rfl⟩ rfl
  have hsecond : Reached 1 (insertSecond.run.after (partingTable.take 2))
      [.splat 2, .splat 1, .splat 0] := .step hfirst ⟨by decide, rfl⟩ rfl
  exact hsecond

private theorem parting_free (a b : ObjectId)
    (h : ∀ o ∈ (Trie.merge3 (.splat 0) a b .set).after (partingTable.take 3),
      o ∈ partingTable) :
    CollisionFree ((Trie.merge3 (.splat 0) a b .set).after (partingTable.take 3)) :=
  collisionFree_ofTable (by decide) h

theorem merge3_pointwise_parting : ∃ root,
    (Trie.merge3 (.splat 0) (.splat 1) (.splat 2) .set).value (partingTable.take 3) =
      .ok root ∧
    (Trie.merge3 (.splat 0) (.splat 2) (.splat 1) .set).value (partingTable.take 3) =
      .ok root ∧
    ∀ key : Bytes, key.length = 1 → ∃ vbase va vb,
      (Trie.get (.splat 0) key).value (partingTable.take 3) = .ok vbase ∧
      (Trie.get (.splat 1) key).value (partingTable.take 3) = .ok va ∧
      (Trie.get (.splat 2) key).value (partingTable.take 3) = .ok vb ∧
      (Trie.get root key).value ((Trie.merge3 (.splat 0) (.splat 1) (.splat 2) .set).after
        (partingTable.take 3)) = .ok (threeWay .set vbase va vb) :=
  merge3_pointwise parting_reached (by decide) (by decide) (by decide) .set
    (parting_free _ _ (by decide +kernel)) (parting_free _ _ (by decide +kernel))

example : (Trie.merge3 (.splat 0) (.splat 1) (.splat 2) .set).value (partingTable.take 3) =
    .ok (.splat 4) := by decide +kernel

end Parting

section Canonical

open StoreM RadixTree

variable [Crypto] {L : ℕ}

/-- A node of the trie below `root`, along the path to it. -/
inductive NodeAt (S : Store) (root : ObjectId) : List Nibble → TrieNode → Prop
  | root {node : TrieNode} : (Trie.load root).value S = .ok node → NodeAt S root [] node
  | child {path : List Nibble} {n : Nibble} {id : ObjectId} {node child : TrieNode} :
      NodeAt S root path node → node.getSlot n = pure (some (.node id)) →
      (Trie.load id).value S = .ok child → NodeAt S root (path ++ [n]) child

/-- Canonical form: slots in the order of the bitmap, a node below the root
only over two keys, and a leaf over one. -/
structure Canonical (L : ℕ) (S : Store) (root : ObjectId) : Prop where
  loads : ∃ node, (Trie.load root).value S = .ok node
  closed : ∀ {path node n id}, NodeAt S root path node →
    node.getSlot n = pure (some (.node id)) → ∃ child, (Trie.load id).value S = .ok child
  bitmap : ∀ {path node}, NodeAt S root path node →
    node.slots.length = countOnes node.bitmap
  leaf : ∀ {path node n key value}, NodeAt S root path node →
    node.getSlot n = pure (some (.leaf key value)) →
    key.length = L ∧ path ++ [n] <+: digits key
  shared : ∀ {path node}, NodeAt S root path node → path ≠ [] → ∃ k k' v v', k ≠ k' ∧
    path <+: digits k ∧ path <+: digits k' ∧
    (Trie.get root k).value S = .ok (some v) ∧ (Trie.get root k').value S = .ok (some v')
  alone : ∀ {path node n slot key value}, NodeAt S root path node →
    node.getSlot n = pure (some slot) →
    (Trie.get root key).value S = .ok (some value) → key.length = L →
    path ++ [n] <+: digits key →
    (∀ k v, k.length = L → path ++ [n] <+: digits k →
      (Trie.get root k).value S = .ok (some v) → k = key) →
    slot = .leaf key value

theorem load_value {S : Store} {child : Nibble → TrieTree} (hfree : CollisionFree S)
    (h : Stored S (.node child)) : (Trie.load (idOf child)).value S = .ok (nodeOf child) := by
  have hreturns : (Trie.load (idOf child)).Returns S fun node _ => node = nodeOf child :=
    returns_load h rfl
  obtain ⟨node, hnode, rfl⟩ := hreturns (by rwa [Trie.load, readOnly_get TrieNode _ S])
  exact hnode

omit [Crypto] in
theorem pure_inj {α : Type} {x y : α} (h : (pure x : StoreM α) = pure y) : x = y :=
  Except.ok.inj (congrArg (fun run : StoreM α => run.value []) h)

theorem nodeAt_cases {S : Store} {root : ObjectId} {f : Bytes → Option TrieValue}
    (hfree : CollisionFree S) (h : Represents L S root f) {path : List Nibble}
    {node : TrieNode} (hat : NodeAt S root path node) :
    ∃ child, node = nodeOf child ∧ Sits L S path (.node child) f ∧
      (path ≠ [] → Tidy (keySpace L) path (.node child)) := by
  induction hat with
  | root hload =>
      obtain ⟨child, rfl, hsits⟩ := h
      rw [load_value hfree hsits.stored] at hload
      cases hload
      exact ⟨child, rfl, hsits, fun hne => absurd rfl hne⟩
  | @child path n id node node' _ hslot hload ih =>
      obtain ⟨child, rfl, hsits, _⟩ := ih
      rw [getSlot_nodeOf] at hslot
      have hchild := pure_inj hslot
      cases hn : child n with
      | node grandchild =>
          rw [hn] at hchild
          cases hchild
          have hstored : Stored S (.node grandchild) := hn ▸ hsits.stored.2 n
          have htidy : Tidy (keySpace L) (path ++ [n]) (.node grandchild) := hn ▸ hsits.loose n
          change (Trie.load (idOf grandchild)).value S = _ at hload
          rw [load_value hfree hstored] at hload
          cases hload
          exact ⟨grandchild, rfl, ⟨htidy.loose, hstored, hn ▸ hsits.reads.child n⟩,
            fun _ => htidy⟩
      | empty => rw [hn] at hchild; cases hchild
      | leaf => rw [hn] at hchild; cases hchild

theorem Represents.canonical {S : Store} {root : ObjectId} {f : Bytes → Option TrieValue}
    (hfree : CollisionFree S) (h : Represents L S root f) : Canonical L S root where
  loads := by
    obtain ⟨child, rfl, hsits⟩ := h
    exact ⟨_, load_value hfree hsits.stored⟩
  closed := by
    intro path node n id hat hslot
    obtain ⟨child, rfl, hsits, _⟩ := nodeAt_cases hfree h hat
    rw [getSlot_nodeOf] at hslot
    have hchild := pure_inj hslot
    cases hn : child n with
    | node grandchild =>
        rw [hn] at hchild
        cases hchild
        exact ⟨_, load_value hfree (hn ▸ hsits.stored.2 n)⟩
    | empty => rw [hn] at hchild; cases hchild
    | leaf => rw [hn] at hchild; cases hchild
  bitmap := by
    intro path node hat
    obtain ⟨child, rfl, -, -⟩ := nodeAt_cases hfree h hat
    exact TrieNode.length_ofSlots _
  leaf := by
    intro path node n key value hat hslot
    obtain ⟨child, rfl, hsits, -⟩ := nodeAt_cases hfree h hat
    rw [getSlot_nodeOf] at hslot
    have htidy : Tidy (keySpace L) (path ++ [n]) (.leaf key value) :=
      subOf_toSlot_eq_leaf.mp (pure_inj hslot) ▸ hsits.loose n
    exact htidy
  shared := by
    intro path node hat hne
    obtain ⟨child, rfl, hsits, htidy⟩ := nodeAt_cases hfree h hat
    obtain ⟨k, v, k', v', hkne, hk, hk'⟩ := (htidy hne).two_keys
    obtain ⟨hlen, hpath⟩ := (htidy hne).key hk
    obtain ⟨hlen', hpath'⟩ := (htidy hne).key hk'
    refine ⟨k, k', v, v', hkne, hpath, hpath', ?_, ?_⟩
    · rw [h.get_value hfree hlen, (htidy hne).reads_has hsits.reads hk]
    · rw [h.get_value hfree hlen', (htidy hne).reads_has hsits.reads hk']
  alone := by
    intro path node n slot key value hat hslot hvalue hkey hpath hunique
    obtain ⟨child, rfl, hsits, -⟩ := nodeAt_cases hfree h hat
    rw [getSlot_nodeOf] at hslot
    have hchild := pure_inj hslot
    have hreads := hsits.reads.child n
    rw [h.get_value hfree hkey] at hvalue
    have hhas : Has key value (child n) :=
      hreads.has hkey hpath (Except.ok.inj hvalue)
    have honly : ∀ k v, Has k v (child n) → k = key := by
      intro k v hk
      obtain ⟨hlen, hk'⟩ := (hsits.loose n).key hk
      refine hunique k v hlen hk' ?_
      rw [h.get_value hfree hlen, (hsits.loose n).reads_has hreads hk]
    cases hn : child n with
    | empty => exact absurd (hn ▸ hhas) has_empty
    | leaf k v =>
        obtain ⟨rfl, rfl⟩ := has_leaf.mp (hn ▸ hhas)
        rw [hn] at hchild
        exact (Option.some.inj hchild).symm
    | node grandchild =>
        have htidy : Tidy (keySpace L) (path ++ [n]) (.node grandchild) := hn ▸ hsits.loose n
        obtain ⟨k, v, k', v', hne, hk, hk'⟩ := htidy.two_keys
        exact absurd ((honly k v (hn ▸ hk)).trans (honly k' v' (hn ▸ hk')).symm) hne

/-- Every root of a run is canonical, and roots of any two runs that hold the
same values are one root. -/
theorem trie_canonical {S : Store} {roots : List ObjectId} (hrun : Reached L S roots)
    (hfree : CollisionFree S) :
    (∀ root ∈ roots, Canonical L S root) ∧
    ∀ {S' : Store} {roots' : List ObjectId}, Reached L S' roots' → CollisionFree S' →
      ∀ root ∈ roots, ∀ root' ∈ roots', (∀ key, key.length = L →
        (Trie.get root key).value S = (Trie.get root' key).value S') → root = root' := by
  constructor
  · intro root hroot
    obtain ⟨f, hf⟩ := hrun.represents hfree root hroot
    exact hf.canonical hfree
  · intro S' roots' hrun' hfree' root hroot root' hroot' hsame
    obtain ⟨f, hf⟩ := hrun.represents hfree root hroot
    obtain ⟨g, hg⟩ := hrun'.represents hfree' root' hroot'
    refine hf.unique hg fun key hkey => ?_
    have hvalue := hsame key hkey
    rw [hf.get_value hfree hkey, hg.get_value hfree' hkey] at hvalue
    exact Except.ok.inj hvalue

end Canonical

section Parting

local instance : Crypto := .ofTable partingTable

theorem trie_canonical_parting :
    (∀ root ∈ [ObjectId.splat 2, .splat 1, .splat 0],
      Canonical 1 (partingTable.take 3) root) ∧
    ∀ {S' : Store} {roots' : List ObjectId}, Reached 1 S' roots' → CollisionFree S' →
      ∀ root ∈ [ObjectId.splat 2, .splat 1, .splat 0], ∀ root' ∈ roots',
        (∀ key, key.length = 1 → (Trie.get root key).value (partingTable.take 3) =
          (Trie.get root' key).value S') → root = root' :=
  trie_canonical parting_reached (collisionFree_ofTable (by decide) (by decide))

end Parting

end Tessra.Core
