import Tessra.Core.TrieRefine

namespace Tessra.Core

open Tessra.Data

/-! The three-way merge of tries is the merge of their contents key by key. -/

/-- The value a key should have after a three-way merge. -/
def threeWay (policy : MergePolicy) (base a b : Option TrieValue) : Option TrieValue :=
  if a = base then b
  else if b = base ∨ a = b then a
  else
    match a, b with
    | some x, some y => some (x.union y)
    | some v, none | none, some v =>
        match policy with
        | .pointers => none
        | .set => some v
    | none, none => none

theorem threeWay_comm (policy : MergePolicy) (base a b : Option TrieValue) :
    threeWay policy base a b = threeWay policy base b a := by
  unfold threeWay
  by_cases ha : a = base
  · by_cases hb : b = base
    · simp [ha, hb]
    · simp [ha, hb]
  · by_cases hb : b = base
    · simp [ha, hb]
    · by_cases hab : a = b
      · simp [hab]
      · simp only [ha, hb, hab, Ne.symm hab, or_self, if_false]
        cases a <;> cases b <;> simp [TrieValue.union_comm]

theorem mergeValues_eq {policy : MergePolicy} {base a b : Option TrieValue} (ha : a ≠ base)
    (hb : b ≠ base) (hab : a ≠ b) :
    mergeValues policy base a b = threeWay policy base a b := by
  simp only [threeWay, if_neg ha, hb, hab, or_self, if_false]
  cases base <;> cases a <;> cases b <;> first | rfl | contradiction

theorem mergeValues_eq_some {policy : MergePolicy} {base a b : Option TrieValue}
    {v : TrieValue} (h : mergeValues policy base a b = some v) :
    (∃ x, a = some x) ∨ ∃ y, b = some y := by
  cases a with
  | some x => exact .inl ⟨x, rfl⟩
  | none =>
      cases b with
      | some y => exact .inr ⟨y, rfl⟩
      | none => cases base <;> cases h

theorem mergeFlat_ofValue (policy : MergePolicy) (key : Bytes)
    {vbase va vb : Option TrieValue} (hab : va ≠ vb) :
    Trie.mergeFlat policy (.ofValue key vbase) (.ofValue key va) (.ofValue key vb) =
      pure (some (.ofValue key (mergeValues policy vbase va vb))) := by
  cases vbase <;> cases va <;> cases vb <;>
    first
    | contradiction
    | simp [Trie.mergeFlat, Sub.ofValue, Sub.isFlat, Sub.leafParts, List.reduceOption]

theorem mergeFlat_node (policy : MergePolicy) {base a b : Sub} {id : ObjectId}
    (h : Sub.node id ∈ [base, a, b]) : Trie.mergeFlat policy base a b = pure none := by
  have hflat : ¬ (base.isFlat ∧ a.isFlat ∧ b.isFlat) := by
    simp only [List.mem_cons, List.not_mem_nil, or_false] at h
    rcases h with rfl | rfl | rfl <;> simp [Sub.isFlat]
  rw [Trie.mergeFlat, if_neg hflat]

theorem mergeFlat_leaves (policy : MergePolicy) {base a b : Sub} {k k' : Bytes}
    {v v' : TrieValue} (hne : k ≠ k') (h : Sub.leaf k v ∈ [base, a, b])
    (h' : Sub.leaf k' v' ∈ [base, a, b]) :
    Trie.mergeFlat policy base a b = pure none := by
  have hkeys : ∀ {k v}, Sub.leaf k v ∈ [base, a, b] →
      k ∈ [base.leafParts.1, a.leafParts.1, b.leafParts.1].reduceOption := by
    intro k v hmem
    rw [List.reduceOption_mem_iff]
    exact List.mem_map_of_mem (f := fun sub : Sub => sub.leafParts.1) hmem
  have hchain : ¬ [base.leafParts.1, a.leafParts.1, b.leafParts.1].reduceOption.IsChain
      (· = ·) := fun hchain =>
    hne ((List.isChain_iff_pairwise.mp hchain).forall_of_forall (fun _ _ => rfl)
      (hkeys h) (hkeys h'))
  simp only [Trie.mergeFlat, if_neg hchain, ite_self]

theorem Sub.flat_cases (key : Bytes) (sub : Sub) :
    (∃ v, sub = .ofValue key v) ∨ (∃ k v, k ≠ key ∧ sub = .leaf k v) ∨
      ∃ id, sub = .node id := by
  cases sub with
  | empty => exact .inl ⟨none, rfl⟩
  | leaf k v =>
      by_cases hk : k = key
      · subst hk
        exact .inl ⟨some v, rfl⟩
      · exact .inr (.inl ⟨k, v, hk, rfl⟩)
  | node id => exact .inr (.inr ⟨id, rfl⟩)

theorem Sub.three_cases (base a b : Sub) :
    (∃ key vbase va vb, base = .ofValue key vbase ∧ a = .ofValue key va ∧
      b = .ofValue key vb) ∨
    (∃ id, Sub.node id ∈ [base, a, b]) ∨
    ∃ k v k' v', k ≠ k' ∧ Sub.leaf k v ∈ [base, a, b] ∧ Sub.leaf k' v' ∈ [base, a, b] := by
  by_cases hleaf : ∃ k v, Sub.leaf k v ∈ [base, a, b]
  · obtain ⟨key, v, hkey⟩ := hleaf
    have hall : ∀ sub ∈ [base, a, b], (∃ v, sub = .ofValue key v) ∨
        (∃ id, Sub.node id ∈ [base, a, b]) ∨
        ∃ k v k' v', k ≠ k' ∧ Sub.leaf k v ∈ [base, a, b] ∧
          Sub.leaf k' v' ∈ [base, a, b] := by
      intro sub hsub
      rcases sub.flat_cases key with hvalue | ⟨k, w, hne, rfl⟩ | ⟨id, rfl⟩
      · exact .inl hvalue
      · exact .inr (.inr ⟨k, w, key, v, hne, hsub, hkey⟩)
      · exact .inr (.inl ⟨id, hsub⟩)
    rcases hall base (by simp) with ⟨vbase, hbase⟩ | hother
    · rcases hall a (by simp) with ⟨va, ha⟩ | hother
      · rcases hall b (by simp) with ⟨vb, hb⟩ | hother
        · exact .inl ⟨key, vbase, va, vb, hbase, ha, hb⟩
        · exact .inr hother
      · exact .inr hother
    · exact .inr hother
  · by_cases hnode : ∃ id, Sub.node id ∈ [base, a, b]
    · exact .inr (.inl hnode)
    · have hempty : ∀ sub ∈ [base, a, b], sub = .ofValue [] none := by
        intro sub hsub
        cases sub with
        | empty => rfl
        | leaf k v => exact absurd ⟨k, v, hsub⟩ hleaf
        | node id => exact absurd ⟨id, hsub⟩ hnode
      exact .inl ⟨[], none, none, none, hempty base (by simp), hempty a (by simp),
        hempty b (by simp)⟩

variable [Crypto] {L : ℕ}

section Merge

open StoreM RadixTree

variable {S : Store} {path : List Nibble} {f fbase fa fb : Bytes → Option TrieValue}
  {policy : MergePolicy}

def flatTree (key : Bytes) : Option TrieValue → TrieTree
  | none => .empty
  | some value => .leaf key value

theorem subOf_flatTree (key : Bytes) (v : Option TrieValue) :
    subOf (flatTree key v) = .ofValue key v := by
  cases v <;> rfl

theorem eq_flatTree {t : TrieTree} {key : Bytes} {v : Option TrieValue}
    (h : subOf t = .ofValue key v) : t = flatTree key v := by
  cases v <;> cases t <;> cases h <;> rfl

omit [Crypto] in
theorem reads_flatTree {key : Bytes} {v : Option TrieValue}
    (h : ∀ k, k.length = L → path <+: digits k → f k = if k = key then v else none) :
    (flatTree key v).Reads (keySpace L) path f := by
  intro k rest hk hrest
  rw [h k hk ⟨rest, hrest.symm⟩]
  cases v <;> simp [flatTree, lookup, eq_comm]

theorem Sits.flatTree_value {key : Bytes} {v : Option TrieValue}
    (h : Sits L S path (flatTree key v) f) {k : Bytes} (hk : k.length = L)
    (hpath : path <+: digits k) : f k = if k = key then v else none := by
  obtain ⟨rest, hrest⟩ := hpath
  rw [← h.reads k rest hk hrest.symm]
  cases v <;> simp [flatTree, lookup, eq_comm]

theorem Sits.congr {t : TrieTree} (h : Sits L S path t f)
    (heq : ∀ k, k.length = L → path <+: digits k → f k = fa k) : Sits L S path t fa :=
  ⟨h.loose, h.stored, h.reads.congr heq⟩

/-- Two readings of one subtree agree on its keys. -/
theorem Sits.agree {S' : Store} {t : TrieTree} (h : Sits L S path t fa)
    (h' : Sits L S' path t fb) {k : Bytes} (hk : k.length = L)
    (hpath : path <+: digits k) : fa k = fb k := by
  obtain ⟨rest, hrest⟩ := hpath
  rw [← h.reads k rest hk hrest.symm, h'.reads k rest hk hrest.symm]

theorem Sits.expand {t : TrieTree} (h : Sits L S path t f) (n : Nibble) :
    (t.expand (keySpace L) path.length n).Tidy (keySpace L) (path ++ [n]) ∧
      Sits L S (path ++ [n]) (t.expand (keySpace L) path.length n) f := by
  have htidy := h.loose.expand n
  refine ⟨htidy, htidy.loose, ?_, h.reads.expand n⟩
  cases t with
  | empty => trivial
  | leaf k v =>
      simp only [RadixTree.expand]
      split_ifs <;> trivial
  | node child => exact h.stored.2 n

theorem returns_expand {t : TrieTree} (h : Sits L S path t f) (hlt : path.length < 2 * L) :
    (Trie.expand (subOf t) path.length).Returns S fun node S' =>
      node = nodeOf (t.expand (keySpace L) path.length) ∧ S' = S := by
  cases t with
  | empty => exact returns_pure ⟨empty_eq_nodeOf, rfl⟩
  | leaf k v =>
      obtain ⟨hk, hpath⟩ : Tidy (keySpace L) path (.leaf k v) := h.loose
      obtain ⟨n, rest, hrest⟩ := exists_next hk hpath hlt
      have hdigits : digits k = path ++ n :: rest := by simpa [keySpace] using hrest.symm
      simp only [subOf, Trie.expand, nibbleAt_append hdigits, pure_bind, empty_eq_nodeOf,
        setSlot_leaf]
      refine returns_pure ⟨congrArg nodeOf ?_, rfl⟩
      funext m
      have hdigit : (digits k)[path.length]? = some n := by
        rw [hdigits, List.getElem?_append_right (le_refl _), Nat.sub_self]
        rfl
      by_cases hm : m = n
      · subst hm
        simp [RadixTree.expand, keySpace, hdigit]
      · simp [RadixTree.expand, keySpace, hdigit, hm, Ne.symm hm]
  | node child => exact returns_load h.stored ⟨rfl, rfl⟩

theorem returns_mergeFlat (policy : MergePolicy) {key : Bytes} {vbase va vb : Option TrieValue}
    (hbase : Sits L S path (flatTree key vbase) fbase)
    (ha : Sits L S path (flatTree key va) fa) (hb : Sits L S path (flatTree key vb) fb)
    (hne : va ≠ vbase) (hne' : vb ≠ vbase) (hab : va ≠ vb) :
    let merged := flatTree key (mergeValues policy vbase va vb)
    merged.Tidy (keySpace L) path ∧
      Sits L S path merged fun k => threeWay policy (fbase k) (fa k) (fb k) := by
  intro merged
  have htidy : merged.Tidy (keySpace L) path := by
    cases hmerged : mergeValues policy vbase va vb with
    | none =>
        simp only [merged, hmerged]
        trivial
    | some v =>
        simp only [merged, hmerged]
        rcases mergeValues_eq_some hmerged with ⟨x, rfl⟩ | ⟨y, rfl⟩
        · exact ha.loose
        · exact hb.loose
  have hstored : Stored S merged := by
    cases hmerged : mergeValues policy vbase va vb <;> simp only [merged, hmerged] <;> trivial
  refine ⟨htidy, htidy.loose, hstored, reads_flatTree fun k hk hpath => ?_⟩
  rw [hbase.flatTree_value hk hpath, ha.flatTree_value hk hpath,
    hb.flatTree_value hk hpath]
  split_ifs
  · exact (mergeValues_eq hne hne' hab).symm
  · simp [threeWay]

/-- The slots of a merged node, once those of `done` are filled in. -/
structure Merged (L : ℕ) (S : Store) (path : List Nibble) (f : Bytes → Option TrieValue)
    (done : List Nibble) (child : Nibble → TrieTree) : Prop where
  tidy : ∀ n, (child n).Tidy (keySpace L) (path ++ [n])
  stored : ∀ n, Stored S (child n)
  reads : ∀ n ∈ done, (child n).Reads (keySpace L) (path ++ [n]) f

theorem Merged.fill {done : List Nibble} {child : Nibble → TrieTree}
    (h : Merged L S path f done child) {S' : Store} (hsub : S ⊆ S') {n : Nibble}
    {t : TrieTree} (htidy : t.Tidy (keySpace L) (path ++ [n])) (hstored : Stored S' t)
    (hreads : t.Reads (keySpace L) (path ++ [n]) f) :
    Merged L S' path f (done ++ [n]) (Function.update child n t) := by
  refine ⟨fun m => ?_, fun m => ?_, fun m hmem => ?_⟩ <;> by_cases hm : m = n
  · subst hm
    simpa using htidy
  · simpa [hm] using h.tidy m
  · subst hm
    simpa using hstored
  · simpa [hm] using (h.stored m).mono hsub
  · subst hm
    simpa using hreads
  · rw [Function.update_of_ne hm]
    exact h.reads m (by simpa [hm] using hmem)

/-- Merged subtrees hold the three-way merge of what they held, and stay
canonical.  Only the roots need not be justified. -/
theorem returns_mergeSub (policy : MergePolicy) (fuel : ℕ) {base a b : TrieTree}
    (hdepth : path.length < 2 * L ∨ ∀ t ∈ [base, a, b], t.Tidy (keySpace L) path)
    (hle : path.length ≤ 2 * L) (hfuel : 2 * L < fuel + path.length)
    (hbase : Sits L S path base fbase) (ha : Sits L S path a fa) (hb : Sits L S path b fb) :
    (Trie.mergeSub policy fuel path.length (subOf base) (subOf a) (subOf b)).Returns S
      fun sub S' => ∃ t, sub = subOf t ∧
        Sits L S' path t (fun k => threeWay policy (fbase k) (fa k) (fb k)) ∧
        ((∀ t ∈ [base, a, b], t.Tidy (keySpace L) path) → t.Tidy (keySpace L) path) := by
  induction fuel generalizing path S base a b with
  | zero => omega
  | succ fuel ih =>
      refine Returns.of_free fun hfree => ?_
      rw [Trie.mergeSub]
      by_cases hab : subOf a = subOf base
      · obtain rfl := subOf_inj hfree ha.stored hbase.stored hab
        rw [if_pos rfl]
        refine returns_pure ⟨b, rfl, hb.congr fun k hk hpath => ?_, fun h => h b (by simp)⟩
        simp [threeWay, ha.agree hbase hk hpath]
      rw [if_neg hab]
      by_cases hbb : subOf b = subOf base
      · obtain rfl := subOf_inj hfree hb.stored hbase.stored hbb
        rw [if_pos rfl]
        refine returns_pure ⟨a, rfl, ha.congr fun k hk hpath => ?_, fun h => h a (by simp)⟩
        rw [hb.agree hbase hk hpath]
        simp +contextual [threeWay]
      rw [if_neg hbb]
      by_cases heq : subOf a = subOf b
      · obtain rfl := subOf_inj hfree ha.stored hb.stored heq
        rw [if_pos rfl]
        refine returns_pure ⟨a, rfl, ha.congr fun k hk hpath => ?_, fun h => h a (by simp)⟩
        simp [threeWay, ha.agree hb hk hpath]
      rw [if_neg heq]
      rcases Sub.three_cases (subOf base) (subOf a) (subOf b) with
        ⟨key, vbase, va, vb, hvbase, hva, hvb⟩ | hopen
      · -- One key: the value rule.
        obtain rfl := eq_flatTree hvbase
        obtain rfl := eq_flatTree hva
        obtain rfl := eq_flatTree hvb
        have hne : ∀ {v w : Option TrieValue},
            subOf (flatTree key v) ≠ subOf (flatTree key w) → v ≠ w := by
          rintro v _ hvw rfl
          exact hvw rfl
        obtain ⟨htidy, hsits⟩ := returns_mergeFlat policy hbase ha hb (hne hab)
          (hne hbb) (hne heq)
        simp only [subOf_flatTree, mergeFlat_ofValue policy key (hne heq), pure_bind]
        exact returns_pure ⟨_, (subOf_flatTree key _).symm, hsits, fun _ => htidy⟩
      · -- A node to open, or two keys to part: slot by slot.
        have hflat : Trie.mergeFlat policy (subOf base) (subOf a) (subOf b) = pure none := by
          rcases hopen with ⟨id, hid⟩ | ⟨k, v, k', v', hne, hk, hk'⟩
          · exact mergeFlat_node policy hid
          · exact mergeFlat_leaves policy hne hk hk'
        have hlt : path.length < 2 * L := by
          refine hdepth.elim id fun htidy => ?_
          have htree : ∀ sub ∈ [subOf base, subOf a, subOf b],
              ∃ t, t.Tidy (keySpace L) path ∧ subOf t = sub := by
            intro sub hsub
            obtain ⟨t, hmem, ht⟩ : ∃ t ∈ [base, a, b], subOf t = sub := List.mem_map.mp hsub
            exact ⟨t, htidy t hmem, ht⟩
          rcases hopen with ⟨id, hid⟩ | ⟨k, v, k', v', hne, hk, hk'⟩
          · obtain ⟨t, ht, hsub⟩ := htree _ hid
            cases t <;> cases hsub
            exact ht.node_depth
          · obtain ⟨t, ht, hsub⟩ := htree _ hk
            obtain ⟨t', ht', hsub'⟩ := htree _ hk'
            cases t <;> cases hsub
            cases t' <;> cases hsub'
            exact length_lt_of_ne hne ht ht'
        rw [hflat, pure_bind]
        refine (returns_expand hbase hlt).bind ?_
        rintro _ _ - ⟨rfl, rfl⟩
        refine (returns_expand ha hlt).bind ?_
        rintro _ _ - ⟨rfl, rfl⟩
        refine (returns_expand hb hlt).bind ?_
        rintro _ S - ⟨rfl, rfl⟩
        have hstart : Merged L S path (fun k => threeWay policy (fbase k) (fa k) (fb k)) []
            fun _ => .empty :=
          ⟨fun _ => trivial, fun _ => trivial, fun _ hn => absurd hn (List.not_mem_nil)⟩
        refine (Returns.foldlM (fun done node S' => S ⊆ S' ∧ ∃ child, node = nodeOf child ∧
          Merged L S' path (fun k => threeWay policy (fbase k) (fa k) (fb k)) done child)
          [] (List.finRange 16)
          ⟨List.Subset.refl S, _, empty_eq_nodeOf, hstart⟩ ?_).bind ?_
        · rintro done n _ S₁ - - ⟨hsub, child, rfl, hmerged⟩
          simp only [getSlot_nodeOf, pure_bind, Sub.ofSlot_toSlot]
          obtain ⟨hbaset, hbase'⟩ := (hbase.mono hsub).expand n
          obtain ⟨hat, ha'⟩ := (ha.mono hsub).expand n
          obtain ⟨hbt, hb'⟩ := (hb.mono hsub).expand n
          have htidy : ∀ t ∈ [base.expand (keySpace L) path.length n,
              a.expand (keySpace L) path.length n, b.expand (keySpace L) path.length n],
              t.Tidy (keySpace L) (path ++ [n]) := by
            simp only [List.mem_cons, List.not_mem_nil, or_false]
            rintro t (rfl | rfl | rfl) <;> assumption
          have hslot := ih (.inr htidy) (by simp; omega) (by simp; omega) hbase' ha' hb'
          rw [show (path ++ [n]).length = path.length + 1 by simp] at hslot
          refine hslot.bind ?_
          rintro _ S₂ hsub' ⟨t, rfl, hsits, ht⟩
          rw [setSlot_nodeOf]
          exact returns_pure ⟨List.Subset.trans hsub hsub', _, rfl,
            hmerged.fill hsub' (ht htidy) hsits.stored hsits.reads⟩
        · rintro _ S₁ - ⟨-, child, rfl, hmerged⟩
          have hbranching : Branching L S₁ path child
              fun k => threeWay policy (fbase k) (fa k) (fb k) :=
            ⟨hmerged.tidy, hmerged.stored, reads_node hlt fun n =>
              hmerged.reads n (List.mem_finRange n)⟩
          refine (returns_normalize hbranching hlt).mono ?_
          rintro _ S₂ - ⟨t, rfl, hsits, htidy⟩
          exact ⟨t, rfl, hsits, fun _ => htidy⟩

end Merge

end Tessra.Core
