import Mathlib

namespace Tessra.Data

universe u v w

/-! Canonical radix trees: a subtree with one key is a leaf, a branch stands
only where two keys part, so the contents fix the tree. -/

/-- Keys read as digit sequences of one length that tell them apart. -/
structure KeySpace (κ : Type u) (ν : Type v) where
  digits : κ → List ν
  depth : ℕ
  valid : κ → Prop
  length_digits : ∀ {k}, valid k → (digits k).length = depth
  digits_inj : ∀ {k k'}, valid k → valid k' → digits k = digits k' → k = k'

inductive RadixTree (ν : Type u) (κ : Type v) (β : Type w)
  | empty
  | leaf (key : κ) (value : β)
  | node (child : ν → RadixTree ν κ β)

namespace RadixTree

variable {ν : Type u} {κ : Type v} {β : Type w}

inductive Has (k : κ) (x : β) : RadixTree ν κ β → Prop
  | leaf : Has k x (.leaf k x)
  | node {child : ν → RadixTree ν κ β} (n : ν) :
      Has k x (child n) → Has k x (.node child)

@[simp] theorem has_empty {k : κ} {x : β} :
    ¬ Has k x (.empty : RadixTree ν κ β) := by
  rintro ⟨⟩

@[simp] theorem has_leaf {k k' : κ} {x x' : β} :
    Has k x (.leaf k' x' : RadixTree ν κ β) ↔ k = k' ∧ x = x' := by
  constructor
  · rintro ⟨⟩
    exact ⟨rfl, rfl⟩
  · rintro ⟨rfl, rfl⟩
    exact .leaf

theorem has_node {k : κ} {x : β} {child : ν → RadixTree ν κ β} :
    Has k x (.node child) ↔ ∃ n, Has k x (child n) := by
  constructor
  · rintro ⟨⟩
    exact ⟨_, ‹_›⟩
  · rintro ⟨n, h⟩
    exact .node n h

/-- A branch is justified: two occupied digits, or a branch below one. -/
def Branches (child : ν → RadixTree ν κ β) : Prop :=
  (∃ m n, m ≠ n ∧ child m ≠ .empty ∧ child n ≠ .empty) ∨
    ∃ n grandchild, child n = .node grandchild

section Space

variable (K : KeySpace κ ν)

/-- A canonical subtree reached along `path`. -/
def Tidy : List ν → RadixTree ν κ β → Prop
  | _, .empty => True
  | path, .leaf k _ => K.valid k ∧ path <+: K.digits k
  | path, .node child => Branches child ∧ ∀ n, Tidy (path ++ [n]) (child n)

/-- A tree of branches under a root that need not be justified. -/
def TidyRoot (child : ν → RadixTree ν κ β) : Prop :=
  ∀ n, Tidy K [n] (child n)

variable {K}

theorem Tidy.key {path : List ν} {t : RadixTree ν κ β} (h : Tidy K path t)
    {k : κ} {x : β} (hk : Has k x t) : K.valid k ∧ path <+: K.digits k := by
  induction t generalizing path with
  | empty => exact absurd hk has_empty
  | leaf k' x' =>
      obtain ⟨rfl, rfl⟩ := has_leaf.mp hk
      exact h
  | node child ih =>
      obtain ⟨n, hn⟩ := has_node.mp hk
      obtain ⟨hvalid, hpath⟩ := ih n (h.2 n) hn
      exact ⟨hvalid, (List.prefix_append path [n]).trans hpath⟩

theorem prefix_next {l path rest : List ν} {n : ν} (h : l = path ++ n :: rest) :
    path ++ [n] <+: l :=
  ⟨rest, by rw [h, List.append_assoc]; rfl⟩

theorem exists_next {path : List ν} {k : κ} (hvalid : K.valid k)
    (hpath : path <+: K.digits k) (hlt : path.length < K.depth) :
    ∃ n, path ++ [n] <+: K.digits k := by
  obtain ⟨rest, hrest⟩ := hpath
  cases rest with
  | nil =>
      have hlen := K.length_digits hvalid
      rw [← hrest, List.append_nil] at hlen
      omega
  | cons n rest => exact ⟨n, rest, by rw [← hrest, List.append_assoc]; rfl⟩

theorem next_unique {path : List ν} {k : κ} {m n : ν}
    (hm : path ++ [m] <+: K.digits k) (hn : path ++ [n] <+: K.digits k) : m = n := by
  have heq : path ++ [m] = path ++ [n] :=
    (List.prefix_of_prefix_length_le hm hn (by simp)).eq_of_length (by simp)
  simpa using heq

theorem Tidy.child_key {path : List ν} {child : ν → RadixTree ν κ β}
    (h : ∀ n, Tidy K (path ++ [n]) (child n)) {k : κ} {x : β} {m n : ν}
    (hm : path ++ [m] <+: K.digits k) (hn : Has k x (child n)) : n = m :=
  next_unique ((h n).key hn).2 hm

theorem Tidy.exists_key {path : List ν} {t : RadixTree ν κ β} (h : Tidy K path t)
    (hne : t ≠ .empty) : ∃ k x, Has k x t := by
  induction t generalizing path with
  | empty => exact absurd rfl hne
  | leaf k x => exact ⟨k, x, .leaf⟩
  | node child ih =>
      have hsome : ∃ n, child n ≠ .empty := by
        rcases h.1 with ⟨m, _, _, hm, _⟩ | ⟨n, grandchild, hn⟩
        · exact ⟨m, hm⟩
        · exact ⟨n, by rw [hn]; exact fun h => by cases h⟩
      obtain ⟨n, hn⟩ := hsome
      obtain ⟨k, x, hk⟩ := ih n (h.2 n) hn
      exact ⟨k, x, .node n hk⟩

/-- Two keys part at or below every branch. -/
theorem Tidy.two_keys {path : List ν} {child : ν → RadixTree ν κ β}
    (h : Tidy K path (.node child)) :
    ∃ k x k' x', k ≠ k' ∧ Has k x (.node child) ∧ Has k' x' (.node child) := by
  generalize ht : RadixTree.node child = t at h
  induction t generalizing path child with
  | empty => cases ht
  | leaf => cases ht
  | node child' ih =>
      cases ht
      rcases h.1 with ⟨m, n, hmn, hm, hn⟩ | ⟨n, grandchild, hn⟩
      · obtain ⟨k, x, hk⟩ := (h.2 m).exists_key hm
        obtain ⟨k', x', hk'⟩ := (h.2 n).exists_key hn
        refine ⟨k, x, k', x', ?_, .node m hk, .node n hk'⟩
        rintro rfl
        exact hmn (next_unique ((h.2 m).key hk).2 ((h.2 n).key hk').2)
      · obtain ⟨k, x, k', x', hne, hk, hk'⟩ := ih n hn.symm (h.2 n)
        exact ⟨k, x, k', x', hne, .node n (hn ▸ hk), .node n (hn ▸ hk')⟩

theorem length_lt_of_ne {path : List ν} {k k' : κ} (hne : k ≠ k')
    (hk : K.valid k ∧ path <+: K.digits k) (hk' : K.valid k' ∧ path <+: K.digits k') :
    path.length < K.depth := by
  by_contra hge
  have hfull : ∀ j, K.valid j ∧ path <+: K.digits j → path = K.digits j := by
    rintro j ⟨hvalid, hpath⟩
    refine hpath.eq_of_length (le_antisymm hpath.length_le ?_)
    rw [K.length_digits hvalid]
    omega
  exact hne (K.digits_inj hk.1 hk'.1 ((hfull k hk).symm.trans (hfull k' hk')))

/-- Canonical below its top, which need not be justified. -/
def Loose (K : KeySpace κ ν) (path : List ν) : RadixTree ν κ β → Prop
  | .node child => ∀ n, Tidy K (path ++ [n]) (child n)
  | t => Tidy K path t

theorem Tidy.loose {path : List ν} {t : RadixTree ν κ β} (h : Tidy K path t) :
    Loose K path t := by
  cases t with
  | empty => exact h
  | leaf => exact h
  | node => exact h.2

theorem branches_of_two_keys {child : ν → RadixTree ν κ β}
    {k k' : κ} {x x' : β} (hne : k ≠ k') (hk : Has k x (.node child)) (hk' : Has k' x' (.node child)) : Branches child := by
  obtain ⟨m, hm⟩ := has_node.mp hk
  obtain ⟨n, hn⟩ := has_node.mp hk'
  by_cases hmn : m = n
  · subst hmn
    cases hchild : child m with
    | empty => exact absurd (hchild ▸ hm) has_empty
    | leaf k₁ x₁ =>
        rw [hchild, has_leaf] at hm hn
        exact absurd (hm.1.trans hn.1.symm) hne
    | node grandchild => exact .inr ⟨m, grandchild, hchild⟩
  · refine .inl ⟨m, n, hmn, ?_, ?_⟩
    · intro hempty
      exact has_empty (hempty ▸ hm)
    · intro hempty
      exact has_empty (hempty ▸ hn)

theorem Tidy.node_depth {path : List ν} {child : ν → RadixTree ν κ β}
    (h : Tidy K path (.node child)) : path.length < K.depth := by
  obtain ⟨k, x, k', x', hne, hk, hk'⟩ := h.two_keys
  exact length_lt_of_ne hne (h.key hk) (h.key hk')

/-- Canonical subtrees of one path with the same contents are the same. -/
theorem Tidy.ext {path : List ν} {t t' : RadixTree ν κ β}
    (h : Tidy K path t) (h' : Tidy K path t')
    (heq : ∀ k x, Has k x t ↔ Has k x t') : t = t' := by
  induction t generalizing path t' with
  | empty =>
      by_contra hne
      obtain ⟨k, x, hk⟩ := h'.exists_key (Ne.symm hne)
      exact has_empty ((heq k x).mpr hk)
  | leaf k x =>
      cases t' with
      | empty => exact absurd ((heq k x).mp .leaf) has_empty
      | leaf k' x' =>
          obtain ⟨rfl, rfl⟩ := has_leaf.mp ((heq k x).mp .leaf)
          rfl
      | node child' =>
          obtain ⟨k₁, x₁, k₂, x₂, hne, h₁, h₂⟩ := h'.two_keys
          obtain ⟨rfl, _⟩ := has_leaf.mp ((heq k₁ x₁).mpr h₁)
          obtain ⟨rfl, _⟩ := has_leaf.mp ((heq k₂ x₂).mpr h₂)
          exact absurd rfl hne
  | node child ih =>
      cases t' with
      | empty =>
          obtain ⟨k, x, _, _, _, hk, _⟩ := h.two_keys
          exact absurd ((heq k x).mp hk) has_empty
      | leaf k' x' =>
          obtain ⟨k₁, x₁, k₂, x₂, hne, h₁, h₂⟩ := h.two_keys
          obtain ⟨rfl, _⟩ := has_leaf.mp ((heq k₁ x₁).mp h₁)
          obtain ⟨rfl, _⟩ := has_leaf.mp ((heq k₂ x₂).mp h₂)
          exact absurd rfl hne
      | node child' =>
          apply congrArg
          funext n
          apply ih n (h.2 n) (h'.2 n)
          intro k x
          constructor
          · intro hk
            obtain ⟨m, hm⟩ := has_node.mp ((heq k x).mp (.node n hk))
            rwa [← Tidy.child_key h'.2 ((h.2 n).key hk).2 hm]
          · intro hk
            obtain ⟨m, hm⟩ := has_node.mp ((heq k x).mpr (.node n hk))
            rwa [← Tidy.child_key h.2 ((h'.2 n).key hk).2 hm]

/-- The branches of a subtree at its own depth. -/
def expand [DecidableEq ν] (K : KeySpace κ ν) (depth : ℕ) :
    RadixTree ν κ β → ν → RadixTree ν κ β
  | .empty, _ => .empty
  | .leaf k x, n => if (K.digits k)[depth]? = some n then .leaf k x else .empty
  | .node child, n => child n

theorem Loose.expand [DecidableEq ν] {path : List ν} {t : RadixTree ν κ β} (h : Loose K path t) (n : ν) :
    Tidy K (path ++ [n]) (t.expand K path.length n) := by
  cases t with
  | empty => trivial
  | leaf k x =>
      obtain ⟨hvalid, rest, hrest⟩ := h
      simp only [RadixTree.expand]
      split_ifs with hn
      · refine ⟨hvalid, ?_⟩
        rw [← hrest, List.getElem?_append_right (le_refl _), Nat.sub_self] at hn
        cases rest with
        | nil => cases hn
        | cons m rest =>
            cases hn
            exact ⟨rest, by rw [← hrest, List.append_assoc]; rfl⟩
      · trivial
  | node child => exact h n

/-- The canonical form of a branch: nothing, one leaf, or the branch. -/
inductive Collapses (child : ν → RadixTree ν κ β) : RadixTree ν κ β → Prop
  | empty : (∀ n, child n = .empty) → Collapses child .empty
  | leaf {n : ν} {k : κ} {x : β} : child n = .leaf k x →
      (∀ m, m ≠ n → child m = .empty) → Collapses child (.leaf k x)
  | node : Branches child → Collapses child (.node child)

theorem Collapses.tidy {path : List ν} {child : ν → RadixTree ν κ β}
    {t : RadixTree ν κ β} (h : Collapses child t)
    (hchild : ∀ n, Tidy K (path ++ [n]) (child n)) : Tidy K path t := by
  cases h with
  | empty => trivial
  | @leaf n k x hn _ =>
      obtain ⟨hvalid, hpath⟩ : Tidy K (path ++ [n]) (.leaf k x) := hn ▸ hchild n
      exact ⟨hvalid, (List.prefix_append path [n]).trans hpath⟩
  | node hbranches => exact ⟨hbranches, hchild⟩

end Space

def lookup [DecidableEq κ] : RadixTree ν κ β → List ν → κ → Option β
  | .empty, _, _ => none
  | .leaf k' x, _, k => if k' = k then some x else none
  | .node _, [], _ => none
  | .node child, n :: rest, k => (child n).lookup rest k

section Lookup

variable [DecidableEq κ] {K : KeySpace κ ν}

theorem has_of_lookup {t : RadixTree ν κ β} {rest : List ν} {k : κ} {x : β}
    (h : t.lookup rest k = some x) : Has k x t := by
  induction t generalizing rest with
  | empty => cases h
  | leaf k' x' =>
      by_cases hk : k' = k
      · simp only [lookup, if_pos hk, Option.some.injEq] at h
        exact has_leaf.mpr ⟨hk.symm, h.symm⟩
      · simp [lookup, hk] at h
  | node child ih =>
      cases rest with
      | nil => cases h
      | cons n rest => exact .node n (ih n h)

theorem Tidy.lookup_of_has {path rest : List ν} {t : RadixTree ν κ β}
    (h : Tidy K path t) {k : κ} {x : β} (hrest : K.digits k = path ++ rest)
    (hk : Has k x t) : t.lookup rest k = some x := by
  induction t generalizing path rest with
  | empty => exact absurd hk has_empty
  | leaf k' x' =>
      obtain ⟨rfl, rfl⟩ := has_leaf.mp hk
      simp [lookup]
  | node child ih =>
      obtain ⟨n, hn⟩ := has_node.mp hk
      obtain ⟨tail, htail⟩ := ((h.2 n).key hn).2
      have hcons : rest = n :: tail := by
        rw [hrest, List.append_assoc, List.append_cancel_left_eq] at htail
        exact htail.symm
      subst hcons
      exact ih n (h.2 n) htail.symm hn

/-- Below `path` the tree holds what `f` says of each key. -/
def Reads (K : KeySpace κ ν) (path : List ν) (t : RadixTree ν κ β)
    (f : κ → Option β) : Prop :=
  ∀ k rest, K.valid k → K.digits k = path ++ rest → t.lookup rest k = f k

theorem Reads.congr {path : List ν} {t : RadixTree ν κ β} {f g : κ → Option β}
    (h : Reads K path t f)
    (heq : ∀ k, K.valid k → path <+: K.digits k → f k = g k) : Reads K path t g := by
  intro k rest hvalid hrest
  rw [h k rest hvalid hrest, heq k hvalid ⟨rest, hrest.symm⟩]

theorem Reads.has {path : List ν} {t : RadixTree ν κ β} {f : κ → Option β}
    (h : Reads K path t f) {k : κ} {x : β} (hvalid : K.valid k)
    (hpath : path <+: K.digits k) (hk : f k = some x) : Has k x t := by
  obtain ⟨rest, hrest⟩ := hpath
  exact has_of_lookup ((h k rest hvalid hrest.symm).trans hk)

theorem Tidy.reads_has {path : List ν} {t : RadixTree ν κ β} {f : κ → Option β}
    (h : Tidy K path t) (hreads : Reads K path t f) {k : κ} {x : β} (hk : Has k x t) :
    f k = some x := by
  obtain ⟨hvalid, rest, hrest⟩ := h.key hk
  rw [← hreads k rest hvalid hrest.symm]
  exact h.lookup_of_has hrest.symm hk

theorem reads_empty {path : List ν} {f : κ → Option β}
    (h : ∀ k, K.valid k → path <+: K.digits k → f k = none) :
    Reads K path (.empty : RadixTree ν κ β) f := by
  intro k rest hvalid hrest
  exact (h k hvalid ⟨rest, hrest.symm⟩).symm

theorem reads_leaf {path : List ν} {k : κ} {x : β} {f : κ → Option β}
    (hself : f k = some x) (hother : ∀ k', K.valid k' → path <+: K.digits k' →
      k' ≠ k → f k' = none) :
    Reads K path (.leaf k x : RadixTree ν κ β) f := by
  intro k' rest hvalid hrest
  by_cases hk : k = k'
  · subst hk
    simp [lookup, hself]
  · simp [lookup, hk, hother k' hvalid ⟨rest, hrest.symm⟩ (Ne.symm hk)]

theorem Reads.child {path : List ν} {child : ν → RadixTree ν κ β} {f : κ → Option β}
    (h : Reads K path (.node child) f) (n : ν) : Reads K (path ++ [n]) (child n) f := by
  intro k rest hvalid hrest
  exact h k (n :: rest) hvalid (by simpa using hrest)

theorem reads_node {path : List ν} {child : ν → RadixTree ν κ β} {f : κ → Option β}
    (hlt : path.length < K.depth) (h : ∀ n, Reads K (path ++ [n]) (child n) f) :
    Reads K path (.node child) f := by
  intro k rest hvalid hrest
  cases rest with
  | nil =>
      have hlen := K.length_digits hvalid
      rw [hrest, List.append_nil] at hlen
      omega
  | cons n rest => exact h n k rest hvalid (by simpa using hrest)

theorem Reads.expand [DecidableEq ν] {path : List ν} {t : RadixTree ν κ β}
    {f : κ → Option β} (h : Reads K path t f) (n : ν) :
    Reads K (path ++ [n]) (t.expand K path.length n) f := by
  intro k rest hvalid hrest
  have hcons : K.digits k = path ++ n :: rest := by simpa using hrest
  rw [← h k (n :: rest) hvalid hcons]
  cases t with
  | empty => rfl
  | leaf k' x =>
      simp only [RadixTree.expand]
      split_ifs with hn
      · rfl
      · have hne : k' ≠ k := by
          rintro rfl
          rw [hcons, List.getElem?_append_right (le_refl _), Nat.sub_self] at hn
          exact hn rfl
        simp [lookup, hne]
  | node child => rfl

theorem Collapses.reads {path : List ν} {child : ν → RadixTree ν κ β}
    {t : RadixTree ν κ β} {f : κ → Option β} (h : Collapses child t)
    (hlt : path.length < K.depth) (hchild : ∀ n, Tidy K (path ++ [n]) (child n))
    (hreads : ∀ n, Reads K (path ++ [n]) (child n) f) : Reads K path t f := by
  cases h with
  | empty hempty =>
      apply reads_empty
      intro k hvalid hpath
      obtain ⟨n, rest, hrest⟩ := exists_next hvalid hpath hlt
      rw [← hreads n k rest hvalid hrest.symm, hempty n]
      rfl
  | @leaf n k x hn hother =>
      apply reads_leaf ((hchild n).reads_has (hreads n) (hn ▸ .leaf))
      intro k' hvalid hpath hk
      obtain ⟨m, rest, hrest⟩ := exists_next hvalid hpath hlt
      rw [← hreads m k' rest hvalid hrest.symm]
      by_cases hm : m = n
      · subst hm
        simp [hn, lookup, Ne.symm hk]
      · rw [hother m hm]
        rfl
  | node => exact reads_node hlt hreads

theorem Tidy.branches_of_reads {path : List ν} {child child' : ν → RadixTree ν κ β}
    {f f' : κ → Option β} (h : Tidy K path (.node child))
    (hreads : Reads K path (.node child) f) (hreads' : Reads K path (.node child') f')
    (hkeep : ∀ k, f k ≠ none → f' k ≠ none) : Branches child' := by
  obtain ⟨k, x, k', x', hne, hk, hk'⟩ := h.two_keys
  have hkept : ∀ j y, Has j y (.node child) → ∃ z, Has j z (.node child') := by
    intro j y hj
    have hsome : f' j ≠ none := hkeep j (by rw [h.reads_has hreads hj]; simp)
    obtain ⟨z, hz⟩ := Option.ne_none_iff_exists'.mp hsome
    exact ⟨z, hreads'.has (h.key hj).1 (h.key hj).2 hz⟩
  obtain ⟨y, hy⟩ := hkept k x hk
  obtain ⟨y', hy'⟩ := hkept k' x' hk'
  exact branches_of_two_keys hne hy hy'

theorem Tidy.ext_reads {path : List ν} {t t' : RadixTree ν κ β} {f : κ → Option β}
    (h : Tidy K path t) (h' : Tidy K path t') (hreads : Reads K path t f)
    (hreads' : Reads K path t' f) : t = t' := by
  apply h.ext h'
  intro k x
  constructor
  · intro hk
    exact hreads'.has (h.key hk).1 (h.key hk).2 (h.reads_has hreads hk)
  · intro hk
    exact hreads.has (h'.key hk).1 (h'.key hk).2 (h'.reads_has hreads' hk)

theorem TidyRoot.ext_reads {child child' : ν → RadixTree ν κ β} {f : κ → Option β}
    (h : TidyRoot K child) (h' : TidyRoot K child') (hreads : Reads K [] (.node child) f)
    (hreads' : Reads K [] (.node child') f) : child = child' := by
  funext n
  exact (h n).ext_reads (h' n) (hreads.child n) (hreads'.child n)

end Lookup

section Listing

variable {κ : Type v} {β : Type w} {m : ℕ} {K : KeySpace κ (Fin m)}

/-- The entries of a tree, in the order of its digits. -/
def listed : RadixTree (Fin m) κ β → List (κ × β)
  | .empty => []
  | .leaf k x => [(k, x)]
  | .node child => (List.finRange m).flatMap fun n => (child n).listed

theorem mem_listed {t : RadixTree (Fin m) κ β} {k : κ} {x : β} :
    (k, x) ∈ t.listed ↔ Has k x t := by
  induction t with
  | empty => simp [listed]
  | leaf k' x' => simp [listed]
  | node child ih =>
      simp only [listed, List.mem_flatMap, List.mem_finRange, true_and, ih]
      exact has_node.symm

/-- Digits that part after a common path are ordered as they part. -/
theorem lt_of_parting {i j : Fin m} (h : i < j) (path rest rest' : List (Fin m)) :
    path ++ i :: rest < path ++ j :: rest' := by
  induction path with
  | nil => exact List.cons_lt_cons_iff.mpr (.inl h)
  | cons n path ih => exact List.cons_lt_cons_iff.mpr (.inr ⟨rfl, ih⟩)

theorem lt_of_children {path : List (Fin m)} {k k' : κ} {i j : Fin m} (h : i < j)
    (hk : path ++ [i] <+: K.digits k) (hk' : path ++ [j] <+: K.digits k') :
    K.digits k < K.digits k' := by
  obtain ⟨rest, hrest⟩ := hk
  obtain ⟨rest', hrest'⟩ := hk'
  rw [← hrest, ← hrest', List.append_assoc, List.append_assoc]
  exact lt_of_parting h path rest rest'

/-- The entries of a canonical tree are listed by their digits, each once. -/
theorem Loose.pairwise_listed {path : List (Fin m)} {t : RadixTree (Fin m) κ β}
    (h : Loose K path t) :
    t.listed.Pairwise fun e e' => K.digits e.1 < K.digits e'.1 := by
  induction t generalizing path with
  | empty => exact .nil
  | leaf k x => exact List.pairwise_singleton _ _
  | node child ih =>
      rw [listed, List.pairwise_flatMap]
      constructor
      · intro n _
        exact ih n (h n).loose
      · refine (List.pairwise_lt_finRange m).imp ?_
        intro i j hlt e he e' he'
        have hkey := ((h i).key (mem_listed.mp he)).2
        have hkey' := ((h j).key (mem_listed.mp he')).2
        exact lt_of_children hlt hkey hkey'

end Listing

end RadixTree

end Tessra.Data
