import Tessra.Data.Forest
import Tessra.Data.OrdMap
import Tessra.Oplog.Glob
import Tessra.Semantic.Matching

namespace Tessra.Daemon.Swarm

open Tessra.Core Tessra.Data Tessra.Data.Forest Tessra.Oplog
open Tessra.Semantic (isIdent)

/-! Units split among agents: what depends on one another stays together, and the
components fill the groups evenly. -/

abbrev UnitRef := String × String × EntityId

/-- Units that must move together, with their files and how many units elsewhere depend on
them. -/
structure Group where
  units : List UnitRef
  paths : List String
  dependents : ℕ
deriving DecidableEq

/-- The order in which a hash map gives its values. -/
structure HashOrder where
  values : List (List ℕ) → List (List ℕ)
  perm : ∀ l, (values l).Perm l

def notUnits : List String :=
  ["import", "chunk", "test", "test.skipped", "module", "variant", "field", "impl"]

def candidates (idx : NodeIndex) (paths : List String) : List Node :=
  ((idx.nodes.filter fun n => Glob.anyMatch paths n.path).filter
    fun n => n.kind ∉ notUnits).filter fun n => isIdent n.name

def unitOf (n : Node) : UnitRef := (n.path, n.name, n.nid)

def unitLe (u v : UnitRef) : Bool :=
  u.1 < v.1 ∨ u.1 = v.1 ∧ (u.2.1 < v.2.1 ∨ u.2.1 = v.2.1 ∧ u.2.2 ≤ v.2.2)

section Components

/-- The root of a tree, and its nodes on the way there made its children. -/
def find (n : ℕ) (p : ℕ → ℕ) (i : ℕ) : (ℕ → ℕ) × ℕ :=
  let r := root n p i
  (compress n p r i, r)

def join (n : ℕ) (p : ℕ → ℕ) (i j : ℕ) : ℕ → ℕ :=
  let (p, a) := find n p i
  let (p, b) := find n p j
  if a ≠ b then Function.update p a b else p

/-- Onto the list of its root, as `entry(r).or_default().push(i)` puts it. -/
def pushTo (r i : ℕ) : List (ℕ × List ℕ) → List (ℕ × List ℕ)
  | [] => [(r, [i])]
  | e :: m => if e.1 = r then (r, e.2 ++ [i]) :: m else e :: pushTo r i m

variable (found : List Node)

/-- Of the candidates with an id, the last. -/
def indexOf (nid : EntityId) : Option ℕ :=
  (found.zipIdx.reverse.find? fun e => e.1.nid = nid).map Prod.snd

def linked : ℕ → ℕ :=
  found.zipIdx.foldl (fun p e =>
    (e.1.deps.getD []).foldl (fun p d =>
      match indexOf found d with
      | some j => join found.length p e.2 j
      | none => p) p) id

def components : List (ℕ × List ℕ) :=
  ((List.range found.length).foldl (fun (p, m) i =>
    let (p, r) := find found.length p i
    (p, pushTo r i m)) (linked found, [])).2

/-- Larger components first, then by the file and name of the first unit. -/
def compLe (a b : List ℕ) : Bool :=
  let key := fun (c : List ℕ) => (c.head?.bind (found[·]?)).map fun n => (n.path, n.name)
  b.length < a.length || b.length = a.length &&
    match key a, key b with
    | some u, some v => decide (u.1 < v.1 ∨ u.1 = v.1 ∧ u.2 ≤ v.2)
    | _, _ => true

end Components

/-- The first of the groups with the fewest units. -/
def lightest (groups : List (List ℕ)) : Option ℕ :=
  (List.range groups.length).argmin fun i => (groups.getD i []).length

def fill (groups : List (List ℕ)) (comps : List (List ℕ)) : List (List ℕ) :=
  comps.foldl (fun groups c =>
    match lightest groups with
    | some i => groups.modify i (· ++ c)
    | none => groups) groups

def groupOf (idx : NodeIndex) (found : List Node) (g : List ℕ) : Group :=
  let units := ((g.filterMap (found[·]?)).map unitOf).insertionSort (unitLe · ·)
  let nids := units.map fun u => u.2.2
  { units := units
    paths := sortedDedup (units.map Prod.fst)
    dependents := ((idx.nodes.filter fun n => n.nid ∉ nids ∧ n.kind ≠ "test").filter
      fun n => (n.deps.getD []).any (· ∈ nids)).length }

/-- The units under some paths in at most so many groups. -/
def partition (order : HashOrder) (idx : NodeIndex) (paths : List String) (agents : ℕ) :
    List Group :=
  let found := candidates idx paths
  let comps := (order.values ((components found).map Prod.snd)).insertionSort
    (compLe found · ·)
  let buckets := min (max agents 1) (max comps.length 1)
  ((fill (List.replicate buckets []) comps).filter (· ≠ [])).map (groupOf idx found)

section Joining

variable {n i j : ℕ} {p q : ℕ → ℕ}

def Forested (n : ℕ) (p : ℕ → ℕ) : Prop := ∃ rank, Ranked n rank p

def Same (p : ℕ → ℕ) (i j : ℕ) : Prop := ∃ r, Leads p i r ∧ Leads p j r

/-- What was together is together still. -/
def Coarser (p q : ℕ → ℕ) : Prop := ∀ i j, Same p i j → Same q i j

theorem Coarser.trans {o : ℕ → ℕ} (h : Coarser o p) (h' : Coarser p q) : Coarser o q :=
  fun i j hij => h' i j (h i j hij)

theorem forested_id (n : ℕ) : Forested n id :=
  ⟨id, fun _ hi => hi, fun _ hne => absurd rfl hne⟩

theorem find_spec (hp : Forested n p) (hi : i < n) :
    Leads p i (find n p i).2 ∧ Forested n (find n p i).1 ∧
      ∀ j s, Leads p j s → Leads (find n p i).1 j s := by
  obtain ⟨rank, hp⟩ := hp
  have hroot := hp.leads_root hi (card_above_le n rank i)
  obtain ⟨hranked, hleads⟩ := hp.compress hroot hi n
  exact ⟨hroot, ⟨rank, hranked⟩, hleads⟩

theorem join_spec (hp : Forested n p) (hi : i < n) (hj : j < n) :
    Forested n (join n p i j) ∧ Coarser p (join n p i j) ∧ Same (join n p i j) i j := by
  obtain ⟨hroot, hforest, hleads⟩ := find_spec hp hi
  obtain ⟨hroot', ⟨rank, hranked⟩, hleads'⟩ := find_spec hforest hj
  have hia := hleads' _ _ (hleads _ _ hroot)
  have hjb := hleads' _ _ hroot'
  rw [join]
  dsimp only
  split_ifs with hne
  · obtain ⟨rank', hlinked⟩ := hranked.link hia.fixed hjb.fixed (hjb.inside hranked hj) hne
    refine ⟨⟨rank', hlinked⟩, fun k l hkl => ?_, ?_⟩
    · obtain ⟨r, hk, hl⟩ := hkl
      exact ⟨_, (hleads' _ _ (hleads _ _ hk)).link hia.fixed hjb.fixed hne,
        (hleads' _ _ (hleads _ _ hl)).link hia.fixed hjb.fixed hne⟩
    · have hi' := hia.link hia.fixed hjb.fixed hne
      have hj' := hjb.link hia.fixed hjb.fixed hne
      rw [if_pos rfl] at hi'
      rw [if_neg (Ne.symm hne)] at hj'
      exact ⟨_, hi', hj'⟩
  · rw [not_not] at hne
    refine ⟨⟨rank, hranked⟩, fun k l hkl => ?_, _, hia, hne ▸ hjb⟩
    obtain ⟨r, hk, hl⟩ := hkl
    exact ⟨r, hleads' _ _ (hleads _ _ hk), hleads' _ _ (hleads _ _ hl)⟩

end Joining

section Linked

variable {found : List Node} {p : ℕ → ℕ} {i j : ℕ} {n m : Node} {d : EntityId}

theorem indexOf_spec (h : indexOf found d = some j) :
    ∃ m, found[j]? = some m ∧ m.nid = d := by
  obtain ⟨⟨m, k⟩, hfind, rfl⟩ := Option.map_eq_some_iff.mp h
  have hmem := List.mem_reverse.mp (List.mem_of_find?_eq_some hfind)
  have hnid := List.find?_some hfind
  rw [decide_eq_true_eq] at hnid
  exact ⟨m, List.mem_zipIdx_iff_getElem?.mp hmem, hnid⟩

theorem indexOf_isSome (hm : m ∈ found) : ∃ j, indexOf found m.nid = some j := by
  obtain ⟨j, hj⟩ := List.mem_iff_getElem?.mp hm
  have hmem : (m, j) ∈ found.zipIdx.reverse :=
    List.mem_reverse.mpr (List.mem_zipIdx_iff_getElem?.mpr hj)
  have hsome : (found.zipIdx.reverse.find? fun e => e.1.nid = m.nid).isSome :=
    List.find?_isSome.mpr ⟨_, hmem, by simp⟩
  obtain ⟨e, he⟩ := Option.isSome_iff_exists.mp hsome
  exact ⟨e.2, by rw [indexOf, he]; rfl⟩

/-- The edges of one unit. -/
def linkAll (found : List Node) (i : ℕ) (ds : List EntityId) (p : ℕ → ℕ) : ℕ → ℕ :=
  ds.foldl (fun p d =>
    match indexOf found d with
    | some j => join found.length p i j
    | none => p) p

theorem linkAll_spec (ds : List EntityId) (hp : Forested found.length p)
    (hi : i < found.length) :
    Forested found.length (linkAll found i ds p) ∧ Coarser p (linkAll found i ds p) ∧
      ∀ d ∈ ds, ∀ j, indexOf found d = some j → Same (linkAll found i ds p) i j := by
  induction ds generalizing p with
  | nil => exact ⟨hp, fun _ _ h => h, fun d hd => absurd hd List.not_mem_nil⟩
  | cons d ds ih =>
      rw [linkAll, List.foldl_cons]
      cases hd : indexOf found d with
      | none =>
          obtain ⟨hforest, hcoarse, hsame⟩ := ih hp
          refine ⟨hforest, hcoarse, fun d' hd' j hj => ?_⟩
          rcases List.mem_cons.mp hd' with rfl | hd'
          · rw [hd] at hj
            cases hj
          · exact hsame d' hd' j hj
      | some k =>
          obtain ⟨m, hm, -⟩ := indexOf_spec hd
          have hk : k < found.length := (List.getElem?_eq_some_iff.mp hm).1
          obtain ⟨hjoined, hfirst, hik⟩ := join_spec hp hi hk
          obtain ⟨hforest, hcoarse, hsame⟩ := ih hjoined
          refine ⟨hforest, hfirst.trans hcoarse, fun d' hd' j hj => ?_⟩
          rcases List.mem_cons.mp hd' with rfl | hd'
          · rw [hd] at hj
            cases hj
            exact hcoarse _ _ hik
          · exact hsame d' hd' j hj

theorem foldl_linkAll_spec (es : List (Node × ℕ)) (hp : Forested found.length p)
    (hes : ∀ e ∈ es, e.2 < found.length) :
    let q := es.foldl (fun p e => linkAll found e.2 (e.1.deps.getD []) p) p
    Forested found.length q ∧ Coarser p q ∧ ∀ e ∈ es, ∀ d ∈ e.1.deps.getD [], ∀ j,
      indexOf found d = some j → Same q e.2 j := by
  induction es generalizing p with
  | nil => exact ⟨hp, fun _ _ h => h, fun e he => absurd he List.not_mem_nil⟩
  | cons e es ih =>
      obtain ⟨he, hes⟩ := List.forall_mem_cons.mp hes
      obtain ⟨hlinked, hfirst, hedges⟩ := linkAll_spec (e.1.deps.getD []) hp he
      obtain ⟨hforest, hcoarse, hsame⟩ := ih hlinked hes
      refine ⟨hforest, hfirst.trans hcoarse, List.forall_mem_cons.mpr ⟨?_, hsame⟩⟩
      intro d hd j hj
      exact hcoarse _ _ (hedges d hd j hj)

/-- Every edge between candidates ends up within one tree. -/
theorem linked_spec (found : List Node) :
    Forested found.length (linked found) ∧ ∀ i n, found[i]? = some n →
      ∀ d ∈ n.deps.getD [], ∀ j, indexOf found d = some j → Same (linked found) i j := by
  obtain ⟨hforest, -, hsame⟩ := foldl_linkAll_spec found.zipIdx (forested_id found.length)
    fun e he => (List.getElem?_eq_some_iff.mp (List.mem_zipIdx_iff_getElem?.mp he)).1
  exact ⟨hforest, fun i n hn => hsame (n, i) (List.mem_zipIdx_iff_getElem?.mpr hn)⟩

end Linked

section Collecting

variable {found : List Node} {p q : ℕ → ℕ} {r i j : ℕ} {m : List (ℕ × List ℕ)}
  {seen : List ℕ} {e : ℕ × List ℕ}

theorem perm_pushTo (r i : ℕ) (m : List (ℕ × List ℕ)) :
    ((pushTo r i m).flatMap Prod.snd).Perm (m.flatMap Prod.snd ++ [i]) := by
  induction m with
  | nil => exact List.Perm.refl _
  | cons e m ih =>
      rw [pushTo]
      split_ifs
      · rw [List.flatMap_cons, List.flatMap_cons, List.append_assoc, List.append_assoc]
        exact List.perm_append_comm.append_left _
      · rw [List.flatMap_cons, List.flatMap_cons, List.append_assoc]
        exact ih.append_left _

theorem mem_pushTo_self (r i : ℕ) (m : List (ℕ × List ℕ)) :
    ∃ e ∈ pushTo r i m, e.1 = r ∧ i ∈ e.2 := by
  induction m with
  | nil => exact ⟨(r, [i]), List.mem_cons_self, rfl, List.mem_cons_self⟩
  | cons e m ih =>
      rw [pushTo]
      split_ifs
      · exact ⟨_, List.mem_cons_self, rfl, List.mem_append_right _ List.mem_cons_self⟩
      · obtain ⟨e', he', hspec⟩ := ih
        exact ⟨e', List.mem_cons_of_mem _ he', hspec⟩

theorem mem_pushTo_of_mem (he : e ∈ m) (hj : j ∈ e.2) :
    ∃ e' ∈ pushTo r i m, e'.1 = e.1 ∧ j ∈ e'.2 := by
  induction m with
  | nil => cases he
  | cons e₀ m ih =>
      rw [pushTo]
      split_ifs with hr
      · rcases List.mem_cons.mp he with rfl | he
        · exact ⟨_, List.mem_cons_self, hr.symm, List.mem_append_left _ hj⟩
        · exact ⟨e, List.mem_cons_of_mem _ he, rfl, hj⟩
      · rcases List.mem_cons.mp he with rfl | he
        · exact ⟨e, List.mem_cons_self, rfl, hj⟩
        · obtain ⟨e', he', hspec⟩ := ih he
          exact ⟨e', List.mem_cons_of_mem _ he', hspec⟩

theorem mem_keys_pushTo {k : ℕ} (h : k ∈ (pushTo r i m).map Prod.fst) :
    k = r ∨ k ∈ m.map Prod.fst := by
  induction m with
  | nil => exact .inl (List.mem_singleton.mp h)
  | cons e m ih =>
      rw [pushTo] at h
      split_ifs at h with hr
      · rcases List.mem_cons.mp h with rfl | h
        · exact .inl rfl
        · exact .inr (List.mem_cons_of_mem _ h)
      · rcases List.mem_cons.mp h with rfl | h
        · exact .inr List.mem_cons_self
        · exact (ih h).imp_right (List.mem_cons_of_mem _)

theorem nodup_pushTo (r i : ℕ) (h : (m.map Prod.fst).Nodup) :
    ((pushTo r i m).map Prod.fst).Nodup := by
  induction m with
  | nil => exact List.nodup_singleton _
  | cons e m ih =>
      obtain ⟨he, hm⟩ := List.nodup_cons.mp h
      rw [pushTo]
      split_ifs with hr
      · exact List.nodup_cons.mpr ⟨hr ▸ he, hm⟩
      · refine List.nodup_cons.mpr ⟨fun hmem => ?_, ih hm⟩
        rcases mem_keys_pushTo hmem with heq | hmem
        · exact hr heq
        · exact he hmem

/-- The components of what is seen, in a forest that was `q` before it was looked at. -/
structure Collected (n : ℕ) (q : ℕ → ℕ) (seen : List ℕ) (s : (ℕ → ℕ) × List (ℕ × List ℕ)) :
    Prop where
  forested : Forested n s.1
  leads : ∀ j r, Leads q j r → Leads s.1 j r
  keys : (s.2.map Prod.fst).Nodup
  perm : (s.2.flatMap Prod.snd).Perm seen
  listed : ∀ i ∈ seen, ∀ r, Leads q i r → ∃ e ∈ s.2, e.1 = r ∧ i ∈ e.2

theorem Collected.push {n : ℕ} {s : (ℕ → ℕ) × List (ℕ × List ℕ)}
    (h : Collected n q seen s) (hi : i < n) :
    Collected n q (seen ++ [i]) ((find n s.1 i).1, pushTo (find n s.1 i).2 i s.2) := by
  obtain ⟨hroot, hforest, hleads⟩ := find_spec h.forested hi
  refine ⟨hforest, fun j r hj => hleads j r (h.leads j r hj), nodup_pushTo _ _ h.keys,
    (perm_pushTo _ _ _).trans (h.perm.append_right _), fun j hj r hjr => ?_⟩
  rcases List.mem_append.mp hj with hj | hj
  · obtain ⟨e, he, rfl, hmem⟩ := h.listed j hj r hjr
    exact mem_pushTo_of_mem he hmem
  · rw [List.mem_singleton] at hj
    subst hj
    rw [(h.leads _ _ hjr).unique hroot]
    exact mem_pushTo_self _ _ _

theorem collected_components (found : List Node) : ∃ p,
    Collected found.length (linked found) (List.range found.length) (p, components found) := by
  have hloop : ∀ (is seen : List ℕ) (s : (ℕ → ℕ) × List (ℕ × List ℕ)),
      (∀ i ∈ is, i < found.length) → Collected found.length (linked found) seen s →
      Collected found.length (linked found) (seen ++ is) (is.foldl (fun (p, m) i =>
        let (p, r) := find found.length p i
        (p, pushTo r i m)) s) := by
    intro is
    induction is with
    | nil =>
        intro seen s _ h
        rwa [List.append_nil]
    | cons i is ih =>
        intro seen s his h
        obtain ⟨hi, his⟩ := List.forall_mem_cons.mp his
        have hnext := ih _ _ his (h.push hi)
        rwa [List.append_assoc, List.singleton_append] at hnext
  have h := hloop (List.range found.length) [] (linked found, [])
    (fun i hi => List.mem_range.mp hi)
    ⟨(linked_spec found).1, fun _ _ h => h, List.nodup_nil, List.Perm.refl _,
      fun i hi => absurd hi List.not_mem_nil⟩
  exact ⟨_, h⟩

theorem perm_components (found : List Node) :
    ((components found).map Prod.snd).flatten.Perm (List.range found.length) := by
  obtain ⟨p, h⟩ := collected_components found
  rw [← List.flatMap_def]
  exact h.perm

theorem component_of_same (hi : i < found.length) (hj : j < found.length)
    (h : Same (linked found) i j) :
    ∃ c ∈ (components found).map Prod.snd, i ∈ c ∧ j ∈ c := by
  obtain ⟨p, hall⟩ := collected_components found
  obtain ⟨r, hir, hjr⟩ := h
  obtain ⟨e, he, hkey, hmem⟩ := hall.listed i (List.mem_range.mpr hi) r hir
  obtain ⟨e', he', hkey', hmem'⟩ := hall.listed j (List.mem_range.mpr hj) r hjr
  obtain rfl := List.inj_on_of_nodup_map hall.keys he he' (hkey.trans hkey'.symm)
  exact ⟨e.2, List.mem_map_of_mem he, hmem, hmem'⟩

end Collecting

section Filling

variable {groups comps : List (List ℕ)} {c g : List ℕ} {i : ℕ}

theorem lightest_spec (h : groups ≠ []) : ∃ i, lightest groups = some i ∧ i < groups.length := by
  cases hmin : lightest groups with
  | none =>
      rw [lightest, List.argmin_eq_none, List.range_eq_nil, List.length_eq_zero_iff] at hmin
      exact absurd hmin h
  | some i => exact ⟨i, rfl, List.mem_range.mp (List.argmin_mem hmin)⟩

theorem modify_append (f : List ℕ → List ℕ) (front : List (List ℕ)) (g : List ℕ)
    (back : List (List ℕ)) :
    (front ++ g :: back).modify front.length f = front ++ f g :: back := by
  induction front with
  | nil => rfl
  | cons x front ih => exact congrArg (x :: ·) ih

theorem modify_spec (c : List ℕ) (hi : i < groups.length) :
    (groups.modify i (· ++ c)).flatten.Perm (groups.flatten ++ c) ∧
      (∀ g ∈ groups, ∃ g' ∈ groups.modify i (· ++ c), g ⊆ g') ∧
      ∃ g' ∈ groups.modify i (· ++ c), c ⊆ g' := by
  obtain ⟨front, g, back, rfl, rfl⟩ : ∃ front g back, groups = front ++ g :: back ∧
      front.length = i :=
    ⟨groups.take i, groups[i], groups.drop (i + 1), by
      rw [← List.drop_eq_getElem_cons hi, List.take_append_drop],
      List.length_take_of_le hi.le⟩
  rw [modify_append]
  refine ⟨?_, fun g' hg' => ?_, g ++ c, by simp, List.subset_append_right _ _⟩
  · simp only [List.flatten_append, List.flatten_cons, List.append_assoc]
    exact (List.perm_append_comm.append_left _).append_left _
  · rcases List.mem_append.mp hg' with hg' | hg'
    · exact ⟨g', List.mem_append_left _ hg', List.Subset.refl _⟩
    · rcases List.mem_cons.mp hg' with rfl | hg'
      · exact ⟨g' ++ c, by simp, List.subset_append_left _ _⟩
      · exact ⟨g', by simp [hg'], List.Subset.refl _⟩

/-- Filled groups are as many, hold what there is, and keep each component whole. -/
theorem fill_spec (comps : List (List ℕ)) (h : groups ≠ []) :
    (fill groups comps).length = groups.length ∧
      (fill groups comps).flatten.Perm (groups.flatten ++ comps.flatten) ∧
      (∀ g ∈ groups, ∃ g' ∈ fill groups comps, g ⊆ g') ∧
      ∀ c ∈ comps, ∃ g' ∈ fill groups comps, c ⊆ g' := by
  induction comps generalizing groups with
  | nil =>
      exact ⟨rfl, by simp [fill], fun g hg => ⟨g, hg, List.Subset.refl _⟩,
        fun c hc => absurd hc List.not_mem_nil⟩
  | cons c comps ih =>
      obtain ⟨i, hmin, hi⟩ := lightest_spec h
      obtain ⟨hperm, hkeep, g, hg, hcg⟩ := modify_spec c hi
      have hne : groups.modify i (· ++ c) ≠ [] := by
        rw [← List.length_pos_iff, List.length_modify]
        exact Nat.zero_lt_of_lt hi
      obtain ⟨hlength, hall, hold, hnew⟩ := ih hne
      have hfill : fill groups (c :: comps) = fill (groups.modify i (· ++ c)) comps := by
        rw [fill, List.foldl_cons, hmin]
        rfl
      rw [hfill]
      refine ⟨hlength.trans (List.length_modify ..), ?_, fun g hg => ?_,
        List.forall_mem_cons.mpr ⟨?_, hnew⟩⟩
      · rw [List.flatten_cons, ← List.append_assoc]
        exact hall.trans (hperm.append_right _)
      · obtain ⟨g₁, hg₁, hsub⟩ := hkeep g hg
        obtain ⟨g₂, hg₂, hsub'⟩ := hold g₁ hg₁
        exact ⟨g₂, hg₂, List.Subset.trans hsub hsub'⟩
      · obtain ⟨g₂, hg₂, hsub⟩ := hold g hg
        exact ⟨g₂, hg₂, List.Subset.trans hcg hsub⟩

end Filling

section Groups

variable {idx : NodeIndex} {found : List Node} {g : List ℕ} {n m : Node} {i : ℕ}

theorem filterMap_range (found : List Node) :
    (List.range found.length).filterMap (found[·]?) = found := by
  have hmap : (List.range found.length).map (found[·]?) = found.map some := by
    refine List.ext_getElem (by simp) fun i hi hi' => ?_
    rw [List.length_map] at hi'
    simp [hi']
  have hid : ((List.range found.length).map (found[·]?)).filterMap id =
      (List.range found.length).filterMap (found[·]?) := List.filterMap_map
  rw [← hid, hmap, List.filterMap_map]
  exact List.filterMap_some

theorem perm_units (idx : NodeIndex) (found : List Node) (g : List ℕ) :
    (groupOf idx found g).units.Perm ((g.filterMap (found[·]?)).map unitOf) :=
  List.perm_insertionSort _ _

theorem mem_units (hi : i ∈ g) (hn : found[i]? = some n) :
    unitOf n ∈ (groupOf idx found g).units :=
  (perm_units idx found g).mem_iff.mpr
    (List.mem_map_of_mem (List.mem_filterMap.mpr ⟨i, hi, hn⟩))

/-- The one place that an id is at. -/
theorem index_unique {nid : EntityId} {j : ℕ} (h : (found.map Node.nid).count nid = 1)
    (hi : found[i]? = some n) (hj : found[j]? = some m) (hn : n.nid = nid) (hm : m.nid = nid) :
    i = j := by
  have hdistinct : ∀ {i j : ℕ} {n m : Node}, found[i]? = some n → found[j]? = some m →
      n.nid = nid → m.nid = nid → ¬ i < j := by
    intro i j n m hi hj hn hm hlt
    obtain ⟨hi, rfl⟩ := List.getElem?_eq_some_iff.mp hi
    obtain ⟨hj, rfl⟩ := List.getElem?_eq_some_iff.mp hj
    have hdup : List.Duplicate nid (found.map Node.nid) :=
      List.duplicate_iff_exists_distinct_get.mpr ⟨⟨i, by rwa [List.length_map]⟩,
        ⟨j, by rwa [List.length_map]⟩, hlt, by simp [hn], by simp [hm]⟩
    have htwo := List.duplicate_iff_two_le_count.mp hdup
    omega
  have hij := hdistinct hi hj hn hm
  have hji := hdistinct hj hi hm hn
  omega

end Groups

section Partition

variable (order : HashOrder) (idx : NodeIndex) (paths : List String) (agents : ℕ)

/-- The groups before their units are looked up. -/
def placed : List (List ℕ) :=
  let found := candidates idx paths
  let comps := (order.values ((components found).map Prod.snd)).insertionSort
    (compLe found · ·)
  fill (List.replicate (min (max agents 1) (max comps.length 1)) []) comps

theorem partition_eq : partition order idx paths agents =
    ((placed order idx paths agents).filter (· ≠ [])).map
      (groupOf idx (candidates idx paths)) := rfl

theorem placed_spec :
    (placed order idx paths agents).length ≤ max agents 1 ∧
      (placed order idx paths agents).flatten.Perm
        (List.range (candidates idx paths).length) ∧
      ∀ c ∈ (components (candidates idx paths)).map Prod.snd,
        ∃ g ∈ placed order idx paths agents, c ⊆ g := by
  set found := candidates idx paths with hfound
  set comps := (order.values ((components found).map Prod.snd)).insertionSort
    (compLe found · ·) with hcomps
  have hperm : comps.Perm ((components found).map Prod.snd) :=
    (List.perm_insertionSort _ _).trans (order.perm _)
  have hne : List.replicate (min (max agents 1) (max comps.length 1)) ([] : List ℕ) ≠ [] := by
    rw [← List.length_pos_iff, List.length_replicate]
    omega
  obtain ⟨hlength, hall, -, hwhole⟩ := fill_spec comps hne
  refine ⟨?_, ?_, fun c hc => hwhole c (hperm.mem_iff.mpr hc)⟩
  · refine hlength.le.trans ?_
    rw [List.length_replicate]
    exact min_le_left _ _
  · have hnil : (List.replicate (min (max agents 1) (max comps.length 1))
        ([] : List ℕ)).flatten = [] := by simp
    rw [hnil, List.nil_append] at hall
    exact (hall.trans hperm.flatten).trans (perm_components found)

theorem perm_partition :
    ((partition order idx paths agents).flatMap Group.units).Perm
      ((candidates idx paths).map unitOf) := by
  set found := candidates idx paths with hfound
  have hgroups : ∀ gs : List (List ℕ),
      (((gs.filter (· ≠ [])).map (groupOf idx found)).flatMap Group.units).Perm
        ((gs.flatten.filterMap (found[·]?)).map unitOf) := by
    intro gs
    induction gs with
    | nil => exact List.Perm.refl _
    | cons g gs ih =>
        rw [List.flatten_cons, List.filterMap_append, List.map_append, List.filter_cons]
        split_ifs with hg
        · rw [List.map_cons, List.flatMap_cons]
          exact (perm_units idx found g).append ih
        · have hnil : g = [] := by simpa using hg
          rw [hnil]
          exact ih
  rw [partition_eq]
  refine (hgroups _).trans ?_
  have hrange := ((placed_spec order idx paths agents).2.1.filterMap (found[·]?)).map unitOf
  rwa [filterMap_range] at hrange

theorem units_ne_nil {g : Group} (hg : g ∈ partition order idx paths agents) :
    g.units ≠ [] := by
  rw [partition_eq] at hg
  obtain ⟨is, his, rfl⟩ := List.mem_map.mp hg
  obtain ⟨hmem, hne⟩ := List.mem_filter.mp his
  obtain ⟨i, rest, rfl⟩ := List.exists_cons_of_ne_nil (of_decide_eq_true hne)
  have hi : i < (candidates idx paths).length := by
    refine List.mem_range.mp ((placed_spec order idx paths agents).2.1.mem_iff.mp ?_)
    exact List.mem_flatten.mpr ⟨_, hmem, List.mem_cons_self⟩
  exact List.ne_nil_of_mem
    (mem_units List.mem_cons_self (List.getElem?_eq_getElem hi))

variable {idx paths}

/-- A unit and what it depends on go to one group, if the id is no other candidate's. -/
theorem group_of_edge {n m : Node} (hn : n ∈ candidates idx paths)
    (hm : m ∈ candidates idx paths) (hedge : m.nid ∈ n.deps.getD [])
    (hone : ((candidates idx paths).map Node.nid).count m.nid = 1) :
    ∃ g ∈ partition order idx paths agents, unitOf n ∈ g.units ∧ unitOf m ∈ g.units := by
  obtain ⟨i, hi⟩ := List.mem_iff_getElem?.mp hn
  obtain ⟨k, hk⟩ := List.mem_iff_getElem?.mp hm
  obtain ⟨j, hj⟩ := indexOf_isSome hm
  obtain ⟨m', hm', hnid⟩ := indexOf_spec hj
  obtain rfl := index_unique hone hm' hk hnid rfl
  have hsame := (linked_spec (candidates idx paths)).2 i n hi _ hedge _ hj
  obtain ⟨c, hc, hic, hjc⟩ := component_of_same (List.getElem?_eq_some_iff.mp hi).1
    (List.getElem?_eq_some_iff.mp hk).1 hsame
  obtain ⟨g, hg, hsub⟩ := (placed_spec order idx paths agents).2.2 c hc
  refine ⟨groupOf idx (candidates idx paths) g, ?_, mem_units (hsub hic) hi,
    mem_units (hsub hjc) hk⟩
  rw [partition_eq]
  refine List.mem_map_of_mem (List.mem_filter.mpr ⟨hg, decide_eq_true ?_⟩)
  exact List.ne_nil_of_mem (hsub hic)

theorem disjoint_groups (hnodup : ((candidates idx paths).map Node.nid).Nodup) :
    (partition order idx paths agents).Pairwise fun g h => g.units.Disjoint h.units := by
  have hunits : ((candidates idx paths).map unitOf).Nodup := by
    refine List.Nodup.of_map (fun u => u.2.2) ?_
    rwa [List.map_map]
  exact (List.nodup_flatMap.mp
    ((perm_partition order idx paths agents).nodup_iff.mpr hunits)).2

/-- The groups are at most as many as the agents, not empty, and hold each candidate once
each time it is listed; a unit and one it depends on are in one group where no other
candidate has the id. Candidates of different ids make disjoint groups that no edge joins. -/
theorem partition_sound (order : HashOrder) (idx : NodeIndex) (paths : List String)
    (agents : ℕ) :
    let found := candidates idx paths
    let groups := partition order idx paths agents
    groups.length ≤ max agents 1 ∧ (∀ g ∈ groups, g.units ≠ []) ∧
    (groups.flatMap Group.units).Perm (found.map unitOf) ∧
    (∀ n ∈ found, ∀ m ∈ found, m.nid ∈ n.deps.getD [] →
      (found.map Node.nid).count m.nid = 1 →
      ∃ g ∈ groups, unitOf n ∈ g.units ∧ unitOf m ∈ g.units) ∧
    ((found.map Node.nid).Nodup →
      groups.Pairwise (fun g h => g.units.Disjoint h.units) ∧
      ∀ n ∈ found, ∀ m ∈ found, m.nid ∈ n.deps.getD [] →
        ∀ g ∈ groups, (unitOf n ∈ g.units ↔ unitOf m ∈ g.units)) := by
  refine ⟨?_, fun g hg => units_ne_nil order idx paths agents hg,
    perm_partition order idx paths agents,
    fun n hn m hm => group_of_edge order agents hn hm,
    fun hnodup => ⟨disjoint_groups order agents hnodup, fun n hn m hm hedge g hg => ?_⟩⟩
  · rw [partition_eq, List.length_map]
    exact (List.length_filter_le _ _).trans (placed_spec order idx paths agents).1
  · have hone := List.count_eq_one_of_mem hnodup (List.mem_map_of_mem hm)
    obtain ⟨g', hg', hboth⟩ := group_of_edge order agents hn hm hedge hone
    have : Std.Symm fun g h : Group => g.units.Disjoint h.units :=
      ⟨fun _ _ h => List.Disjoint.symm h⟩
    have hsame : ∀ u, u ∈ g.units → u ∈ g'.units → g = g' := by
      intro u hu hu'
      by_contra hne
      exact (disjoint_groups order agents hnodup).forall hg hg' hne hu hu'
    constructor
    · intro hu
      rw [hsame _ hu hboth.1]
      exact hboth.2
    · intro hu
      rw [hsame _ hu hboth.2]
      exact hboth.1

/-- A hash map that gives its values in the order of their first keys. -/
def inOrder : HashOrder := ⟨id, fun l => List.Perm.refl l⟩

def sampleUnit (nid : ℕ) (path name : String) (deps : List EntityId) : Node :=
  ⟨.splat nid, path, "function", name, (0, 0), .splat 0, none, some deps, none⟩

/-- Two units of one id, and one that depends on it. -/
def sharedId : NodeIndex :=
  ⟨.splat 0, "", [], [sampleUnit 1 "a.rs" "f" [], sampleUnit 1 "b.rs" "g" [],
    sampleUnit 2 "c.rs" "h" [.splat 1]], none⟩

/-- The last of the units of one id is joined with what depends on it, and the first is in
the other group. -/
theorem sharedId_split :
    ∃ n ∈ candidates sharedId ["**"], ∃ m ∈ candidates sharedId ["**"],
      m.nid ∈ n.deps.getD [] ∧
      ∃ g ∈ partition inOrder sharedId ["**"] 2, unitOf n ∈ g.units ∧ unitOf m ∉ g.units ∧
        ∃ h ∈ partition inOrder sharedId ["**"] 2, unitOf m ∈ h.units := by
  have hgroups : partition inOrder sharedId ["**"] 2 =
      [⟨[("b.rs", "g", .splat 1), ("c.rs", "h", .splat 2)], ["b.rs", "c.rs"], 0⟩,
        ⟨[("a.rs", "f", .splat 1)], ["a.rs"], 1⟩] := by decide +kernel
  rw [hgroups]
  exact ⟨sampleUnit 2 "c.rs" "h" [.splat 1], by decide +kernel, sampleUnit 1 "a.rs" "f" [],
    by decide +kernel, by decide, _, List.mem_cons_self, by decide, by decide, _,
    List.mem_cons_of_mem _ List.mem_cons_self, by decide⟩

end Partition

end Tessra.Daemon.Swarm
