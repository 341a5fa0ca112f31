import Tessra.Daemon.Flattening
import Tessra.Data.Depth

namespace Tessra.Daemon

open Tessra.Core Tessra.Data Tessra.Oplog StoreM Relation
open Verify (joinPath loadEntries entriesOf diffTreesAt changedPaths)

/-! The paths that differ between two trees, against the leaves of the two. -/

section Content

variable [Crypto] (S : Store)

/-- The entry of a name, in the directory if there is one. -/
def entryOf (tree : Option ObjectId) (name : String) : Option TreeEntry :=
  match (entriesOf tree).value S with
  | .ok es => es.find? (·.name = name)
  | .error _ => none

/-- The leaf that the names lead to. -/
def leafAt : Option ObjectId → List String → Option Leaf
  | _, [] => none
  | tree, name :: rest =>
      (entryOf S tree name).bind fun e =>
        if e.kind = .dir then leafAt e.ref rest else if rest = [] then some (leafOf e) else none

/-- The tree at the identifier lies below the other. -/
def Child (r id : ObjectId) : Prop :=
  ∃ es e, (loadEntries id).value S = .ok es ∧ e ∈ es ∧ e.kind = .dir ∧ e.ref = some r

/-- Every directory of the tree, flat or sharded, is kept and names no entry twice. -/
inductive TreeIn : ObjectId → Prop
  | dir {id : ObjectId} {es : List TreeEntry} (loads : (loadEntries id).value S = .ok es)
      (unique : (es.map TreeEntry.name).Nodup)
      (below : ∀ e ∈ es, e.kind = .dir → ∀ r, e.ref = some r → TreeIn r) : TreeIn id

/-- No leaf, or a directory. -/
def Passable (e : Option TreeEntry) : Prop := ∀ x ∈ e, x.kind = .dir

instance (e : Option TreeEntry) : Decidable (Passable e) :=
  inferInstanceAs (Decidable (∀ x ∈ e, x.kind = .dir))

/-- The names lead, through directories alone, to entries that differ. -/
def Reported : Option ObjectId → Option ObjectId → List String → Prop
  | _, _, [] => False
  | old, new, name :: rest =>
      if Passable (entryOf S old name) ∧ Passable (entryOf S new name) then
        Reported ((entryOf S old name).bind (·.ref)) ((entryOf S new name).bind (·.ref)) rest
      else rest = [] ∧ entryOf S old name ≠ entryOf S new name

end Content

section Leaves

variable [Crypto] {S : Store} {old new tree : Option ObjectId} {name : String}
  {rest names : List String}

theorem leafAt_none : leafAt S none names = none := by
  cases names <;> rfl

theorem entryOf_name {e : TreeEntry} (h : entryOf S tree name = some e) : e.name = name := by
  unfold entryOf at h
  split at h
  · simpa using List.find?_some h
  · exact nomatch h

/-- Through a directory the names lead on. -/
theorem leafAt_of_passable (h : Passable (entryOf S tree name)) :
    leafAt S tree (name :: rest) = leafAt S ((entryOf S tree name).bind (·.ref)) rest := by
  rw [leafAt]
  cases he : entryOf S tree name with
  | none => exact leafAt_none.symm
  | some e =>
      have hdir : e.kind = .dir := h e he
      simp [hdir]

theorem leafAt_singleton_eq_none :
    leafAt S tree [name] = none ↔ Passable (entryOf S tree name) := by
  rw [leafAt]
  cases entryOf S tree name with
  | none => simp [Passable]
  | some e =>
      by_cases hdir : e.kind = .dir <;> simp [Passable, hdir, leafAt]

/-- At a leaf the names end. -/
theorem leafAt_cons_eq_none (h : ¬ Passable (entryOf S tree name)) (hrest : rest ≠ []) :
    leafAt S tree (name :: rest) = none := by
  rw [leafAt]
  cases he : entryOf S tree name with
  | none => rfl
  | some e =>
      have hdir : e.kind ≠ .dir := fun hdir => h (by simp [he, Passable, hdir])
      simp [hdir, hrest]

/-- Two entries of one name, one of them no directory, differ just when their leaves do. -/
theorem leafAt_singleton_inj
    (h : ¬ (Passable (entryOf S old name) ∧ Passable (entryOf S new name))) :
    leafAt S old [name] = leafAt S new [name] ↔ entryOf S old name = entryOf S new name := by
  constructor
  · intro hsame
    simp only [leafAt] at hsame
    cases ha : entryOf S old name with
    | none =>
        cases hb : entryOf S new name with
        | none => rfl
        | some b =>
            have hdir : b.kind ≠ .dir := fun hdir => h (by simp [ha, hb, Passable, hdir])
            simp [ha, hb, hdir] at hsame
    | some a =>
        cases hb : entryOf S new name with
        | none =>
            have hdir : a.kind ≠ .dir := fun hdir => h (by simp [ha, hb, Passable, hdir])
            simp [ha, hb, hdir] at hsame
        | some b =>
            have hname : a.name = b.name := (entryOf_name ha).trans (entryOf_name hb).symm
            simp only [ha, hb, Option.bind_some] at hsame
            split_ifs at hsame with hadir hbdir
            · exact absurd ⟨by simp [Passable, ha, hadir], by simp [Passable, hb, hbdir]⟩ h
            · cases a
              cases b
              simp_all [leafOf]
  · intro hsame
    rw [leafAt, leafAt, hsame]

/-- What is reported are the differing leaves that have no leaf above them. -/
theorem reported_iff : ∀ {names} {old new : Option ObjectId}, Reported S old new names ↔
    leafAt S old names ≠ leafAt S new names ∧ ∀ above below, names = above ++ below →
      below ≠ [] → leafAt S old above = none ∧ leafAt S new above = none
  | [], old, new => by simp [Reported, leafAt]
  | name :: rest, old, new => by
      rw [Reported]
      split_ifs with hpass
      · rw [reported_iff, leafAt_of_passable hpass.1, leafAt_of_passable hpass.2]
        refine and_congr_right fun _ => ⟨?_, ?_⟩
        · intro h above below heq hbelow
          cases above with
          | nil => exact ⟨rfl, rfl⟩
          | cons first above =>
              obtain ⟨rfl, hrest⟩ := List.cons.inj heq
              rw [leafAt_of_passable hpass.1, leafAt_of_passable hpass.2]
              exact h above below hrest hbelow
        · intro h above below heq hbelow
          have habove := h (name :: above) below (by rw [heq, List.cons_append]) hbelow
          rwa [leafAt_of_passable hpass.1, leafAt_of_passable hpass.2] at habove
      · constructor
        · rintro ⟨rfl, hne⟩
          refine ⟨fun hsame => hne ((leafAt_singleton_inj hpass).mp hsame), ?_⟩
          intro above below heq hbelow
          cases above with
          | nil => exact ⟨rfl, rfl⟩
          | cons first above =>
              obtain ⟨-, heq⟩ := List.cons.inj heq
              exact absurd (List.append_eq_nil_iff.mp heq.symm).2 hbelow
        · rintro ⟨hne, habove⟩
          have hrest : rest = [] := by
            by_contra hrest
            have hnone := habove [name] rest rfl hrest
            rw [leafAt_singleton_eq_none, leafAt_singleton_eq_none] at hnone
            exact hpass hnone
          subst hrest
          exact ⟨rfl, fun hsame => hne ((leafAt_singleton_inj hpass).mpr hsame)⟩

theorem not_reported_self : ¬ Reported S old old names := fun h => (reported_iff.mp h).1 rfl

end Leaves

section Walk

variable [Crypto] {S : Store} {old new tree : Option ObjectId} {names : List String}

theorem readOnly_loadEntries (id : ObjectId) : (loadEntries id).ReadOnly := by
  refine (readOnly_get Tree id).bind fun t => ?_
  cases t.entries with
  | some es => exact readOnly_pure es
  | none =>
      refine (ReadOnly.foldlM (fun all shard => ?_) _ _).bind fun all => readOnly_pure _
      exact (readOnly_get Tree shard).bind fun _ => readOnly_pure _

theorem readOnly_entriesOf (tree : Option ObjectId) : (entriesOf tree).ReadOnly := by
  cases tree with
  | none => exact readOnly_pure _
  | some id => exact readOnly_loadEntries id

/-- What the loop adds for the entries of one name. -/
def diffStep (fuel : ℕ) (path : String) : Option TreeEntry → Option TreeEntry →
    StoreM (List String)
  | some a, some b =>
      if a = b then pure []
      else if a.kind = .dir ∧ b.kind = .dir then diffTreesAt fuel a.ref b.ref path
      else pure [path]
  | some a, none => if a.kind = .dir then diffTreesAt fuel a.ref none path else pure [path]
  | none, some b => if b.kind = .dir then diffTreesAt fuel none b.ref path else pure [path]
  | none, none => pure [path]

theorem diffTreesAt_succ (fuel : ℕ) (old new : Option ObjectId) (dir : String) :
    diffTreesAt (fuel + 1) old new dir =
      if old = new then pure []
      else entriesOf old >>= fun oe => entriesOf new >>= fun ne =>
        (sortedDedup (oe.map TreeEntry.name ++ ne.map TreeEntry.name)).foldlM (fun out name =>
          (out ++ ·) <$> diffStep fuel (joinPath dir name) (oe.find? (·.name = name))
            (ne.find? (·.name = name))) [] := by
  rw [diffTreesAt]
  congr 3
  funext oe
  congr 1
  funext ne
  congr 1
  funext out name
  cases oe.find? (·.name = name) with
  | none =>
      cases ne.find? (·.name = name) with
      | none => simp [diffStep]
      | some b => by_cases hdir : b.kind = .dir <;> simp [diffStep, hdir]
  | some a =>
      cases ne.find? (·.name = name) with
      | none => by_cases hdir : a.kind = .dir <;> simp [diffStep, hdir]
      | some b =>
          by_cases hsame : a = b
          · simp [diffStep, hsame]
          · by_cases hdir : a.kind = .dir ∧ b.kind = .dir <;>
              simp [diffStep, hsame, hdir]

theorem readOnly_diffStep {fuel : ℕ} (ih : ∀ old new dir, (diffTreesAt fuel old new dir).ReadOnly)
    (path : String) (o n : Option TreeEntry) : (diffStep fuel path o n).ReadOnly := by
  unfold diffStep
  split
  · split_ifs
    · exact readOnly_pure _
    · exact ih _ _ _
    · exact readOnly_pure _
  · split_ifs
    · exact ih _ _ _
    · exact readOnly_pure _
  · split_ifs
    · exact ih _ _ _
    · exact readOnly_pure _
  · exact readOnly_pure _

theorem readOnly_diffTreesAt (fuel : ℕ) (old new : Option ObjectId) (dir : String) :
    (diffTreesAt fuel old new dir).ReadOnly := by
  induction fuel generalizing old new dir with
  | zero => exact readOnly_throw _
  | succ fuel ih =>
      rw [diffTreesAt_succ]
      split_ifs
      · exact readOnly_pure _
      · refine (readOnly_entriesOf old).bind fun oe => (readOnly_entriesOf new).bind fun ne => ?_
        exact ReadOnly.foldlM (fun out name => ReadOnly.map _ (readOnly_diffStep ih _ _ _)) _ _

theorem exists_value_entriesOf {fuel : ℕ}
    (h : ∀ id ∈ tree, TreeIn S id ∧ Shallow (Child S) fuel id) :
    ∃ es, (entriesOf tree).value S = .ok es := by
  cases tree with
  | none => exact ⟨[], rfl⟩
  | some id =>
      obtain ⟨loads, -, -⟩ := (h id rfl).1
      exact ⟨_, loads⟩

theorem entryOf_of_value {es : List TreeEntry} (h : (entriesOf tree).value S = .ok es)
    (name : String) : entryOf S tree name = es.find? (·.name = name) := by
  rw [entryOf, h]

/-- The directory of a name lies below. -/
theorem below_of_entryOf {fuel : ℕ} {name : String}
    (h : ∀ id ∈ tree, TreeIn S id ∧ Shallow (Child S) (fuel + 1) id)
    (hpass : Passable (entryOf S tree name)) :
    ∀ r ∈ (entryOf S tree name).bind (·.ref), TreeIn S r ∧ Shallow (Child S) fuel r := by
  intro r hr
  obtain ⟨e, he, href⟩ := Option.bind_eq_some_iff.mp hr
  cases tree with
  | none => exact nomatch he
  | some id =>
      obtain ⟨htree, hshallow⟩ := h id rfl
      obtain @⟨_, es, loads, -, below⟩ := htree
      have hdir : e.kind = .dir := hpass e he
      have hload : (entriesOf (some id)).value S = .ok es := loads
      rw [entryOf_of_value hload] at he
      have hmem := List.mem_of_find?_eq_some he
      exact ⟨below e hmem hdir r href, hshallow r ⟨es, e, loads, hmem, hdir, href⟩⟩

/-- What the loop adds for one name are the paths reported below it. -/
theorem exists_value_diffStep {fuel : ℕ} {name : String} (path : String)
    (hsome : entryOf S old name ≠ none ∨ entryOf S new name ≠ none)
    (hbelow : Passable (entryOf S old name) → Passable (entryOf S new name) →
      ∃ l : List (List String), l.Nodup ∧
        (∀ names, names ∈ l ↔ Reported S ((entryOf S old name).bind (·.ref))
          ((entryOf S new name).bind (·.ref)) names) ∧
        (diffTreesAt fuel ((entryOf S old name).bind (·.ref)) ((entryOf S new name).bind (·.ref))
          path).value S = .ok (l.map (·.foldl joinPath path))) :
    ∃ l : List (List String), l.Nodup ∧
      (∀ names, names ∈ l ↔ Reported S old new (name :: names)) ∧
      (diffStep fuel path (entryOf S old name) (entryOf S new name)).value S =
        .ok (l.map (·.foldl joinPath path)) := by
  by_cases hpass : Passable (entryOf S old name) ∧ Passable (entryOf S new name)
  · by_cases hsame : entryOf S old name = entryOf S new name
    · refine ⟨[], List.nodup_nil, fun names => ?_, ?_⟩
      · rw [Reported, if_pos hpass, hsame]
        simp [not_reported_self]
      · rw [hsame] at hsome ⊢
        obtain ⟨b, hb⟩ := Option.ne_none_iff_exists'.mp (hsome.elim id id)
        simp [hb, diffStep]
    · obtain ⟨l, hnodup, hmem, hvalue⟩ := hbelow hpass.1 hpass.2
      refine ⟨l, hnodup, fun names => ?_, ?_⟩
      · rw [Reported, if_pos hpass]
        exact hmem names
      · rw [← hvalue]
        obtain ⟨ho, hn⟩ := hpass
        cases hold : entryOf S old name with
        | none =>
            cases hnew : entryOf S new name with
            | none => simp [hold, hnew] at hsome
            | some b => simp [diffStep, hn b hnew]
        | some a =>
            cases hnew : entryOf S new name with
            | none => simp [diffStep, ho a hold]
            | some b =>
                have hne : a ≠ b := fun h => hsame (by rw [hold, hnew, h])
                simp [diffStep, ho a hold, hn b hnew, hne]
  · by_cases hsame : entryOf S old name = entryOf S new name
    · refine ⟨[], List.nodup_nil, fun names => ?_, ?_⟩
      · rw [Reported, if_neg hpass]
        simp [hsame]
      · rw [hsame] at hsome ⊢
        obtain ⟨b, hb⟩ := Option.ne_none_iff_exists'.mp (hsome.elim id id)
        simp [hb, diffStep]
    · refine ⟨[[]], List.nodup_singleton _, fun names => ?_, ?_⟩
      · rw [Reported, if_neg hpass]
        simp [hsame]
      · cases hold : entryOf S old name with
        | none =>
            cases hnew : entryOf S new name with
            | none => simp [hold, hnew] at hsome
            | some b =>
                have hdir : b.kind ≠ .dir := fun h =>
                  hpass (by simp [hold, hnew, Passable, h])
                simp [diffStep, hdir]
        | some a =>
            cases hnew : entryOf S new name with
            | none =>
                have hdir : a.kind ≠ .dir := fun h =>
                  hpass (by simp [hold, hnew, Passable, h])
                simp [diffStep, hdir]
            | some b =>
                have hne : a ≠ b := fun h => hsame (by rw [hold, hnew, h])
                have hdir : ¬ (a.kind = .dir ∧ b.kind = .dir) := fun h =>
                  hpass (by simp [hold, hnew, Passable, h])
                simp [diffStep, hne, hdir]

/-- A fuel that outlasts the trees finds what is reported, each path once. -/
theorem exists_value_diffTreesAt : ∀ (fuel : ℕ) {old new : Option ObjectId},
    (∀ id ∈ old, TreeIn S id ∧ Shallow (Child S) fuel id) →
    (∀ id ∈ new, TreeIn S id ∧ Shallow (Child S) fuel id) → ∀ dir : String,
    ∃ l : List (List String), l.Nodup ∧ (∀ names, names ∈ l ↔ Reported S old new names) ∧
      (diffTreesAt (fuel + 1) old new dir).value S = .ok (l.map (·.foldl joinPath dir))
  | 0, old, new, hold, hnew, dir => by
      have hnone : ∀ {tree : Option ObjectId},
          (∀ id ∈ tree, TreeIn S id ∧ Shallow (Child S) 0 id) → tree = none :=
        fun h => Option.eq_none_iff_forall_not_mem.mpr fun id hid => (h id hid).2
      rw [hnone hold, hnone hnew, diffTreesAt_succ, if_pos rfl]
      exact ⟨[], List.nodup_nil, fun names => by simp [not_reported_self], rfl⟩
  | fuel + 1, old, new, hold, hnew, dir => by
      rw [diffTreesAt_succ]
      split_ifs with hsame
      · subst hsame
        exact ⟨[], List.nodup_nil, fun names => by simp [not_reported_self], rfl⟩
      obtain ⟨oe, hoe⟩ := exists_value_entriesOf hold
      obtain ⟨ne, hne⟩ := exists_value_entriesOf hnew
      let shown := sortedDedup (oe.map TreeEntry.name ++ ne.map TreeEntry.name)
      have hshown : ∀ name,
          name ∈ shown ↔ entryOf S old name ≠ none ∨ entryOf S new name ≠ none := by
        intro name
        rw [mem_sortedDedup, entryOf_of_value hoe, entryOf_of_value hne, List.mem_append]
        simp
      have hpiece : ∀ name ∈ shown, ∃ l : List (List String), l.Nodup ∧
          (∀ names, names ∈ l ↔ Reported S old new (name :: names)) ∧
          (diffStep (fuel + 1) (joinPath dir name) (entryOf S old name)
            (entryOf S new name)).value S = .ok (l.map (·.foldl joinPath (joinPath dir name))) :=
        fun name hname => exists_value_diffStep _ ((hshown name).mp hname) fun hpass hpass' =>
          exists_value_diffTreesAt fuel (below_of_entryOf hold hpass)
            (below_of_entryOf hnew hpass') _
      choose! pieces hnodup hmem hvalue using hpiece
      refine ⟨shown.flatMap fun name => (pieces name).map (name :: ·), ?_, fun names => ?_, ?_⟩
      · refine List.nodup_flatMap.mpr ⟨fun name hname => ?_, ?_⟩
        · exact (hnodup name hname).map fun _ _ h => (List.cons.inj h).2
        · refine (sortedDedup_pairwise _).imp fun hlt names h h' => ?_
          obtain ⟨_, -, rfl⟩ := List.mem_map.mp h
          obtain ⟨_, -, heq⟩ := List.mem_map.mp h'
          exact hlt.ne (List.cons.inj heq).1.symm
      · rw [List.mem_flatMap]
        constructor
        · rintro ⟨name, hname, h⟩
          obtain ⟨rest, hrest, rfl⟩ := List.mem_map.mp h
          exact (hmem name hname rest).mp hrest
        · intro h
          cases names with
          | nil => exact h.elim
          | cons name rest =>
              have hname : name ∈ shown := by
                rw [hshown]
                by_contra hnone
                push Not at hnone
                simp [Reported, hnone, Passable, not_reported_self] at h
              exact ⟨name, hname, List.mem_map_of_mem ((hmem name hname rest).mpr h)⟩
      · rw [(bind_of_ok hoe).1, readOnly_entriesOf old S, (bind_of_ok hne).1,
          readOnly_entriesOf new S]
        have hfold := value_foldlM_append (S := S) (l := shown)
          (f := fun out name => (out ++ ·) <$> diffStep (fuel + 1) (joinPath dir name)
            (oe.find? (·.name = name)) (ne.find? (·.name = name)))
          (g := fun name => (pieces name).map (·.foldl joinPath (joinPath dir name)))
          (fun out name => ReadOnly.map _ (readOnly_diffStep (readOnly_diffTreesAt _) _ _ _))
          (fun name hname out => value_map_of_ok _ (by
            rw [← entryOf_of_value hoe, ← entryOf_of_value hne]
            exact hvalue name hname)) []
        rw [hfold]
        simp [List.map_flatMap, Function.comp_def]

/-- The descents of a tree end. -/
theorem TreeIn.acc {id : ObjectId} (h : TreeIn S id) : Acc (Child S) id := by
  induction h with
  | dir loads _ _ ih =>
      refine Acc.intro _ ?_
      rintro r ⟨es, e, hes, hmem, hdir, href⟩
      obtain rfl := Except.ok.inj (loads.symm.trans hes)
      exact ih e hmem hdir r href

theorem TreeIn.child {id r : ObjectId} (h : TreeIn S id) (hr : Child S r id) : TreeIn S r := by
  obtain ⟨es, e, hes, hmem, hdir, href⟩ := hr
  obtain ⟨loads, -, below⟩ := h
  obtain rfl := Except.ok.inj (loads.symm.trans hes)
  exact below e hmem hdir r href

theorem TreeIn.mem_ids {id : ObjectId} (h : TreeIn S id) : id ∈ S.map Crypto.objectId := by
  obtain ⟨loads, -, -⟩ := h
  obtain ⟨t, ht, -⟩ := bind_ok loads
  obtain ⟨o, ho, hrest, -⟩ := bind_ok ht
  cases o with
  | none => exact nomatch hrest
  | some o =>
      have hfind : S.find? (fun o => Crypto.objectId o = id) = some o := Except.ok.inj ho
      have hid : Crypto.objectId o = id := by simpa using List.find?_some hfind
      exact List.mem_map.mpr ⟨o, List.mem_of_find?_eq_some hfind, hid⟩

/-- No tree nests deeper than the store has objects. -/
theorem TreeIn.shallow {id : ObjectId} (h : TreeIn S id) : Shallow (Child S) S.length id := by
  have hall : ∀ y, ReflTransGen (Child S) y id → TreeIn S y := by
    intro y hy
    induction hy using ReflTransGen.head_induction_on with
    | refl => exact h
    | head hchild _ ih => exact ih.child hchild
  have hcard : Shallow (Child S) (S.map Crypto.objectId).toFinset.card id :=
    shallow_card h.acc fun y hy => List.mem_toFinset.mpr (hall y hy).mem_ids
  refine hcard.mono ?_
  calc (S.map Crypto.objectId).toFinset.card ≤ (S.map Crypto.objectId).length :=
        List.toFinset_card_le _
    _ = S.length := List.length_map _

end Walk

section Exact

variable [Crypto] {S : Store} {old : Option ObjectId} {new : ObjectId}

/-- The paths returned are those of the leaves that differ, each once. -/
def Exact (S : Store) (old : Option ObjectId) (new : ObjectId) : Prop :=
  ∃ differing : List (List String), differing.Nodup ∧
    (∀ names, names ∈ differing ↔ leafAt S old names ≠ leafAt S (some new) names) ∧
    ∃ paths, (changedPaths old new).value S = .ok paths ∧
      paths.Perm (differing.map (·.foldl joinPath ""))

/-- A leaf of one tree has no leaf of the other below it. -/
def Unreplaced (S : Store) (old : Option ObjectId) (new : ObjectId) : Prop :=
  ∀ above below, below ≠ [] →
    (leafAt S old above ≠ none → leafAt S (some new) (above ++ below) = none) ∧
      (leafAt S (some new) above ≠ none → leafAt S old (above ++ below) = none)

/-- Below a leaf there is none. -/
theorem leafAt_append : ∀ {above below : List String} {tree : Option ObjectId},
    leafAt S tree above ≠ none → below ≠ [] → leafAt S tree (above ++ below) = none
  | [], _, _, h, _ => absurd rfl h
  | name :: above, below, tree, h, hbelow => by
      rw [List.cons_append]
      by_cases hpass : Passable (entryOf S tree name)
      · rw [leafAt_of_passable hpass] at h ⊢
        exact leafAt_append h hbelow
      · exact leafAt_cons_eq_none hpass (by simp [hbelow])

/-- Every differing leaf is reported exactly where no leaf replaced a directory of
leaves. -/
theorem unreplaced_iff : Unreplaced S old new ↔ ∀ names,
    leafAt S old names ≠ leafAt S (some new) names → Reported S old (some new) names := by
  constructor
  · intro h names hne
    refine reported_iff.mpr ⟨hne, ?_⟩
    rintro above below rfl hbelow
    obtain ⟨hleft, hright⟩ := h above below hbelow
    constructor
    · by_contra hleaf
      exact hne ((leafAt_append hleaf hbelow).trans (hleft hleaf).symm)
    · by_contra hleaf
      exact hne ((hright hleaf).trans (leafAt_append hleaf hbelow).symm)
  · intro h above below hbelow
    constructor
    · intro hleaf
      by_contra hne
      have hdiffers : leafAt S old (above ++ below) ≠ leafAt S (some new) (above ++ below) := by
        rw [leafAt_append hleaf hbelow]
        exact Ne.symm hne
      exact hleaf ((reported_iff.mp (h _ hdiffers)).2 above below rfl hbelow).1
    · intro hleaf
      by_contra hne
      have hdiffers : leafAt S old (above ++ below) ≠ leafAt S (some new) (above ++ below) := by
        rw [leafAt_append hleaf hbelow]
        exact hne
      exact hleaf ((reported_iff.mp (h _ hdiffers)).2 above below rfl hbelow).2

/-- The changed paths are exact where no leaf of one tree lies below a leaf of the
other. -/
theorem changedPaths_exact_iff (hold : ∀ id ∈ old, TreeIn S id) (hnew : TreeIn S new) :
    Exact S old new ↔ Unreplaced S old new := by
  have hnew' : ∀ id ∈ some new, TreeIn S id ∧ Shallow (Child S) S.length id := by
    intro id hid
    obtain rfl := Option.some.inj hid
    exact ⟨hnew, hnew.shallow⟩
  obtain ⟨shown, hnodup, hmem, hvalue⟩ := exists_value_diffTreesAt S.length
    (fun id hid => ⟨hold id hid, (hold id hid).shallow⟩) hnew' ""
  have hsub : ∀ names ∈ shown, leafAt S old names ≠ leafAt S (some new) names :=
    fun names h => (reported_iff.mp ((hmem names).mp h)).1
  rw [unreplaced_iff]
  constructor
  · rintro ⟨differing, hdnodup, hdmem, paths, hpaths, hperm⟩ names hne
    obtain rfl := Except.ok.inj (hvalue.symm.trans hpaths)
    have hlen : differing.length ≤ shown.length := by simpa using hperm.length_eq.ge
    have hsubperm : shown.Subperm differing :=
      hnodup.subperm fun x hx => (hdmem x).mpr (hsub x hx)
    have hmore := (hsubperm.perm_of_length_le hlen).mem_iff.mpr ((hdmem names).mpr hne)
    exact (hmem names).mp hmore
  · intro h
    refine ⟨shown, hnodup, fun names => ⟨hsub names, fun hne => (hmem names).mpr (h names hne)⟩,
      _, hvalue, List.Perm.refl _⟩

end Exact

section Replaced

/-- A file of the name. -/
def file (name : String) : TreeEntry := ⟨name, .file, some 0, some (.splat 9), none⟩

/-- A tree of the file `a`, a tree of the file `b`, and a tree with the second for `a`. -/
def replacedTable : List Object :=
  [.tree (Tree.flat [file "a"]), .tree (Tree.flat [file "b"]),
    .tree (Tree.flat [⟨"a", .dir, none, some (.splat 1), none⟩])]

theorem treeIn_a : @TreeIn (.ofTable replacedTable) replacedTable (.splat 0) :=
  @TreeIn.dir (.ofTable replacedTable) replacedTable (.splat 0) [file "a"] (by decide +kernel)
    (by decide) (by simp [file])

theorem treeIn_b : @TreeIn (.ofTable replacedTable) replacedTable (.splat 1) :=
  @TreeIn.dir (.ofTable replacedTable) replacedTable (.splat 1) [file "b"] (by decide +kernel)
    (by decide) (by simp [file])

theorem treeIn_ab : @TreeIn (.ofTable replacedTable) replacedTable (.splat 2) :=
  @TreeIn.dir (.ofTable replacedTable) replacedTable (.splat 2)
    [⟨"a", .dir, none, some (.splat 1), none⟩] (by decide +kernel) (by decide)
    (by simpa using treeIn_b)

theorem changedPaths_exact_files :
    @Exact (.ofTable replacedTable) replacedTable (some (.splat 0)) (.splat 1) ↔
      @Unreplaced (.ofTable replacedTable) replacedTable (some (.splat 0)) (.splat 1) :=
  @changedPaths_exact_iff (.ofTable replacedTable) replacedTable (some (.splat 0)) (.splat 1)
    (fun _ h => Option.some.inj h ▸ treeIn_a) treeIn_b

/-- A directory in the place of a file: the file it holds is not among the paths. -/
theorem directory_for_file_inexact : ¬ ∀ [Crypto] (S : Store) (old : Option ObjectId)
    (new : ObjectId), (∀ id ∈ old, TreeIn S id) → TreeIn S new → Exact S old new := by
  intro h
  obtain ⟨differing, -, hmem, paths, hpaths, hperm⟩ :=
    @h (.ofTable replacedTable) replacedTable (some (.splat 0)) (.splat 2)
      (fun _ h => Option.some.inj h ▸ treeIn_a) treeIn_ab
  have hfound : (@changedPaths (.ofTable replacedTable) (some (.splat 0)) (.splat 2)).value
      replacedTable = .ok ["a"] := by decide +kernel
  obtain rfl := Except.ok.inj (hfound.symm.trans hpaths)
  have hfile : ["a", "b"] ∈ differing := (hmem _).mpr (by decide +kernel)
  have hshown := hperm.mem_iff.mpr (List.mem_map_of_mem hfile)
  revert hshown
  decide

end Replaced

end Tessra.Daemon
