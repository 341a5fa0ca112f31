import Tessra.Daemon.Trees

namespace Tessra.Daemon

open Tessra.Core Tessra.Data Tessra.Oplog StoreM
open Verify (joinPath)

/-! Flattening what was built gives the map back, unless a path has an empty
first segment or a leaf is itself a directory. -/

section Paths

/-- The path starts with a slash. -/
def Rooted (path : String) : Prop := path.toList.head? = some '/'

instance (path : String) : Decidable (Rooted path) :=
  inferInstanceAs (Decidable (_ = _))

theorem toList_joinPath {above : String} (name : String) (h : above ≠ "") :
    (joinPath above name).toList = above.toList ++ '/' :: name.toList := by
  rw [joinPath, if_neg h]
  change (above ++ "/" ++ name).toList = _
  simp

theorem joinPath_ne_empty {above : String} (name : String) (h : above ≠ "") :
    joinPath above name ≠ "" := by
  intro hempty
  have hlist := toList_joinPath name h
  rw [hempty] at hlist
  simp at hlist

theorem toList_foldl_joinPath {above : String} (names : List String) (h : above ≠ "") :
    (names.foldl joinPath above).toList =
      ['/'].intercalate (above.toList :: names.map String.toList) := by
  induction names generalizing above with
  | nil => simp
  | cons name names ih =>
      rw [List.foldl_cons, ih (joinPath_ne_empty name h), toList_joinPath name h, List.map_cons]
      cases names with
      | nil => simp
      | cons name' names => simp [List.intercalate_cons_cons]

theorem not_rooted_foldl_joinPath {names : List String} (hnames : ∀ s ∈ names, '/' ∉ s.toList)
    {above : String} (h : ¬ Rooted above) : ¬ Rooted (names.foldl joinPath above) := by
  induction names generalizing above with
  | nil => exact h
  | cons name names ih =>
      refine ih (fun s hs => hnames s (List.mem_cons_of_mem name hs)) ?_
      unfold Rooted at *
      by_cases hempty : above = ""
      · rw [joinPath, if_pos hempty]
        intro hhead
        exact hnames name List.mem_cons_self (List.mem_of_head? hhead)
      · rw [toList_joinPath name hempty]
        have hne : above.toList ≠ [] := by simpa using hempty
        rwa [List.head?_append_of_ne_nil _ hne]

variable (path : String)

theorem splitPath_ne_nil : splitPath path ≠ [] := by
  simp [splitPath]

theorem notMem_splitPath : ∀ s ∈ splitPath path, '/' ∉ s.toList := by
  intro s hs
  obtain ⟨l, hl, rfl⟩ := List.mem_map.mp hs
  simpa using notMem_of_mem_splitOn hl

theorem intercalate_splitPath :
    ['/'].intercalate ((splitPath path).map String.toList) = path.toList := by
  simp [splitPath, List.intercalate_splitOn, Function.comp_def]

/-- The path of the entry that a path becomes. -/
def rejoin : String := (splitPath path).foldl joinPath ""

theorem not_rooted_rejoin : ¬ Rooted (rejoin path) :=
  not_rooted_foldl_joinPath (notMem_splitPath path) (by decide)

theorem rejoin_eq (h : ¬ Rooted path) : rejoin path = path := by
  apply String.toList_injective
  rw [← intercalate_splitPath path, rejoin]
  cases hsplit : splitPath path with
  | nil => exact absurd hsplit (splitPath_ne_nil path)
  | cons s rest =>
      have hfirst : joinPath "" s = s := if_pos rfl
      rw [List.foldl_cons, hfirst]
      by_cases hs : s = ""
      · subst hs
        cases rest with
        | nil => rfl
        | cons s rest =>
            refine absurd ?_ h
            rw [Rooted, ← intercalate_splitPath path, hsplit]
            simp [List.intercalate_cons_cons]
      · rw [toList_foldl_joinPath rest hs, List.map_cons]

end Paths

section Reading

theorem perm_sortByName (es : List TreeEntry) : (sortByName es).Perm es :=
  List.perm_insertionSort _ es

theorem readOnly_visit {walk : ObjectId → String → Flat → StoreM Flat}
    (hwalk : ∀ id above out, (walk id above out).ReadOnly) (above : String) (out : Flat)
    (e : TreeEntry) : (visit walk above out e).ReadOnly := by
  unfold visit
  split_ifs
  · cases e.ref with
    | some r => exact hwalk r _ out
    | none => exact readOnly_pure out
  · exact readOnly_pure _

variable [Crypto] {S T : Store}

theorem readOnly_entries (id : ObjectId) : (entries id).ReadOnly := by
  refine (readOnly_get Tree id).bind fun t => ?_
  cases h : t.entries with
  | some e => exact readOnly_pure e
  | none =>
      exact (ReadOnly.mapM (fun shard => readOnly_get Tree shard) _).bind fun _ => readOnly_pure _

theorem readOnly_walk (fuel : ℕ) (id : ObjectId) (above : String) (out : Flat) :
    (walk fuel id above out).ReadOnly := by
  induction fuel generalizing id above out with
  | zero => exact readOnly_throw _
  | succ fuel ih =>
      exact (readOnly_entries id).bind fun es => ReadOnly.foldlM (readOnly_visit ih above) es out

theorem lasting_entries (id : ObjectId) : (entries id).Lasting := by
  refine (lasting_get Tree id).bind fun t => ?_
  cases t.entries with
  | some es => exact lasting_pure es
  | none => exact (Lasting.mapM (lasting_get Tree) _).bind fun _ => lasting_pure _

theorem lasting_walk (fuel : ℕ) (id : ObjectId) (above : String) (out : Flat) :
    (walk fuel id above out).Lasting := by
  induction fuel generalizing id above out with
  | zero => exact lasting_throw _
  | succ fuel ih =>
      refine (lasting_entries id).bind fun es => Lasting.foldlM (fun out e => ?_) es out
      unfold visit
      split_ifs
      · cases e.ref with
        | some r => exact ih r _ out
        | none => exact lasting_pure out
      · exact lasting_pure _

theorem lasting_flatten (fuel : ℕ) (tree : ObjectId) : (flatten fuel tree).Lasting :=
  lasting_walk fuel tree "" ∅

/-- No walk finds a directory for a leaf. -/
def Leafy (flat : Flat) : Prop := ∀ p leaf, flat.get? p = some leaf → leaf.kind ≠ .dir

theorem ensures_visit {walk : ObjectId → String → Flat → StoreM Flat} {above : String}
    {out : Flat} {e : TreeEntry} (hout : Leafy out)
    (hwalk : ∀ id above, (walk id above out).Ensures S fun out _ => Leafy out) :
    (visit walk above out e).Ensures S fun out _ => Leafy out := by
  unfold visit
  split_ifs with hdir
  · cases e.ref with
    | some r => exact hwalk r _
    | none => exact ensures_pure hout
  · refine ensures_pure fun p leaf hp => ?_
    rw [OrdMap.get?_insert] at hp
    split_ifs at hp
    · cases hp
      exact hdir
    · exact hout p leaf hp

theorem ensures_walk (fuel : ℕ) (id : ObjectId) (above : String) {out : Flat} (hout : Leafy out) :
    (walk fuel id above out).Ensures S fun out _ => Leafy out := by
  induction fuel generalizing S id above out with
  | zero => exact ensures_throw
  | succ fuel ih =>
      refine Ensures.bind ensures_trivial fun es S' _ _ => ?_
      exact Ensures.foldlM (fun out _ => Leafy out) es hout fun e out S'' _ _ hout =>
        ensures_visit hout fun id above => ih id above hout

end Reading

section Building

variable [Crypto] {S T : Store}

/-- Where an entry under a directory comes to lie in the flat map. -/
def located (above : String) (e : List String × TreeEntry) : String × Leaf :=
  (joinPath (e.1.foldl joinPath above) e.2.name, leafOf e.2)

/-- A walk of the entry finds what is listed, in some order. -/
def Gives (S : Store) (e : TreeEntry) (found : List (List String × TreeEntry)) : Prop :=
  ∀ T, S ⊆ T → CollisionFree T → ∃ n, ∀ fuel ≥ n, ∀ above out,
    ∃ l : List (String × Leaf), l.Perm (found.map (located above)) ∧
      (visit (walk fuel) above out e).value T = .ok (out.insertAll l)

theorem Gives.mono {e : TreeEntry} {found : List (List String × TreeEntry)} (h : Gives S e found)
    (hsub : S ⊆ T) : Gives T e found := fun T' hT' => h T' (List.Subset.trans hsub hT')

theorem gives_file {e : TreeEntry} (he : e.kind ≠ .dir) : Gives S e [([], e)] := by
  refine fun T _ _ => ⟨0, fun fuel _ above out => ⟨_, List.Perm.refl _, ?_⟩⟩
  unfold visit
  rw [if_neg he]
  rfl

theorem gives_fold {es : List TreeEntry} {found : List (List (List String × TreeEntry))}
    (h : List.Forall₂ (Gives S) es found) (hsub : S ⊆ T) (hfree : CollisionFree T) :
    ∃ n, ∀ fuel ≥ n, ∀ above out, ∃ l : List (String × Leaf),
      l.Perm (found.flatten.map (located above)) ∧
        (es.foldlM (visit (walk fuel) above) out).value T = .ok (out.insertAll l) := by
  induction h with
  | nil => exact ⟨0, fun fuel _ above out => ⟨[], List.Perm.refl _, rfl⟩⟩
  | @cons e l es found hfirst _ ih =>
      obtain ⟨n, hn⟩ := hfirst T hsub hfree
      obtain ⟨n', hn'⟩ := ih
      refine ⟨max n n', fun fuel hfuel above out => ?_⟩
      obtain ⟨la, hla, hvalue⟩ := hn fuel (le_trans (le_max_left n n') hfuel) above out
      obtain ⟨lb, hlb, hrest⟩ :=
        hn' fuel (le_trans (le_max_right n n') hfuel) above (out.insertAll la)
      refine ⟨la ++ lb, ?_, ?_⟩
      · rw [List.flatten_cons, List.map_append]
        exact hla.append hlb
      · rw [List.foldlM_cons, (bind_of_ok hvalue).1,
          readOnly_visit (readOnly_walk fuel) above out e T, hrest, OrdMap.insertAll_append]

/-- The entries of the directory are those of the list, in some order. -/
def Readable (S : Store) (id : ObjectId) (es : List TreeEntry) : Prop :=
  ∀ T, S ⊆ T → CollisionFree T → ∃ es' : List TreeEntry,
    es'.Perm es ∧ (entries id).value T = .ok es'

theorem gives_walk {id : ObjectId} {es : List TreeEntry}
    {found : List (List (List String × TreeEntry))} (hentries : Readable S id es)
    (hgives : List.Forall₂ (Gives S) es found) (hsub : S ⊆ T) (hfree : CollisionFree T) :
    ∃ n, ∀ fuel ≥ n, ∀ above out, ∃ l : List (String × Leaf),
      l.Perm (found.flatten.map (located above)) ∧
        (walk fuel id above out).value T = .ok (out.insertAll l) := by
  obtain ⟨es', hes', hvalue⟩ := hentries T hsub hfree
  obtain ⟨found', hfound', hperm⟩ := List.perm_comp_forall₂ hes' hgives
  obtain ⟨n, hn⟩ := gives_fold hfound' hsub hfree
  refine ⟨n + 1, fun fuel hfuel above out => ?_⟩
  obtain ⟨fuel, rfl⟩ : ∃ k, fuel = k + 1 := ⟨fuel - 1, by omega⟩
  obtain ⟨l, hl, hrun⟩ := hn fuel (by omega) above out
  refine ⟨l, hl.trans (hperm.flatten.map _), ?_⟩
  rw [walk, (bind_of_ok hvalue).1, readOnly_entries id T, hrun]

theorem gives_dir {id : ObjectId} (name : String) {es : List TreeEntry}
    {found : List (List (List String × TreeEntry))} (hentries : Readable S id es)
    (hgives : List.Forall₂ (Gives S) es found) :
    Gives S ⟨name, .dir, none, some id, none⟩
      (found.flatten.map fun e => (name :: e.1, e.2)) := by
  intro T hsub hfree
  obtain ⟨n, hn⟩ := gives_walk hentries hgives hsub hfree
  refine ⟨n, fun fuel hfuel above out => ?_⟩
  obtain ⟨l, hl, hrun⟩ := hn fuel hfuel (joinPath above name) out
  rw [List.map_map]
  exact ⟨l, hl, hrun⟩

theorem returns_mapM {α β : Type} {f : α → StoreM β} {R : Store → α → β → Prop}
    (hmono : ∀ {S T a b}, S ⊆ T → R S a b → R T a b)
    (hf : ∀ a S, (f a).Returns S fun b S' => R S' a b) (l : List α) :
    (l.mapM f).Returns S fun bs S' => List.Forall₂ (R S') l bs := by
  induction l generalizing S with
  | nil => exact returns_pure .nil
  | cons a l ih =>
      rw [List.mapM_cons]
      refine (hf a S).bind fun b S' _ hb => ?_
      refine ih.bind fun bs S'' hsub hbs => ?_
      exact returns_pure (.cons (hmono hsub hb) hbs)

/-- What became of a bucket. -/
def Shard (S : Store) (bucket : List TreeEntry) : Option ObjectId → Prop
  | none => bucket = []
  | some id => id = Crypto.objectId (.tree (Tree.flat bucket)) ∧ Object.tree (Tree.flat bucket) ∈ S

theorem Shard.mono {bucket : List TreeEntry} {shard : Option ObjectId} (hsub : S ⊆ T)
    (h : Shard S bucket shard) : Shard T bucket shard := by
  cases shard with
  | none => exact h
  | some id => exact ⟨h.1, hsub h.2⟩

theorem value_getFlat {es : List TreeEntry} (hfree : CollisionFree T)
    (h : Object.tree (Tree.flat es) ∈ T) :
    (get Tree (Crypto.objectId (.tree (Tree.flat es)))).value T = .ok (Tree.flat es) :=
  value_get (t := Tree.flat es) hfree h

theorem readable_flat {es : List TreeEntry} (h : Object.tree (Tree.flat es) ∈ S) :
    Readable S (Crypto.objectId (.tree (Tree.flat es))) es := by
  refine fun T hsub hfree => ⟨sortByName es, perm_sortByName es, ?_⟩
  rw [entries, (bind_of_ok (value_getFlat hfree (hsub h))).1]
  rfl

theorem exists_shards {buckets : List (List TreeEntry)} {shards : List (Option ObjectId)}
    (h : List.Forall₂ (Shard T) buckets shards) (hfree : CollisionFree T) :
    ∃ trees : List Tree, (shards.reduceOption.mapM (get Tree)).value T = .ok trees ∧
      (trees.flatMap fun t => t.entries.getD []).Perm buckets.flatten := by
  simp only [value_mapM_eq_ok fun id => readOnly_get Tree id]
  induction h with
  | nil => exact ⟨[], .nil, List.Perm.refl _⟩
  | @cons bucket shard buckets shards hfirst _ ih =>
      obtain ⟨trees, hread, hperm⟩ := ih
      cases shard with
      | none =>
          obtain rfl : bucket = [] := hfirst
          exact ⟨trees, hread, hperm⟩
      | some id =>
          obtain ⟨rfl, hmem⟩ := hfirst
          refine ⟨Tree.flat bucket :: trees, ?_, ?_⟩
          · rw [List.reduceOption_cons_of_some]
            exact .cons (value_getFlat hfree hmem) hread
          · exact (perm_sortByName bucket).append hperm

theorem readable_sharded {es : List TreeEntry} {buckets : List (List TreeEntry)}
    {shards : List (Option ObjectId)} (hbuckets : buckets.flatten.Perm es)
    (hshards : List.Forall₂ (Shard S) buckets shards)
    (h : Object.tree ⟨none, some shards⟩ ∈ S) :
    Readable S (Crypto.objectId (.tree ⟨none, some shards⟩)) es := by
  intro T hsub hfree
  have hget : (get Tree (Crypto.objectId (.tree ⟨none, some shards⟩))).value T =
      .ok ⟨none, some shards⟩ := value_get (t := (⟨none, some shards⟩ : Tree)) hfree (hsub h)
  obtain ⟨trees, htrees, hperm⟩ :=
    exists_shards (hshards.imp fun _ _ hshard => hshard.mono hsub) hfree
  refine ⟨_, (perm_sortByName _).trans (hperm.trans hbuckets), ?_⟩
  rw [entries, (bind_of_ok hget).1, readOnly_get Tree _ T]
  exact (bind_of_ok htrees).1

variable (shardSlot : String → Byte)

theorem returns_putEntries (es : List TreeEntry) :
    (putEntries shardSlot es).Returns S fun id S' => Readable S' id es := by
  unfold putEntries
  split_ifs
  · have hbuckets := perm_flatten_buckets (fun e : TreeEntry => shardSlot e.name) (l := es)
      (List.nodup_finRange 256) fun e _ => List.mem_finRange _
    refine (returns_mapM (R := Shard) Shard.mono (fun bucket S => ?_) _).bind
      fun shards S' _ hshards => ?_
    · split_ifs with hempty
      · exact returns_pure (List.isEmpty_iff.mp hempty)
      · rw [map_eq_bind_pure_comp]
        have hput : (put (Tree.flat bucket)).Returns S fun id S' =>
            Shard S' bucket (some id) := returns_put fun S' _ hmem => ⟨rfl, hmem⟩
        exact hput.bind fun id S' _ hid => returns_pure hid
    · exact returns_put fun S'' hsub hmem =>
        readable_sharded hbuckets (hshards.imp fun _ _ h => h.mono hsub) hmem
  · exact returns_put fun S' _ hmem => readable_flat hmem

/-- The tree of a folder: its entries, and what a walk finds of each. -/
def Stored (S : Store) (id : ObjectId) (found : List (List String × TreeEntry)) : Prop :=
  ∃ es : List TreeEntry, ∃ each : List (List (List String × TreeEntry)), Readable S id es ∧
    List.Forall₂ (Gives S) es each ∧ each.flatten.Perm found

/-- Nothing under a folder is itself a directory. -/
def FilesOnly (found : List (List String × TreeEntry)) : Prop := ∀ e ∈ found, e.2.kind ≠ .dir

theorem forall₂_files {files : List TreeEntry} (h : ∀ e ∈ files, e.kind ≠ .dir) :
    List.Forall₂ (Gives S) files (files.map fun e => [([], e)]) := by
  rw [List.forall₂_map_right_iff, List.forall₂_same]
  exact fun e he => gives_file (h e he)

mutual
theorem returns_emit : ∀ {S : Store} (folder : Folder String TreeEntry),
    FilesOnly folder.listed → (emit shardSlot folder).Returns S fun id S' =>
      Stored S' id folder.listed
  | S, .mk files dirs, hfiles => by
      have hhere : ∀ e ∈ files, e.kind ≠ .dir := fun e he =>
        hfiles ([], e) (List.mem_append_left _ (List.mem_map_of_mem he))
      have hbelow : FilesOnly dirs.listed := fun e he =>
        hfiles e (List.mem_append_right _ he)
      unfold emit
      refine (returns_emitAll dirs hbelow).bind fun es S' _ hes => ?_
      obtain ⟨each, hgives, hperm⟩ := hes
      refine (returns_putEntries shardSlot (files ++ es)).mono fun id S'' hsub hread => ?_
      refine ⟨files ++ es, (files.map fun e => [([], e)]) ++ each, hread,
        List.rel_append (forall₂_files hhere) (hgives.imp fun _ _ h => h.mono hsub), ?_⟩
      rw [List.flatten_append, Folder.listed, ← List.flatMap_def, ← List.map_eq_flatMap]
      exact hperm.append_left _

theorem returns_emitAll : ∀ {S : Store} (dirs : Folders String TreeEntry),
    FilesOnly dirs.listed → (emitAll shardSlot dirs).Returns S fun es S' =>
      ∃ each, List.Forall₂ (Gives S') es each ∧ each.flatten.Perm dirs.listed
  | S, .nil, _ => returns_pure ⟨[], .nil, List.Perm.refl _⟩
  | S, .cons name sub rest, hfiles => by
      have hhere : FilesOnly sub.listed := fun e he =>
        hfiles (name :: e.1, e.2) (List.mem_append_left _ (List.mem_map.mpr ⟨e, he, rfl⟩))
      have hrest : FilesOnly rest.listed := fun e he =>
        hfiles e (List.mem_append_right _ he)
      unfold emitAll
      refine (returns_emit sub hhere).bind fun id S' _ hid => ?_
      obtain ⟨es, each, hread, hgives, hperm⟩ := hid
      refine (returns_emitAll rest hrest).bind fun dirs S'' hsub hdirs => ?_
      obtain ⟨later, hlater, hperm'⟩ := hdirs
      have hdir := (gives_dir name hread hgives).mono hsub
      exact returns_pure ⟨_, .cons hdir hlater, (hperm.map _).append hperm'⟩
end

end Building

/-! What is built does not depend on what the store holds already. -/

section Blind

/-- A computation that does not read the store. -/
def Blind {α : Type} (x : StoreM α) : Prop := ∀ S S' : Store, x S = x S'

variable {α β : Type}

theorem blind_pure (a : α) : Blind (pure a : StoreM α) := fun _ _ => rfl

theorem Blind.bind {x : StoreM α} {f : α → StoreM β} (hx : Blind x) (hf : ∀ a, Blind (f a)) :
    Blind (x >>= f) := by
  intro S S'
  rw [run_bind, run_bind, StoreM.bind, StoreM.bind, hx S S']
  rcases x S' with ⟨_ | a, puts⟩
  · rfl
  · dsimp only
    rw [hf a (S ++ puts) (S' ++ puts)]

theorem Blind.mapM {f : α → StoreM β} (hf : ∀ a, Blind (f a)) (l : List α) :
    Blind (l.mapM f) := by
  induction l with
  | nil => exact blind_pure []
  | cons a l ih =>
      rw [List.mapM_cons]
      exact (hf a).bind fun _ => ih.bind fun _ => blind_pure _

variable [Crypto] (shardSlot : String → Byte)

theorem blind_put {T : Type} [TessraObject T] (t : T) : Blind (put t) := fun _ _ => rfl

theorem blind_putEntries (es : List TreeEntry) : Blind (putEntries shardSlot es) := by
  unfold putEntries
  split_ifs
  · refine (Blind.mapM (fun bucket => ?_) _).bind fun shards => blind_put _
    split_ifs
    · exact blind_pure none
    · rw [map_eq_bind_pure_comp]
      exact (blind_put _).bind fun id => blind_pure _
  · exact blind_put _

mutual
theorem blind_emit : ∀ folder : Folder String TreeEntry, Blind (emit shardSlot folder)
  | .mk files dirs => by
      unfold emit
      exact (blind_emitAll dirs).bind fun es => blind_putEntries shardSlot _

theorem blind_emitAll : ∀ dirs : Folders String TreeEntry, Blind (emitAll shardSlot dirs)
  | .nil => blind_pure []
  | .cons name sub rest => by
      unfold emitAll
      exact (blind_emit sub).bind fun id => (blind_emitAll rest).bind fun es => blind_pure _
end

end Blind

section RoundTrip

variable [Crypto] (shardSlot : String → Byte) {S : Store} {flat : Flat}

/-- A path of the map, in the directory that its entry is put in. -/
def placed (e : (_ : String) × Leaf) : List String × TreeEntry :=
  ((splitPath e.1).dropLast, e.2.entry ((splitPath e.1).getLastD ""))

omit [Crypto] in
theorem perm_listed_dirOf (flat : Flat) :
    (dirOf flat).listed.Perm (flat.entries.map placed) := by
  have hadd := Folder.perm_listed_foldl (flat.entries.map placed) Folder.empty
  rw [Folder.listed_empty, List.nil_append, List.foldl_map] at hadd
  exact hadd

omit [Crypto] in
theorem located_placed (e : (_ : String) × Leaf) : located "" (placed e) = (rejoin e.1, e.2) := by
  have hsplit : (splitPath e.1).dropLast ++ [(splitPath e.1).getLastD ""] = splitPath e.1 := by
    rw [List.getLastD_eq_getLast?, List.getLast?_eq_getLast_of_ne_nil (splitPath_ne_nil e.1)]
    exact List.dropLast_append_getLast (splitPath_ne_nil e.1)
  refine Prod.ext ?_ rfl
  rw [rejoin, ← hsplit, List.foldl_append]
  rfl

/-- The map is built into one tree, whatever the store holds, and flattening the
tree gives the map. -/
def RoundTrips (S : Store) (flat : Flat) : Prop :=
  ∃ root, (∀ S', (build shardSlot flat).value S' = .ok root) ∧
    ∃ n, ∀ fuel ≥ n, (flatten fuel root).value ((build shardSlot flat).after S) = .ok flat

/-- The paths as the walk joins them. -/
theorem exists_flatten (hfree : CollisionFree ((build shardSlot flat).after S))
    (hleafy : Leafy flat) : ∃ root, (build shardSlot flat).value S = .ok root ∧
      ∃ n, ∀ fuel ≥ n, ∃ l : List (String × Leaf),
        l.Perm (flat.entries.map fun e => (rejoin e.1, e.2)) ∧
          (flatten fuel root).value ((build shardSlot flat).after S) =
            .ok ((∅ : Flat).insertAll l) := by
  have hfiles : FilesOnly (dirOf flat).listed := by
    intro e he
    obtain ⟨⟨p, leaf⟩, hmem, rfl⟩ := List.mem_map.mp ((perm_listed_dirOf flat).mem_iff.mp he)
    exact hleafy p leaf (OrdMap.mem_entries.mp hmem)
  obtain ⟨root, hroot, es, each, hread, hgives, hperm⟩ :=
    returns_emit shardSlot (dirOf flat) hfiles hfree
  obtain ⟨n, hn⟩ := gives_walk hread hgives (List.Subset.refl _) hfree
  refine ⟨root, hroot, n, fun fuel hfuel => ?_⟩
  obtain ⟨l, hl, hrun⟩ := hn fuel hfuel "" ∅
  refine ⟨l, hl.trans ?_, hrun⟩
  have hlisted := (hperm.trans (perm_listed_dirOf flat)).map (located "")
  rw [List.map_map] at hlisted
  simpa only [Function.comp_def, located_placed] using hlisted

theorem flatten_leafy {fuel : ℕ} {root : ObjectId} {out : Flat} (hfree : CollisionFree S)
    (h : (flatten fuel root).value S = .ok out) : Leafy out := by
  have hempty : Leafy ∅ := fun p leaf hp => by cases hp
  have hwalk : (walk fuel root "" ∅).Ensures S fun out _ => Leafy out :=
    ensures_walk fuel root "" hempty
  unfold Ensures at hwalk
  rw [readOnly_walk fuel root "" ∅ S] at hwalk
  exact hwalk hfree out h

omit [Crypto] in
theorem nodup_entries (flat : Flat) : (flat.entries.map fun e => (e.1, e.2)).map Prod.fst |>.Nodup := by
  rw [List.map_map]
  exact flat.nodupKeys

omit [Crypto] in
/-- A map is that of its entries in any order. -/
theorem insertAll_entries {l : List (String × Leaf)}
    (hl : l.Perm (flat.entries.map fun e => (e.1, e.2))) : (∅ : Flat).insertAll l = flat := by
  have hnodup : (l.map Prod.fst).Nodup := (hl.map Prod.fst).nodup_iff.mpr (nodup_entries flat)
  refine OrdMap.ext fun p => Option.ext fun leaf => ?_
  rw [OrdMap.get?_insertAll_empty hnodup, hl.mem_iff, ← OrdMap.mem_entries, List.mem_map]
  constructor
  · rintro ⟨e, he, heq⟩
    cases heq
    exact he
  · exact fun h => ⟨_, h, rfl⟩

theorem roundTrips_iff (hfree : CollisionFree ((build shardSlot flat).after S)) :
    RoundTrips shardSlot S flat ↔
      ∀ p leaf, flat.get? p = some leaf → ¬ Rooted p ∧ leaf.kind ≠ .dir := by
  constructor
  · rintro ⟨root, hbuilt, n, hflat⟩ p leaf hp
    have hleafy := flatten_leafy hfree (hflat n le_rfl)
    refine ⟨fun hrooted => ?_, hleafy p leaf hp⟩
    obtain ⟨root', hroot', n', hlist⟩ := exists_flatten shardSlot hfree hleafy
    obtain rfl : root' = root := by
      have hsame := hroot'.symm.trans (hbuilt S)
      cases hsame
      rfl
    obtain ⟨l, hl, hrun⟩ := hlist (max n n') (le_max_right n n')
    rw [hflat _ (le_max_left n n'), Except.ok.injEq] at hrun
    -- No path that the walk joins starts with a slash.
    have hmissing : p ∉ l.map Prod.fst := by
      intro hmem
      obtain ⟨e, he, rfl⟩ := List.mem_map.mp hmem
      obtain ⟨e', -, rfl⟩ := List.mem_map.mp (hl.mem_iff.mp he)
      exact not_rooted_rejoin e'.1 hrooted
    rw [hrun, OrdMap.get?_insertAll_of_notMem hmissing] at hp
    cases hp
  · intro h
    obtain ⟨root, hroot, n, hlist⟩ :=
      exists_flatten shardSlot hfree fun p leaf hp => (h p leaf hp).2
    refine ⟨root, fun S' => ?_, n, fun fuel hfuel => ?_⟩
    · rw [← hroot]
      exact congrArg Outcome.value (blind_emit shardSlot (dirOf flat) S' S)
    · obtain ⟨l, hl, hrun⟩ := hlist fuel hfuel
      have hsame : (flat.entries.map fun e => (rejoin e.1, e.2)) =
          flat.entries.map fun e => (e.1, e.2) :=
        List.map_congr_left fun e he => by
          rw [rejoin_eq e.1 (h e.1 e.2 (OrdMap.mem_entries.mp he)).1]
      rw [hsame] at hl
      rw [hrun, insertAll_entries hl]

end RoundTrip

end Tessra.Daemon
