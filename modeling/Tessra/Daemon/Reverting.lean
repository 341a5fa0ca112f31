import Tessra.Daemon.CarriedRenames
import Tessra.Daemon.TreeMerge
import Tessra.Semantic.Imports

namespace Tessra.Daemon

open Tessra.Core Tessra.Data StoreM
open Tessra.Redb (utf8)
open Tessra.Semantic (isIdent)
open Tessra.Semantic.Merge (Edit FileNodes Side allRenames applyEdits mergeFile)

/-! The merge of three trees, and reverting what landed last. -/

structure TreeMerge where
  flat : Flat
  conflicts : List String
  resolved : List String
deriving DecidableEq

section Merge

variable [Crypto]

def blobBytes (id : ObjectId) : StoreM (Option Bytes) := do
  match ← getBytes id with
  | some (.blob content) => return some content
  | _ => return none

def putBlob (content : Bytes) : StoreM ObjectId := fun _ =>
  ⟨.ok (Crypto.objectId (.blob content)), [.blob content]⟩

/-- The trees of a merge, and what the merge knows of their units. -/
structure Merging where
  base : Flat
  side : Side → Flat
  baseIdx : Option NodeIndex
  idx : Side → NodeIndex
  /-- The renames that a side's revisions record. -/
  ops : Side → List Rename
  /-- The edits that renames make in a file of a language. -/
  renameEdits : String → Bytes → List Rename → List Edit

namespace Merging

variable (m : Merging)

/-- Recorded renames, and those that the index shows. -/
def renames (side : Side) : List Rename :=
  m.baseIdx.elim (m.ops side) fun base =>
    allRenames (m.ops side) (renamesBetween base (m.idx side))

def hasGrammar (path : String) : Bool := (Tessra.Semantic.Imports.fromPath path.toList).isSome

def refAt (flat : Flat) (path : String) : Option ObjectId := (flat.get? path).bind Leaf.ref

/-- The side that alone changed a file to what the merge has. -/
def changedBy (path : String) (blob : ObjectId) : Option Side :=
  let base := refAt m.base path
  let a := refAt (m.side .a) path
  let b := refAt (m.side .b) path
  if b = some blob ∧ a = base ∧ b ≠ base then some .b
  else if a = some blob ∧ b = base ∧ a ≠ base then some .a
  else none

/-- The file of one side with the other side's renames carried into it. -/
def carryInto (e : (_ : String) × Leaf) : StoreM (Option (String × Bytes × List String)) := do
  let ⟨path, leaf⟩ := e
  if leaf.kind ≠ .file ∨ hasGrammar path = false then return none
  let some blob := leaf.ref | return none
  let some side := m.changedBy path blob | return none
  let applicable := (m.renames side.other).filter (·.appliesTo path)
  if applicable = [] then return none
  let some text ← blobBytes blob | return none
  if !applicable.any fun r => containsIdent text (utf8 r.from) then return none
  let (cur, applied) := applyEdits text 0 text.length (m.renameEdits path text applicable)
  if applied = [] then return none
  return some (path, cur, applied.filterMap fun i => applicable[i]?.map fun r =>
    s!"{path}: {r.from} renamed to {r.to}")

def nodesFor (aliases : OrdMap EntityId EntityId) (idx : NodeIndex) (path : String) :
    List Node :=
  canonicalNodes aliases (idx.nodes.filter (·.path = path))

/-- A path that both sides changed, merged unit by unit if both have a file there. -/
def mergePath (s : TreeMerge) (path : String) : StoreM TreeMerge := do
  let conflict := fun (why : String) => { s with conflicts := s.conflicts ++ [s!"{path}: {why}"] }
  let (some la, some lb) := ((m.side .a).get? path, (m.side .b).get? path)
    | return conflict "deleted on one side, changed on the other"
  let (some ra, some rb) := (la.ref, lb.ref) | return conflict "both sides changed"
  if la.kind ≠ .file ∨ lb.kind ≠ .file then return conflict "both sides changed"
  let ta := (← blobBytes ra).getD []
  let tb := (← blobBytes rb).getD []
  let aliases := aliasesOf (m.baseIdx.toList ++ [m.idx .a, m.idx .b])
  let baseText ← match ((m.base.get? path).filter (·.kind = .file)).bind Leaf.ref with
    | some ref => blobBytes ref
    | none => pure none
  let baseNodes := (m.baseIdx.map (nodesFor aliases · path)).getD []
  let ops := fun side => (m.renames side).filter (·.appliesTo path)
  let file : Side → FileNodes
    | .a => ⟨ta, nodesFor aliases (m.idx .a) path⟩
    | .b => ⟨tb, nodesFor aliases (m.idx .b) path⟩
  let merged := mergeFile (m.renameEdits path) (baseText.map (⟨·, baseNodes⟩)) file ops
  let s := { s with resolved := s.resolved ++ merged.resolved.map fun r => s!"{path}: {r}" }
  if merged.conflicts = [] then
    let id ← putBlob merged.text
    return { s with flat := s.flat.insert path (.file id ((la.mode.getD 0).val % 2 = 1)) }
  else
    let units := ", ".intercalate merged.conflicts
    return { s with conflicts := s.conflicts ++ [s!"{path}: {units}"] }

/-- Put the files that renames were carried into. -/
def putCarried (flat : Flat) (e : String × Bytes × List String) : StoreM Flat := do
  let id ← putBlob e.2.1
  return flat.insert e.1 (.file id ((((flat.get? e.1).bind Leaf.mode).getD 0).val % 2 = 1))

def mergeTrees : StoreM TreeMerge := do
  let (merged, paths) := merge3 m.base (m.side .a) (m.side .b)
  let carried := (← merged.entries.mapM m.carryInto).reduceOption
  let flat ← carried.foldlM putCarried merged
  paths.foldlM m.mergePath ⟨flat, [], carried.flatMap fun e => e.2.2⟩

end Merging

end Merge

section Neutral

variable [Crypto] {base b : Flat} {idx : NodeIndex}

theorem merge3_base_left : merge3 base base b = (b, []) := by
  refine Prod.ext ?_ (conflicts_eq_nil.mpr fun p h => h.1 rfl)
  refine OrdMap.ext fun p => ?_
  rw [get?_merge3, pick, if_pos rfl]

theorem merge3_base_right : merge3 base b base = (b, []) := by
  refine Prod.ext ?_ (conflicts_eq_nil.mpr fun p h => h.2.1 rfl)
  refine OrdMap.ext fun p => ?_
  rw [get?_merge3, pick]
  split_ifs with h h'
  · exact h.symm
  · rfl
  · exact absurd (Or.inl rfl) h'

/-- No two units of one file have one id and different identifiers. -/
def Quiet (idx : NodeIndex) : Prop :=
  ∀ path, ∀ n ∈ canonicalNodes (aliasesOf [idx, idx]) (idx.nodes.filter (·.path = path)),
    ∀ n' ∈ canonicalNodes (aliasesOf [idx, idx]) (idx.nodes.filter (·.path = path)),
      n.nid = n'.nid → isIdent n.name → isIdent n'.name → n.name = n'.name

omit [Crypto] in
theorem inferredRenames_self {path : String} {nodes : List Node}
    (h : ∀ n ∈ nodes, ∀ n' ∈ nodes, n.nid = n'.nid → isIdent n.name → isIdent n'.name →
      n.name = n'.name) : inferredRenames path nodes nodes = [] := by
  refine List.filterMap_eq_nil_iff.mpr fun n hn => Option.bind_eq_none_iff.mpr fun b hb => ?_
  have hmem : b ∈ nodes := List.mem_reverse.mp (List.mem_of_find?_eq_some hb)
  have hnid : b.nid = n.nid := by simpa using List.find?_some hb
  refine if_neg ?_
  intro hname
  exact hname.1 (h b hmem n hn hnid hname.2.1 hname.2.2)

omit [Crypto] in
theorem renamesBetween_self (h : Quiet idx) : renamesBetween idx idx = [] := by
  refine List.flatMap_eq_nil_iff.mpr fun path _ => ?_
  rw [inferredRenames_self (h path)]
  rfl

namespace Merging

variable {m : Merging}

/-- Nothing is carried where the side that did not change a file renamed nothing. -/
theorem carryInto_eq (h : ∀ path blob side, m.changedBy path blob = some side →
    m.renames side.other = []) (e : (_ : String) × Leaf) : m.carryInto e = pure none := by
  obtain ⟨path, leaf⟩ := e
  unfold carryInto
  dsimp only
  split_ifs with hkind
  · rfl
  · cases hblob : leaf.ref with
    | none => rfl
    | some blob =>
        cases hside : m.changedBy path blob with
        | none => simp [hside]
        | some side => simp [hside, h path blob side hside]

theorem mergeTrees_eq (h : ∀ path blob side, m.changedBy path blob = some side →
    m.renames side.other = []) (hmerge : merge3 m.base (m.side .a) (m.side .b) = (b, [])) :
    m.mergeTrees = pure ⟨b, [], []⟩ := by
  have hcarry : m.carryInto = fun _ => pure none := funext (carryInto_eq h)
  simp [mergeTrees, hmerge, hcarry]

/-- One side is the base, with the base's own index, and no rename is recorded. -/
structure Unchanged (m : Merging) (side : Side) : Prop where
  flat : m.side side = m.base
  index : m.baseIdx = some (m.idx side)
  quiet : Quiet (m.idx side)
  ops : m.ops side = []

omit [Crypto] in
theorem Unchanged.renames {side : Side} (h : m.Unchanged side) : m.renames side = [] := by
  rw [Merging.renames, h.index, h.ops, Option.elim_some, renamesBetween_self h.quiet]
  rfl

/-- The merge with an unchanged side is the other side, and nothing is read or put. -/
theorem mergeTrees_unchanged {side : Side} (h : m.Unchanged side) :
    m.mergeTrees = pure ⟨m.side side.other, [], []⟩ := by
  refine mergeTrees_eq (fun path blob side' hside => ?_) ?_
  · have hother : side'.other = side := by
      have hflat := h.flat
      unfold changedBy at hside
      cases side <;> cases side' <;> grind [Side.other]
    rw [hother]
    exact h.renames
  · cases side with
    | a => rw [h.flat]; exact merge3_base_left
    | b => rw [h.flat]; exact merge3_base_right

end Merging

end Neutral

section Revert

variable [Crypto]

/-- `tessra_semantic::GRAMMARS` -/
def grammars : String :=
  "tessra-semantic/2 tree-sitter-0.27 rust-0.24 python-0.25 javascript-0.25 typescript-0.23"

def rootSnapshot (rev : Revision) : StoreM (ObjectId × Snapshot) := do
  let some id := rev.snapshots.get? "" | throw (.verb "ROOT" "revision has no root snapshot")
  return (id, ← get Snapshot id)

/-- What a revert takes from outside the trees. -/
structure Reverter where
  fuel : ℕ
  shardSlot : String → Byte
  renameEdits : String → Bytes → List Rename → List Edit
  /-- The index of a snapshot, which is cached for it. -/
  indexFor : ObjectId → ObjectId × NodeIndex
  /-- The units of a map, matched against those of another. -/
  buildNodes : Flat → Flat → NodeIndex → List Node
  id : EntityId
  body : Revision → String
  author : EntityId
  time : ℤ

namespace Reverter

variable (env : Reverter)

/-- The merge that leaves a landed revision out of the head. -/
def merging (base a b : Flat) (baseIdx aIdx bIdx : NodeIndex) : Merging where
  base
  side
    | .a => a
    | .b => b
  baseIdx := some baseIdx
  idx
    | .a => aIdx
    | .b => bIdx
  ops _ := []
  renameEdits := env.renameEdits

/-- Put the revision that takes the landed one back, over a head with the index and the
rules. -/
def putRevert (r : Revision) (headId aIdxId rules : ObjectId) (flat : Flat) (nodes : List Node) :
    StoreM ObjectId := do
  let root ← build env.shardSlot flat
  let idx ← put (⟨root, grammars, [aIdxId], nodes, none⟩ : NodeIndex)
  let snap ← put (⟨root, rules, none, some idx⟩ : Snapshot)
  put ({ id := env.id, prev := none, snapshots := (∅ : OrdMap String ObjectId).insert "" snap,
         parents := [headId], intent := r.intent, title := "revert: " ++ r.title,
         body := some (env.body r), author := env.author, time := env.time, ops := none,
         flags := none } : Revision)

def revert (r : Revision) (headId : ObjectId) : StoreM ObjectId := do
  let some beforeId := r.parents.head?
    | throw (.verb "REVERT" "the first revision on trunk cannot be reverted")
  let before ← get Revision beforeId
  let head ← get Revision headId
  let (rSnapId, rSnap) ← rootSnapshot r
  let (beforeSnapId, beforeSnap) ← rootSnapshot before
  let (headSnapId, headSnap) ← rootSnapshot head
  let base ← flatten env.fuel rSnap.root
  let a ← flatten env.fuel headSnap.root
  let b ← flatten env.fuel beforeSnap.root
  let (_, baseIdx) := env.indexFor rSnapId
  let (aIdxId, aIdx) := env.indexFor headSnapId
  let (_, bIdx) := env.indexFor beforeSnapId
  let tm ← (env.merging base a b baseIdx aIdx bIdx).mergeTrees
  if tm.conflicts ≠ [] then
    throw (.verb "CONFLICT" ("later changes built on this one; reverting conflicts on: " ++
      ", ".intercalate tm.conflicts))
  env.putRevert r headId aIdxId headSnap.rules tm.flat (env.buildNodes tm.flat a aIdx)

end Reverter

end Revert

section Lasting

variable [Crypto]

theorem lasting_rootSnapshot (rev : Revision) : (rootSnapshot rev).Lasting := by
  unfold rootSnapshot
  cases rev.snapshots.get? "" with
  | none => exact lasting_throw _
  | some id => exact (lasting_get Snapshot id).bind fun _ => lasting_pure _

end Lasting

section Restored

variable [Crypto] {env : Reverter} {S T : Store} {r before : Revision}
  {rId beforeId root root' : ObjectId} {flat flat' : Flat}

namespace Reverter

/-- The tree is the one that is built of the files. -/
def Built (env : Reverter) (root : ObjectId) (flat : Flat) : Prop :=
  ∀ S, (build env.shardSlot flat).value S = .ok root

/-- The revision is in the store, with a root tree that flattens to the files. -/
structure Standing (env : Reverter) (S : Store) (id : ObjectId) (rev : Revision)
    (root : ObjectId) (flat : Flat) : Prop where
  revision : (get Revision id).value S = .ok rev
  snapshot : ∃ found, (rootSnapshot rev).value S = .ok found ∧ found.2.root = root
  files : (flatten env.fuel root).value S = .ok flat

theorem Standing.mono (h : env.Standing S rId r root flat) (hsub : S ⊆ T)
    (hfree : CollisionFree T) : env.Standing T rId r root flat := by
  obtain ⟨found, hfound, hroot⟩ := h.snapshot
  exact ⟨(lasting_get Revision rId).lasts hsub hfree h.revision,
    ⟨found, (lasting_rootSnapshot r).lasts hsub hfree hfound, hroot⟩,
    (lasting_flatten _ _).lasts hsub hfree h.files⟩

/-- The index of the revision's root snapshot is quiet. -/
def QuietAt (env : Reverter) (rev : Revision) : Prop :=
  ∀ id, rev.snapshots.get? "" = some id → Quiet (env.indexFor id).2

theorem get?_of_rootSnapshot {found : ObjectId × Snapshot}
    (h : (rootSnapshot r).value S = .ok found) : r.snapshots.get? "" = some found.1 := by
  unfold rootSnapshot at h
  cases hid : r.snapshots.get? "" with
  | none => simp [hid] at h
  | some id =>
      simp only [hid] at h
      obtain ⟨snap, -, hfound, -⟩ := bind_ok h
      cases hfound
      rfl

theorem returns_putRevert {aIdxId rules : ObjectId} {nodes : List Node}
    (hbuilt : env.Built root' flat') :
    (env.putRevert r rId aIdxId rules flat' nodes).Returns S fun newId T =>
      ∃ rev snap, newId = Crypto.objectId (.revision rev) ∧ .revision rev ∈ T ∧
        .snapshot snap ∈ T ∧ rev.snapshots.get? "" = some (Crypto.objectId (.snapshot snap)) ∧
        snap.root = root' ∧ rev.parents.head? = some rId := by
  have hroot : (build env.shardSlot flat').Returns S fun root _ => root = root' :=
    fun _ => ⟨root', hbuilt S, rfl⟩
  refine hroot.bind fun root T _ hroot => ?_
  refine Returns.bind (P := fun _ _ => True) (returns_put fun _ _ _ => trivial)
    fun idx T' _ _ => ?_
  refine Returns.bind (P := fun id T => ∃ snap, id = Crypto.objectId (.snapshot snap) ∧
    .snapshot snap ∈ T ∧ snap.root = root') (returns_put fun T' _ hmem => ⟨_, rfl, hmem, hroot⟩)
    ?_
  rintro _ T'' _ ⟨snap, rfl, hsnap, hroot⟩
  refine returns_put fun T' hsub hmem => ⟨_, snap, rfl, hmem, hsub hsnap, ?_, hroot, rfl⟩
  simp [OrdMap.get?_insert]

/-- Reverting the head gives a revision over it with the tree before it. -/
theorem revert_head (hr : env.Standing S rId r root flat)
    (hparent : r.parents.head? = some beforeId)
    (hbefore : env.Standing S beforeId before root' flat') (hquiet : env.QuietAt r)
    (hbuilt : env.Built root' flat')
    (hfree : CollisionFree ((env.revert r rId).after S)) :
    ∃ newId rev, (env.revert r rId).value S = .ok newId ∧ rev.parents.head? = some rId ∧
      env.Standing ((env.revert r rId).after S) newId rev root' flat' := by
  obtain ⟨⟨snapId, snap⟩, hsnap, rfl⟩ := hr.snapshot
  obtain ⟨⟨beforeSnapId, beforeSnap⟩, hbeforeSnap, rfl⟩ := hbefore.snapshot
  have hindex := hquiet snapId (get?_of_rootSnapshot hsnap)
  let m := env.merging flat flat flat' (env.indexFor snapId).2 (env.indexFor snapId).2
    (env.indexFor beforeSnapId).2
  have hside : m.Unchanged .a := ⟨rfl, rfl, hindex, rfl⟩
  have hmerge : m.mergeTrees = pure ⟨flat', [], []⟩ := Merging.mergeTrees_unchanged hside
  have hrun : env.revert r rId S = env.putRevert r rId (env.indexFor snapId).1 snap.rules flat'
      (env.buildNodes flat' flat (env.indexFor snapId).2) S := by
    unfold revert
    simp only [hparent]
    rw [run_bind_of_ok (readOnly_get Revision _) hbefore.revision,
      run_bind_of_ok (readOnly_get Revision _) hr.revision,
      run_bind_of_ok (lasting_rootSnapshot r).readOnly hsnap,
      run_bind_of_ok (lasting_rootSnapshot before).readOnly hbeforeSnap,
      run_bind_of_ok (lasting_rootSnapshot r).readOnly hsnap,
      run_bind_of_ok (lasting_flatten _ _).readOnly hr.files,
      run_bind_of_ok (lasting_flatten _ _).readOnly hr.files,
      run_bind_of_ok (lasting_flatten _ _).readOnly hbefore.files]
    change (m.mergeTrees >>= _) S = _
    rw [hmerge, pure_bind]
    simp
  obtain ⟨newId, hnew, rev, snap', rfl, hrev, hsnap', hget, hroot, hover⟩ :=
    (Returns.of_run hrun (returns_putRevert hbuilt)) hfree
  refine ⟨_, rev, hnew, hover, value_get hfree hrev,
    ⟨(Crypto.objectId (.snapshot snap'), snap'), ?_, hroot⟩, ?_⟩
  · unfold rootSnapshot
    rw [hget]
    exact (bind_of_ok (value_get (t := snap') hfree hsnap')).1
  · exact (lasting_flatten _ _).lasts (subset_after _ S) hfree hbefore.files

end Reverter

/-- A merge with an unchanged side, whose index is quiet, is the other side.  So reverting
the head restores the tree before it, and reverting the revert the tree of the head, where
each is the tree that is built of its files. -/
theorem reverted_head :
    (∀ (m : Merging) (side : Side), m.Unchanged side →
      ∀ S, m.mergeTrees S = ⟨.ok ⟨m.side side.other, [], []⟩, []⟩) ∧
    ∀ (env : Reverter) (S : Store) (rId beforeId root root' : ObjectId) (r before : Revision)
      (flat flat' : Flat), env.Standing S rId r root flat → r.parents.head? = some beforeId →
      env.Standing S beforeId before root' flat' → env.QuietAt r → env.Built root' flat' →
      CollisionFree ((env.revert r rId).after S) →
      ∃ newId rev, (env.revert r rId).value S = .ok newId ∧
        env.Standing ((env.revert r rId).after S) newId rev root' flat' ∧
        (env.QuietAt rev → env.Built root flat →
          CollisionFree ((env.revert rev newId).after ((env.revert r rId).after S)) →
          ∃ againId again,
            (env.revert rev newId).value ((env.revert r rId).after S) = .ok againId ∧
            env.Standing ((env.revert rev newId).after ((env.revert r rId).after S))
              againId again root flat) := by
  refine ⟨fun m side h S => by rw [Merging.mergeTrees_unchanged h]; rfl, ?_⟩
  intro env S rId beforeId root root' r before flat flat' hr hparent hbefore hquiet hbuilt hfree
  obtain ⟨newId, rev, hnew, hover, hstands⟩ :=
    Reverter.revert_head hr hparent hbefore hquiet hbuilt hfree
  refine ⟨newId, rev, hnew, hstands, fun hquiet' hbuilt' hfree' => ?_⟩
  obtain ⟨againId, again, hagain, -, hback⟩ := Reverter.revert_head hstands hover
    (hr.mono (subset_after _ S) hfree) hquiet' hbuilt' hfree'
  exact ⟨againId, again, hagain, hback⟩

end Restored

section Samples

/-! A landed revision that takes the one entry out of the root, and its reverts. -/

def quietIndex : NodeIndex where
  root := .splat 0
  grammars := grammars
  parents := []
  nodes := []
  aliases := none

def reverter : Reverter where
  fuel := 3
  shardSlot _ := 0
  renameEdits _ _ _ := []
  indexFor _ := (.splat 0, quietIndex)
  buildNodes _ _ _ := []
  id := .splat 1
  body _ := ""
  author := .splat 0
  time := 0

def stage (title : String) (body : Option String) (parents : List ObjectId) (snap : ℕ) :
    Revision where
  id := .splat 1
  prev := none
  snapshots := (∅ : OrdMap String ObjectId).insert "" (.splat snap)
  parents := parents
  intent := none
  title := title
  body := body
  author := .splat 0
  time := 0
  ops := none
  flags := none

def emptied : Revision := stage "empty" none [.splat 4] 3

def emptiedStore (e : TreeEntry) : Store :=
  [.tree (Tree.flat [e]), .tree (Tree.flat []), .snapshot ⟨.splat 0, .splat 99, none, none⟩,
    .snapshot ⟨.splat 1, .splat 99, none, none⟩, .revision (stage "add" none [] 2),
    .revision emptied]

/-- The objects of the revert, whose root is as given, and of its own revert. -/
def emptiedTable (e : TreeEntry) (root : ℕ) : List Object :=
  emptiedStore e ++ [.nodeIndex ⟨.splat root, grammars, [.splat 0], [], none⟩,
    .snapshot ⟨.splat root, .splat 99, none, some (.splat 6)⟩,
    .revision (stage "revert: empty" (some "") [.splat 5] 7),
    .nodeIndex ⟨.splat 1, grammars, [.splat 0], [], none⟩,
    .snapshot ⟨.splat 1, .splat 99, none, some (.splat 9)⟩,
    .revision (stage "revert: revert: empty" (some "") [.splat 8] 10)]

def fileEntry : TreeEntry := (Leaf.file (.splat 50) false).entry "n.py"

/-- A directory that holds nothing. -/
def emptyEntry : TreeEntry := ⟨"n", .dir, none, some (.splat 1), none⟩

theorem quiet_quietIndex : Quiet quietIndex := fun _ _ h => absurd h List.not_mem_nil

theorem quietAt_reverter (rev : Revision) : reverter.QuietAt rev := fun _ _ => quiet_quietIndex

section Kept

local instance keptCrypto : Crypto := .ofTable (emptiedTable fileEntry 0)

def keptFiles : Flat := (∅ : Flat).insert "n.py" (.file (.splat 50) false)

theorem built_keptFiles : reverter.Built (.splat 0) keptFiles := fun S =>
  (congrArg Outcome.value (blind_emit _ _ S [])).trans
    (by decide +kernel : (build reverter.shardSlot keptFiles).value [] = _)

/-- The file is back, and gone again. -/
theorem reverted_head_kept : ∃ newId rev,
    (reverter.revert emptied (.splat 5)).value (emptiedStore fileEntry) = .ok newId ∧
      reverter.Standing ((reverter.revert emptied (.splat 5)).after (emptiedStore fileEntry))
        newId rev (.splat 0) keptFiles ∧
      (reverter.QuietAt rev → reverter.Built (.splat 1) ∅ →
        CollisionFree ((reverter.revert rev newId).after
          ((reverter.revert emptied (.splat 5)).after (emptiedStore fileEntry))) →
        ∃ againId again, (reverter.revert rev newId).value
            ((reverter.revert emptied (.splat 5)).after (emptiedStore fileEntry)) =
              .ok againId ∧
          reverter.Standing ((reverter.revert rev newId).after
            ((reverter.revert emptied (.splat 5)).after (emptiedStore fileEntry)))
              againId again (.splat 1) ∅) :=
  reverted_head.2 reverter (emptiedStore fileEntry) (.splat 5) (.splat 4) (.splat 1) (.splat 0)
    emptied (stage "add" none [] 2) ∅ keptFiles
    ⟨by decide +kernel, ⟨(.splat 3, ⟨.splat 1, .splat 99, none, none⟩), by decide +kernel, rfl⟩,
      by decide +kernel⟩ rfl
    ⟨by decide +kernel, ⟨(.splat 2, ⟨.splat 0, .splat 99, none, none⟩), by decide +kernel, rfl⟩,
      by decide +kernel⟩ (quietAt_reverter emptied) built_keptFiles
    (collisionFree_ofTable (by decide) (by decide +kernel))

end Kept

section Astray

/-! Two units of one file have one id, and a file that the other side adds names one of
them. -/

def sharedUnit (name : String) : Node where
  nid := .splat 1
  path := "a.py"
  kind := "function"
  name := name
  span := (0, 0)
  body := .splat 0
  parent := none
  deps := none
  setlike := none

def sharedIndex : NodeIndex := { quietIndex with nodes := [sharedUnit "f", sharedUnit "g"] }

def sharedFiles : Flat := (∅ : Flat).insert "a.py" (.file (.splat 2) false)

def sharedMerging (side : Side) : Merging where
  base := sharedFiles
  side s :=
    if s = side then sharedFiles else sharedFiles.insert "n.py" (.file (.splat 0) false)
  baseIdx := some sharedIndex
  idx _ := sharedIndex
  ops _ := []
  renameEdits _ := renameEdits letter

def sharedTable : List Object := [.blob (utf8 "g"), .blob (utf8 "f"), .blob (utf8 "f=0;g=0")]

/-- The file that the other side adds is changed; and a directory that holds nothing is not
back. -/
theorem reverts_astray :
    (¬ ∀ [Crypto] (S : Store) (m : Merging) (side : Side), m.side side = m.base →
      m.baseIdx = some (m.idx side) → m.ops side = [] → m.ops side.other = [] →
      (m.mergeTrees.value S).map (·.flat) = .ok (m.side side.other)) ∧
    ¬ ∀ [Crypto] (env : Reverter) (S : Store) (rId beforeId root root' : ObjectId)
      (r before : Revision) (flat flat' : Flat), env.Standing S rId r root flat →
      r.parents.head? = some beforeId → env.Standing S beforeId before root' flat' →
      CollisionFree ((env.revert r rId).after S) →
      ∃ newId rev, (env.revert r rId).value S = .ok newId ∧
        env.Standing ((env.revert r rId).after S) newId rev root' flat' := by
  constructor
  · intro h
    have := @h (.ofTable sharedTable) sharedTable (sharedMerging .a) .a rfl rfl rfl rfl
    revert this
    decide +kernel
  · intro h
    let _ : Crypto := .ofTable (emptiedTable emptyEntry 1)
    obtain ⟨newId, rev, hnew, hrev, ⟨found, hfound, hroot⟩, -⟩ :=
      h reverter (emptiedStore emptyEntry) (.splat 5) (.splat 4) (.splat 1) (.splat 0) emptied
        (stage "add" none [] 2) ∅ ∅
        ⟨by decide +kernel, ⟨(.splat 3, ⟨.splat 1, .splat 99, none, none⟩), by decide +kernel,
          rfl⟩, by decide +kernel⟩ rfl
        ⟨by decide +kernel, ⟨(.splat 2, ⟨.splat 0, .splat 99, none, none⟩), by decide +kernel,
          rfl⟩, by decide +kernel⟩
        (collisionFree_ofTable (by decide) (by decide +kernel))
    have hread : (reverter.revert emptied (.splat 5) >>= fun id => get Revision id >>=
        rootSnapshot).value (emptiedStore emptyEntry) = .ok found := by
      rw [(bind_of_ok hnew).1, (bind_of_ok hrev).1, readOnly_get]
      exact hfound
    have hone : ((reverter.revert emptied (.splat 5) >>= fun id => get Revision id >>=
        rootSnapshot).value (emptiedStore emptyEntry)).map (·.2.root) = .ok (.splat 1) := by
      decide +kernel
    rw [hread] at hone
    exact absurd (hroot.symm.trans (Except.ok.inj hone)) (by decide)

end Astray

end Samples

end Tessra.Daemon
