import Tessra.Daemon.Ancestry

namespace Tessra.Daemon

open Tessra.Core Tessra.Data Tessra.Oplog Verify StoreM

/-! The revisions that snapshots, landings, conflicts and restacks make, and the
renames recorded on them. -/

structure Rename where
  «from» : String
  «to» : String
  path : Option String
deriving DecidableEq

/-- The renames recorded on a revision's ops. -/
def recordedRenames (ops : List SemOp) : List Rename :=
  (ops.filter (·.kind = "rename")).filterMap fun op => do
    let text := fun k : String => (op.args.get? k).bind Value.asText
    return { «from» := ← text "from", «to» := ← text "to", path := text "path" }

/-- The rename op `edit` records. -/
def renameOp (r : Rename) : SemOp where
  kind := "rename"
  args :=
    let args := ((∅ : OrdMap String Value).insert "from" (.text r.from)).insert "to" (.text r.to)
    match r.path with
    | some p => args.insert "path" (.text p)
    | none => args

@[simp] theorem recordedRenames_append (ops ops' : List SemOp) :
    recordedRenames (ops ++ ops') = recordedRenames ops ++ recordedRenames ops' := by
  simp [recordedRenames]

/-- What `edit` records is read back as it was. -/
theorem recordedRenames_renameOp (r : Rename) : recordedRenames [renameOp r] = [r] := by
  obtain ⟨source, target, path⟩ := r
  cases path <;> simp [recordedRenames, renameOp, Value.asText]

section Builders

/-! Every revision below is built with its own choice of parents and ops. -/

/-- What a snapshot finds in a workspace, and the identity it draws for a new change. -/
structure Found where
  fresh : EntityId
  snap : ObjectId
  title : Option String
  author : EntityId
  time : ℤ
  flags : Option Flags

/-- The ops of a revision and what was recorded since. -/
def opsWith (prior : Option (List SemOp)) (pending : List SemOp) : Option (List SemOp) :=
  let all := prior.getD [] ++ pending
  if all.isEmpty then none else some all

theorem recordedRenames_opsWith (prior : Option (List SemOp)) (pending : List SemOp) :
    recordedRenames ((opsWith prior pending).getD []) =
      recordedRenames (prior.getD []) ++ recordedRenames pending := by
  have hall : (opsWith prior pending).getD [] = prior.getD [] ++ pending := by
    rw [opsWith]
    split
    · rename_i hempty
      exact (List.isEmpty_iff.mp hempty).symm
    · rfl
  rw [hall, recordedRenames_append]

/-- The revision of a snapshot: a new change over a landed revision, or the next
revision of the change. -/
def snapshotted (landed : Bool) (curId : ObjectId) (cur : Revision) (pending : List SemOp)
    (found : Found) : Revision :=
  let snapshots := (∅ : OrdMap String ObjectId).insert "" found.snap
  if landed then {
    id := found.fresh
    prev := none
    snapshots
    parents := [curId]
    intent := none
    title := found.title.getD "work in progress"
    body := none
    author := found.author
    time := found.time
    ops := opsWith none pending
    flags := found.flags }
  else {
    id := cur.id
    prev := some curId
    snapshots
    parents := cur.parents
    intent := cur.intent
    title := found.title.getD cur.title
    body := cur.body
    author := found.author
    time := found.time
    ops := opsWith cur.ops pending
    flags := found.flags }

/-- A revision of the same change, merged from a revision onto another. -/
def derived (rev : Revision) (revId onto snap : ObjectId) (time : ℤ)
    (ops : Option (List SemOp)) : Revision where
  id := rev.id
  prev := some revId
  snapshots := (∅ : OrdMap String ObjectId).insert "" snap
  parents := [onto, revId]
  intent := rev.intent
  title := rev.title
  body := rev.body
  author := rev.author
  time := time
  ops := ops
  flags := rev.flags

/-- What lands on trunk. -/
def landing (rev : Revision) (revId headId snap : ObjectId) (time : ℤ) : Revision :=
  derived rev revId headId snap time none

/-- What `record_conflict` stores when a landing conflicts. -/
def conflicted (rev : Revision) (revId headId snap : ObjectId) (time : ℤ) : Revision :=
  derived rev revId headId snap time none

/-- What `restack_children` makes of a revision on one that landed. -/
def restacked (x : Revision) (xId landingId snap : ObjectId) (time : ℤ) : Revision :=
  derived x xId landingId snap time x.ops

end Builders

section Merges

variable [Crypto]

/-- What one three-way merge is given of the renames that its sides recorded. -/
structure Merge where
  revision : ObjectId
  opsA : List Rename
  opsB : List Rename
deriving DecidableEq

/-- The renames recorded along the first parents, down to a revision. -/
def renamesSince (base : Option ObjectId) : ℕ → Option ObjectId → StoreM (List Rename)
  | 0, _ | _, none => pure []
  | steps + 1, some id =>
      if some id = base then pure []
      else do
        let r ← get Revision id
        return recordedRenames (r.ops.getD []) ++ (← renamesSince base steps r.parents.head?)

/-- The merge that `land_one` makes, unless the revision sits on the head.  Its walk
over trunk stops after 1001 steps. -/
def landMerges (headId revId : ObjectId) (rev : Revision) : StoreM (List Merge) := do
  if rev.parents.head? = some headId then return []
  let baseId ← revisionLca headId revId
  let opsB := recordedRenames (rev.ops.getD [])
  let opsA ← renamesSince baseId 1001 (some headId)
  return [⟨revId, opsA, opsB⟩]

/-- The merge that `restack_children` makes. -/
def restackMerge (landed : Revision) (xId : ObjectId) (x : Revision) : Merge where
  revision := xId
  opsA := recordedRenames (landed.ops.getD [])
  opsB := recordedRenames (x.ops.getD [])

end Merges

section Repositories

structure Workspace where
  id : EntityId
  base : ObjectId
  current : Option ObjectId
  /-- The ops that `edit` recorded since the last snapshot. -/
  pending : List SemOp
deriving DecidableEq

/-- The revision that a workspace holds. -/
def Workspace.revision (w : Workspace) : ObjectId := w.current.getD w.base

def Workspace.push (id : EntityId) (op : SemOp) (w : Workspace) : Workspace :=
  if w.id = id then { w with pending := w.pending ++ [op] } else w

/-- The workspace holds a new snapshot. -/
def Workspace.take (id : EntityId) (rev : ObjectId) (w : Workspace) : Workspace :=
  if w.id = id then { w with current := some rev, pending := [] } else w

/-- Where a revision landed, so does the workspace that holds it. -/
def Workspace.settle (revId landingId : ObjectId) (w : Workspace) : Workspace :=
  if w.current = some revId then { w with current := some landingId, base := landingId } else w

/-- Where a landing conflicted, the workspace holds the conflict. -/
def Workspace.clash (revId conflictedId : ObjectId) (w : Workspace) : Workspace :=
  if w.current = some revId then { w with current := some conflictedId } else w

def Workspace.restack (id : EntityId) (newId landingId : ObjectId) (w : Workspace) : Workspace :=
  if w.id = id then { w with current := some newId, base := landingId } else w

/-! Each of these gives the workspace the new revision, or leaves it the one it has. -/

@[simp] theorem Workspace.revision_push (id : EntityId) (op : SemOp) (w : Workspace) :
    (w.push id op).revision = w.revision := by
  rw [push]
  split <;> rfl

theorem Workspace.revision_take (id : EntityId) (rev : ObjectId) (w : Workspace) :
    (w.take id rev).revision = rev ∨ (w.take id rev).revision = w.revision := by
  rw [take]
  split <;> simp [revision]

theorem Workspace.revision_settle (revId landingId : ObjectId) (w : Workspace) :
    (w.settle revId landingId).revision = landingId ∨
      (w.settle revId landingId).revision = w.revision := by
  rw [settle]
  split <;> simp [revision]

theorem Workspace.revision_clash (revId conflictedId : ObjectId) (w : Workspace) :
    (w.clash revId conflictedId).revision = conflictedId ∨
      (w.clash revId conflictedId).revision = w.revision := by
  rw [clash]
  split <;> simp [revision]

theorem Workspace.revision_restack (id : EntityId) (newId landingId : ObjectId) (w : Workspace) :
    (w.restack id newId landingId).revision = newId ∨
      (w.restack id newId landingId).revision = w.revision := by
  rw [restack]
  split <;> simp [revision]

variable [Crypto]

def revisionId (r : Revision) : ObjectId := Crypto.objectId (.revision r)

/-- An open repository, as far as the revisions go. -/
structure Repo where
  store : Store
  free : CollisionFree store
  head : ObjectId
  workspaces : List Workspace
  /-- The revisions that hold a conflict. -/
  conflicts : List ObjectId

/-- The object is in the store, with everything that was before. -/
structure Puts (s s' : Repo) (r : Revision) : Prop where
  sub : s.store ⊆ s'.store
  mem : .revision r ∈ s'.store

/-- A workspace lands what it holds, as far as the merge. -/
structure Lands (s : Repo) (w : Workspace) (rev : Revision) (merges : List Merge) : Prop where
  mem : w ∈ s.workspaces
  held : (get Revision w.revision).value s.store = .ok rev
  unlanded : ¬ Reaches s.store s.head w.revision
  merged : (landMerges s.head w.revision rev).value s.store = .ok merges

/-- A workspace holds a revision whose first parent just landed, as the head. -/
structure Stacked (s : Repo) (w : Workspace) (xId : ObjectId) (x landed : Revision) : Prop where
  mem : w ∈ s.workspaces
  current : w.current = some xId
  held : (get Revision xId).value s.store = .ok x
  unlanded : ¬ Reaches s.store s.head xId
  head : (get Revision s.head).value s.store = .ok landed
  parent : ∃ revId, landed.parents[1]? = some revId ∧ x.parents.head? = some revId

/-- One step of the daemon, and the merges made in it.  What a merge makes of the trees,
and whether it conflicts or the standard refuses it, is left open. -/
inductive Step (s : Repo) : List Merge → Repo → Prop
  | edit (id : EntityId) (rename : Rename) :
      Step s [] { s with workspaces := s.workspaces.map (Workspace.push id (renameOp rename)) }
  | snapshot {s' : Repo} (w : Workspace) (cur : Revision) (landed : Bool) (found : Found)
      (hmem : w ∈ s.workspaces)
      (hcur : (get Revision w.revision).value s.store = .ok cur)
      (hlanded : landed = true ↔ Reaches s.store s.head w.revision)
      (hputs : Puts s s' (snapshotted landed w.revision cur w.pending found))
      (hworkspaces : s'.workspaces = s.workspaces.map (Workspace.take w.id
        (revisionId (snapshotted landed w.revision cur w.pending found))))
      (hhead : s'.head = s.head) (hconflicts : s'.conflicts = s.conflicts) :
      Step s [] s'
  | land {s' : Repo} {merges : List Merge} (w : Workspace) (rev : Revision) (snap : ObjectId)
      (time : ℤ) (hlands : Lands s w rev merges)
      (hputs : Puts s s' (landing rev w.revision s.head snap time))
      (hworkspaces : s'.workspaces = s.workspaces.map (Workspace.settle w.revision
        (revisionId (landing rev w.revision s.head snap time))))
      (hhead : s'.head = revisionId (landing rev w.revision s.head snap time))
      (hconflicts : s'.conflicts = s.conflicts) :
      Step s merges s'
  | conflict {s' : Repo} {merge : Merge} (w : Workspace) (rev : Revision) (snap : ObjectId)
      (time : ℤ) (hlands : Lands s w rev [merge])
      (hputs : Puts s s' (conflicted rev w.revision s.head snap time))
      (hworkspaces : s'.workspaces = s.workspaces.map (Workspace.clash w.revision
        (revisionId (conflicted rev w.revision s.head snap time))))
      (hhead : s'.head = s.head)
      (hconflicts : s'.conflicts =
        revisionId (conflicted rev w.revision s.head snap time) :: s.conflicts) :
      Step s [merge] s'
  | refuse {s' : Repo} {merges : List Merge} (w : Workspace) (rev : Revision)
      (hlands : Lands s w rev merges) (hsub : s.store ⊆ s'.store)
      (hworkspaces : s'.workspaces = s.workspaces) (hhead : s'.head = s.head)
      (hconflicts : s'.conflicts = s.conflicts) :
      Step s merges s'
  | restack {s' : Repo} (w : Workspace) (xId : ObjectId) (x landed : Revision)
      (snap : ObjectId) (time : ℤ) (hstacked : Stacked s w xId x landed)
      (hputs : Puts s s' (restacked x xId s.head snap time))
      (hworkspaces : s'.workspaces = s.workspaces.map (Workspace.restack w.id
        (revisionId (restacked x xId s.head snap time)) s.head))
      (hhead : s'.head = s.head) (hconflicts : s'.conflicts = s.conflicts) :
      Step s [restackMerge landed xId x] s'
  | leave {s' : Repo} (w : Workspace) (xId : ObjectId) (x landed : Revision)
      (hstacked : Stacked s w xId x landed) (hsub : s.store ⊆ s'.store)
      (hworkspaces : s'.workspaces = s.workspaces) (hhead : s'.head = s.head)
      (hconflicts : s'.conflicts = s.conflicts) :
      Step s [restackMerge landed xId x] s'

end Repositories

end Tessra.Daemon
