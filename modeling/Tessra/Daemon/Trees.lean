import Tessra.Core.Reading
import Tessra.Daemon.Snapshots
import Tessra.Data.Folder
import Tessra.Data.Segments
import Tessra.Oplog.Verify

namespace Tessra.Daemon

open Tessra.Core Tessra.Data Tessra.Oplog StoreM
open Verify (joinPath)

/-! Trees as flat path maps: flatten, build with sharding, and the file-level
three-way merge. -/

def Tree.shardThreshold : ℕ := 4096

def sortByName (entries : List TreeEntry) : List TreeEntry :=
  entries.insertionSort fun a b => a.name ≤ b.name

def Tree.flat (entries : List TreeEntry) : Tree := ⟨some (sortByName entries), none⟩

def leafOf (e : TreeEntry) : Leaf := ⟨e.kind, e.mode, e.ref, e.terms⟩

def Leaf.entry (leaf : Leaf) (name : String) : TreeEntry :=
  ⟨name, leaf.kind, leaf.mode, leaf.ref, leaf.terms⟩

def splitPath (path : String) : List String := (path.toList.splitOn '/').map String.ofList

section Trees

variable [Crypto]

def entries (id : ObjectId) : StoreM (List TreeEntry) := do
  let t ← get Tree id
  match t.entries with
  | some e => return e
  | none =>
      let shards ← (t.shards.getD []).reduceOption.mapM (get Tree)
      return sortByName (shards.flatMap fun st => st.entries.getD [])

/-- The walk of one entry of the directory at `above`. -/
def visit (walk : ObjectId → String → Flat → StoreM Flat) (above : String) (out : Flat)
    (e : TreeEntry) : StoreM Flat :=
  let path := joinPath above e.name
  if e.kind = .dir then
    match e.ref with
    | some r => walk r path out
    | none => return out
  else return out.insert path (leafOf e)

def walk : ℕ → ObjectId → String → Flat → StoreM Flat
  | 0, _, _, _ => throw .outOfFuel
  | fuel + 1, id, above, out => do (← entries id).foldlM (visit (walk fuel) above) out

/-- Every leaf under a tree, keyed by path. -/
def flatten (fuel : ℕ) (tree : ObjectId) : StoreM Flat := walk fuel tree "" ∅

/-- The directories of a flat map, nested. -/
def dirOf (flat : Flat) : Folder String TreeEntry :=
  flat.entries.foldl (fun root e =>
    let parts := splitPath e.1
    root.add (e.2.entry (parts.getLastD "")) parts.dropLast) .empty

/-- Put a directory, in shards by name hash when it is large. -/
def putEntries (shardSlot : String → Byte) (entries : List TreeEntry) : StoreM ObjectId :=
  if Tree.shardThreshold < entries.length then do
    let buckets := (List.finRange 256).map fun slot => entries.filter (shardSlot ·.name = slot)
    let shards ← buckets.mapM fun b =>
      if b.isEmpty then pure none else some <$> put (Tree.flat b)
    put (⟨none, some shards⟩ : Tree)
  else put (Tree.flat entries)

mutual
def emit (shardSlot : String → Byte) : Folder String TreeEntry → StoreM ObjectId
  | .mk files dirs => do putEntries shardSlot (files ++ (← emitAll shardSlot dirs))

def emitAll (shardSlot : String → Byte) : Folders String TreeEntry → StoreM (List TreeEntry)
  | .nil => pure []
  | .cons name sub rest => do
      let id ← emit shardSlot sub
      return ⟨name, .dir, none, some id, none⟩ :: (← emitAll shardSlot rest)
end

/-- Build nested tree objects from a flat map. -/
def build (shardSlot : String → Byte) (flat : Flat) : StoreM ObjectId :=
  emit shardSlot (dirOf flat)

/-! The merge. -/

def Leaf.term (leaf : Leaf) (sign : ℤ) : ConflictTerm :=
  ⟨sign, leaf.kind, leaf.mode, leaf.ref.getD (.splat 0)⟩

/-- Positive terms must outnumber negative by one; pad with an empty-blob add when
a side deleted. -/
def padTerms (terms : List ConflictTerm) : List ConflictTerm :=
  terms ++ List.replicate (terms.countP (·.sign < 0) + 1 - terms.countP (0 < ·.sign))
    ⟨1, .file, some 0, Crypto.objectId (.blob [])⟩

/-- What becomes of a path, and whether the sides conflict there. -/
def pick (base a b : Option Leaf) : Option Leaf × Bool :=
  if a = base then (b, false)
  else if b = base ∨ a = b then (a, false)
  else
    let terms := (base.map (·.term (-1))).toList ++ [a, b].reduceOption.map (·.term 1)
    (some ⟨.conflict, none, none, some (padTerms terms)⟩, true)

/-- File-level three-way merge: the merged map and the conflicted paths. -/
def merge3 (base a b : Flat) : Flat × List String :=
  (sortedDedup (base.keys ++ a.keys ++ b.keys)).foldl (fun s p =>
    let (leaf, conflict) := pick (base.get? p) (a.get? p) (b.get? p)
    (leaf.elim s.1 (s.1.insert p), if conflict then s.2 ++ [p] else s.2)) (∅, [])

end Trees

end Tessra.Daemon
