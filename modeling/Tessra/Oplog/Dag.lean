import Tessra.Data.Worklist
import Tessra.Oplog.View

namespace Tessra.Oplog

open Tessra.Core Tessra.Data

/-! The op DAG: heads, ancestry, latest common ancestors, and merged views. -/

/-- An operation log.  The objects of its store are those of the computation;
the records are the store's metadata. -/
structure OpLog where
  heads : List ObjectId
  /-- The verified ops, oldest first. -/
  verified : List ObjectId
  views : List (ObjectId × ObjectId)
  idem : List ((EntityId × Bytes) × ObjectId)
  records : List (String × Bytes)

namespace OpLog

def new : OpLog := ⟨[], [], [], [], []⟩

def isVerified (log : OpLog) (op : ObjectId) : Bool := op ∈ log.verified

def lookupIdem (log : OpLog) (author : EntityId) (idem : Bytes) : Option ObjectId :=
  log.idem.lookup (author, idem)

variable [Crypto]

def getOp (id : ObjectId) : StoreM Op := get Op id

def viewIdOf (log : OpLog) (op : ObjectId) : StoreM ObjectId :=
  match log.views.lookup op with
  | some v => pure v
  | none => Op.view <$> getOp op

def viewOf (log : OpLog) (op : ObjectId) : StoreM View := do
  get View (← log.viewIdOf op)

def parentsIn (S : Store) (id : ObjectId) : Except Error (List ObjectId) :=
  ((getOp id).value S).map Op.parents

def parentCount : Object → ℕ
  | .op op => op.parents.length
  | _ => 0

/-- Every ancestor of `op`, including itself.  No op is queued more often than
ops name it as a parent. -/
def ancestors (op : ObjectId) : StoreM (List ObjectId) := fun S =>
  ⟨worklist (parentsIn S) .outOfFuel (1 + (S.map parentCount).sum) [] [op], []⟩

/-- The ancestors that every op has. -/
def commonAncestors : List ObjectId → StoreM (List ObjectId)
  | [] => pure []
  | o :: rest => do
      rest.foldlM (fun common o => do
        let a ← ancestors o
        return common.filter (· ∈ a)) (← ancestors o)

/-- The latest common ancestor of a set of ops: a common ancestor that is not an
ancestor of another common ancestor.  Ties break on the lowest identifier. -/
def lca (ops : List ObjectId) : StoreM (Option ObjectId) := do
  let common ← commonAncestors ops
  let latest ← common.foldlM (fun latest c => do
    let anc ← ancestors c
    return latest.filter fun d => ¬ (d ∈ anc ∧ d ≠ c)) (sortedDedup common)
  return latest.head?

/-- The view to merge over: the empty one where there is no common ancestor. -/
def baseView (log : OpLog) : Option ObjectId → StoreM View
  | some b => log.viewOf b
  | none => ViewState.empty

/-- Merge the views of the rest, after the ops already folded. -/
def foldViews (log : OpLog) (folded : List ObjectId) (acc : View) :
    List ObjectId → StoreM View
  | [] => pure acc
  | next :: rest => do
      let base ← log.baseView (← lca (folded ++ [next]))
      let nv ← log.viewOf next
      foldViews log (folded ++ [next]) (← ViewState.merge base acc nv) rest

def mergedView (log : OpLog) (ops : List ObjectId) : StoreM View :=
  match sortedDedup ops with
  | [] => ViewState.empty
  | x :: rest => do foldViews log [x] (← log.viewOf x) rest

def currentView (log : OpLog) : StoreM View := log.mergedView log.heads

end OpLog

end Tessra.Oplog
