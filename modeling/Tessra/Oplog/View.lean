import Tessra.Core.Trie

namespace Tessra.Oplog

open Tessra.Core Tessra.Data

/-! The view: mutable repository state at one op.  Effect application and the
three-way merge. -/

inductive Pointer
  | id (i : ObjectId)
  | conflict (ids : List ObjectId)
deriving DecidableEq

namespace Pointer

def toValue : Pointer → Value
  | .id i => .bytes i.bytes
  | .conflict v => .map [(.text "conflict", .array (v.map fun i => .bytes i.bytes))]

def itemIds (items : List Value) : Option (List ObjectId) :=
  items.mapM fun
    | .bytes b => ObjectId.fromSlice b
    | _ => none

def fromValue : Value → Option Pointer
  | .bytes b => (ObjectId.fromSlice b).map .id
  | .map [(.text k, .array items)] =>
      if k = "conflict" then (itemIds items).map .conflict else none
  | _ => none

def fromTrie : TrieValue → Option Pointer
  | .id i => some (.id i)
  | .conflict c => some (.conflict c)
  | .set => none

def toTrie : Pointer → TrieValue
  | .id i => .id i
  | .conflict c => .conflict c

def ids : Pointer → List ObjectId
  | .id i => [i]
  | .conflict c => c

/-- The single identifier, or an error if this is a conflict. -/
def single : Pointer → Except Error ObjectId
  | .id i => .ok i
  | .conflict c =>
      let ids := ", ".intercalate (c.map ObjectId.debug)
      .error (.other s!"pointer is in conflict: [{ids}]")

def union (a b : Pointer) : Pointer :=
  match sortedDedup (a.ids ++ b.ids) with
  | [i] => .id i
  | v => .conflict v

theorem itemIds_bytes (v : List ObjectId) :
    itemIds (v.map fun i => .bytes i.bytes) = some v := by
  induction v with
  | nil => rfl
  | cons i v ih =>
      simp only [itemIds] at ih ⊢
      simp [ih]

@[simp] theorem fromValue_toValue (p : Pointer) : fromValue p.toValue = some p := by
  cases p with
  | id i => simp [toValue, fromValue]
  | conflict v => simp [toValue, fromValue, itemIds_bytes]

theorem union_comm (a b : Pointer) : union a b = union b a := by
  have h : sortedDedup (a.ids ++ b.ids) = sortedDedup (b.ids ++ a.ids) :=
    sortedDedup_congr fun i => by simp only [List.mem_append, or_comm]
  rw [union, h, union]

end Pointer

namespace ViewState

variable [Crypto]

/-- The view before init: every map empty. -/
def empty : StoreM View := do
  let e ← Trie.emptyRoot
  return {
    entities := e
    proposed := e
    claims := e
    caps := e
    revoked := e
    tombstoned := e
    lines := ∅
    roots := []
    owners := []
    deployed := ∅
    paused := none }

def storeView (view : View) : StoreM ObjectId := put view

def loadView (id : ObjectId) : StoreM View := get View id

def entity (view : View) (id : EntityId) : StoreM (Option Pointer) := do
  return (← Trie.get view.entities id.bytes).bind Pointer.fromTrie

def claim (view : View) (id : EntityId) : StoreM (Option Pointer) := do
  return (← Trie.get view.claims id.bytes).bind Pointer.fromTrie

def inSet (root : ObjectId) (id : ObjectId) : StoreM Bool := do
  return (← Trie.get root id.bytes).isSome

def principalRevoked (view : View) (id : EntityId) : StoreM Bool := do
  return (← Trie.get view.revoked id.bytes).isSome

def entities (view : View) : StoreM (List (EntityId × Pointer)) := do
  return (← Trie.entries view.entities).filterMap fun (k, v) =>
    match EntityId.fromSlice k, Pointer.fromTrie v with
    | some id, some p => some (id, p)
    | _, _ => none

def setMembers (root : ObjectId) : StoreM (List ObjectId) := do
  return (← Trie.entries root).filterMap fun (k, _) => ObjectId.fromSlice k

end ViewState

/-- Push a value that is not there, and sort. -/
def pushSorted {α : Type} [LinearOrder α] (x : α) (l : List α) : List α :=
  if x ∈ l then l else (l ++ [x]).insertionSort (· ≤ ·)

def zeroEntity : EntityId := .splat 0

def zeroObject : ObjectId := .splat 0

def pauseScope (owners : List EntityId) (parentOp : Option ObjectId) (scope : String)
    (paused : Option (List PauseState)) : Option (List PauseState) :=
  let list := paused.getD []
  if list.any (·.scope = scope) then some list
  else some (list ++ [⟨scope, owners.head?.getD zeroEntity, parentOp.getD zeroObject⟩])

def keepPaused (list : List PauseState) : Option (List PauseState) :=
  if list.isEmpty then none else some list

def resumeScope (scope : String) (paused : Option (List PauseState)) :
    Option (List PauseState) :=
  paused.bind fun list => keepPaused (list.filter (·.scope ≠ scope))

def mergeLine (base a b : LineState) : LineState where
  id := a.id
  head :=
    if a.head = base.head then b.head
    else if b.head = base.head ∨ a.head = b.head then a.head
    else
      match Pointer.fromValue a.head, Pointer.fromValue b.head with
      | some x, some y => (x.union y).toValue
      | _, _ => a.head
  seq := max a.seq b.seq
  coordinator :=
    if a.coordinator = base.coordinator then b.coordinator
    else if b.coordinator = base.coordinator ∨ a.coordinator = b.coordinator then
      a.coordinator
    else min a.coordinator b.coordinator

/-- One line of the merged view, by its states on the three sides. -/
def mergeLineAt : Option LineState → Option LineState → Option LineState → Option LineState
  | some bs, some x, some y =>
      if x = y then some x
      else if x = bs then some y
      else if y = bs then some x
      else some (mergeLine bs x y)
  | none, some x, some y => if x = y then some x else some (mergeLine x x y)
  | none, some x, none | none, none, some x => some x
  | some _, none, some x | some _, some x, none => some x
  | some _, none, none | none, none, none => none

def mergeLines (base a b : OrdMap String LineState) : OrdMap String LineState :=
  .tabulate (fun name => mergeLineAt (base.get? name) (a.get? name) (b.get? name))
    (base.keys ++ a.keys ++ b.keys)

def mergeDeployedAt (base a b : Option ObjectId) : Option ObjectId :=
  if a = base then b
  else if b = base ∨ a = b then a
  else
    -- Both changed differently: lower identifier wins.
    match a, b with
    | some x, some y => some (min x y)
    | some x, none | none, some x => some x
    | none, none => none

def mergeDeployed (base a b : OrdMap EntityId ObjectId) : OrdMap EntityId ObjectId :=
  .tabulate (fun target => mergeDeployedAt (base.get? target) (a.get? target) (b.get? target))
    (base.keys ++ a.keys ++ b.keys)

def mergeSetVec {α : Type} [LinearOrder α] (base a b : List α) : List α :=
  (sortedDedup (base ++ a ++ b)).filter fun x =>
    (x ∈ a ∧ x ∈ b) ∨ (x ∈ a ∧ x ∉ base) ∨ (x ∈ b ∧ x ∉ base)

/-- The first entry of each scope. -/
def firstOfScopes (l : List PauseState) : List PauseState :=
  l.foldl (fun paused p => if paused.any (·.scope = p.scope) then paused else paused ++ [p]) []

def mergePaused (a b : Option (List PauseState)) : Option (List PauseState) :=
  keepPaused ((firstOfScopes (a.getD [] ++ b.getD [])).insertionSort
    fun x y => x.scope ≤ y.scope)

/-- Read a line's head as a pointer. -/
def lineHead (ls : LineState) : Option Pointer := Pointer.fromValue ls.head

namespace ViewState

variable [Crypto]

def applyEffect (parentOp : Option ObjectId) (v : View) : Effect → StoreM View
  | .put _ => pure v
  | .point entity to_ _ => do
      return { v with entities := ← Trie.insert v.entities entity.bytes (.id to_) }
  | .unpoint entity => do
      return { v with entities := ← Trie.remove v.entities entity.bytes }
  | .head line to_ _ seq _ id =>
      let head := (Pointer.id to_).toValue
      match v.lines.get? line with
      | some ls => pure { v with lines := v.lines.insert line { ls with head, seq } }
      | none =>
          match id with
          | none => throw (.other s!"head on unknown line {line} without id")
          | some lid =>
              let coordinator := v.owners.head?.getD lid
              pure { v with lines := v.lines.insert line { id := lid, head, seq, coordinator } }
  | .propose rev => do
      return { v with proposed := ← Trie.insert v.proposed rev.bytes .set }
  | .unpropose rev => do
      return { v with proposed := ← Trie.remove v.proposed rev.bytes }
  | .claim claim to_ => do
      return { v with claims := ← Trie.insert v.claims claim.bytes (.id to_) }
  | .unclaim claim => do
      return { v with claims := ← Trie.remove v.claims claim.bytes }
  | .cap cap => do
      return { v with caps := ← Trie.insert v.caps cap.bytes .set }
  | .uncap cap => do
      return { v with caps := ← Trie.remove v.caps cap.bytes }
  | .revoke principal => do
      return { v with revoked := ← Trie.insert v.revoked principal.bytes .set }
  | .tomb of _ => do
      return { v with tombstoned := ← Trie.insert v.tombstoned of.bytes .set }
  | .deploy target to_ => pure { v with deployed := v.deployed.insert target to_ }
  | .pause scope => pure { v with paused := pauseScope v.owners parentOp scope v.paused }
  | .resume scope => pure { v with paused := resumeScope scope v.paused }
  | .owner principal => pure { v with owners := pushSorted principal v.owners }
  | .unowner principal => pure { v with owners := v.owners.filter (· ≠ principal) }
  | .root name => pure { v with roots := pushSorted name v.roots }
  | .unroot name => pure { v with roots := v.roots.filter (· ≠ name) }
  | .coordinator line to_ =>
      match v.lines.get? line with
      | some ls => pure { v with lines := v.lines.insert line { ls with coordinator := to_ } }
      | none => pure v

def apply (view : View) (effects : List Effect) (parentOp : Option ObjectId) : StoreM View :=
  effects.foldlM (applyEffect parentOp) view

def unionSets (roots : List ObjectId) : StoreM ObjectId := do
  let all ← roots.foldlM (fun all r => do
    return all ++ (← Trie.entries r).map Prod.fst) ([] : List Bytes)
  (sortedDedup all).foldlM (fun out k => Trie.insert out k .set) (← Trie.emptyRoot)

def merge (base a b : View) : StoreM View := do
  let entities ← Trie.merge3 base.entities a.entities b.entities .pointers
  let claims ← Trie.merge3 base.claims a.claims b.claims .pointers
  let proposed ← Trie.merge3 base.proposed a.proposed b.proposed .set
  let caps ← Trie.merge3 base.caps a.caps b.caps .set
  let revoked ← unionSets [base.revoked, a.revoked, b.revoked]
  let tombstoned ← unionSets [base.tombstoned, a.tombstoned, b.tombstoned]
  return {
    entities
    proposed
    claims
    caps
    revoked
    tombstoned
    lines := mergeLines base.lines a.lines b.lines
    roots := mergeSetVec base.roots a.roots b.roots
    owners := mergeSetVec base.owners a.owners b.owners
    deployed := mergeDeployed base.deployed a.deployed b.deployed
    paused := mergePaused a.paused b.paused }

end ViewState

end Tessra.Oplog
