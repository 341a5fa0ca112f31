import Tessra.Core.Object

namespace Tessra.Semantic

open Tessra.Core Tessra.Data

/-! History-aware node identity: a file's units are matched against the previous
version of the same file, and what is new gets fresh ids. -/

/-- A unit found in a file, before identity is assigned. -/
structure RawNode where
  kind : String
  name : String
  span : ℕ × ℕ
  body : ObjectId
  /-- The place of the enclosing container. -/
  parent : Option ℕ
  setlike : Bool
  refs : List String
  shingles : List ℕ
deriving DecidableEq

def isIdent (s : String) : Bool :=
  match s.toList with
  | [] => false
  | c :: rest => (c.isAlpha || c = '_') && (c :: rest).all fun c => c.isAlphanum || c = '_'

/-- The ids that are taken, and the units that took them. -/
structure Matched where
  used : List EntityId
  assigned : ℕ → Option EntityId

/-- The unit takes the id unless another has. -/
def Matched.take (s : Matched) (i : ℕ) (nid : EntityId) : Matched :=
  if nid ∈ s.used then s else ⟨nid :: s.used, Function.update s.assigned i (some nid)⟩

/-- The id of the parent, if it has one already. -/
def Matched.parentNid (s : Matched) (r : RawNode) : Option EntityId := r.parent.bind s.assigned

def Matched.takeAll (s : Matched) (found : List (ℕ × Node)) : Matched :=
  found.foldl (fun s f => s.take f.1 f.2.nid) s

section Group

/-- Members take the first previous unit with their body. -/
def matchBodies (members prevs : List ObjectId) : List ℕ × List (Option ℕ) :=
  members.foldl (fun (taken, slot) body =>
    match (List.range prevs.length).find? fun q => q ∉ taken ∧ prevs[q]? = some body with
    | some q => (q :: taken, slot ++ [some q])
    | none => (taken, slot ++ [none])) ([], [])

/-- Within one group of siblings, which previous unit each current one is: the same
body first, then the position between the units matched around it. -/
def matchGroup (members prevs : List ObjectId) : List (Option ℕ) :=
  ((List.range members.length).foldl (fun (taken, slot) m =>
    if (slot[m]?.join).isSome then (taken, slot)
    else
      let lo := ((slot.take m).reverse.findSome? fun q => q).elim 0 (· + 1)
      let hi := ((slot.drop (m + 1)).findSome? fun q => q).getD prevs.length
      match (List.range' lo (hi - lo)).find? (· ∉ taken) with
      | some q => (q :: taken, slot.set m (some q))
      | none => (taken, slot)) (matchBodies members prevs)).2

def key (r : RawNode) : Option ℕ × String × String := (r.parent, r.kind, r.name)

variable (raw : List RawNode) (previous : List Node)

/-- Pass 1: the first unit of a group finds the previous units of the group, those
with the same parent, kind and name. -/
def byName (s : Matched) (e : RawNode × ℕ) : List (ℕ × Node) :=
  let (r, i) := e
  if r.name = "" ∨ (raw.take i).any (key · = key r) then []
  else
    let members := (raw.zipIdx.drop i).filter fun e => key e.1 = key r
    let prevs := previous.filter fun n =>
      n.name ≠ "" ∧ n.parent = s.parentNid r ∧ n.kind = r.kind ∧ n.name = r.name
    let slots := matchGroup (members.map (·.1.body)) (prevs.map Node.body)
    (members.zip slots).filterMap fun m => (m.2.bind (prevs[·]?)).map (m.1.2, ·)

/-- Pass 2: the same body under the same parent, for renames. -/
def byBody (s : Matched) (e : RawNode × ℕ) : List (ℕ × Node) :=
  let (r, i) := e
  if (s.assigned i).isSome then []
  else
    ((previous.find? fun n => n.parent = s.parentNid r ∧ n.kind = r.kind ∧ n.body = r.body ∧
      n.nid ∉ s.used).map (i, ·)).toList

/-- Where the previous version had a unit's id. -/
def anchor (assigned : ℕ → Option EntityId) (i : ℕ) : Option ℕ :=
  (assigned i).bind fun nid =>
    (previous.zipIdx.reverse.find? (·.1.nid = nid)).map Prod.snd

/-- Pass 2b: a nameless unit takes the nameless unit between the same matched
neighbours. -/
def byPosition (anchors : ℕ → Option ℕ) (s : Matched × ℕ) (e : RawNode × ℕ) :
    Option (Node × ℕ) :=
  let (r, i) := e
  if (s.1.assigned i).isSome ∨ r.name ≠ "" then none
  else
    let before := (List.range i).reverse.findSome? anchors
    let after := (List.range' (i + 1) (raw.length - (i + 1))).findSome? anchors
    let lo := max (before.elim 0 (· + 1)) s.2
    let hi := after.getD previous.length
    ((previous.zipIdx.take hi).drop lo).find? fun n =>
      n.1.name = "" ∧ n.1.kind = r.kind ∧ n.1.parent = s.1.parentNid r ∧ n.1.nid ∉ s.1.used

def jaccardBoth : List ℕ → List ℕ → ℕ
  | x :: a, y :: b =>
      if x < y then jaccardBoth a (y :: b)
      else if y < x then jaccardBoth (x :: a) b
      else jaccardBoth a b + 1
  | _, _ => 0
termination_by a b => a.length + b.length

/-- The Jaccard overlap of two sorted, deduplicated shingle sets. -/
def jaccard (a b : List ℕ) : ℚ :=
  if a = [] ∨ b = [] then 0
  else
    let both := jaccardBoth a b
    both / (a.length + b.length - both : ℕ)

def similarity : ℚ := 6 / 10

/-- The last of the best scores. -/
def maxScore (scores : List (Node × ℚ)) : Option (Node × ℚ) :=
  scores.foldl (fun best x =>
    match best with
    | none => some x
    | some b => if b.2 ≤ x.2 then some x else some b) none

/-- Pass 2c: a named unit takes the named unit under the same parent that it most
resembles. -/
def bySimilarity (shingles : EntityId → Option (List ℕ)) (s : Matched) (e : RawNode × ℕ) :
    List (ℕ × Node) :=
  let (r, i) := e
  if (s.assigned i).isSome ∨ r.name = "" ∨ r.shingles = [] then []
  else
    let candidates := previous.filter fun n =>
      n.nid ∉ s.used ∧ n.name ≠ "" ∧ n.kind = r.kind ∧ n.parent = s.parentNid r
    let best := maxScore (candidates.filterMap fun n =>
      (shingles n.nid).map fun sh => (n, jaccard sh r.shingles))
    ((best.filter fun b => similarity ≤ b.2).map fun b => (i, b.1)).toList

end Group

section Passes

variable (raw : List RawNode) (previous : List Node)

def pass (found : Matched → RawNode × ℕ → List (ℕ × Node)) (s : Matched) : Matched :=
  raw.zipIdx.foldl (fun s e => s.takeAll (found s e)) s

/-- The pass over nameless units, and how far it got in the previous version. -/
def positionStep (anchors : ℕ → Option ℕ) (s : Matched × ℕ) (e : RawNode × ℕ) : Matched × ℕ :=
  match byPosition raw previous anchors s e with
  | some (n, p) => (s.1.take e.2 n.nid, p + 1)
  | none => s

def positionPass (s : Matched) : Matched :=
  (raw.zipIdx.foldl (positionStep raw previous (anchor previous s.assigned)) (s, 0)).1

/-- The shingles of the previous units, where similarity can still match one. -/
def prevShingles (extract : String → Bytes → List RawNode) (path : String)
    (source : Option Bytes) (s : Matched) : EntityId → Option (List ℕ) :=
  let wants := (raw.zipIdx.any fun e =>
      (s.assigned e.2).isNone && e.1.name ≠ "" && !e.1.shingles.isEmpty) &&
    previous.any fun n => n.nid ∉ s.used && n.name ≠ ""
  match source with
  | some src =>
      if wants then
        let bySpan := ((extract path src).map fun r => (r.span, r.shingles)).reverse
        let pairs := previous.filterMap fun n => (bySpan.lookup n.span).map (n.nid, ·)
        fun nid => pairs.reverse.lookup nid
      else fun _ => none
  | none => fun _ => none

variable (extract : String → Bytes → List RawNode) (fresh : ℕ → EntityId) (path : String)
  (source : Option Bytes)

def start : Matched := ⟨[], fun _ => none⟩

/-- What the passes match. -/
def matching : Matched :=
  let s₁ := pass raw (byName raw previous) start
  let s₂ := pass raw (byBody previous) s₁
  let s₃ := positionPass raw previous s₂
  pass raw (bySimilarity previous (prevShingles raw previous extract path source s₃)) s₃

/-- The units that nothing matched get fresh ids. -/
def assignOnly : List Node :=
  let s := matching raw previous extract path source
  let assigned := fun i => (s.assigned i).getD (fresh i)
  raw.zipIdx.map fun (r, i) =>
    { nid := assigned i
      path
      kind := r.kind
      name := r.name
      span := r.span
      body := r.body
      parent := r.parent.map assigned
      deps := none
      setlike := if r.setlike then some true else none }

/-- The units of a name: a test is never what code refers to. -/
def idsByName (nodes : List Node) (name : String) : List EntityId :=
  (nodes.filter fun n => n.name = name ∧ isIdent n.name ∧ n.kind ≠ "test" ∧
    n.kind ≠ "test.skipped").map Node.nid

/-- Also the references of each unit that did not resolve to one of the file. -/
def assignIdsWithRefs : List Node × List (List String) :=
  let nodes := assignOnly raw previous extract fresh path source
  let resolved := (nodes.zip raw).map fun (n, r) =>
    let deps := sortedDedup (r.refs.flatMap fun name =>
      (idsByName nodes name).filter (· ≠ n.nid))
    ({ n with deps := if deps.isEmpty then none else some deps },
      r.refs.filter fun name => (idsByName nodes name).isEmpty)
  (resolved.map Prod.fst, resolved.map Prod.snd)

def assignIds : List Node := (assignIdsWithRefs raw previous extract fresh path none).1

end Passes

end Tessra.Semantic
