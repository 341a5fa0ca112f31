import Tessra.Daemon.Revisions
import Tessra.Semantic.Matching

namespace Tessra.Semantic.Merge

open Tessra.Core Tessra.Data
open Tessra.Daemon (Rename)

/-! Node-level three-way merge of one file.  Units line up across the base and the
two sides by id, then by a recorded rename, then by kind and name; a unit that one
side changed is taken from it, a container that both changed is merged child by
child.  Where the renames of one side land in the text of another is for the parser
to say. -/

/-- One version of a file, its nodes in document order with parents first. -/
structure FileNodes where
  text : Bytes
  nodes : List Node

inductive Side
  | a
  | b
deriving DecidableEq

def Side.other : Side → Side
  | .a => .b
  | .b => .a

def sides {α : Type} (x y : α) : Side → α
  | .a => x
  | .b => y

@[simp] theorem sides_a {α : Type} (x y : α) : sides x y .a = x := rfl

@[simp] theorem sides_b {α : Type} (x y : α) : sides x y .b = y := rfl

structure Unit where
  nid : EntityId
  kind : String
  name : String
  span : ℕ × ℕ
  body : ObjectId
  /-- Where the previous sibling ends, or the container's first child starts. -/
  gapStart : ℕ
  children : List Unit

/-- How a unit lines up across the three versions of one level: as a base unit, or as
an addition. -/
inductive Key
  | id (nid : EntityId)
  | new (kind name : String) (ordinal : ℕ)
deriving DecidableEq

section Units

/-- Each node with the end of the one before it. -/
def withGaps : ℕ → List Node → List (Node × ℕ)
  | _, [] => []
  | prevEnd, n :: rest => (n, prevEnd) :: withGaps n.span.2 rest

variable (nodes : List Node)

def kidsOf (parent : Option EntityId) : List Node := nodes.filter (·.parent = parent)

/-- The units below a parent, as deep as the fuel reaches. -/
def make : ℕ → Option EntityId → ℕ → List Unit
  | 0, _, _ => []
  | fuel + 1, parent, regionStart =>
      (withGaps regionStart (kidsOf nodes parent)).map fun n =>
        let firstKid := (kidsOf nodes (some n.1.nid)).head?.map (·.span.1)
        { nid := n.1.nid
          kind := n.1.kind
          name := n.1.name
          span := n.1.span
          body := n.1.body
          gapStart := n.2
          children := make fuel (some n.1.nid) (firstKid.getD n.1.span.2) }

/-- No unit lies deeper than there are nodes. -/
def buildUnits : List Unit := make nodes nodes.length none 0

end Units

section Keys

/-- The base units that are taken, and the keys given so far. -/
structure Aligned where
  taken : List ℕ
  out : ℕ → Option Key

/-- The unit at `i` is the base unit at `b`. -/
def Aligned.take (s : Aligned) (b i : ℕ) (nid : EntityId) : Aligned where
  taken := b :: s.taken
  out := Function.update s.out i (some (.id nid))

variable (base side : List Unit)

def byNid (nid : EntityId) : Option ℕ :=
  (base.zipIdx.reverse.find? (·.1.nid = nid)).map Prod.snd

/-- A unit is the base unit whose id it carries. -/
def alignId (s : Aligned) (e : Unit × ℕ) : Aligned :=
  match byNid base e.1.nid with
  | some b => if b ∈ s.taken then s else s.take b e.2 e.1.nid
  | none => s

/-- A unit is the base unit that a recorded rename says it was, when nothing of the
level still carries the old name. -/
def alignRecorded (s : Aligned) (r : Rename) : Aligned :=
  match base.zipIdx.find? fun e =>
    e.1.name = r.from ∧ (byNid base e.1.nid).all (· ∉ s.taken) with
  | some (u, b) =>
      if side.any fun v => v.name = r.from ∧ v.kind = u.kind then s
      else
        match side.zipIdx.find? fun e =>
          (s.out e.2).isNone ∧ e.1.name = r.to ∧ e.1.kind = u.kind with
        | some (_, i) => s.take b i u.nid
        | none => s
  | none => s

def alignBody (s : Aligned × List (Unit × ℕ)) (e : Unit × ℕ) : Aligned × List (Unit × ℕ) :=
  match s.2.find? (·.1.body = e.1.body) with
  | some c => (s.1.take c.2 e.2 c.1.nid, s.2.eraseP (·.1.body = e.1.body))
  | none => s

def alignRest (s : Aligned × List (Unit × ℕ)) (e : Unit × ℕ) : Aligned × List (Unit × ℕ) :=
  match s.1.out e.2, s.2 with
  | none, c :: rest => (s.1.take c.2 e.2 c.1.nid, rest)
  | _, _ => s

/-- What is left lines up by kind and name, the same body first and then in order, each
kind and name once. -/
def alignGroup (s : Aligned × List (String × String)) (e : Unit × ℕ) :
    Aligned × List (String × String) :=
  let (u, i) := e
  if (s.1.out i).isSome ∨ (u.kind, u.name) ∈ s.2 then s
  else
    let members := (side.zipIdx.drop i).filter fun e =>
      (s.1.out e.2).isNone ∧ e.1.kind = u.kind ∧ e.1.name = u.name
    let candidates := base.zipIdx.filter fun e =>
      e.2 ∉ s.1.taken ∧ e.1.kind = u.kind ∧ e.1.name = u.name
    let bodies := members.foldl alignBody (s.1, candidates)
    ((members.foldl alignRest bodies).1, (u.kind, u.name) :: s.2)

def aligned (recorded : List Rename) : Aligned :=
  let s₁ := side.zipIdx.foldl (alignId base) ⟨[], fun _ => none⟩
  let s₂ := recorded.foldl (alignRecorded base side) s₁
  (side.zipIdx.foldl (alignGroup base side) (s₂, [])).1

/-- One key per unit of a side at one level: what lines up with nothing is an addition,
counted among those of its kind and name. -/
def keys (recorded : List Rename) : List Key :=
  let s := aligned base side recorded
  side.zipIdx.map fun (u, i) =>
    (s.out i).getD (.new u.kind u.name ((side.zipIdx.take i).filter fun e =>
      (s.out e.2).isNone ∧ e.1.kind = u.kind ∧ e.1.name = u.name).length)

end Keys

section Order

/-- The place behind a key. -/
def placeAfter (keys : List Key) : Option Key → ℕ
  | some p => (keys.idxOf? p).elim keys.length (· + 1)
  | none => 0

variable (base : List Key)

/-- A key goes after the one that precedes it on its side, behind the additions that
are there already. -/
def insertKey (s : List Key × Option Key) (key : Key) : List Key × Option Key :=
  if key ∈ s.1 then (s.1, some key)
  else
    let after := placeAfter s.1 s.2
    let pos := after + ((s.1.drop after).takeWhile (· ∉ base)).length
    (s.1.insertIdx pos key, some key)

/-- Document order for the merged level: the base's, with the additions of each side. -/
def orderedKeys (a b : List Key) : List Key :=
  let additions := fun result side => (side.foldl (insertKey base) (result, none)).1
  additions (additions base a) b

end Order

/-- One level of one version, its units with their keys. -/
structure Level where
  units : List Unit
  keys : List Key

def Level.find (l : Level) (key : Key) : Option Unit := (l.keys.idxOf? key).bind (l.units[·]?)

def slice (text : Bytes) (start stop : ℕ) : Bytes := (text.take stop).drop start

def Unit.text (u : Unit) (text : Bytes) : Bytes := slice text u.span.1 u.span.2

def headEnd (u : Unit) : ℕ := (u.children.head?.map (·.span.1)).getD u.span.2

def header (text : Bytes) (u : Unit) : Bytes := slice text u.span.1 (headEnd u)

def footer (text : Bytes) (u : Unit) : Bytes :=
  slice text ((u.children.getLast?.map (·.span.2)).getD u.span.2) u.span.2

/-- One identifier token to replace, by the renames at these places. -/
structure Edit where
  start : ℕ
  stop : ℕ
  «to» : Bytes
  applied : List ℕ

/-- Apply the edits inside a slice; also the renames that changed something. -/
def applyEdits (text : Bytes) (start stop : ℕ) (edits : List Edit) : Bytes × List ℕ :=
  let hi := min stop text.length
  let lo := min start hi
  let (out, applied, last) := edits.foldl (fun (out, applied, last) e =>
    if e.start < lo ∨ hi < e.stop ∨ e.start < last then (out, applied, last)
    else
      (out ++ slice text last e.start ++ e.to,
        e.applied.foldl (fun applied r => if r ∈ applied then applied else applied ++ [r]) applied,
        e.stop)) (([] : Bytes), ([] : List ℕ), lo)
  (out ++ slice text last hi, applied)

/-- What the merge of a file reads at every level. -/
structure Ctx where
  base : Option Bytes
  text : Side → Bytes
  /-- Every rename of a side, recorded or inferred. -/
  renames : Side → List Rename
  recorded : Side → List Rename
  /-- Where the other side's renames land in a side's text. -/
  edits : Side → List Edit
  /-- Where a side's own renames land in the base's. -/
  baseEdits : Side → List Edit

/-- What a piece of the output is. -/
inductive Part
  | gap
  | unit (side : Side) (u : Unit)
  | header (side : Side) (base : Option Unit) (x y : Unit)
  | footer (side : Side) (base : Option Unit) (x y : Unit)
  | tail (side : Side)

structure Piece where
  part : Part
  text : Bytes

/-- The output piece by piece, the units that could not be merged, and the renames that
were applied to what the other side contributes. -/
structure Merged where
  out : List Piece
  conflicts : List String
  resolved : List String

def Merged.text (m : Merged) : Bytes := m.out.flatMap Piece.text

def Merged.put (m : Merged) (part : Part) (text : Bytes) : Merged :=
  { m with out := m.out ++ [⟨part, text⟩] }

def Merged.conflict (m : Merged) (messages : List String) : Merged :=
  { m with conflicts := m.conflicts ++ messages }

def asciiWhitespace (b : Byte) : Bool := b.val ∈ [9, 10, 12, 13, 32]

/-- The gap before a unit, or a line break where there is none and a line is open. -/
def pushGap (m : Merged) (gap : Bytes) : Merged :=
  let line := m.text.reverse.takeWhile (·.val ≠ 10)
  m.put .gap (if gap = [] ∧ line.any (!asciiWhitespace ·) then [10] else gap)

section Leaves

variable (ctx : Ctx)

def Merged.resolve (m : Merged) (side : Side) (u : Unit) (applied : List ℕ) : Merged :=
  { m with
    resolved := m.resolved ++ applied.filterMap fun i =>
      (ctx.renames side.other)[i]?.map fun r =>
        s!"{u.kind} {u.name}: {r.from} renamed to {r.to}" }

/-- A unit of a side with the other side's renames applied to it. -/
def renamed (side : Side) (u : Unit) : Bytes × List ℕ :=
  applyEdits (ctx.text side) u.span.1 u.span.2 (ctx.edits side)

def emitLeaf (side : Side) (u : Unit) (gap : Bytes) (m : Merged) : Merged :=
  let (fixed, applied) := renamed ctx side u
  ((pushGap m gap).resolve ctx side u applied).put (.unit side u) fixed

/-- The gap before a unit: a side's where the unit follows what it follows in the
output, the preferred side first. -/
def gapBefore (level : Side → Level) (key : Key) (prefer : Side) (last : Option Key) : Bytes :=
  let lined := fun side => do
    let i ← (level side).keys.idxOf? key
    let pred := if i = 0 then none else (level side).keys[i - 1]?
    let u ← (level side).units[i]?
    if pred = last then some (slice (ctx.text side) u.gapStart u.span.1) else none
  ((lined prefer) <|> (lined prefer.other)).getD
    (((level prefer).find key).elim [] fun u => slice (ctx.text prefer) u.gapStart u.span.1)

/-- A side's change to a unit is its own renames and nothing else. -/
def changeIsRenames (side : Side) (base u : Unit) : Bool :=
  match ctx.base with
  | none => false
  | some text =>
      let (fixed, applied) := applyEdits text base.span.1 base.span.2 (ctx.baseEdits side)
      !applied.isEmpty && fixed = u.text (ctx.text side)

end Leaves

/-- What becomes of a key: a unit of a side, perhaps with a conflict, or a container
merged child by child. -/
inductive Verdict
  | nothing
  | emit (conflicts : List String) (side : Side) (u : Unit)
  | descend (base : Option Unit) (x y : Unit)

def changed (base u : Unit) : Bool := u.body ≠ base.body ∨ u.name ≠ base.name

section Levels

variable (ctx : Ctx)

def deletedChanged (u : Unit) : String :=
  s!"{u.kind} {u.name} (deleted on one side, changed on the other)"

/-- Both sides changed a unit of the base. -/
def bothChanged (b x y : Unit) : Verdict :=
  if x.body = y.body ∧ x.name = y.name then .emit [] .a x
  else if x.name ≠ b.name ∧ y.name ≠ b.name ∧ x.name ≠ y.name then
    .emit [s!"{b.kind} {b.name} (renamed to {x.name} on one side and {y.name} on the other)"] .a x
  else if changeIsRenames ctx .a b x then .emit [] .b y
  else if changeIsRenames ctx .b b y then .emit [] .a x
  else if x.children ≠ [] ∧ y.children ≠ [] ∧ b.children ≠ [] then .descend (some b) x y
  else
    let reason := if x.name ≠ b.name ∨ y.name ≠ b.name then
      " (renamed on one side, changed on the other)" else ""
    .emit [s!"{b.kind} {b.name}{reason}"] .a x

def verdict : Option Unit → Option Unit → Option Unit → Verdict
  | _, none, none => .nothing
  | none, some x, none => .emit [] .a x
  | none, none, some y => .emit [] .b y
  | none, some x, some y =>
      if x.body = y.body then .emit [] .a x
      else if x.children ≠ [] ∧ y.children ≠ [] then .descend none x y
      else .emit [s!"{x.kind} {x.name}"] .a x
  | some b, none, some y => if changed b y then .emit [deletedChanged y] .b y else .nothing
  | some b, some x, none => if changed b x then .emit [deletedChanged x] .a x else .nothing
  | some b, some x, some y =>
      match changed b x, changed b y with
      | false, false =>
          -- formatting only, if anything
          let baseText := ctx.base.elim [] b.text
          if x.text (ctx.text .a) ≠ baseText then .emit [] .a x else .emit [] .b y
      | true, false => .emit [] .a x
      | false, true => .emit [] .b y
      | true, true => bothChanged ctx b x y

def baseLevel (base : List Unit) : Level := ⟨base, base.map (.id ·.nid)⟩

/-- A side of a level, lined up with the base. -/
def sideLevel (base : List Unit) (units : Side → List Unit) (side : Side) : Level :=
  ⟨units side, keys base (units side) (ctx.recorded side)⟩

/-- A unit that would be a second definition of its name. -/
def collision (base : Level) (level : Side → Level) (side : Side) (e : Unit × Key) :
    Option String :=
  let (u, key) := e
  match key with
  | .new _ _ _ =>
      ((ctx.renames side.other).find? (·.to = u.name)).map fun r =>
        s!"{u.kind} {u.name} (added on one side, {r.from} renamed to it on the other)"
  | .id nid => do
      let b ← base.find key
      if u.name = b.name ∨ !isIdent u.name then none
      else if base.units.any fun x => x.nid ≠ nid ∧ x.kind = u.kind ∧ x.name = u.name then
        some s!"{u.kind} {b.name} (renamed to {u.name}, which the base already defines)"
      else
        let other := level side.other
        let elsewhere := (other.units.zip other.keys).findSome? fun x =>
          match x.2 with
          | .id o => if x.1.kind = u.kind ∧ x.1.name = u.name ∧ o ≠ nid then some o else none
          | .new _ _ _ => none
        let o ← elsewhere
        let old := ((base.find (.id o)).map Unit.name).getD ""
        some (s!"{u.kind} {b.name} (renamed to {u.name} on one side, {old} renamed to it " ++
          "on the other)")

def collisions (base : Level) (level : Side → Level) : List String :=
  [Side.a, .b].flatMap fun side =>
    ((level side).units.zip (level side).keys).filterMap (collision ctx base level side)

/-- The side that a region between units is taken from: the second where the first left
it as the base has it. -/
def regionSide (base : Option Bytes) (a : Bytes) : Side := if some a = base then .b else .a

def baseRegion (region : Bytes → Unit → Bytes) (base : Option Unit) : Option Bytes :=
  base.bind fun b => ctx.base.map (region · b)

def baseKids (base : Option Unit) : List Unit := base.elim [] Unit.children

def kids (x y : Unit) (side : Side) : List Unit := (sides x y side).children

/-- Keep the header and footer from whichever side changed them, and merge the
children. -/
def mergeContainer (level : List Unit → (Side → List Unit) → Merged → Merged)
    (base : Option Unit) (x y : Unit) (gap : Side → Bytes) (m : Merged) : Merged :=
  let headSide := regionSide (baseRegion ctx header base) (header (ctx.text .a) x)
  let head := sides x y headSide
  let (text, applied) := applyEdits (ctx.text headSide) head.span.1 (headEnd head)
    (ctx.edits headSide)
  let opened := ((pushGap m (gap headSide)).resolve ctx headSide x applied).put
    (.header headSide base x y) text
  let merged := level (baseKids base) (kids x y) opened
  let footSide := regionSide (baseRegion ctx footer base) (footer (ctx.text .a) x)
  merged.put (.footer footSide base x y) (footer (ctx.text footSide) (sides x y footSide))

/-- The units of a key in the base and the two sides. -/
def verdictAt (base : List Unit) (units : Side → List Unit) (key : Key) : Verdict :=
  verdict ctx ((baseLevel base).find key) ((sideLevel ctx base units .a).find key)
    ((sideLevel ctx base units .b).find key)

def levelKeys (base : List Unit) (units : Side → List Unit) : List Key :=
  orderedKeys (baseLevel base).keys (sideLevel ctx base units .a).keys
    (sideLevel ctx base units .b).keys

/-- One key of a level, and the key last emitted. -/
def mergeKey (level : List Unit → (Side → List Unit) → Merged → Merged) (base : List Unit)
    (units : Side → List Unit) (s : Merged × Option Key) (key : Key) : Merged × Option Key :=
  let gap := fun prefer => gapBefore ctx (sideLevel ctx base units) key prefer s.2
  let m := match verdictAt ctx base units key with
    | .nothing => s.1
    | .emit conflicts side u => emitLeaf ctx side u (gap side) (s.1.conflict conflicts)
    | .descend b x y => mergeContainer ctx level b x y gap s.1
  (m, if m.text.length ≠ s.1.text.length then some key else s.2)

/-- The fuel bounds how deep containers nest. -/
def mergeLevel : ℕ → List Unit → (Side → List Unit) → Merged → Merged
  | 0, _, _, m => m
  | fuel + 1, base, units, m =>
      let m := m.conflict (collisions ctx (baseLevel base) (sideLevel ctx base units))
      ((levelKeys ctx base units).foldl (mergeKey ctx (mergeLevel fuel) base units) (m, none)).1

end Levels

section Files

/-- Each unit that keeps its id under another identifier is a rename. -/
def inferredRenames (before after : List Node) : List Rename :=
  after.filterMap fun n => do
    let b ← before.reverse.find? (·.nid = n.nid)
    if b.name ≠ n.name ∧ isIdent b.name ∧ isIdent n.name then
      some ⟨b.name, n.name, some ""⟩
    else none

def allRenames (inferred ops : List Rename) : List Rename :=
  ops.foldl (fun out r => if out.any fun x => x.from = r.from ∧ x.to = r.to then out
    else out ++ [r]) inferred

variable (renameEdits : Bytes → List Rename → List Edit) (base : Option FileNodes)
  (file : Side → FileNodes) (ops : Side → List Rename)

def fileCtx : Ctx :=
  let renames := fun side =>
    allRenames (inferredRenames (base.elim [] FileNodes.nodes) (file side).nodes) (ops side)
  { base := base.map FileNodes.text
    text := fun side => (file side).text
    renames
    recorded := ops
    edits := fun side => renameEdits (file side).text (renames side.other)
    baseEdits := fun side => base.elim [] fun f => renameEdits f.text (renames side) }

/-- The text after the last unit. -/
def tail (f : FileNodes) : Bytes :=
  f.text.drop (((buildUnits f.nodes).getLast?.map (·.span.2)).getD 0)

/-- Merge one file; there is no base when both sides added it. -/
def mergeFile : Merged :=
  let m := mergeLevel (fileCtx renameEdits base file ops) ((file .a).nodes.length + 1)
    (base.elim [] fun f => buildUnits f.nodes) (fun side => buildUnits (file side).nodes)
    ⟨[], [], []⟩
  let side := regionSide (base.map tail) (tail (file .a))
  m.put (.tail side) (tail (file side))

end Files

end Tessra.Semantic.Merge
