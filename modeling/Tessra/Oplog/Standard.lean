import Tessra.Oplog.View

namespace Tessra.Oplog.Standard

open Tessra.Core Tessra.Data

/-! Deterministic evaluation of a standard against a revision and the cited
attestations. -/

/-- One clause that did not hold, with a reason. -/
structure Unmet where
  clause : String
  reason : String
deriving DecidableEq

def defaultTrunkStandard (id : EntityId) (name : String) : Standard where
  id := id
  prev := none
  name := name
  «extends» := none
  clauses := [{
    op := "require"
    pred := { kind := "structural", name := some "flags.none", args := none }
    «unless» := none }]
  scopes := none
  when := none
  auditPermille := none

/-- Principal kinds whose attestations satisfy `attest` clauses. -/
def trustedAttesters : List String :=
  ["verifier", "daemon", "hook", "external", "human", "observer", "deployer"]

/-- Kinds that are not code a test could cover. -/
def uncoverableKinds : List String :=
  ["import", "chunk", "test", "test.skipped", "impl", "module", "variant", "field"]

section Predicates

/-- A field given at most once. -/
def fieldOnce (name : String) (entries : List (Value × Value)) : Option (Option Value) :=
  match entries.filter fun e => e.1 = .text name with
  | [] => some none
  | [e] => some (some e.2)
  | _ => none

def optional {α : Type} (read : Value → Option α) : Option Value → Option (Option α)
  | none => some none
  | some .null => some none
  | some v => (read v).map some

def argsOf : Value → Option (OrdMap String Value)
  | .map entries => do
      let pairs ← entries.mapM fun e => e.1.asText.map fun k => (k, e.2)
      return pairs.foldl (fun m e => m.insert e.1 e.2) ∅
  | _ => none

def predicateOf : Value → Option Predicate
  | .map entries => do
      guard (entries.all fun e => e.1.asText.isSome)
      let kind ← (← fieldOnce "kind" entries) >>= Value.asText
      let name ← (← fieldOnce "name" entries) |> optional Value.asText
      let args ← (← fieldOnce "args" entries) |> optional argsOf
      return { kind, name, args }
  | _ => none

def arg (p : Predicate) (k : String) : Option Value := p.args.bind fun a => a.get? k

def subPreds (p : Predicate) : List Predicate :=
  match arg p "preds" with
  | some (.array items) => (items.mapM predicateOf).getD []
  | _ => []

/-- How deep predicates nest in a predicate's arguments. -/
def predDepth (p : Predicate) : ℕ :=
  match p.args with
  | none => 1
  | some args => Value.depthItems args.values + 1

def argText (p : Predicate) (k : String) : Option String := (arg p k).bind Value.asText

def argTrue (p : Predicate) (k : String) : Bool := arg p k = some (.bool true)

def parseInt (s : String) : Option ℤ :=
  let digits (l : List Char) : Option ℕ :=
    if l ≠ [] ∧ l.all Char.isDigit then
      some (l.foldl (fun n c => n * 10 + (c.toNat - '0'.toNat)) 0)
    else none
  match s.toList with
  | '-' :: l => (digits l).map fun n => -(n : ℤ)
  | '+' :: l => (digits l).map Int.ofNat
  | l => (digits l).map Int.ofNat

def parseI64 (s : String) : Option ℤ :=
  (parseInt s).filter fun n => -(2 ^ 63 : ℤ) ≤ n ∧ n < 2 ^ 63

/-- An integer cut to 64 bits, two's complement. -/
def asI64 (i : ℤ) : ℤ := i.bmod (2 ^ 64)

/-- An integer cut to 32 bits, unsigned. -/
def asU32 (i : ℤ) : ℕ := (i % 2 ^ 32).toNat

def argInt (p : Predicate) (k : String) : Option ℤ :=
  (arg p k).bind fun
    | .integer i => some (asI64 i)
    | .text t => parseI64 t
    | _ => none

mutual
def valueText : Value → String
  | .text t => t
  | .bool b => toString b
  | .integer i => toString i
  | .array l => "[" ++ " ".intercalate (itemTexts l) ++ "]"
  | v => v.debug

def itemTexts : List Value → List String
  | [] => []
  | v :: l => valueText v :: itemTexts l
end

def describeAt : ℕ → Predicate → String
  | 0, p => s!"{p.kind}()"
  | fuel + 1, p =>
      let args := (p.args.map fun a => a.entries).getD []
      let inner := p.name.toList ++ args.map fun e =>
        if e.1 = "preds" then ", ".intercalate ((subPreds p).map (describeAt fuel))
        else s!"{e.1}={valueText e.2}"
      let body := ", ".intercalate inner
      s!"{p.kind}({body})"

def describe (p : Predicate) : String := describeAt (predDepth p) p

def truthy : Value → Bool
  | .bool b => b
  | .map m => m.any fun e => e.1 = .text "ok" ∧ e.2 = .bool true
  | .integer _ | .text _ | .array _ => true
  | _ => false

def isIdent (s : String) : Bool :=
  match s.toList with
  | [] => false
  | c :: rest => (c.isAlpha || c = '_') && rest.all fun c => c.isAlphanum || c = '_'

def isTestKind (k : String) : Bool := k = "test" || k = "test.skipped"

def names (units : List Node) : String := ", ".intercalate (sortedDedup (units.map Node.name))

end Predicates

/-- A cited attestation with what the view says of its signer. -/
structure Loaded where
  att : Attestation
  signerKind : Option String
  signerParent : Option EntityId
  signerModel : Option String
  signerName : Option String

structure Ctx where
  revision : Revision
  attests : List Loaded
  /-- What an attestation's subject may name to apply to this revision. -/
  subjects : List Bytes
  index : Option NodeIndex
  parentIndex : Option NodeIndex
  /-- The author's durable agent, which no judge may share. -/
  authorParent : Option EntityId

namespace Ctx

variable (ctx : Ctx)

/-- Units added, changed, or renamed against the first parent, by identity. -/
def changedUnits : Option (List Node) := do
  let idx ← ctx.index
  let parent ← ctx.parentIndex
  return idx.nodes.filter fun n =>
    match parent.nodes.reverse.find? fun p => p.nid = n.nid with
    | none => true
    | some p => p.body ≠ n.body || p.name ≠ n.name

def deletedUnits : Option (List Node) := do
  let idx ← ctx.index
  let parent ← ctx.parentIndex
  return parent.nodes.filter fun n => !idx.nodes.any fun m => m.nid = n.nid

def newTests : Option (List Node) := do
  let parent ← ctx.parentIndex
  return (← ctx.changedUnits).filter fun n =>
    isTestKind n.kind && !parent.nodes.any (fun p => p.nid = n.nid) &&
      !parent.nodes.any fun p => p.body = n.body

def trusted (l : Loaded) (allowSelf : Bool) : Bool :=
  allowSelf || l.signerKind.any (· ∈ trustedAttesters)

def onSubject (l : Loaded) : Bool := l.att.subject.any (· ∈ ctx.subjects)

/-- The units that no true attestation of `kind` names in `bodies`. -/
def uncoveredByBodies (kind : String) (units : List Node) (allowSelf : Bool) : List Node :=
  let covered := ctx.attests.flatMap fun l =>
    if l.att.kind = kind && truthy l.att.result && trusted l allowSelf then l.att.bodies.getD []
    else []
  units.filter fun u => u.body ∉ covered

def subjectAttested (kind : String) (allowSelf : Bool) : Bool :=
  ctx.attests.any fun l =>
    l.att.kind = kind && truthy l.att.result && trusted l allowSelf && ctx.onSubject l

/-- The latest trusted risk attestation on this revision, the first cited of equals. -/
def latestRisk : Option Attestation :=
  ctx.attests.foldl (fun best l =>
    if l.att.kind ≠ "risk.change" || !trusted l false then best
    else if ctx.onSubject l && best.all (fun b => b.time < l.att.time) then some l.att
    else best) none

def riskFactor : Value → Option (String × ℕ × String)
  | .map fm =>
      let text k := ((Value.lookupText k fm).bind Value.asText).getD ""
      let points := match Value.lookupText "points" fm with
        | some (.integer i) => asU32 i
        | _ => 0
      some (text "name", points, text "lower")
  | _ => none

/-- Score, level, and factors as name, points and what lowers it. -/
def risk : Option (ℕ × String × List (String × ℕ × String)) := do
  let att ← ctx.latestRisk
  match att.result with
  | .map m =>
      match Value.lookupText "score" m, Value.lookupText "level" m with
      | some (.integer i), some (.text level) =>
          let factors := match Value.lookupText "factors" m with
            | some (.array a) => a.filterMap riskFactor
            | _ => []
          some (asU32 i, level, factors)
      | _, _ => none
  | _ => none

/-- A false attestation of `kind` on this revision, by subject or by any
changed unit's body. -/
def negativeOnRevision (kind : String) : Option Attestation :=
  let changed := (ctx.changedUnits.getD []).map Node.body
  (ctx.attests.find? fun l =>
    l.att.kind = kind && !truthy l.att.result &&
      (ctx.onSubject l || l.att.bodies.any fun b => b.any (· ∈ changed))).map Loaded.att

/-- A false attestation of `kind` about any of these bodies. -/
def negativeFor (kind : String) (units : List Node) : Option Attestation :=
  (ctx.attests.find? fun l =>
    l.att.kind = kind && !truthy l.att.result &&
      l.att.bodies.any fun b => b.any fun x => units.any fun u => u.body = x).map Loaded.att

end Ctx

inductive Holds
  | yes
  | no (reason : String)
deriving DecidableEq

def Holds.ofBool (holds : Bool) (reason : String) : Holds := if holds then .yes else .no reason

/-- Why a negative attestation leaves a clause unmet. -/
def negativeReason (name : String) (neg : Attestation) : String :=
  let scope k := (neg.scope.bind fun s => s.get? k).map valueText
  let failed := (scope "failed").getD ""
  let results :=
    if failed = "" || failed = "[]" then
      match scope "exit" with
      | some code => s!"; the runner exited {code} and reported no per-test results"
      | none => "; no per-test results were reported"
    else s!"; failed: {failed}"
  let output := match neg.evidence with
    | some ev => s!"; its output: query --kind object --id {ev} --tail"
    | none => ""
  s!"{name} is false on this snapshot{results}{output}; fix it and run verify"

/-- The units a structural condition names.  None when the condition is not
unit-based or an index is missing. -/
def structuralUnits (ctx : Ctx) (name : String) : Option (List Node) :=
  let modified := do
    let parent ← ctx.parentIndex
    return (← ctx.changedUnits).filter fun n =>
      isTestKind n.kind && parent.nodes.any fun p => p.nid = n.nid
  let deleted := do
    return (← ctx.deletedUnits).filter fun n => isTestKind n.kind
  if name = "test.modified" then modified
  else if name = "test.deleted" then deleted
  else if name = "test.weakened" then do return (← modified) ++ (← deleted)
  else if name = "test.skipped" then do
    return (← ctx.changedUnits).filter fun n => n.kind = "test.skipped"
  else none

def flagTexts (f : Flags) : List String :=
  let texts (l : List String) := debugList (l.map quote)
  (f.outOfScope.toList.map fun x => s!"out_of_scope {texts x}") ++
    (f.secrets.toList.map fun x => s!"secrets in {texts (x.map SecretMatch.path)}") ++
    (f.caseCollisions.toList.map fun x => s!"case_collisions {debugList (x.map texts)}") ++
    (f.unportableNames.toList.map fun x => s!"unportable_names {texts x}") ++
    (f.generatedDrift.toList.map fun x => s!"generated_drift {texts x}")

def noIndex : String := "no semantic index for this revision or its parent"

/-- Changed units that no test of the revision depends on. -/
def uncoveredChanged (idx : NodeIndex) (changed : List Node) : List Node :=
  let covered := (idx.nodes.filter fun n => n.kind = "test").flatMap fun t => t.deps.getD []
  changed.filter fun n => n.kind ∉ uncoverableKinds && isIdent n.name && n.nid ∉ covered

def holdsStructural (ctx : Ctx) : Option String → Holds
  | none => .no "structural predicate without a name"
  | some name =>
      if name = "flags.none" then
        match ctx.revision.flags with
        | none => .yes
        | some f =>
            match flagTexts f with
            | [] => .yes
            | parts =>
                let parts := "; ".intercalate parts
                .no s!"revision carries flags: {parts}"
      else if name = "intent.linked" then
        .ofBool ctx.revision.intent.isSome "revision has no intent"
      else if name ∈ ["test.modified", "test.deleted", "test.weakened", "test.skipped"] then
        match structuralUnits ctx name with
        | none => .no noIndex
        | some units => .ofBool (!units.isEmpty) s!"no {name} units"
      else if name = "changed.covered" then
        match ctx.index, ctx.changedUnits with
        | none, _ => .no "no semantic index for this revision"
        | some _, none => .no "no semantic index for the parent revision"
        | some idx, some changed =>
            let uncovered := uncoveredChanged idx changed
            .ofBool uncovered.isEmpty
              s!"changed units with no covering test: {names uncovered}; add a test that calls each"
      else .no s!"structural check {name} is not available yet"

/-- A run by bodies counts when it covers every changed unit. -/
def attestedByBodies (ctx : Ctx) (name : String) (allowSelf : Bool) : Bool :=
  match ctx.changedUnits with
  | none => false
  | some changed =>
      let coverable := changed.filter fun n => n.kind ∉ uncoverableKinds || isTestKind n.kind
      !coverable.isEmpty && (ctx.uncoveredByBodies name coverable allowSelf).isEmpty

def holdsAttest (ctx : Ctx) (p : Predicate) : Holds :=
  let name := p.name.getD ""
  let allowSelf := argTrue p "self"
  match argText p "for" with
  | none =>
      if ctx.subjectAttested name allowSelf || attestedByBodies ctx name allowSelf then .yes
      else
        match ctx.negativeOnRevision name with
        | some neg => .no (negativeReason name neg)
        | none => .no s!"no {name} attestation on this snapshot; run verify"
  | some scope =>
      if scope = "new_tests" then
        match ctx.newTests with
        | none => .no noIndex
        | some tests =>
            let missing := ctx.uncoveredByBodies name tests allowSelf
            if missing.isEmpty then .yes
            else
              match ctx.negativeFor name missing with
              | some neg =>
                  let passed := neg.scope.bind fun s => s.get? "passed_on_parent"
                  let detail := (passed.map valueText).getD ""
                  .no s!"new tests do not prove the change, they pass on the parent too: {detail}"
              | none => .no s!"new tests without a {name} proof: {names missing}; run verify"
      else if scope = "changed_nodes" then
        match ctx.changedUnits with
        | none => .no noIndex
        | some changed =>
            let coverable := changed.filter fun n => n.kind ∉ uncoverableKinds
            let missing := ctx.uncoveredByBodies name coverable allowSelf
            .ofBool missing.isEmpty
              s!"changed units without a {name} attestation: {names missing}"
      else .no s!"unknown attest scope for={scope}"

def holdsApproved (ctx : Ctx) (p : Predicate) : Holds :=
  let by_ := p.name.getD "human"
  if by_ ≠ "human" then .no s!"approved by {by_} is not available yet; by=human is"
  else if ctx.attests.any fun l => l.att.kind = "approval.human" && truthy l.att.result &&
      l.signerKind = some "human" && (!argTrue p "keysigned" || l.att.runner.isNone) &&
      ctx.onSubject l then .yes
  else if ctx.attests.any fun l => l.att.kind = "approval.human" && !truthy l.att.result then
    .no "a human declined this change"
  else .no "needs a human's approval through a channel"

def judgeResult : Value → ℤ × String
  | .map m => m.foldl (fun r e =>
      match e with
      | (.text k, .integer i) => if k = "confidence" then (asI64 i, r.2) else r
      | (.text k, .text t) => if k = "reasoning" then (r.1, t) else r
      | _ => r) (1000, "")
  | _ => (1000, "")

structure Verdicts where
  yes : List (EntityId × Option String × String)
  no : List String
  low : List String
  own : ℕ

def addVerdict (ctx : Ctx) (minConf : ℤ) (v : Verdicts) (l : Loaded) : Verdicts :=
  if l.signerParent.isSome && l.signerParent = ctx.authorParent then { v with own := v.own + 1 }
  else
    let name := l.signerName.getD "a judge"
    let (conf, reasoning) := judgeResult l.att.result
    let model := (l.signerModel.map fun m => s!" ({m})").getD ""
    let who := s!"{name}{model}"
    if conf < minConf then { v with low := v.low ++ [s!"{who}: confidence {conf}"] }
    else if truthy l.att.result then
      let key := l.signerParent.getD l.att.verifier
      if v.yes.any fun y => y.1 = key then v
      else { v with yes := v.yes ++ [(key, l.signerModel, who)] }
    else { v with no := v.no ++ [s!"{who}: {reasoning}"] }

def holdsJudge (ctx : Ctx) (p : Predicate) : Holds :=
  let rubric := p.name.getD ""
  let needed := (max ((argInt p "judges").getD 1) 1).toNat
  let minConf := (argInt p "min_confidence").getD 0
  let judges := ctx.attests.filter fun l =>
    l.att.kind = s!"judge.{rubric}" && ctx.onSubject l
  let v := judges.foldl (addVerdict ctx minConf) ⟨[], [], [], 0⟩
  if v.no ≠ [] then
    let no := " | ".intercalate v.no
    .no s!"a judge said no on {rubric}: {no}"
  else if v.yes.length < needed then
    let who := ", ".intercalate (v.yes.map fun y => y.2.2)
    let yes := if v.yes = [] then "" else s!" ({who})"
    let lows := ", ".intercalate v.low
    let low := if v.low = [] then "" else s!"; below min_confidence {minConf}: {lows}"
    let own :=
      if v.own = 0 then "" else s!"; {v.own} from the author's own agent do not count"
    .no s!"needs {needed} judges on {rubric}, has {v.yes.length}{yes}{low}{own}"
  else if argTrue p "distinct_models" &&
      (v.yes.map fun y => y.2.1).dedup.length < min needed v.yes.length then
    let got := ", ".intercalate (v.yes.map fun y => y.2.1.getD "unknown")
    .no s!"judges on {rubric} must use distinct models; got {got}"
  else .yes

def latest (l : List Loaded) : Option Loaded :=
  l.foldl (fun best x => if best.all (fun b => b.att.time ≤ x.att.time) then some x else best) none

def holdsObserve (ctx : Ctx) (p : Predicate) : Holds :=
  let signal := p.name.getD ""
  let observed := ctx.attests.filter fun l =>
    l.att.kind = s!"observe.{signal}" && ctx.onSubject l && Ctx.trusted l false
  match latest observed with
  | none => .no s!"no observe.{signal} attestation on this revision; observe the target first"
  | some l =>
      let value := match l.att.result with
        | .integer i => asI64 i
        | _ => 0
      match (argInt p "max").filter (· < value), (argInt p "min").filter (value < ·) with
      | some m, _ => .no s!"{signal} is {value} permille, above {m}"
      | none, some m => .no s!"{signal} is {value} permille, below {m}"
      | none, none => .yes

def holdsAll (results : List Holds) : Holds := (results.find? (· ≠ .yes)).getD .yes

def holdsAny (results : List Holds) : Holds :=
  .ofBool (.yes ∈ results) "none of the alternatives hold"

def holdsNot : List Holds → Holds
  | .yes :: _ => .no "negated predicate holds"
  | .no _ :: _ => .yes
  | [] => .no "not without a predicate"

def holdsAt (ctx : Ctx) : ℕ → Predicate → Holds
  | 0, p => .no s!"unknown predicate kind {p.kind}"
  | fuel + 1, p =>
      if p.kind = "structural" then holdsStructural ctx p.name
      else if p.kind = "attest" then holdsAttest ctx p
      else if p.kind = "all" then holdsAll ((subPreds p).map (holdsAt ctx fuel))
      else if p.kind = "any" then holdsAny ((subPreds p).map (holdsAt ctx fuel))
      else if p.kind = "not" then holdsNot ((subPreds p).map (holdsAt ctx fuel))
      else if p.kind = "approved" then holdsApproved ctx p
      else if p.kind = "judge" then holdsJudge ctx p
      else if p.kind = "observe" then holdsObserve ctx p
      else if p.kind = "reputation" then
        .no s!"{p.kind} clauses are evaluated from M5 onward"
      else .no s!"unknown predicate kind {p.kind}"

def holds (ctx : Ctx) (p : Predicate) : Holds := holdsAt ctx (predDepth p) p

/-- Why a forbidden structural condition holds, naming the units. -/
def forbiddenReason (ctx : Ctx) (p : Predicate) : String :=
  let name := p.name.getD ""
  match if p.kind = "structural" then structuralUnits ctx name else none with
  | some (u :: units) => s!"{name}: {names (u :: units)}"
  | _ => "the forbidden condition holds"

def checkClause (ctx : Ctx) (c : Clause) : Option Unmet :=
  if c.unless.any fun u => holds ctx u = .yes then none
  else
    let label := match c.unless with
      | some u => s!"{describe c.pred} unless {describe u}"
      | none => describe c.pred
    let h := holds ctx c.pred
    if c.op = "require" then
      match h with
      | .yes => none
      | .no reason => some ⟨s!"require {label}", reason⟩
    else if c.op = "forbid" then
      match h with
      | .yes => some ⟨s!"forbid {label}", forbiddenReason ctx c.pred⟩
      | .no _ => none
    else some ⟨s!"{c.op} {label}", s!"unknown clause op {c.op}"⟩

def levelRank (level : String) : ℕ :=
  if level = "medium" then 1 else if level = "high" then 2 else if level = "critical" then 3 else 0

def checkRiskClauses (ctx : Ctx) (w : RiskClauses) : List Unmet :=
  match ctx.risk with
  | none => [⟨s!"when risk>={w.riskAtLeast}",
      "no risk.change attestation on this revision; run verify"⟩]
  | some (score, level, factors) =>
      if levelRank level < levelRank w.riskAtLeast then []
      else
        (w.clauses.filterMap (checkClause ctx)).map fun u =>
          let top := "; ".intercalate ((factors.take 3).map fun (n, p, l) =>
            s!"{n} +{p} (lower it: {l})")
          ⟨s!"when risk>={w.riskAtLeast}: {u.clause}",
            s!"risk is {level} ({score}); {u.reason}; top factors: {top}"⟩

def checkStandard (ctx : Ctx) (s : Standard) : List Unmet :=
  s.clauses.filterMap (checkClause ctx) ++ (s.when.getD []).flatMap (checkRiskClauses ctx)

section Evaluate

variable [Crypto]

/-- The standards of a chain, the entity's own first. -/
def chainFrom (view : View) : ℕ → EntityId → StoreM (List Standard)
  | 0, _ => throw (.other "standard extends chain too deep")
  | guard + 1, id => do
      match ← ViewState.entity view id with
      | none => throw (.other s!"standard {id} not in view")
      | some ptr =>
          let s ← get Standard (← StoreM.ofExcept ptr.single)
          match s.extends with
          | none => return [s]
          | some next => return s :: (← chainFrom view guard next)

def chain (view : View) (standard : EntityId) : StoreM (List Standard) := do
  return (← chainFrom view 32 standard).reverse

def principalOf (view : View) (id : EntityId) : StoreM (Option Principal) := do
  match ← ViewState.entity view id with
  | none => return none
  | some p =>
      let oid ← StoreM.ofExcept p.single
      tryCatch (some <$> get Principal oid) fun _ => pure none

def loadAttestation (view : View) (id : ObjectId) : StoreM Loaded := do
  let att ← get Attestation id
  let p ← principalOf view (att.runner.getD att.verifier)
  return {
    att
    signerKind := p.map Principal.kind
    signerParent := p.bind Principal.parent
    signerModel := p.bind Principal.model
    signerName := p.map Principal.name }

/-- The index of a snapshot: the one cached against it in the store's
metadata, or else the one it names. -/
def indexOf (records : List (String × Bytes)) (snapId : ObjectId) :
    StoreM (Option NodeIndex) := do
  let snap ← get Snapshot snapId
  let cached ← match (records.lookup s!"idx:{snapId}").bind ObjectId.fromSlice with
    | some id => tryCatch (some <$> get NodeIndex id) fun _ => pure none
    | none => pure none
  match cached, snap.index with
  | some idx, _ => return some idx
  | none, some id => return some (← get NodeIndex id)
  | none, none => return none

def revisionIndex (records : List (String × Bytes)) (revision : Revision) :
    StoreM (Option NodeIndex) :=
  match revision.snapshots.get? "" with
  | some s => indexOf records s
  | none => pure none

/-- The index that a revision without parents is compared with. -/
def emptyIndex : NodeIndex where
  root := zeroObject
  grammars := ""
  parents := []
  nodes := []
  aliases := none

/-- What an attestation may name to apply to a revision: the revision, the one
it was derived from by a merge, and its snapshots. -/
def subjectsOf (revisionId : ObjectId) (revision : Revision) : List Bytes :=
  let derivedFrom := revision.prev.filter fun p => revision.parents[1]? = some p
  (revisionId :: derivedFrom.toList ++ revision.snapshots.values).map ObjectId.bytes

/-- Evaluate a standard for a revision with the cited attestations: the unmet
clauses, none when it is satisfied. -/
def evaluate (records : List (String × Bytes)) (view : View) (standard : EntityId)
    (revisionId : ObjectId) (revision : Revision) (attests : List ObjectId) :
    StoreM (List Unmet) := do
  let chain ← chain view standard
  let loaded ← attests.mapM (loadAttestation view)
  let author ← principalOf view revision.author
  let index ← revisionIndex records revision
  let parentIndex ← match revision.parents.head? with
    | some p => do revisionIndex records (← get Revision p)
    | none => pure (some emptyIndex)
  let ctx := {
    revision
    attests := loaded
    subjects := subjectsOf revisionId revision
    index
    parentIndex
    authorParent := author.bind Principal.parent : Ctx }
  return chain.flatMap (checkStandard ctx)

end Evaluate

end Tessra.Oplog.Standard
