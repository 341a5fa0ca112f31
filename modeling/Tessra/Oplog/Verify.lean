import Tessra.Core.Sig
import Tessra.Oplog.Dag
import Tessra.Oplog.Glob
import Tessra.Oplog.Standard

namespace Tessra.Oplog

open Tessra.Core Tessra.Data

/-! The op verification algorithm.  V is the merged view of the op's parents, C
the receiver's current view.  Steps: parents, author at V, author at C,
signature, authorization, legality, determinism. -/

/-- Verbs every principal may use without a grant. -/
def ungated : List String :=
  ["status", "context", "query", "workspace", "snapshot", "claim", "undo", "sync", "merge_view"]

def Pointer.debug : Pointer → String
  | .id i => s!"Id({i.debug})"
  | .conflict v => s!"Conflict({debugList (v.map ObjectId.debug)})"

def debugOption {α : Type} (debug : α → String) : Option α → String
  | none => "None"
  | some x => s!"Some({debug x})"

def require (holds : Bool) (e : Error) : StoreM Unit := if holds then pure () else throw e

def orThrow {α : Type} (x : Option α) (e : Error) : StoreM α :=
  match x with
  | some a => pure a
  | none => throw e

def requireSigned [Crypto] {T : Type} [SignedObject T] (t : T) (key : PublicKey)
    (reject : String → Error) : StoreM Unit :=
  match verifyWith t key with
  | .ok _ => pure ()
  | .error e => throw (reject e.message)

section Containment

/-- Is what the child allows within what the parent allows?  None allows all. -/
def allowsWithin {α : Type} (within : α → α → Bool) :
    Option (List α) → Option (List α) → Bool
  | _, none => true
  | none, some _ => false
  | some cs, some ps => cs.all fun c => ps.any (within c)

def sameOrFewer {α : Type} [DecidableEq α] (child parent : Option (List α)) : Bool :=
  allowsWithin (fun c p => c = p) child parent

def limitsWithin : Option (OrdMap String ℕ) → Option (OrdMap String ℕ) → Bool
  | _, none => true
  | none, some _ => false
  | some c, some p => c.entries.all fun e => (p.get? e.1).any (e.2 ≤ ·)

def containedIn (child parent : Capability) : Bool :=
  child.verbs.all (· ∈ parent.verbs) &&
    allowsWithin Glob.contained child.write.paths parent.write.paths &&
    allowsWithin Glob.contained child.read.paths parent.read.paths &&
    sameOrFewer child.write.roots parent.write.roots &&
    sameOrFewer child.write.stages parent.write.stages &&
    sameOrFewer child.write.memoryScopes parent.write.memoryScopes &&
    sameOrFewer child.write.nodes parent.write.nodes &&
    sameOrFewer child.write.lines parent.write.lines &&
    sameOrFewer child.write.targets parent.write.targets &&
    limitsWithin child.hard parent.hard

end Containment

namespace Verify

variable [Crypto]

/-- The principal's current version at a view. -/
def resolvePrincipal (view : View) (id : EntityId) :
    StoreM (Option (ObjectId × Principal)) := do
  match ← ViewState.entity view id with
  | none => return none
  | some (.conflict _) => throw (.rejected 3 "author" "principal version is in conflict")
  | some (.id oid) => return some (oid, ← get Principal oid)

/-- Follow a capability to an owner who issued it, in at most `guard` links. -/
def checkChainFrom (view : View) : ℕ → Capability → ObjectId → StoreM Unit
  | 0, _, _ => throw (.rejected 6 "capability" "delegation chain too long")
  | guard + 1, cur, curId => do
      let (_, issuer) ← orThrow (← resolvePrincipal view cur.issuer)
        (.rejected 6 "capability" "capability issuer unknown")
      require (issuer.status = "active" && !(← ViewState.principalRevoked view cur.issuer))
        (.rejected 6 "capability" "capability issuer is revoked")
      let key ← orThrow issuer.key (.rejected 6 "capability" "issuer has no key")
      requireSigned cur key fun e => .rejected 6 "capability" s!"capability {curId}: {e}"
      match cur.parent with
      | none =>
          require (cur.issuer ∈ view.owners)
            (.rejected 6 "capability" "chain does not terminate at an owner")
      | some pid => do
          require (← ViewState.inSet view.caps pid)
            (.rejected 6 "capability" "parent capability is not active")
          let parent ← get Capability pid
          require (parent.subject = cur.issuer)
            (.rejected 6 "capability" "issuer is not the parent's subject")
          require parent.delegable
            (.rejected 6 "capability" "parent capability is not delegable")
          require (containedIn cur parent)
            (.rejected 6 "capability" "child capability exceeds its parent")
          checkChainFrom view guard parent pid

def checkChain (view : View) (cap : Capability) (capId : ObjectId) : StoreM Unit :=
  checkChainFrom view 64 cap capId

/-- The entries of a tree, of all its shards when it has them. -/
def loadEntries (id : ObjectId) : StoreM (List TreeEntry) := do
  let t ← get Tree id
  match t.entries with
  | some e => return e
  | none =>
      let all ← ((t.shards.getD []).filterMap fun shard => shard).foldlM (fun all shard => do
        let st ← get Tree shard
        return all ++ st.entries.getD []) []
      return all.insertionSort fun a b => a.name ≤ b.name

def entriesOf : Option ObjectId → StoreM (List TreeEntry)
  | none => pure []
  | some id => loadEntries id

def joinPath (dir name : String) : String := if dir = "" then name else s!"{dir}/{name}"

def diffTreesAt : ℕ → Option ObjectId → Option ObjectId → String → StoreM (List String)
  | 0, _, _, _ => throw .outOfFuel
  | fuel + 1, old, new, dir =>
      if old = new then pure []
      else do
        let oe ← entriesOf old
        let ne ← entriesOf new
        (sortedDedup (oe.map TreeEntry.name ++ ne.map TreeEntry.name)).foldlM (fun out name => do
          let path := joinPath dir name
          match oe.find? (·.name = name), ne.find? (·.name = name) with
          | some a, some b =>
              if a = b then return out
              else if a.kind = .dir ∧ b.kind = .dir then
                return out ++ (← diffTreesAt fuel a.ref b.ref path)
              else return out ++ [path]
          | some a, none =>
              if a.kind = .dir then return out ++ (← diffTreesAt fuel a.ref none path)
              else return out ++ [path]
          | none, some b =>
              if b.kind = .dir then return out ++ (← diffTreesAt fuel none b.ref path)
              else return out ++ [path]
          | none, none => return out ++ [path]) []

/-- Paths whose content differs between two trees.  No tree nests deeper than
the store has objects. -/
def changedPaths (old : Option ObjectId) (new : ObjectId) : StoreM (List String) := fun S =>
  diffTreesAt (S.length + 1) old (some new) "" S

/-- The paths a revision changed against its first parent must be inside the
write scope. -/
def checkWriteScope (cap : Capability) (revId : ObjectId) : StoreM Unit := do
  let rev ← get Revision revId
  let parent ← match rev.parents.head? with
    | some p => some <$> get Revision p
    | none => pure none
  rev.snapshots.entries.forM fun ⟨root, snapId⟩ => do
    require (cap.write.roots.all (root ∈ ·))
      (.rejected 6 "scope" s!"root {quote root} is outside the write scope")
    let newSnap ← get Snapshot snapId
    let oldRoot ← match parent.bind fun p => p.snapshots.get? root with
      | some s => (fun snap : Snapshot => some snap.root) <$> get Snapshot s
      | none => pure none
    let changed ← changedPaths oldRoot newSnap.root
    changed.forM fun p =>
      require (cap.write.paths.all fun paths => Glob.anyMatch paths p)
        (.rejected 6 "scope" s!"path {p} is outside the write scope")

def requireVerbOf (cap : Capability) (needed : String) : StoreM Unit :=
  require (needed ∈ cap.verbs)
    (.rejected 6 "verb" s!"changing a {needed} needs the {needed} verb")

def checkPointScope (cap : Capability) (to_ : ObjectId) : StoreM Unit := do
  match ← orThrow (← getBytes to_) (.notFound to_) with
  | .memory m =>
      require (cap.write.memoryScopes.all (m.scope.kind ∈ ·))
        (.rejected 6 "scope" s!"capability does not allow memory scope {m.scope.kind}")
  | .standard _ => requireVerbOf cap "standard"
  | .hook _ => requireVerbOf cap "hook"
  | .channel _ => requireVerbOf cap "channel"
  | .target _ => requireVerbOf cap "target"
  | .line _ => requireVerbOf cap "line"
  | _ => pure ()

def ownersOnly : Error :=
  .rejected 6 "scope" "only owners may change owners, roots, or coordinators"

/-- Does the capability authorize this effect? -/
def authorizeEffect (view : View) (cap : Capability) : Effect → StoreM Unit
  | .propose rev => do
      checkWriteScope cap rev
      require (cap.write.stages.all ("proposed" ∈ ·))
        (.rejected 6 "scope" "capability does not allow the proposed stage")
  | .head line to_ _ _ _ _ => do
      checkWriteScope cap to_
      let ls ← orThrow (view.lines.get? line) (.rejected 6 "scope" s!"unknown line {line}")
      require (cap.write.lines.all (ls.id ∈ ·))
        (.rejected 6 "scope" s!"capability does not cover line {line}")
      require (cap.write.stages.all ("landed" ∈ ·))
        (.rejected 6 "scope" "capability does not allow landing")
  | .deploy target _ =>
      require (cap.write.targets.all (target ∈ ·))
        (.rejected 6 "scope" "capability does not cover this target")
  | .point _ to_ _ => checkPointScope cap to_
  | .owner _ | .unowner _ | .coordinator _ _ | .root _ | .unroot _ => throw ownersOnly
  | .revoke _ =>
      require ("revoke" ∈ cap.verbs) (.rejected 6 "verb" "revoke needs the revoke verb")
  | .tomb _ _ =>
      require ("redact" ∈ cap.verbs) (.rejected 6 "verb" "tomb needs the redact verb")
  | _ => pure ()

/-- Does the capability authorize this op's kind and write effects? -/
def checkAuthorizes (view : View) (cap : Capability) (op : Op) : StoreM Unit := do
  require (op.kind ∈ ungated || op.kind ∈ cap.verbs)
    (.rejected 6 "verb" s!"capability does not grant {op.kind}")
  op.effects.forM (authorizeEffect view cap)

def landedNext (S : Store) (id : ObjectId) : List ObjectId :=
  match S.find? fun o => Crypto.objectId o = id with
  | some (.revision r) => r.parents
  | _ => []

def landedCount : Object → ℕ
  | .revision r => r.parents.length
  | _ => 0

/-- The revisions that line heads name. -/
def headRevisions (view : View) : List ObjectId :=
  view.lines.values.flatMap fun ls => ((lineHead ls).map Pointer.ids).getD []

/-- Every revision reachable from a line head through `parents`. -/
def landedRevisions (view : View) : StoreM (List ObjectId) := fun S =>
  let heads := headRevisions view
  ⟨worklist (fun id => .ok (landedNext S id)) .outOfFuel
    (heads.length + (S.map landedCount).sum) [] heads, []⟩

/-- Does the revision carry a legacy intent, put by this op or by the view? -/
def legacyIntent (v : View) (op : Op) (rev : Revision) : StoreM Bool := do
  match rev.intent with
  | none => return false
  | some intentId =>
      let inOp := op.effects.findSome? fun
        | .point entity to_ _ => if entity = intentId then some to_ else none
        | _ => none
      let oid ← match inOp with
        | some id => pure (some id)
        | none => do
            match ← ViewState.entity v intentId with
            | some (.id id) => pure (some id)
            | _ => pure none
      match oid with
      | none => return false
      | some oid => return (← get Intent oid).legacy = some true

/-- A move must start at the entity's current pointer. -/
def checkFrom (entity : EntityId) (current : Option Pointer) (source : Option Value) :
    StoreM Unit :=
  let expected := source.bind Pointer.fromValue
  match current with
  | some cur =>
      require (expected = some cur)
        (.rejected 7 "from" (s!"entity {entity} is at {cur.debug}, " ++
          s!"op expected {debugOption Value.debug source}"))
  | none =>
      require expected.isNone (.rejected 7 "from" s!"entity {entity} does not exist yet")

def checkRevisionMove (landed : List ObjectId) (op : Op) (entity : EntityId)
    (current : Option Pointer) (r : Revision) : StoreM Unit := do
  require (r.id = entity) (.rejected 7 "entity" "revision id does not match the entity")
  match current with
  | some (.id cur) =>
      require (cur ∉ landed || op.kind = "restack")
        (.rejected 7 "immutable" s!"change {entity} is landed; correction is a new change")
      require (r.prev = some cur)
        (.rejected 7 "prev" "revision prev must be the current version")
  | _ => pure ()

/-- A session is signed by the agent it belongs to. -/
def checkSession (v : View) (p : Principal) : StoreM Unit := do
  let parentId ← orThrow p.parent (.rejected 7 "principal" "session without parent")
  let (_, parent) ← orThrow (← resolvePrincipal v parentId)
    (.rejected 7 "principal" "session parent unknown")
  require (parent.kind = "agent")
    (.rejected 7 "principal" "session parent must be an agent")
  let k ← orThrow parent.key (.rejected 7 "principal" "parent agent has no key")
  requireSigned p k fun e => .rejected 7 "principal" s!"session not signed by its agent: {e}"

def checkPrincipalMove (v : View) (op : Op) (isOwner : Bool) (entity : EntityId)
    (current : Option Pointer) (p : Principal) : StoreM Unit := do
  require (p.id = entity) (.rejected 7 "entity" "principal id does not match the entity")
  match current with
  | none =>
      if p.kind = "session" then checkSession v p
      else do
        require isOwner (.rejected 7 "principal" "only owners create non-session principals")
        requireSigned p op.key fun e =>
          .rejected 7 "principal" s!"principal not signed by the owner: {e}"
  | some (.id cur) => do
      let old ← get Principal cur
      require (p.prev = some cur)
        (.rejected 7 "prev" "principal prev must be the current version")
      if p.status = "revoked" then
        require (isOwner || (← ViewState.principalRevoked v p.id))
          (.rejected 7 "principal" "revocation needs an owner")
      else do
        let k ← orThrow old.key (.rejected 7 "principal" "rotating a keyless principal")
        requireSigned p k fun e =>
          .rejected 7 "principal" s!"rotation not signed by the previous key: {e}"
  | some (.conflict _) => pure ()

def checkPoint (v : View) (landed : List ObjectId) (op : Op) (isOwner : Bool)
    (entity : EntityId) (to_ : ObjectId) (source : Option Value) : StoreM Unit := do
  let current ← ViewState.entity v entity
  checkFrom entity current source
  match ← orThrow (← getBytes to_) (.notFound to_) with
  | .revision r => checkRevisionMove landed op entity current r
  | .hook h =>
      require (h.as = op.author || isOwner)
        (.rejected 7 "hook" "a hook may only be created by its principal or an owner")
  | .principal p => checkPrincipalMove v op isOwner entity current p
  | _ => pure ()

/-- Does the op land a git commit as history? -/
def isHistory (v : View) (op : Op) (isOwner : Bool) (attests : List ObjectId)
    (rev : Revision) : StoreM Bool :=
  if isOwner && op.kind = "import" && attests.isEmpty then legacyIntent v op rev
  else pure false

def unmetText (u : Standard.Unmet) : String := s!"{u.clause}: {u.reason}"

/-- The line's standard holds of the revision. -/
def checkStandardMet (records : List (String × Bytes)) (v : View) (ls : LineState)
    (to_ : ObjectId) (toRev : Revision) (attests : List ObjectId) : StoreM Unit := do
  let ptr ← orThrow (← ViewState.entity v ls.id) (.rejected 7 "line" "line entity missing")
  let line ← get Line (← StoreM.ofExcept ptr.single)
  let unmet ← Standard.evaluate records v line.standard to_ toRev attests
  let list := "; ".intercalate (unmet.map unmetText)
  require unmet.isEmpty (.rejected 7 "standard" s!"standard unmet: {list}")

def checkAdvance (records : List (String × Bytes)) (v : View) (op : Op) (isOwner : Bool)
    (line : String) (ls : LineState) (to_ : ObjectId) (toRev : Revision)
    (source : Option Value) (seq : ℕ) (attests : List ObjectId) : StoreM Unit := do
  require (ls.coordinator = op.author)
    (.rejected 7 "coordinator" s!"only the coordinator of {line} may advance it")
  let cur := lineHead ls
  let f := source.bind Pointer.fromValue
  require (cur = f)
    (.rejected 7 "from" (s!"line {line} head is {debugOption Pointer.debug cur}, " ++
      s!"op expected {debugOption Pointer.debug f}"))
  require (seq = ls.seq + 1) (.rejected 7 "seq" s!"line {line} seq must be {ls.seq + 1}")
  attests.forM fun a => do
    require (← has a) (.rejected 7 "attests" s!"cited attestation {a} is not present")
  if ← isHistory v op isOwner attests toRev then
    let onHead := match cur, toRev.parents.head? with
      | some (.id h), some p => decide (h = p)
      | _, _ => false
    require onHead
      (.rejected 7 "history" s!"a history landing on {line} sits on the head itself")
  else checkStandardMet records v ls to_ toRev attests

def checkHead (records : List (String × Bytes)) (v : View) (op : Op) (isOwner : Bool)
    (line : String) (to_ : ObjectId) (source : Option Value) (seq : ℕ)
    (attests : List ObjectId) (id : Option EntityId) : StoreM Unit := do
  let toRev ← get Revision to_
  match v.lines.get? line with
  | none => do
      require isOwner (.rejected 7 "line" "only owners create lines")
      require (id.isSome && source.isNone && seq = 0)
        (.rejected 7 "line" "line creation needs an id, no from, and seq 0")
  | some ls => checkAdvance records v op isOwner line ls to_ toRev source seq attests

def checkEffect (records : List (String × Bytes)) (v : View) (landed : List ObjectId)
    (op : Op) (isOwner : Bool) : Effect → StoreM Unit
  | .point entity to_ source => checkPoint v landed op isOwner entity to_ source
  | .head line to_ source seq attests id =>
      checkHead records v op isOwner line to_ source seq attests id
  | .tomb _ _ =>
      require (op.kind = "redact") (.rejected 7 "tomb" "tombstones only in a redact op")
  | .owner _ | .unowner _ | .coordinator _ _ =>
      require isOwner (.rejected 7 "owner" "only owners change owners or coordinators")
  | .claim claim to_ => do
      let c ← get Claim to_
      require (c.principal = op.author)
        (.rejected 7 "claim" "a claim names its author as principal")
      require (c.id = claim) (.rejected 7 "claim" "claim id mismatch")
  | .unclaim claim => do
      match ← ViewState.claim v claim with
      | some (.id cur) => do
          let c ← get Claim cur
          require (c.principal = op.author || isOwner)
            (.rejected 7 "claim" "only the claimant or an owner releases a claim")
      | _ => pure ()
  | _ => pure ()

def checkLegality (records : List (String × Bytes)) (v : View) (op : Op) (isOwner : Bool) :
    StoreM Unit := do
  let landed ← landedRevisions v
  op.effects.forM (checkEffect records v landed op isOwner)

/-- Step 3: the author at the parents' view. -/
def checkAuthorAtParents (v : View) (op : Op) : StoreM ObjectId := do
  let (version, author) ← orThrow (← resolvePrincipal v op.author)
    (.rejected 3 "author" s!"author {op.author} not in parents' view")
  require (author.status = "active")
    (.rejected 3 "author" "author is not active at the parents")
  require (author.key = some op.key)
    (.rejected 3 "author" "op key does not match the author's key at the parents")
  return version

/-- Step 4: the author at the current view. -/
def checkAuthorAtCurrent (c : View) (op : Op) (atParents : ObjectId) : StoreM Unit := do
  require (!(← ViewState.principalRevoked c op.author))
    (.rejected 4 "revoked" "author is revoked in the current view")
  match ← resolvePrincipal c op.author with
  | none => pure ()
  | some (version, author) => do
      require (version = atParents || author.key = some op.key)
        (.rejected 4 "rotated" "author's key was rotated after what the op saw")
      require (author.status = "active")
        (.rejected 4 "revoked" "author is not active in the current view")

/-- Step 6: an op that is not an owner's needs an active capability. -/
def checkAuthorization (v c : View) (op : Op) : StoreM Unit := do
  let capId ← orThrow op.cap (.rejected 6 "capability" "non-owner op without a capability")
  require (← ViewState.inSet v.caps capId)
    (.rejected 6 "capability" "capability is not active at the parents")
  require (← ViewState.inSet c.caps capId)
    (.rejected 6 "capability" "capability is not active in the current view")
  let cap ← get Capability capId
  require (cap.subject = op.author)
    (.rejected 6 "capability" "capability subject is not the author")
  checkChain v cap capId
  checkAuthorizes v cap op

/-- Step 8: the effects produce the view the op names. -/
def checkDeterminism (v : View) (op : Op) (reason : ObjectId → String) : StoreM View := do
  let produced ← ViewState.apply v op.effects op.parents.head?
  let producedId ← ViewState.storeView produced
  require (producedId = op.view) (.rejected 8 "determinism" (reason producedId))
  return produced

/-- Does init create its author as an owner, with a principal it signed? -/
def initEffect (op : Op) (found : Bool × Bool) : Effect → StoreM (Bool × Bool)
  | .owner principal => pure (if principal = op.author then (true, found.2) else found)
  | .point entity to_ _ =>
      if entity = op.author then do
        let p ← get Principal to_
        if p.id = op.author ∧ p.key = some op.key ∧ p.status = "active" then do
          requireSigned p op.key fun e => .rejected 5 "signature" s!"init principal: {e}"
          return (found.1, true)
        else return found
      else pure found
  | _ => pure found

/-- The init op: no parents, author becomes an owner, principal self-signed. -/
def verifyInit (log : OpLog) (op : Op) : StoreM View := do
  require (op.kind = "init") (.rejected 2 "parents" "only init may have no parents")
  require log.heads.isEmpty (.rejected 2 "parents" "init on a log that already has ops")
  requireSigned op op.key (.rejected 5 "signature")
  let found ← op.effects.foldlM (initEffect op) (false, false)
  require (found.1 && found.2) (.rejected 7 "legality"
    "init must create its author as an owner with a self-signed principal")
  checkDeterminism (← ViewState.empty) op fun _ =>
    "init effects do not produce the claimed view"

def checkOp (log : OpLog) (v c : View) (op : Op) : StoreM Unit := do
  let version ← checkAuthorAtParents v op
  checkAuthorAtCurrent c op version
  requireSigned op op.key (.rejected 5 "signature")
  let isOwner := decide (op.author ∈ v.owners)
  if isOwner then pure () else checkAuthorization v c op
  checkLegality log.records v op isOwner

def verifyOp (log : OpLog) (op : Op) : StoreM View :=
  if op.parents.isEmpty then verifyInit log op
  else do
    op.parents.forM fun p => require (log.isVerified p) (.unknownParent p)
    let v ← log.mergedView op.parents
    let c ← log.currentView
    checkOp log v c op
    checkDeterminism v op fun produced =>
      s!"effects produce view {produced}, op claims {op.view}"

end Verify

namespace OpLog

variable [Crypto]

/-- The idempotency key an op carries. -/
def idemKey (op : Op) : Option (EntityId × Bytes) :=
  match op.args.get? "idem" with
  | some (.bytes b) => if b.length = 16 then some (op.author, b) else none
  | _ => none

/-- The log once an op it verified is stored under `id`. -/
def record (log : OpLog) (id : ObjectId) (op : Op) : OpLog where
  heads := pushSorted id (log.heads.filter (· ∉ op.parents))
  verified := if id ∈ log.verified then log.verified else log.verified ++ [id]
  views := (id, op.view) :: log.views
  idem := (idemKey op).toList.map (fun k => (k, id)) ++ log.idem
  records := log.records

/-- Verify an op and, if it passes, store it and advance the heads.  A repeated
idempotency key returns the earlier op. -/
def accept (log : OpLog) (op : Op) : StoreM (ObjectId × OpLog) :=
  match (idemKey op).bind fun k => log.idem.lookup k with
  | some existing => pure (existing, log)
  | none => do
      op.parents.forM fun p => require (log.isVerified p) (.unknownParent p)
      let view ← Verify.verifyOp log op
      let id ← put op
      let _ ← put view
      return (id, log.record id op)

end OpLog

end Tessra.Oplog
