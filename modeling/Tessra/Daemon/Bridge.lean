import Tessra.Data.CommitGraph
import Tessra.Daemon.Revisions

namespace Tessra.Daemon

open Tessra.Core Tessra.Data Tessra.Oplog Verify StoreM

/-! The bridge to git: what is known of which commit a revision came from or was
exported as, and the imports, landings and exports that it goes by. -/

section Commits

def isHexDigit (c : Char) : Bool :=
  c.isDigit || ('a' ≤ c && c ≤ 'f') || ('A' ≤ c && c ≤ 'F')

/-- The hash that names a git commit. -/
structure CommitId where
  hash : List Char
  digits : hash.all isHexDigit = true
  length : hash.length = 40
deriving DecidableEq

def CommitId.parse (hash : List Char) : Option CommitId :=
  if h : hash.all isHexDigit = true ∧ hash.length = 40 then some ⟨hash, h.1, h.2⟩ else none

/-- What a git commit holds besides its parents. -/
structure Content where
  message : String
  author : String
deriving DecidableEq

/-- What follows the first occurrence of a phrase in a text. -/
def findAfter (phrase : List Char) : List Char → Option (List Char)
  | [] => if phrase.isPrefixOf [] then some [] else none
  | c :: rest =>
      if phrase.isPrefixOf (c :: rest) then some ((c :: rest).drop phrase.length)
      else findAfter phrase rest

def importPhrase : List Char := "Imported from git commit ".toList

/-- The commit that the body of a revision names. -/
def namedCommit (body : String) : Option CommitId :=
  (findAfter importPhrase body.toList).bind fun rest => CommitId.parse (rest.takeWhile isHexDigit)

/-- The body of a revision that a commit is imported as. -/
def importedBody (commit : CommitId) (content : Content) : String :=
  String.ofList (content.message.toList ++ (if content.message = "" then [] else ['\n', '\n']) ++
    importPhrase ++ commit.hash ++ " by ".toList ++ content.author.toList ++ ['.'])

end Commits

section Bridges

variable [Crypto]

/-- A repository and the git checkout beside it, as far as the bridge goes. -/
structure Bridge where
  store : Store
  free : CollisionFree store
  /-- The head of trunk. -/
  head : ObjectId
  graph : List (Node CommitId Content)
  grown : Grown graph
  branches : OrdMap String CommitId
  /-- Every `git:rev:` record, the latest first. -/
  revs : List (ObjectId × CommitId)
  /-- Every `git:commit:` record, the latest first. -/
  commits : List (CommitId × ObjectId)
  /-- The commits whose landing the last import was refused, with its branch. -/
  waiting : List (String × CommitId)
  /-- The revisions that commits were imported as. -/
  made : List (ObjectId × CommitId)

namespace Bridge

/-- The git commit a revision came from or was exported as. -/
def commitOf (s : Bridge) (revId : ObjectId) (rev : Revision) : Option CommitId :=
  match s.revs.lookup revId with
  | some c => some c
  | none => rev.body.bind namedCommit

def revisionOfCommit (s : Bridge) (commit : CommitId) : Option ObjectId := s.commits.lookup commit

def remember (s : Bridge) (revId : ObjectId) (commit : CommitId) : Bridge :=
  { s with revs := (revId, commit) :: s.revs, commits := (commit, revId) :: s.commits }

end Bridge

/-- The revisions along first parents, newest first. -/
def trunkFrom : ℕ → ObjectId → StoreM (List (ObjectId × Revision))
  | 0, _ => pure []
  | steps + 1, id => do
      let r ← get Revision id
      match r.parents.head? with
      | none => return [(id, r)]
      | some p => return (id, r) :: (← trunkFrom steps p)

/-- The trunk revisions oldest first, at most 100001 of them. -/
def trunkChain (head : ObjectId) : StoreM (List (ObjectId × Revision)) := do
  return (← trunkFrom 100001 head).reverse

namespace Bridge

/-- The commit of the newest trunk revision that has one. -/
def known (s : Bridge) (chain : List (ObjectId × Revision)) : Option CommitId :=
  chain.foldl (fun known e =>
    match s.commitOf e.1 e.2 with
    | some c => some c
    | none => known) none

/-- `git rev-list --first-parent --reverse` of what a tip has over the known commit. -/
def revList (s : Bridge) (known : Option CommitId) (tip : CommitId) : Option (List CommitId) :=
  let line := (firstParents s.graph (some tip)).reverse
  match known with
  | none => some line
  | some k => if k ∈ ids s.graph then some (line.filter fun c => ¬ Behind s.graph k c) else none

/-- The commits of a branch that an import lists. -/
def listed (s : Bridge) (branch : String) : Option (List CommitId) := do
  let tip ← s.branches.get? branch
  let chain ← ((trunkChain s.head).value s.store).toOption
  s.revList (s.known chain) tip

/-- The listed commits that no revision is known for. -/
def offered (s : Bridge) (branch : String) : Option (List CommitId) :=
  (s.listed branch).map fun commits => commits.filter fun c => (s.revisionOfCommit c).isNone

/-- Is the commit on the branch, or on any branch where this one does not exist? -/
def onBranch (s : Bridge) (branch : String) (commit : CommitId) : Bool :=
  match s.branches.get? branch with
  | some tip => Behind s.graph tip commit
  | none => s.branches.values.any fun tip => Behind s.graph tip commit

/-- The commit that an export builds on, and the revisions that it writes, from the
revisions after the newest one that already is a commit on the branch. -/
def exportFrom (s : Bridge) (branch : String) :
    Option CommitId → List (ObjectId × Revision) → List (ObjectId × Revision) →
      Option CommitId × List (ObjectId × Revision)
  | parent, pending, [] => (parent, pending)
  | parent, pending, e :: rest =>
      match s.commitOf e.1 e.2 with
      | some c =>
          if s.onBranch branch c then exportFrom s branch (some c) rest rest
          else exportFrom s branch parent pending rest
      | none => exportFrom s branch parent pending rest

/-- The body of the commit that a revision is exported as. -/
def exportedMessage (id : ObjectId) (r : Revision) : String :=
  let body := r.body.getD ""
  let gap := if body.isEmpty then "" else "\n\n"
  let change := r.id
  s!"{body}{gap}Tessra-Change: {change}\nTessra-Revision: {id}"

def rememberAll (s : Bridge) (mapped : List (ObjectId × CommitId)) : Bridge :=
  mapped.foldl (fun s e => s.remember e.1 e.2) s

end Bridge

/-- What an import gives a revision besides the commit. -/
structure Arrival where
  change : EntityId
  prev : Option ObjectId
  snap : ObjectId
  intent : Option EntityId
  title : String
  actor : EntityId
  time : ℤ

/-- The revision that a commit is imported as, on the head of trunk. -/
def imported (n : Node CommitId Content) (headId : ObjectId) (a : Arrival) : Revision where
  id := a.change
  prev := a.prev
  snapshots := (∅ : OrdMap String ObjectId).insert "" a.snap
  parents := [headId]
  intent := a.intent
  title := a.title
  body := some (importedBody n.id n.data)
  author := a.actor
  time := a.time
  ops := none
  flags := none

/-- What lands: as history the revision itself, and else a landing of it, which sits
on the head already and is not merged. -/
def importLanding (history : Bool) (headId snap : ObjectId) (time : ℤ) (rev : Revision) :
    Revision :=
  if history then rev else landing rev (revisionId rev) headId snap time

/-- The revision is put, on the head of trunk, which does not reach it. -/
structure Bridge.Advances (s : Bridge) (T : Store) (r : Revision) : Prop where
  sub : s.store ⊆ T
  mem : .revision r ∈ T
  parent : r.parents.head? = some s.head
  fresh : ¬ Reaches T s.head (revisionId r)

/-- What a commit that no revision is known for is imported as is put, on the head. -/
structure Bridge.Arrives (s : Bridge) (T : Store) (n : Node CommitId Content) (rev : Revision) :
    Prop where
  mem : n ∈ s.graph
  new : s.revisionOfCommit n.id = none
  imported : ∃ a, rev = imported n s.head a
  puts : s.Advances T rev

/-- Trunk moves to a revision. -/
def Bridge.advance (s : Bridge) (T : Store) (hT : CollisionFree T) (r : Revision) : Bridge :=
  { s with store := T, free := hT, head := revisionId r }

/-- Trunk moves to the landing of what a commit was imported as. -/
def Bridge.take (s : Bridge) (T : Store) (hT : CollisionFree T) (c : CommitId)
    (rev l : Revision) : Bridge :=
  { s.advance T hT l with made := (revisionId l, c) :: (revisionId rev, c) :: s.made }

/-- The landing of what a commit is imported as is put. -/
structure Bridge.Takes (s : Bridge) (history : Bool) (T : Store) (n : Node CommitId Content)
    (rev l : Revision) : Prop where
  arrives : s.Arrives T n rev
  landing : ∃ snap time, l = importLanding history s.head snap time rev
  advances : s.Advances T l

/-- The loop of an import over the commits that it lists. -/
inductive Imports (branch : String) (history : Bool) : Bridge → List CommitId → Bridge → Prop
  | done {s : Bridge} : Imports branch history s [] s
  /-- Any error before the landing ends the import. -/
  | failed {s : Bridge} {c : CommitId} {rest : List CommitId} {T : Store} (hT : CollisionFree T)
      (hsub : s.store ⊆ T) :
      Imports branch history s (c :: rest) { s with store := T, free := hT }
  | skipped {s s' : Bridge} {c : CommitId} {rest : List CommitId}
      (hknown : (s.revisionOfCommit c).isSome) (hrest : Imports branch history s rest s') :
      Imports branch history s (c :: rest) s'
  | landed {s s' : Bridge} {n : Node CommitId Content} {rest : List CommitId} {T : Store}
      {rev l : Revision} (hT : CollisionFree T) (htakes : s.Takes history T n rev l)
      (hrest : Imports branch history ((s.take T hT n.id rev l).remember (revisionId l) n.id)
        rest s') :
      Imports branch history s (n.id :: rest) s'
  /-- An error after the landing ends the import before the landing is remembered. -/
  | unrecorded {s : Bridge} {n : Node CommitId Content} {rest : List CommitId} {T : Store}
      {rev l : Revision} (hT : CollisionFree T) (htakes : s.Takes history T n rev l) :
      Imports branch history s (n.id :: rest) (s.take T hT n.id rev l)
  /-- The standard refuses the landing, and the import ends. -/
  | refused {s : Bridge} {n : Node CommitId Content} {rest : List CommitId} {T : Store}
      {rev : Revision} (hT : CollisionFree T) (harrives : s.Arrives T n rev) :
      Imports branch history s (n.id :: rest)
        { s with
          store := T
          free := hT
          waiting := (branch, n.id) :: s.waiting
          made := (revisionId rev, n.id) :: s.made }

/-- The commits that an export writes on top of each other, or finds as they would be
written now. -/
inductive Writes : List (Node CommitId Content) → Option CommitId →
    List (ObjectId × Revision) → List (Node CommitId Content) → List (ObjectId × CommitId) → Prop
  | nil {g : List (Node CommitId Content)} {parent : Option CommitId} : Writes g parent [] g []
  | create {g g' : List (Node CommitId Content)} {parent : Option CommitId} {id : ObjectId}
      {r : Revision} {rest : List (ObjectId × Revision)} {mapped : List (ObjectId × CommitId)}
      (n : Node CommitId Content) (hgrown : Grown (n :: g)) (hparents : n.parents = parent.toList)
      (hmessage : n.data.message = Bridge.exportedMessage id r)
      (hrest : Writes (n :: g) (some n.id) rest g' mapped) :
      Writes g parent ((id, r) :: rest) g' ((id, n.id) :: mapped)
  | reuse {g g' : List (Node CommitId Content)} {parent : Option CommitId} {id : ObjectId}
      {r : Revision} {rest : List (ObjectId × Revision)} {mapped : List (ObjectId × CommitId)}
      (n : Node CommitId Content) (hn : n ∈ g) (hparents : n.parents = parent.toList)
      (hrest : Writes g (some n.id) rest g' mapped) :
      Writes g parent ((id, r) :: rest) g' ((id, n.id) :: mapped)

/-- The tip of an export: the last commit that it maps, or the one it builds on. -/
def exportTip (parent : Option CommitId) (mapped : List (ObjectId × CommitId)) : Option CommitId :=
  (mapped.map Prod.snd).getLast?.or parent

/-- What happens around the bridge. -/
inductive Bridge.Event
  | commit (branch : String) (n : Node CommitId Content)
  | land (r : Revision)
  | imports (branch : String) (commits : List CommitId)
  | exports (branch : String) (graph : List (Node CommitId Content))
      (mapped : List (ObjectId × CommitId)) (tip : CommitId) (moved : Bool)
  | exportRefused (branch : String)

inductive Bridge.Step (s : Bridge) : Bridge.Event → Bridge → Prop
  /-- Someone commits on a branch, or starts one. -/
  | commit {branch : String} {n : Node CommitId Content} (hgrown : Grown (n :: s.graph))
      (hfirst : ∀ tip, s.branches.get? branch = some tip → n.parents.head? = some tip) :
      Step s (.commit branch n)
        { s with
          graph := n :: s.graph
          grown := hgrown
          branches := s.branches.insert branch n.id }
  /-- A landing that no import makes, of a change that an import was refused or any other. -/
  | land {T : Store} {r : Revision} (hT : CollisionFree T) (hadvances : s.Advances T r) :
      Step s (.land r)
        ({ s with waiting := s.waiting.filter fun w => r.body.bind namedCommit ≠ some w.2
            : Bridge}.advance T hT r)
  | imports {s' : Bridge} {branch : String} {history : Bool} {commits : List CommitId}
      (hlisted : s.listed branch = some commits)
      (himports : Imports branch history { s with waiting := [] } commits s') :
      Step s (.imports branch commits) s'
  /-- The branch moves to the tip, unless it is checked out and has it already. -/
  | exports {branch : String} {chain pending : List (ObjectId × Revision)}
      {parent : Option CommitId} {graph : List (Node CommitId Content)}
      {mapped : List (ObjectId × CommitId)} {tip : CommitId} {moved : Bool}
      (hchain : (trunkChain s.head).value s.store = .ok chain)
      (hstart : s.exportFrom branch none chain chain = (parent, pending))
      (hwrites : Writes s.graph parent pending graph mapped) (hgrown : Grown graph)
      (htip : exportTip parent mapped = some tip)
      (hmoved : moved = false → ∃ t, s.branches.get? branch = some t ∧ Behind graph t tip) :
      Step s (.exports branch graph mapped tip moved)
        ({ s with
            graph := graph
            grown := hgrown
            branches := if moved then s.branches.insert branch tip else s.branches
            : Bridge}.rememberAll mapped)
  /-- The checkout would not move: what was written stays, and nothing is mapped. -/
  | exportRefused {branch : String} {chain pending : List (ObjectId × Revision)}
      {parent : Option CommitId} {graph : List (Node CommitId Content)}
      {mapped : List (ObjectId × CommitId)}
      (hchain : (trunkChain s.head).value s.store = .ok chain)
      (hstart : s.exportFrom branch none chain chain = (parent, pending))
      (hwrites : Writes s.graph parent pending graph mapped) (hgrown : Grown graph) :
      Step s (.exportRefused branch) { s with graph := graph, grown := hgrown }

end Bridges

end Tessra.Daemon
