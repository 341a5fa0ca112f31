import Tessra.Data.OrdMap
import Tessra.Core.Value

namespace Tessra.Core

open Tessra.Data

/-! The object catalogue.  A field the source omits when absent is an
`Option`, and a `BTreeMap` is an `OrdMap`. -/

/-! Trees, snapshots, and indexes. -/

inductive EntryKind
  | file
  | dir
  | symlink
  | artifact
  | conflict
deriving DecidableEq

structure ConflictTerm where
  sign : ℤ
  kind : EntryKind
  mode : Option Byte
  ref : ObjectId
deriving DecidableEq

structure TreeEntry where
  name : String
  kind : EntryKind
  mode : Option Byte
  ref : Option ObjectId
  terms : Option (List ConflictTerm)
deriving DecidableEq

/-- A directory: flat or sharded, never both. -/
structure Tree where
  entries : Option (List TreeEntry)
  shards : Option (List (Option ObjectId))
deriving DecidableEq

structure Rule where
  pattern : String
  «class» : Byte
  generator : Option String
  media : Option String
deriving DecidableEq

structure TrackingRules where
  rules : List Rule
  eol : String
  case : String
  portableNames : Bool
  artifactThreshold : Option ℕ
deriving DecidableEq

structure Snapshot where
  root : ObjectId
  rules : ObjectId
  env : Option ObjectId
  index : Option ObjectId
deriving DecidableEq

structure Node where
  nid : EntityId
  path : String
  kind : String
  name : String
  span : ℕ × ℕ
  body : ObjectId
  parent : Option EntityId
  deps : Option (List EntityId)
  setlike : Option Bool
deriving DecidableEq

structure NodeIndex where
  root : ObjectId
  grammars : String
  parents : List ObjectId
  nodes : List Node
  aliases : Option (OrdMap Bytes EntityId)
deriving DecidableEq

/-! Revisions and intents. -/

structure SemOp where
  kind : String
  args : OrdMap String Value
deriving DecidableEq

structure SecretMatch where
  path : String
  pattern : String
deriving DecidableEq

structure Flags where
  outOfScope : Option (List String)
  secrets : Option (List SecretMatch)
  caseCollisions : Option (List (List String))
  unportableNames : Option (List String)
  generatedDrift : Option (List String)
deriving DecidableEq

structure Revision where
  id : EntityId
  prev : Option ObjectId
  snapshots : OrdMap String ObjectId
  parents : List ObjectId
  intent : Option EntityId
  title : String
  body : Option String
  author : EntityId
  time : ℤ
  ops : Option (List SemOp)
  flags : Option Flags
deriving DecidableEq

structure Intent where
  id : EntityId
  prev : Option ObjectId
  title : String
  body : Option String
  spec : Option ObjectId
  evals : Option (List ObjectId)
  parent : Option EntityId
  depends : Option (List EntityId)
  priority : ℤ
  status : String
  assignee : Option EntityId
  createdBy : EntityId
  time : ℤ
  legacy : Option Bool
deriving DecidableEq

/-! Attestations, memories, standards, and claims. -/

structure Attestation where
  kind : String
  subject : Option Bytes
  bodies : Option (List ObjectId)
  subjectType : Option String
  scope : Option (OrdMap String Value)
  result : Value
  env : Option ObjectId
  verifier : EntityId
  runner : Option EntityId
  evidence : Option ObjectId
  time : ℤ
  sigkind : String
  sig : Option Sig
deriving DecidableEq

structure MemoryScope where
  kind : String
  ref : Value
deriving DecidableEq

structure Memory where
  id : EntityId
  prev : Option ObjectId
  kind : String
  scope : MemoryScope
  body : String
  anchor : Option ObjectId
  confidence : ℕ
  author : EntityId
  time : ℤ
  expires : Option ℤ
  proposed : Option Bool
  status : String
  links : Option (List ObjectId)
  visibility : String
deriving DecidableEq

structure Predicate where
  kind : String
  name : Option String
  args : Option (OrdMap String Value)
deriving DecidableEq

structure Clause where
  op : String
  pred : Predicate
  «unless» : Option Predicate
deriving DecidableEq

structure ScopedClauses where
  pattern : String
  clauses : List Clause
  only : Option Bool
deriving DecidableEq

structure RiskClauses where
  riskAtLeast : String
  clauses : List Clause
deriving DecidableEq

structure Standard where
  id : EntityId
  prev : Option ObjectId
  name : String
  «extends» : Option EntityId
  clauses : List Clause
  scopes : Option (List ScopedClauses)
  when : Option (List RiskClauses)
  auditPermille : Option ℕ
deriving DecidableEq

structure ClaimTarget where
  kind : String
  ref : Value
deriving DecidableEq

structure Claim where
  id : EntityId
  prev : Option ObjectId
  principal : EntityId
  targets : List ClaimTarget
  intent : Option EntityId
  exclusive : Bool
  expires : ℤ
  note : Option String
deriving DecidableEq

/-! Principals and capabilities. -/

structure Binding where
  provider : String
  subject : String
  proof : Option Bytes
deriving DecidableEq

structure Principal where
  id : EntityId
  prev : Option ObjectId
  key : Option PublicKey
  kind : String
  name : String
  parent : Option EntityId
  model : Option String
  runtime : Option (OrdMap String Value)
  bindings : Option (List Binding)
  status : String
  expires : Option ℤ
  time : ℤ
  sig : Option Sig
deriving DecidableEq

structure WriteScope where
  roots : Option (List String)
  paths : Option (List String)
  nodes : Option (List EntityId)
  lines : Option (List EntityId)
  targets : Option (List EntityId)
  stages : Option (List String)
  memoryScopes : Option (List String)
deriving DecidableEq

structure ReadScope where
  roots : Option (List String)
  paths : Option (List String)
  memory : Option String
deriving DecidableEq

structure Capability where
  issuer : EntityId
  subject : EntityId
  verbs : List String
  write : WriteScope
  read : ReadScope
  hard : Option (OrdMap String ℕ)
  advisory : Option (OrdMap String ℤ)
  delegable : Bool
  parent : Option ObjectId
  nonce : EntityId
  time : ℤ
  sig : Option Sig
deriving DecidableEq

structure HookAction where
  kind : String
  args : OrdMap String Value
deriving DecidableEq

structure Hook where
  id : EntityId
  prev : Option ObjectId
  name : String
  on : String
  «where» : Option Predicate
  «do» : List HookAction
  as : EntityId
  enabled : Bool
  order : Option ℤ
deriving DecidableEq

structure Channel where
  id : EntityId
  prev : Option ObjectId
  kind : String
  config : OrdMap String Value
  principals : List EntityId
  signing : String
  time : ℤ
deriving DecidableEq

/-! Lines and delivery. -/

structure Line where
  id : EntityId
  prev : Option ObjectId
  name : String
  standard : EntityId
  roots : List String
  shared : Bool
  created : ℤ
deriving DecidableEq

structure Target where
  id : EntityId
  prev : Option ObjectId
  name : String
  deployer : OrdMap String Value
  standard : EntityId
  line : Option EntityId
  observers : Option (List (OrdMap String Value))
  riskBudget : Option (OrdMap String ℕ)
  sensitivity : Option String
deriving DecidableEq

structure Deployment where
  target : EntityId
  revision : ObjectId
  release : Option ObjectId
  principal : EntityId
  previous : Option ObjectId
  step : Option (OrdMap String Value)
  time : ℤ
deriving DecidableEq

/-! The persistent trie. -/

inductive TrieValue
  | id (i : ObjectId)
  | conflict (ids : List ObjectId)
  | set
deriving DecidableEq

inductive Slot
  | leaf (key : Bytes) (value : TrieValue)
  | node (id : ObjectId)
deriving DecidableEq

structure TrieNode where
  bitmap : BitVec 16
  slots : List Slot
deriving DecidableEq

/-! Ops and views. -/

inductive Effect
  | put (id : ObjectId)
  | point (entity : EntityId) («to» : ObjectId) («from» : Option Value)
  | unpoint (entity : EntityId)
  | head (line : String) («to» : ObjectId) («from» : Option Value) (seq : ℕ)
      (attests : List ObjectId) (id : Option EntityId)
  | propose (rev : ObjectId)
  | unpropose (rev : ObjectId)
  | claim (claim : EntityId) («to» : ObjectId)
  | unclaim (claim : EntityId)
  | cap (cap : ObjectId)
  | uncap (cap : ObjectId)
  | revoke (principal : EntityId)
  | tomb (of : ObjectId) (tomb : ObjectId)
  | deploy (target : EntityId) («to» : ObjectId)
  | pause (scope : String)
  | resume (scope : String)
  | owner (principal : EntityId)
  | unowner (principal : EntityId)
  | root (name : String)
  | unroot (name : String)
  | coordinator (line : String) («to» : EntityId)
deriving DecidableEq

structure Op where
  parents : List ObjectId
  author : EntityId
  key : PublicKey
  cap : Option ObjectId
  kind : String
  args : OrdMap String Value
  effects : List Effect
  view : ObjectId
  time : ℤ
  desc : Option String
  sig : Option Sig
deriving DecidableEq

structure LineState where
  id : EntityId
  head : Value
  seq : ℕ
  coordinator : EntityId
deriving DecidableEq

structure PauseState where
  scope : String
  «by» : EntityId
  op : ObjectId
deriving DecidableEq

structure View where
  entities : ObjectId
  proposed : ObjectId
  claims : ObjectId
  caps : ObjectId
  revoked : ObjectId
  tombstoned : ObjectId
  lines : OrdMap String LineState
  roots : List String
  owners : List EntityId
  deployed : OrdMap EntityId ObjectId
  paused : Option (List PauseState)
deriving DecidableEq

/-- Any object, by its type tag. -/
inductive Object
  | blob (content : Bytes)
  | tree (tree : Tree)
  | trackingRules (rules : TrackingRules)
  | snapshot (snapshot : Snapshot)
  | nodeIndex (index : NodeIndex)
  | revision (revision : Revision)
  | intent (intent : Intent)
  | attestation (attestation : Attestation)
  | memory (memory : Memory)
  | standard (standard : Standard)
  | claim (claim : Claim)
  | principal (principal : Principal)
  | capability (capability : Capability)
  | hook (hook : Hook)
  | channel (channel : Channel)
  | line (line : Line)
  | target (target : Target)
  | deployment (deployment : Deployment)
  | trie (node : TrieNode)
  | op (op : Op)
  | view (view : View)
deriving DecidableEq

end Tessra.Core
