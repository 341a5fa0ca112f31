import Tessra.Data.Faulty
import Tessra.Data.Undo
import Tessra.Oplog.Deployments

namespace Tessra.Daemon

open Tessra.Core Tessra.Data Tessra.Oplog Faulty

/-! Delivery: the slices of a target, deploying to one, and rolling back. -/

inductive Slice
  | canary
  | all
deriving DecidableEq

inductive StepKind
  | deploy
  | rollback
deriving DecidableEq

def Slice.text : Slice → String
  | .canary => "canary"
  | .all => "all"

def StepKind.text : StepKind → String
  | .deploy => "deploy"
  | .rollback => "rollback"

def textAt (m : OrdMap String Value) (k : String) : Option String :=
  match m.get? k with
  | some (.text t) => some t
  | _ => none

def stepOf (percent : ℕ) (slice : Slice) (kind : StepKind) : OrdMap String Value :=
  (((∅ : OrdMap String Value).insert "percent" (.integer percent)).insert "of"
    (.text slice.text)).insert "kind" (.text kind.text)

/-- The deployment went to everyone. -/
def Full (d : Deployment) : Prop := (d.step.bind fun m => textAt m "of") = some "all"

instance (d : Deployment) : Decidable (Full d) := inferInstanceAs (Decidable (_ = _))

/-- The deployment was a rollback. -/
def rolledBack (d : Deployment) : Bool :=
  (d.step.bind fun m => textAt m "kind") = some "rollback"

/-- One target of an open repository: the objects, the deployment that the view
shows for it, and the revision whose files each slice of it serves.  The model
keeps the deployments whose ops were accepted, newest first. -/
structure Site where
  store : Store
  deployed : Option ObjectId
  serves : Slice → Option ObjectId
  past : List Deployment

/-- What the rest of the repository and the machine answer a deploy. -/
structure Occasion where
  head : Except Error ObjectId
  snapshot : Except Error Unit
  /-- The clauses of the standard for the slice that the revision leaves unmet. -/
  unmet : Slice → Except Error (List (String × String))
  json : List (String × String) → String
  scratch : Except Error Unit
  adapter : Except Error Unit
  /-- What the slice serves once the adapter has failed. -/
  left : Option ObjectId
  release : Option ObjectId
  principal : EntityId
  time : ℤ
  accepted : Except Error Unit
  hooks : Except Error Unit
  /-- The task that a rollback opens, and its messages. -/
  task : Except Error Unit
  /-- Whether the observers trip an observe clause. -/
  tripped : Except Error Bool
  autoRevert : Bool

def percentOf (target : Target) : Slice → ℕ
  | .canary =>
      match target.deployer.get? "canary_percent" with
      | some (.integer i) => (i % 2 ^ 64).toNat
      | _ => 10
  | .all => 100

def deployEffects (tid : EntityId) (id : ObjectId) : List Effect := [.put id, .deploy tid id]

section Verbs

variable [Crypto]

/-- The current deployment of the target, if any. -/
def deployed : Faulty Error Site (Option (ObjectId × Deployment)) := read fun site =>
  match site.deployed with
  | none => .ok none
  | some id => ((get Deployment id).value site.store).map fun d => some (id, d)

/-- The revision to deploy, once the standard admits it. -/
def admitted (w : Occasion) (revision : Option ObjectId) (slice : Slice) (kind : StepKind) :
    Faulty Error Site ObjectId := read fun site => do
  let rev ← revision.elim w.head .ok
  let _ ← (get Revision rev).value site.store
  w.snapshot
  if kind ≠ .rollback then
    let unmet ← w.unmet slice
    if unmet ≠ [] then throw (.verb "STANDARD_UNMET" (w.json unmet))
  return rev

/-- Run the target's adapter. -/
def adapt (w : Occasion) (slice : Slice) (rev : ObjectId) : Faulty Error Site Unit :=
  ofFun fun site => (w.adapter, { site with
    serves := Function.update site.serves slice (w.adapter.toOption.elim w.left fun _ => rev) })

def putDeployment (dep : Deployment) : Faulty Error Site ObjectId := ofFun fun site =>
  (.ok (Crypto.objectId (.deployment dep)),
    { site with store := site.store ++ [.deployment dep] })

/-- Commit the op of a deployment. -/
def commitDeployment (w : Occasion) (tid : EntityId) (dep : Deployment) (id : ObjectId) :
    Faulty Error Site Unit := ofFun fun site =>
  (w.accepted, match w.accepted with
    | .ok _ => { site with
        deployed := (lastDeploy tid (deployEffects tid id)).or site.deployed
        past := dep :: site.past }
    | .error _ => site)

def deploymentOf (tid : EntityId) (target : Target) (w : Occasion) (rev : ObjectId)
    (previous : Option (ObjectId × Deployment)) (slice : Slice) (kind : StepKind) :
    Deployment where
  target := tid
  revision := rev
  release := w.release
  principal := w.principal
  previous := previous.map Prod.fst
  step := some (stepOf (percentOf target slice) slice kind)
  time := w.time

def deploy (tid : EntityId) (target : Target) (w : Occasion) (revision : Option ObjectId)
    (slice : Slice) (kind : StepKind) : Faulty Error Site ObjectId := do
  let rev ← admitted w revision slice kind
  let previous ← deployed
  ofResult w.scratch
  adapt w slice rev
  let dep := deploymentOf tid target w rev previous slice kind
  let id ← putDeployment dep
  commitDeployment w tid dep id
  ofResult w.hooks
  return id

/-- Deploy the trunk head, or what the caller's workspace holds. -/
def promoteTo (tid : EntityId) (target : Target) (w : Occasion) (actorKind : String)
    (workspace : Option ObjectId) (slice : Slice) : Faulty Error Site ObjectId :=
  deploy tid target w (if actorKind ≠ "daemon" then workspace else none) slice .deploy

/-- The first deployment of another revision among a deployment's predecessors. -/
def earlier (S : Store) (revision : ObjectId) : ℕ → Option ObjectId →
    Except Error (Option Deployment)
  | 0, _ => .ok none
  | _ + 1, none => .ok none
  | n + 1, some id => do
      let d ← (get Deployment id).value S
      if d.revision ≠ revision then return some d else earlier S revision n d.previous

/-- Roll the target back to its previous deployment's revision. -/
def rollback (tid : EntityId) (target : Target) (w : Occasion) :
    Faulty Error Site ObjectId := do
  let current ← deployed
  match current with
  | none => throw (.verb "NOT_DEPLOYED" s!"nothing is deployed to {target.name}")
  | some (_, dep) =>
      let prev ← read fun site => earlier site.store dep.revision 200 dep.previous
      match prev with
      | none => throw (.verb "ROLLBACK" "no earlier deployment of another revision to roll back to")
      | some prev =>
          let _ ← read fun site => (get Revision dep.revision).value site.store
          let _ ← deploy tid target w (some prev.revision) .all .rollback
          ofResult w.task
          return prev.revision

/-- Whether observing is to roll back. -/
def Occasion.rolls (w : Occasion) : Bool := w.tripped = .ok true && w.autoRevert

/-- Run the target's observers, and roll back when a clause trips. -/
def observe (tid : EntityId) (target : Target) (w : Occasion) :
    Faulty Error Site (Option ObjectId) := do
  let current ← deployed
  match current with
  | none => throw (.verb "NOT_DEPLOYED" s!"nothing is deployed to {target.name}")
  | some _ =>
      let tripped ← ofResult w.tripped
      if tripped && w.autoRevert then some <$> rollback tid target w else return none

end Verbs

end Tessra.Daemon
