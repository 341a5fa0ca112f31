import Tessra.Oplog.Lane
import Tessra.Oplog.Landed
import Tessra.Oplog.Owners

namespace Tessra.Oplog

open Tessra.Core Tessra.Data StoreM OpLog Verify

/-! What the deployed map of a view shows, and where it comes from. -/

theorem mergeDeployedAt_some {base a b : Option ObjectId} {dep : ObjectId}
    (h : mergeDeployedAt base a b = some dep) : a = some dep ∨ b = some dep := by
  unfold mergeDeployedAt at h
  split_ifs at h with hbase hsame
  · exact .inr h
  · exact .inl h
  · cases a with
    | none => exact .inr (by cases b <;> exact h)
    | some x =>
        cases b with
        | none => exact .inl h
        | some y =>
            have hmin : min x y = dep := Option.some.inj h
            rcases min_choice x y with hx | hy
            · exact .inl (congrArg some (hx.symm.trans hmin))
            · exact .inr (congrArg some (hy.symm.trans hmin))

section Deployed

variable [Crypto] {F S S' : Store} {log : OpLog} {op : Op} {v : View} {target : EntityId}
  {dep o : ObjectId} {past : List Delivery} {ops : List ObjectId} {d : Delivery}

/-- What the merged view of ops shows for a target. -/
def OpLog.deployedIn (log : OpLog) (ops : List ObjectId) (target : EntityId) :
    StoreM (Option ObjectId) := do
  return (← log.mergedView ops).deployed.get? target

theorem ensures_applyEffect_deployed (parentOp : Option ObjectId) (v : View) (e : Effect)
    (S : Store) (target : EntityId) :
    (ViewState.applyEffect parentOp v e).Ensures S fun v' _ =>
      v'.deployed.get? target = (deployWritten target e).or (v.deployed.get? target) := by
  cases e with
  | deploy name to_ =>
      refine ensures_pure ?_
      simp only [OrdMap.get?_insert, deployWritten]
      split_ifs <;> rfl
  | head name to_ source seq attests id =>
      simp only [ViewState.applyEffect]
      split
      · exact ensures_pure rfl
      · split
        · exact ensures_throw
        · exact ensures_pure rfl
  | coordinator name to_ =>
      simp only [ViewState.applyEffect]
      split
      · exact ensures_pure rfl
      · exact ensures_pure rfl
  | point | unpoint | propose | unpropose | claim | unclaim | cap | uncap | revoke | tomb =>
      exact ensures_trivial.bind fun _ _ _ _ => ensures_pure rfl
  | _ => exact ensures_pure rfl

theorem ensures_apply_deployed (effects : List Effect) (parentOp : Option ObjectId) (v : View)
    (S : Store) (target : EntityId) :
    (ViewState.apply v effects parentOp).Ensures S fun v' _ =>
      v'.deployed.get? target = (lastDeploy target effects).or (v.deployed.get? target) := by
  have hlast : effects.foldl (fun x e => (deployWritten target e).or x) (v.deployed.get? target) =
      (lastDeploy target effects).or (v.deployed.get? target) :=
    foldl_last (g := fun x w => w.or x) (fun _ => rfl) (fun _ _ _ => Option.or_assoc.symm) effects _
  rw [← hlast]
  exact ensures_apply_part effects parentOp fun v e S =>
    ensures_applyEffect_deployed parentOp v e S target

/-- An op of the store that leaves the target at a deployment. -/
def DeploysIn (S : Store) (target : EntityId) (dep o : ObjectId) : Prop :=
  ∃ op, (getOp o).value S = .ok op ∧ lastDeploy target op.effects = some dep

/-- What a view of ops shows for a target, an op at or below one of them left it at. -/
def ShowsDeployed (S : Store) (ops : Set ObjectId) (v : View) (_c : Contents) : Prop :=
  ∀ target dep, v.deployed.get? target = some dep →
    ∃ x ∈ ops, ∃ o, Ancestor S o x ∧ DeploysIn S target dep o

theorem showsDeployed_merge : MergeInvariant F (ShowsDeployed S) where
  empty := by
    intro v hempty target dep hdep
    rw [hempty.2] at hdep
    cases hdep
  merge := by
    intro A B next base a b v cbase ca cb _ _ _ ha hb hparts target dep hdep
    rw [hparts.deployed, get?_mergeDeployed] at hdep
    rcases mergeDeployedAt_some hdep with h | h
    · obtain ⟨x, hx, hrest⟩ := ha target dep h
      exact ⟨x, .inr hx, hrest⟩
    · obtain ⟨x, hx, hrest⟩ := hb target dep h
      exact ⟨x, .inl hx, hrest⟩

theorem preserves_showsDeployed (hfree : CollisionFree S) (hop : Object.op op ∈ S) :
    Preserves (ShowsDeployed S) op := by
  intro S' v c parentOp _ hinv hfree' v' hv' target dep hdep
  have hget : (getOp (Crypto.objectId (.op op))).value S = .ok op := value_get hfree hop
  rw [ensures_apply_deployed op.effects parentOp v S' target hfree' v' hv'] at hdep
  cases hlast : lastDeploy target op.effects with
  | some to_ =>
      rw [hlast] at hdep
      cases hdep
      exact ⟨_, rfl, _, .refl, op, hget, hlast⟩
  | none =>
      rw [hlast] at hdep
      obtain ⟨x, hx, o, hox, hdeploys⟩ := hinv target dep hdep
      exact ⟨_, rfl, o, hox.trans (.single ⟨_, parentsIn_of_mem hfree hop, hx⟩), hdeploys⟩

/-- An accepted op at or below some ops that leaves the target at the deployment. -/
structure Files (S : Store) (ops : List ObjectId) (target : EntityId) (dep : ObjectId)
    (d : Delivery) : Prop where
  verified : d.Verified
  below : ∃ x ∈ ops, Ancestor S (Crypto.objectId (.op d.op)) x
  last : lastDeploy target d.op.effects = some dep

/-- The deployment that an accept call leaves a target at is one of the target,
of a revision that is landed in the view that the op was made on, and names as
the previous one what that view shows. -/
def Vouched (S : Store) (d : Delivery) (target : EntityId) (dep : ObjectId) : Prop :=
  ∃ deployment landed, (get Deployment dep).value S = .ok deployment ∧
    (d.log.landedIn d.op.parents).value d.store = .ok landed ∧ deployment.revision ∈ landed ∧
    deployment.target = target ∧
    (d.log.deployedIn d.op.parents target).value d.store = .ok deployment.previous

theorem LogRun.files_of_shown (hrun : LogRun past S log) (hops : ∀ o ∈ ops, o ∈ log.verified)
    (hfree : CollisionFree ((log.mergedView ops).after S))
    (hshown : (log.deployedIn ops target).value S = .ok (some dep)) :
    ∃ d ∈ past, Files S ops target dep d := by
  have hstart := subset_after (log.mergedView ops) S
  have hfreeS := hfree.mono hstart
  have hkept : Kept (ShowsDeployed S) S log := by
    refine hrun.reached.kept showsDeployed_merge hstart hfree fun op htook => ?_
    obtain ⟨o, _, hop⟩ := htook
    exact preserves_showsDeployed hfreeS (get_ok hop).1
  obtain ⟨v, hv, c, _, hinv, _⟩ := hkept.returns_mergedView showsDeployed_merge hstart hfree
    (List.Subset.refl S) hops hfree
  rw [deployedIn, (bind_of_ok hv).1] at hshown
  obtain ⟨x, hx, o, hox, op, hop, hlast⟩ := hinv target dep (Except.ok.inj hshown)
  have ho : o ∈ log.verified := List.mem_toFinset.mp
    (hox.mem (hkept.closed hfreeS) (List.mem_toFinset.mpr (hops x hx)))
  obtain ⟨d, hd, hverified, rfl⟩ := hrun.delivered o ho
  have hget : (getOp (Crypto.objectId (.op d.op))).value S = .ok d.op :=
    value_get hfreeS (hrun.took hd hverified).2
  rw [hop] at hget
  cases hget
  exact ⟨d, hd, hverified, ⟨x, hx, hox⟩, hlast⟩

/-- The view of an accepted op shows what its effects leave the target at. -/
theorem LogRun.shown_of_last (hrun : LogRun past S log) (hfree : CollisionFree S) (hd : d ∈ past)
    (hverified : d.Verified) (hlast : lastDeploy target d.op.effects = some dep) :
    (log.deployedIn [Crypto.objectId (.op d.op)] target).value S = .ok (some dep) := by
  obtain ⟨v₀, v, hview, hdeployed⟩ := hrun.viewOf_applied hfree hd hverified fun v₀ S' =>
    ensures_apply_deployed d.op.effects d.op.parents.head? v₀ S' target
  rw [hlast] at hdeployed
  rw [deployedIn, mergedView_singleton, (bind_of_ok hview).1, hdeployed]
  rfl

/-- In every run, all that the merged views of accepted ops show for the targets
was filed there by an accepted op, and by ops that vouch for it only, exactly if
every accepted op vouches for what it leaves a target at. -/
theorem vouched_iff (hrun : LogRun past S log) (hfree : CollisionFree S) :
    (∀ ops, (∀ o ∈ ops, o ∈ log.verified) → CollisionFree ((log.mergedView ops).after S) →
        ∀ target dep, (log.deployedIn ops target).value S = .ok (some dep) →
          (∃ d ∈ past, Files S ops target dep d) ∧
            ∀ d ∈ past, Files S ops target dep d → Vouched S d target dep) ↔
      ∀ d ∈ past, d.Verified → ∀ target dep, lastDeploy target d.op.effects = some dep →
        Vouched S d target dep := by
  constructor
  · intro h d hd hverified target dep hlast
    have hops := List.forall_mem_singleton.mpr (hrun.took hd hverified).1
    have hone : (log.mergedView [Crypto.objectId (.op d.op)]).after S = S := by
      rw [mergedView_singleton, readOnly_viewOf]
    obtain ⟨_, hall⟩ := h _ hops (hone.symm ▸ hfree) target dep
      (hrun.shown_of_last hfree hd hverified hlast)
    exact hall d hd ⟨hverified, ⟨_, List.mem_cons_self, .refl⟩, hlast⟩
  · intro h ops hops hfreeOps target dep hshown
    refine ⟨hrun.files_of_shown hops hfreeOps hshown, fun d hd hfiles => ?_⟩
    exact h d hd hfiles.verified target dep hfiles.last

end Deployed

section Samples

/-! A deployment of a revision that no line ever reached. -/

def unlandedDeployment : Deployment where
  target := .splat 112
  revision := .splat 9
  release := none
  principal := .splat 1
  previous := none
  step := none
  time := 0

def deployOp : Op :=
  ownerOp "deploy" [.splat 14] [.put (.splat 15), .deploy (.splat 112) (.splat 15)] (.splat 16)

local instance deployHash : Crypto := .ofTable (conflictTable.take 15 ++ [
  .deployment unlandedDeployment,
  .view { landView with deployed := (∅ : OrdMap EntityId ObjectId).insert (.splat 112) (.splat 15) },
  .op deployOp])

def deployed : Store × OpLog :=
  deliverAll (conflictBase ++ [.deployment unlandedDeployment]) .new [landInit, deployOp]

theorem logRun_deployed :
    LogRun (deliveries (conflictBase ++ [.deployment unlandedDeployment]) .new [landInit, deployOp])
      deployed.1 deployed.2 :=
  logRun_deliverAll _ _

theorem collisionFree_deployed : CollisionFree deployed.1 :=
  collisionFree_ofTable (by decide) (by decide +kernel)

/-- The op is accepted, and the target shows a revision that is not landed. -/
theorem unlanded_deployed :
    LogRun (deliveries (conflictBase ++ [.deployment unlandedDeployment]) .new [landInit, deployOp])
      deployed.1 deployed.2 ∧
    CollisionFree deployed.1 ∧ deployed.2.heads = [Crypto.objectId (.op deployOp)] ∧
    (deployed.2.deployedIn deployed.2.heads (.splat 112)).value deployed.1 = .ok (some (.splat 15)) ∧
    (get Deployment (.splat 15)).value deployed.1 = .ok unlandedDeployment ∧
    (deployed.2.landedIn deployOp.parents).value deployed.1 = .ok [.splat 6] ∧
    (deployed.2.landedIn deployed.2.heads).value deployed.1 = .ok [.splat 6] ∧
    unlandedDeployment.revision ∉ [ObjectId.splat 6] :=
  ⟨logRun_deployed, collisionFree_deployed, by decide +kernel, by decide +kernel,
    by decide +kernel, by decide +kernel, by decide +kernel, by decide⟩

theorem vouched_iff_deployed :
    (∀ ops, (∀ o ∈ ops, o ∈ deployed.2.verified) →
        CollisionFree ((deployed.2.mergedView ops).after deployed.1) →
        ∀ target dep, (deployed.2.deployedIn ops target).value deployed.1 = .ok (some dep) →
          (∃ d ∈ deliveries (conflictBase ++ [.deployment unlandedDeployment]) .new
              [landInit, deployOp], Files deployed.1 ops target dep d) ∧
            ∀ d ∈ deliveries (conflictBase ++ [.deployment unlandedDeployment]) .new
              [landInit, deployOp], Files deployed.1 ops target dep d →
                Vouched deployed.1 d target dep) ↔
      ∀ d ∈ deliveries (conflictBase ++ [.deployment unlandedDeployment]) .new
          [landInit, deployOp], d.Verified →
        ∀ target dep, lastDeploy target d.op.effects = some dep → Vouched deployed.1 d target dep :=
  vouched_iff logRun_deployed collisionFree_deployed

end Samples

end Tessra.Oplog
