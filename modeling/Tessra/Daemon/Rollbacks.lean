import Tessra.Data.Lists
import Tessra.Daemon.Delivery

namespace Tessra.Daemon

open Tessra.Core Tessra.Data Tessra.Oplog StoreM Faulty

/-! Where repeated rollbacks of a target lead. -/

section Plain

variable {tid : EntityId} {target : Target} {w : Occasion} {slice : Slice} {kind : StepKind}
  {rev : ObjectId} {previous : Option (ObjectId × Deployment)} {s s' s'' : Site}

@[simp] theorem textAt_of_stepOf (percent : ℕ) :
    textAt (stepOf percent slice kind) "of" = some slice.text := by
  simp [textAt, stepOf, OrdMap.get?_insert]

@[simp] theorem textAt_kind_stepOf (percent : ℕ) :
    textAt (stepOf percent slice kind) "kind" = some kind.text := by
  simp [textAt, stepOf, OrdMap.get?_insert]

theorem full_deploymentOf :
    Full (deploymentOf tid target w rev previous slice kind) ↔ slice = .all := by
  cases slice <;> simp [Full, deploymentOf, Slice.text]

theorem rolledBack_deploymentOf :
    rolledBack (deploymentOf tid target w rev previous slice kind) =
      decide (kind = .rollback) := by
  cases kind <;> simp [rolledBack, deploymentOf, StepKind.text]

/-- A deploy that failed before its op was accepted. -/
structure Unmade (s s' : Site) : Prop where
  past : s'.past = s.past
  deployed : s'.deployed = s.deployed
  store : s.store ⊆ s'.store

theorem Unmade.refl (s : Site) : Unmade s s := ⟨rfl, rfl, List.Subset.refl _⟩

end Plain

section Steps

variable [Crypto] {tid : EntityId} {target : Target} {w : Occasion} {revision : Option ObjectId}
  {slice : Slice} {kind : StepKind} {s s' : Site} {dep : Deployment}

/-- What a deploy whose op is accepted does. -/
structure Made (tid : EntityId) (slice : Slice) (kind : StepKind) (s s' : Site)
    (dep : Deployment) : Prop where
  past : s'.past = dep :: s.past
  deployed : s'.deployed = some (Crypto.objectId (.deployment dep))
  store : s'.store = s.store ++ [.deployment dep]
  serves : s'.serves = Function.update s.serves slice (some dep.revision)
  target : dep.target = tid
  previous : dep.previous = s.deployed
  full : Full dep ↔ slice = .all
  rolledBack : Daemon.rolledBack dep = decide (kind = .rollback)

theorem deployed_ok {current : Option (ObjectId × Deployment)}
    (h : Daemon.deployed.value s = .ok current) :
    current.map Prod.fst = s.deployed ∧
      ∀ p ∈ current, (get Deployment p.1).value s.store = .ok p.2 := by
  simp only [Daemon.deployed, value_read] at h
  cases hdeployed : s.deployed with
  | none =>
      rw [hdeployed] at h
      cases h
      exact ⟨rfl, nofun⟩
  | some id =>
      rw [hdeployed] at h
      cases hget : (get Deployment id).value s.store with
      | error e =>
          simp only [hget] at h
          cases h
      | ok d =>
          simp only [hget] at h
          cases h
          exact ⟨rfl, fun p hp => by cases hp; exact hget⟩

theorem admitted_ok {rev : ObjectId} (h : (admitted w revision slice kind).value s = .ok rev) :
    ∀ r ∈ revision, rev = r := by
  intro r hr
  cases hr
  simp only [admitted, value_read, Option.elim_some] at h
  obtain ⟨rev', hrev, h⟩ := bind_eq_ok.mp h
  cases hrev
  obtain ⟨_, _, h⟩ := bind_eq_ok.mp h
  obtain ⟨_, _, h⟩ := bind_eq_ok.mp h
  split at h
  · obtain ⟨unmet, _, h⟩ := bind_eq_ok.mp h
    split at h
    · cases h
    · exact (Except.ok.inj h).symm
  · exact (Except.ok.inj h).symm

theorem made_commit (tid : EntityId) (target : Target) (slice : Slice) (kind : StepKind)
    (rev : ObjectId) {previous : Option (ObjectId × Deployment)} (hadapter : w.adapter = .ok ())
    (haccepted : w.accepted = .ok ()) (hprevious : previous.map Prod.fst = s.deployed)
    (hdep : dep = deploymentOf tid target w rev previous slice kind) :
    Made tid slice kind s ((commitDeployment w tid dep (Crypto.objectId (.deployment dep))).after
      ((putDeployment dep).after ((adapt w slice rev).after s))) dep := by
  subst hdep
  simp only [commitDeployment, after_ofFun, haccepted]
  exact {
    past := rfl
    deployed := by simp [deployEffects, lastDeploy, deployWritten]
    store := rfl
    serves := by simp [putDeployment, adapt, hadapter, Except.toOption, deploymentOf]
    target := rfl
    previous := hprevious
    full := full_deploymentOf
    rolledBack := rolledBack_deploymentOf }

/-- How a deploy ends: it failed and left the target's deployment as it was, or
its op was accepted. -/
def DeployEnds (tid : EntityId) (revision : Option ObjectId) (slice : Slice) (kind : StepKind)
    (s : Site) (result : Except Error ObjectId) (s' : Site) : Prop :=
  (Unmade s s' ∧ ∃ e, result = .error e) ∨
    ∃ dep, Made tid slice kind s s' dep ∧ ∀ r ∈ revision, dep.revision = r

theorem deploy_cases (tid : EntityId) (target : Target) (w : Occasion)
    (revision : Option ObjectId) (slice : Slice) (kind : StepKind) (s : Site) :
    (deploy tid target w revision slice kind).Yields s (DeployEnds tid revision slice kind s) := by
  refine yields_bind (fun e _ => .inl ⟨.refl s, e, rfl⟩) fun rev hrev => ?_
  refine yields_bind (fun e _ => .inl ⟨.refl s, e, rfl⟩) fun previous hprevious => ?_
  refine yields_bind (fun e _ => .inl ⟨.refl s, e, rfl⟩) fun _ _ => ?_
  refine yields_bind (fun e _ => .inl ⟨⟨rfl, rfl, List.Subset.refl _⟩, e, rfl⟩) fun _ hadapt => ?_
  have hadapter : w.adapter = .ok () := hadapt
  refine yields_bind (fun e he => nomatch he) fun id hid => ?_
  cases hid
  have hstore : s.store ⊆ s.store ++ [.deployment
      (deploymentOf tid target w rev previous slice kind)] := List.subset_append_left _ _
  refine yields_bind (fun e he => .inl ⟨?_, e, rfl⟩) fun _ haccepted => ?_
  · have hrefused : w.accepted = .error e := he
    simp only [commitDeployment, after_ofFun, hrefused]
    exact ⟨rfl, rfl, hstore⟩
  · have hmade := made_commit tid target slice kind rev hadapter haccepted
      (deployed_ok hprevious).1 rfl
    refine yields_bind (fun e _ => .inr ⟨_, hmade, admitted_ok hrev⟩) fun _ _ => ?_
    exact .inr ⟨_, hmade, admitted_ok hrev⟩

/-- The op of a deploy that was made on the view that it read vouches for its
deployment, exactly if the revision is landed there. -/
theorem Made.vouches {S : Store} {d : Delivery} (h : Made tid slice kind s s' dep)
    (hfree : CollisionFree S) (hdep : Object.deployment dep ∈ S)
    (hread : (d.log.deployedIn d.op.parents tid).value d.store = .ok s.deployed) :
    Vouched S d tid (Crypto.objectId (.deployment dep)) ↔
      ∃ landed, (d.log.landedIn d.op.parents).value d.store = .ok landed ∧
        dep.revision ∈ landed := by
  have hget : (get Deployment (Crypto.objectId (.deployment dep))).value S = .ok dep :=
    value_get hfree hdep
  constructor
  · intro hvouched
    obtain ⟨dep', landed, hdep', hlanded, hmem, _⟩ := hvouched
    rw [hget] at hdep'
    cases hdep'
    exact ⟨landed, hlanded, hmem⟩
  · intro hlanded
    obtain ⟨landed, hlanded, hmem⟩ := hlanded
    exact ⟨dep, landed, hget, hlanded, hmem, h.target, h.previous ▸ hread⟩

/-- A deployment and the deployments before it, each the previous one of the next. -/
def Linked (S : Store) : Option ObjectId → List Deployment → Prop
  | p, [] => p = none
  | p, d :: rest => (∃ id, p = some id ∧ (get Deployment id).value S = .ok d) ∧
      Linked S d.previous rest

theorem Linked.mono {S S' : Store} {p : Option ObjectId} {past : List Deployment}
    (h : Linked S p past) (hsub : S ⊆ S') (hfree : CollisionFree S') : Linked S' p past := by
  induction past generalizing p with
  | nil => exact h
  | cons d rest ih =>
      obtain ⟨⟨id, hid, hget⟩, hrest⟩ := h
      exact ⟨⟨id, hid, (lasting_get Deployment id).lasts hsub hfree hget⟩, ih hrest⟩

theorem earlier_ok {S : Store} {rev : ObjectId} {n : ℕ} {p : Option ObjectId} {prev : Deployment}
    {past : List Deployment} (hlinked : Linked S p past)
    (h : earlier S rev n p = .ok (some prev)) :
    past.find? (fun d => d.revision ≠ rev) = some prev := by
  induction n generalizing p past with
  | zero =>
      simp only [earlier] at h
      cases h
  | succ n ih =>
      cases past with
      | nil =>
          rw [show p = none from hlinked, earlier] at h
          cases h
      | cons d rest =>
          obtain ⟨⟨id, rfl, hget⟩, hrest⟩ := hlinked
          obtain ⟨d', hd', h⟩ := bind_eq_ok.mp h
          rw [hget] at hd'
          cases hd'
          split_ifs at h with hrev
          · cases h
            rw [List.find?_cons_of_pos (by simpa using hrev)]
          · rw [List.find?_cons_of_neg (by simpa using hrev)]
            exact ih hrest h

/-- What a rollback deploys: the revision of the first deployment of another one
among the predecessors of the current deployment. -/
structure Reverts (s : Site) (dep : Deployment) : Prop where
  found : ∃ id left prev, s.deployed = some id ∧ (get Deployment id).value s.store = .ok left ∧
    earlier s.store left.revision 200 left.previous = .ok (some prev) ∧
    dep.revision = prev.revision

/-- How a rollback ends: it failed before its deployment was made, or the
deployment was made. -/
def RollbackEnds (tid : EntityId) (s : Site) (result : Except Error ObjectId) (s' : Site) : Prop :=
  (Unmade s s' ∧ ∃ e, result = .error e) ∨
    ∃ dep, Made tid .all .rollback s s' dep ∧ Reverts s dep

theorem rollback_cases (tid : EntityId) (target : Target) (w : Occasion) (s : Site) :
    (rollback tid target w).Yields s (RollbackEnds tid s) := by
  refine yields_bind (fun e _ => .inl ⟨.refl s, e, rfl⟩) fun current hcurrent => ?_
  obtain ⟨hfst, hget⟩ := deployed_ok hcurrent
  cases current with
  | none => exact .inl ⟨.refl s, _, rfl⟩
  | some current =>
      refine yields_bind (fun e _ => .inl ⟨.refl s, e, rfl⟩) fun prev hprev => ?_
      cases prev with
      | none => exact .inl ⟨.refl s, _, rfl⟩
      | some prev =>
          have hreverts : ∀ new : Deployment, new.revision = prev.revision → Reverts s new :=
            fun new hrev => ⟨current.1, current.2, prev, hfst.symm, hget _ rfl, hprev, hrev⟩
          refine yields_bind (fun e _ => .inl ⟨.refl s, e, rfl⟩) fun _ _ => ?_
          have hcases := deploy_cases tid target w (some prev.revision) .all .rollback s
          refine yields_bind (fun e _ => ?_) fun rev hvalue => ?_
          · rcases hcases with ⟨hunmade, _⟩ | ⟨new, hmade, hrev⟩
            · exact .inl ⟨hunmade, e, rfl⟩
            · exact .inr ⟨new, hmade, hreverts new (hrev _ rfl)⟩
          · rcases hcases with ⟨_, e, he⟩ | ⟨new, hmade, hrev⟩
            · have hok : (deploy tid target w (some prev.revision) .all .rollback).value s =
                  .ok rev := hvalue
              rw [hok] at he
              cases he
            · have hreverts := hreverts new (hrev _ rfl)
              exact yields_bind (fun e _ => .inr ⟨new, hmade, hreverts⟩) fun _ _ =>
                .inr ⟨new, hmade, hreverts⟩

/-- A rollback goes to the newest deployment of another revision. -/
theorem Reverts.back (h : Reverts s dep) (hlinked : Linked s.store s.deployed s.past) :
    ∃ prev, Data.back Deployment.revision s.past = some prev ∧ dep.revision = prev.revision := by
  obtain ⟨id, left, prev, hid, hleft, hprev, hrev⟩ := h.found
  refine ⟨prev, ?_, hrev⟩
  rw [hid] at hlinked
  cases hpast : s.past with
  | nil =>
      rw [hpast] at hlinked
      cases hlinked
  | cons x older =>
      rw [hpast] at hlinked
      obtain ⟨⟨id', hid', hget⟩, hrest⟩ := hlinked
      cases hid'
      rw [hleft] at hget
      cases hget
      exact earlier_ok hrest hprev

theorem after_observe (tid : EntityId) (target : Target) (w : Occasion) (s : Site) :
    (observe tid target w).after s = if w.rolls then (rollback tid target w).after s else s := by
  have hfails : ∀ {α β : Type} {f : α → Faulty Error Site β} {x : Faulty Error Site α} {e : Error},
      x.value s = .error e → x.after s = s → (x >>= f).after s = s := by
    intro α β f x e hvalue hafter
    rw [(bind_of_error hvalue).2, hafter]
  cases hcurrent : Daemon.deployed.value s with
  | error e =>
      rw [observe, rollback, hfails hcurrent rfl, hfails hcurrent rfl, ite_self]
  | ok current =>
      rw [observe, (bind_of_ok hcurrent).2]
      cases current with
      | none =>
          rw [rollback, (bind_of_ok hcurrent).2]
          exact (ite_self _).symm
      | some p =>
          cases htripped : w.tripped with
          | error e =>
              have hrolls : w.rolls = false := by simp [Occasion.rolls, htripped]
              rw [hrolls]
              exact hfails rfl rfl
          | ok tripped =>
              have hrolls : w.rolls = (tripped && w.autoRevert) := by
                simp [Occasion.rolls, htripped]
              rw [hrolls]
              refine (bind_of_ok (x := ofResult (.ok tripped)) rfl).2.trans ?_
              split
              · exact after_map _ _ _
              · rfl

end Steps

section Runs

variable [Crypto] {tid : EntityId} {target : Target} {site : Site} {w : Occasion} {rev : ObjectId}

/-- A rollback asked for at a site. -/
structure Call where
  site : Site
  occasion : Occasion

/-- Deploys, observations and rollbacks of one target from its creation on, among
which any objects may be put, with the rollbacks that were asked for. -/
inductive DeliveryRun (tid : EntityId) (target : Target) : List Call → Site → Prop
  | start {site : Site} : site.deployed = none → site.past = [] → DeliveryRun tid target [] site
  | put {calls : List Call} {site : Site} (o : Object) : DeliveryRun tid target calls site →
      DeliveryRun tid target calls { site with store := site.store ++ [o] }
  | deploy {calls : List Call} {site : Site} (w : Occasion) (revision : Option ObjectId)
      (slice : Slice) : DeliveryRun tid target calls site →
      DeliveryRun tid target calls ((deploy tid target w revision slice .deploy).after site)
  | rollback {calls : List Call} {site : Site} (w : Occasion) : DeliveryRun tid target calls site →
      DeliveryRun tid target (calls ++ [⟨site, w⟩]) ((rollback tid target w).after site)
  | observe {calls : List Call} {site : Site} (w : Occasion) : DeliveryRun tid target calls site →
      DeliveryRun tid target (if w.rolls then calls ++ [⟨site, w⟩] else calls)
        ((observe tid target w).after site)

/-- A rollback deployed another revision, which had been deployed to everyone
before, and which no rollback has left since its last deploy; and no slice serves
the revision that it left. -/
def GoesBack (before after : Site) : Prop :=
  ∃ left earlier new, before.past = left :: earlier ∧ after.past = new :: before.past ∧
    after.deployed = some (Crypto.objectId (.deployment new)) ∧
    (∃ d ∈ earlier, Full d ∧ d.revision = new.revision) ∧
    leftSince Deployment.revision rolledBack new.revision before.past = false ∧
    ∀ slice, after.serves slice ≠ some left.revision

/-- The revision that a site shows was brought there by a deploy. -/
def Straight (past : List Deployment) : Prop :=
  ∀ a ∈ arrival Deployment.revision past, rolledBack a = false

/-- A site from which a rollback goes back. -/
structure Steady (site : Site) : Prop where
  straight : Straight site.past
  full : ∀ b ∈ back Deployment.revision site.past,
    ∃ d ∈ site.past, Full d ∧ d.revision = b.revision
  clear : ∀ left ∈ site.past.head?, site.serves .canary ≠ some left.revision

def Call.after (tid : EntityId) (target : Target) (c : Call) : Site :=
  (Daemon.rollback tid target c.occasion).after c.site

/-- The rollback deployed something, even if it failed later. -/
def Call.Moves (tid : EntityId) (target : Target) (c : Call) : Prop :=
  (c.after tid target).past ≠ c.site.past

def Call.Succeeds (tid : EntityId) (target : Target) (c : Call) : Prop :=
  ∃ rev, (Daemon.rollback tid target c.occasion).value c.site = .ok rev

/-- What every run keeps. -/
structure Kept (site : Site) : Prop where
  linked : Linked site.store site.deployed site.past
  onward : Onward Deployment.revision rolledBack site.past

theorem Unmade.kept {s s' : Site} (h : Unmade s s') (hkept : Kept s)
    (hfree : CollisionFree s'.store) : Kept s' where
  linked := by
    rw [h.deployed, h.past]
    exact hkept.linked.mono h.store hfree
  onward := h.past ▸ hkept.onward

theorem Made.subset {s s' : Site} {slice : Slice} {kind : StepKind} {dep : Deployment}
    (h : Made tid slice kind s s' dep) : s.store ⊆ s'.store := by
  rw [h.store]
  exact List.subset_append_left _ _

theorem Made.kept {s s' : Site} {slice : Slice} {kind : StepKind} {dep : Deployment}
    (h : Made tid slice kind s s' dep) (hkept : Kept s) (hfree : CollisionFree s'.store)
    (honward : kind = .rollback →
      leftSince Deployment.revision Daemon.rolledBack dep.revision s.past = false ∧
        ∀ y ∈ s.past.head?, y.revision ≠ dep.revision) : Kept s' where
  linked := by
    have hget : (get Deployment (Crypto.objectId (.deployment dep))).value s'.store = .ok dep :=
      value_get hfree (by rw [h.store]; exact List.mem_append_right _ List.mem_cons_self)
    rw [h.deployed, h.past]
    exact ⟨⟨_, rfl, hget⟩, h.previous ▸ hkept.linked.mono h.subset hfree⟩
  onward := by
    rw [h.past]
    refine ⟨fun hundo => honward ?_, hkept.onward⟩
    rw [h.rolledBack] at hundo
    exact of_decide_eq_true hundo

omit [Crypto] in
/-- A rollback goes to a revision that no rollback has left, exactly if a deploy
brought the one it leaves. -/
theorem leftSince_of_back {past : List Deployment} {prev : Deployment}
    (honward : Onward Deployment.revision rolledBack past)
    (hback : back Deployment.revision past = some prev) :
    leftSince Deployment.revision rolledBack prev.revision past = false ↔ Straight past := by
  cases past with
  | nil => cases hback
  | cons x older =>
      rw [← Bool.not_eq_true, leftSince_back honward hback, Straight]
      simp

theorem subset_rollback (s : Site) : s.store ⊆ ((rollback tid target w).after s).store := by
  rcases rollback_cases tid target w s with ⟨hunmade, _⟩ | ⟨dep, hmade, _⟩
  · exact hunmade.store
  · exact hmade.subset

theorem Made.moves {s : Site} {dep : Deployment}
    (h : Made tid .all .rollback s ((rollback tid target w).after s) dep) :
    Call.Moves tid target ⟨s, w⟩ := by
  intro hsame
  rw [Call.after, h.past] at hsame
  exact List.cons_ne_self _ _ hsame

theorem kept_rollback {s : Site} (hkept : Kept s)
    (hfree : CollisionFree ((rollback tid target w).after s).store)
    (hstraight : Call.Moves tid target ⟨s, w⟩ → Straight s.past) :
    Kept ((rollback tid target w).after s) := by
  rcases rollback_cases tid target w s with ⟨hunmade, _⟩ | ⟨dep, hmade, hreverts⟩
  · exact hunmade.kept hkept hfree
  · obtain ⟨prev, hback, hrev⟩ := hreverts.back hkept.linked
    refine hmade.kept hkept hfree fun _ => ?_
    rw [hrev]
    refine ⟨(leftSince_of_back hkept.onward hback).mpr (hstraight hmade.moves), fun y hy => ?_⟩
    cases hpast : s.past with
    | nil =>
        rw [hpast] at hy
        cases hy
    | cons x older =>
        rw [hpast] at hy hback
        cases hy
        exact (back_ne hback).symm

theorem DeliveryRun.kept {calls : List Call} (hrun : DeliveryRun tid target calls site)
    (hfree : CollisionFree site.store)
    (hstraight : ∀ c ∈ calls, c.Moves tid target → Straight c.site.past) : Kept site := by
  induction hrun with
  | start hdeployed hpast => exact ⟨by rw [hdeployed, hpast]; rfl, by rw [hpast]; trivial⟩
  | @put calls site o _ ih =>
      have hsub := List.subset_append_left site.store [o]
      have hkept := ih (hfree.mono hsub) hstraight
      exact ⟨hkept.linked.mono hsub hfree, hkept.onward⟩
  | @deploy calls site w revision slice _ ih =>
      rcases deploy_cases tid target w revision slice .deploy site with
        ⟨hunmade, _⟩ | ⟨dep, hmade, _⟩
      · exact hunmade.kept (ih (hfree.mono hunmade.store) hstraight) hfree
      · refine hmade.kept (ih (hfree.mono hmade.subset) hstraight) hfree fun hkind => ?_
        cases hkind
  | @rollback calls site w _ ih =>
      have hkept := ih (hfree.mono (subset_rollback site)) fun c hc =>
        hstraight c (List.mem_append_left _ hc)
      exact kept_rollback hkept hfree (hstraight _ (List.mem_append_right _ List.mem_cons_self))
  | @observe calls site w _ ih =>
      rw [after_observe] at hfree ⊢
      cases hrolls : w.rolls with
      | false =>
          simp only [hrolls, Bool.false_eq_true, if_false] at hfree hstraight ⊢
          exact ih hfree hstraight
      | true =>
          simp only [hrolls, if_true] at hfree hstraight ⊢
          have hkept := ih (hfree.mono (subset_rollback site)) fun c hc =>
            hstraight c (List.mem_append_left _ hc)
          exact kept_rollback hkept hfree
            (hstraight _ (List.mem_append_right _ List.mem_cons_self))

/-- A call of a run was made at the end of a shorter run. -/
theorem DeliveryRun.before {calls : List Call} (hrun : DeliveryRun tid target calls site) :
    ∀ c ∈ calls, c.site.store ⊆ site.store ∧ ∃ earlier, DeliveryRun tid target earlier c.site ∧
      ∀ x ∈ earlier, x ∈ calls := by
  have hrolled : ∀ {calls : List Call} {site : Site} (w : Occasion),
      DeliveryRun tid target calls site → (∀ c ∈ calls, c.site.store ⊆ site.store ∧
        ∃ earlier, DeliveryRun tid target earlier c.site ∧ ∀ x ∈ earlier, x ∈ calls) →
      ∀ c ∈ calls ++ [⟨site, w⟩],
        c.site.store ⊆ ((Daemon.rollback tid target w).after site).store ∧
        ∃ earlier, DeliveryRun tid target earlier c.site ∧
          ∀ x ∈ earlier, x ∈ calls ++ [⟨site, w⟩] := by
    intro calls site w hrun ih c hc
    rcases List.mem_append.mp hc with hc | hc
    · obtain ⟨hsub, earlier, hearlier, hcalls⟩ := ih c hc
      exact ⟨List.Subset.trans hsub (subset_rollback site), earlier, hearlier, fun x hx =>
        List.mem_append_left _ (hcalls x hx)⟩
    · cases List.mem_singleton.mp hc
      exact ⟨subset_rollback site, calls, hrun, fun x hx => List.mem_append_left _ hx⟩
  induction hrun with
  | start => simp
  | put o _ ih =>
      intro c hc
      obtain ⟨hsub, hrest⟩ := ih c hc
      exact ⟨List.Subset.trans hsub (List.subset_append_left _ _), hrest⟩
  | @deploy calls site w revision slice _ ih =>
      intro c hc
      obtain ⟨hsub, hrest⟩ := ih c hc
      rcases deploy_cases tid target w revision slice .deploy site with
        ⟨hunmade, _⟩ | ⟨dep, hmade, _⟩
      · exact ⟨List.Subset.trans hsub hunmade.store, hrest⟩
      · exact ⟨List.Subset.trans hsub hmade.subset, hrest⟩
  | rollback w hrun ih => exact hrolled w hrun ih
  | @observe calls site w hrun ih =>
      rw [after_observe]
      cases hrolls : w.rolls with
      | false => exact ih
      | true => exact hrolled w hrun ih

/-- A rollback that succeeds made its deployment. -/
theorem rollback_made (hok : (rollback tid target w).value site = .ok rev) :
    ∃ dep, Made tid .all .rollback site ((rollback tid target w).after site) dep ∧
      Reverts site dep := by
  rcases rollback_cases tid target w site with ⟨_, e, he⟩ | hmade
  · rw [hok] at he
    cases he
  · exact hmade

theorem goesBack_iff (hkept : Kept site) (hok : (rollback tid target w).value site = .ok rev) :
    GoesBack site ((rollback tid target w).after site) ↔ Steady site := by
  obtain ⟨dep, hmade, hreverts⟩ := rollback_made hok
  obtain ⟨prev, hback, hrev⟩ := hreverts.back hkept.linked
  constructor
  · intro h
    obtain ⟨left, earlier, new, hpast, hafter, _, ⟨d, hd, hfull, hdrev⟩, hleft, hserves⟩ := h
    rw [hmade.past] at hafter
    cases hafter
    refine ⟨(leftSince_of_back hkept.onward hback).mp (hrev ▸ hleft), fun b hb => ?_,
      fun x hx hcanary => ?_⟩
    · rw [hback] at hb
      cases hb
      exact ⟨d, hpast ▸ List.mem_cons_of_mem _ hd, hfull, hdrev.trans hrev⟩
    · rw [hpast] at hx
      cases hx
      refine hserves .canary ?_
      rw [hmade.serves, Function.update_of_ne (by decide)]
      exact hcanary
  · intro h
    cases hpast : site.past with
    | nil =>
        rw [hpast] at hback
        cases hback
    | cons left earlier =>
        have hne : prev.revision ≠ left.revision := back_ne (hpast ▸ hback)
        obtain ⟨d, hd, hfull, hdrev⟩ := h.full prev hback
        refine ⟨left, earlier, dep, hpast, hmade.past, hmade.deployed, ⟨d, ?_, hfull, ?_⟩, ?_, ?_⟩
        · rw [hpast] at hd
          rcases List.mem_cons.mp hd with rfl | hd
          · exact absurd hdrev.symm hne
          · exact hd
        · rw [hdrev, hrev]
        · rw [hrev]
          exact (leftSince_of_back hkept.onward hback).mpr h.straight
        · intro slice
          rw [hmade.serves]
          cases slice with
          | canary =>
              rw [Function.update_of_ne (by decide)]
              exact h.clear left (by rw [hpast]; rfl)
          | all =>
              rw [Function.update_self, hrev]
              exact fun hsame => hne (Option.some.inj hsame)

/-- In every run whose rollbacks each moved a steady site, every rollback that
succeeded went back; and the next one does exactly if its site is steady. -/
theorem rollbacks_go_back {calls : List Call} (hrun : DeliveryRun tid target calls site)
    (hfree : CollisionFree site.store)
    (hsteady : ∀ c ∈ calls, c.Moves tid target → Steady c.site) :
    (∀ c ∈ calls, c.Succeeds tid target → GoesBack c.site (c.after tid target)) ∧
      ∀ w rev, (rollback tid target w).value site = .ok rev →
        (GoesBack site ((rollback tid target w).after site) ↔ Steady site) := by
  have hstraight : ∀ c ∈ calls, c.Moves tid target → Straight c.site.past :=
    fun c hc hmoves => (hsteady c hc hmoves).straight
  refine ⟨fun c hc hok => ?_, fun w rev hok => goesBack_iff (hrun.kept hfree hstraight) hok⟩
  obtain ⟨rev, hok⟩ := hok
  obtain ⟨hsub, earlier, hearlier, hcalls⟩ := hrun.before c hc
  have hkept := hearlier.kept (hfree.mono hsub) fun x hx => hstraight x (hcalls x hx)
  obtain ⟨dep, hmade, _⟩ := rollback_made hok
  exact (goesBack_iff hkept hok).mpr (hsteady c hc hmade.moves)

end Runs

section Samples

/-! A target to which two revisions are deployed, and that is rolled back twice. -/

def sampleTarget : Target where
  id := .splat 96
  prev := none
  name := "prod"
  deployer := ∅
  standard := .splat 48
  line := none
  observers := none
  riskBudget := none
  sensitivity := none

/-- Nothing stands in the way of a deploy. -/
def occasionAt (time : ℤ) : Occasion where
  head := .ok (.splat 0)
  snapshot := .ok ()
  unmet _ := .ok []
  json _ := ""
  scratch := .ok ()
  adapter := .ok ()
  left := none
  release := none
  principal := .splat 1
  time := time
  accepted := .ok ()
  hooks := .ok ()
  task := .ok ()
  tripped := .ok false
  autoRevert := true

def goodRevision : Revision := sampleRevision (.splat 64) "good" (.splat 5) []

def badRevision : Revision := sampleRevision (.splat 80) "bad" (.splat 5) [.splat 0]

def sampleDeployment (time : ℤ) (rev : ObjectId) (previous : Option ObjectId) (slice : Slice)
    (kind : StepKind) : Deployment :=
  { deploymentOf (.splat 96) sampleTarget (occasionAt time) rev none slice kind with previous }

local instance siteHash : Crypto := .ofTable [
  .revision goodRevision,
  .revision badRevision,
  .deployment (sampleDeployment 1 (.splat 0) none .all .deploy),
  .deployment (sampleDeployment 2 (.splat 1) (some (.splat 2)) .all .deploy),
  .deployment (sampleDeployment 3 (.splat 0) (some (.splat 3)) .all .rollback),
  .deployment (sampleDeployment 4 (.splat 1) (some (.splat 4)) .all .rollback),
  .deployment (sampleDeployment 2 (.splat 1) (some (.splat 2)) .canary .deploy),
  .deployment (sampleDeployment 3 (.splat 0) (some (.splat 6)) .all .rollback)]

def newSite : Site where
  store := [.revision goodRevision, .revision badRevision]
  deployed := none
  serves _ := none
  past := []

def goodSite : Site :=
  (deploy (.splat 96) sampleTarget (occasionAt 1) (some (.splat 0)) .all .deploy).after newSite

/-- The bad revision is deployed over the good one. -/
def badSite (slice : Slice) : Site :=
  (deploy (.splat 96) sampleTarget (occasionAt 2) (some (.splat 1)) slice .deploy).after goodSite

def backSite (slice : Slice) : Site :=
  (rollback (.splat 96) sampleTarget (occasionAt 3)).after (badSite slice)

def againSite : Site := (rollback (.splat 96) sampleTarget (occasionAt 4)).after (backSite .all)

theorem deliveryRun_back (slice : Slice) :
    DeliveryRun (.splat 96) sampleTarget [⟨badSite slice, occasionAt 3⟩] (backSite slice) := by
  have hstart : DeliveryRun (.splat 96) sampleTarget [] newSite := .start rfl rfl
  exact ((hstart.deploy _ _ _).deploy _ _ _).rollback _

/-- The second rollback returns to the bad revision; and after a rollback from its
canary, the canary's slice still serves it. -/
theorem rollback_returns :
    DeliveryRun (.splat 96) sampleTarget [⟨badSite .all, occasionAt 3⟩] (backSite .all) ∧
    CollisionFree (backSite .all).store ∧
    (rollback (.splat 96) sampleTarget (occasionAt 4)).value (backSite .all) = .ok (.splat 1) ∧
    againSite.past.head?.map Deployment.revision = some (.splat 1) ∧
    leftSince Deployment.revision rolledBack (.splat 1) (backSite .all).past = true ∧
    ¬ GoesBack (backSite .all) againSite ∧
    (rollback (.splat 96) sampleTarget (occasionAt 3)).value (badSite .canary) = .ok (.splat 0) ∧
    (backSite .canary).serves .canary = some (.splat 1) := by
  have hleft : leftSince Deployment.revision rolledBack (.splat 1) (backSite .all).past = true := by
    decide +kernel
  have hhead : againSite.past.head?.map Deployment.revision = some (.splat 1) := by decide +kernel
  refine ⟨deliveryRun_back .all, collisionFree_ofTable (by decide) (by decide +kernel),
    by decide +kernel, hhead, hleft, fun h => ?_, by decide +kernel, by decide +kernel⟩
  obtain ⟨_, _, new, _, hpast, _, _, hfresh, _⟩ := h
  rw [hpast] at hhead
  have hnew : new.revision = .splat 1 := Option.some.inj hhead
  rw [hnew, hleft] at hfresh
  cases hfresh

theorem rollbacks_go_back_once :
    (∀ c ∈ [(⟨badSite .all, occasionAt 3⟩ : Call)], c.Succeeds (.splat 96) sampleTarget →
        GoesBack c.site (c.after (.splat 96) sampleTarget)) ∧
      ∀ w rev, (rollback (.splat 96) sampleTarget w).value (backSite .all) = .ok rev →
        (GoesBack (backSite .all) ((rollback (.splat 96) sampleTarget w).after (backSite .all)) ↔
          Steady (backSite .all)) := by
  refine rollbacks_go_back (deliveryRun_back .all)
    (collisionFree_ofTable (by decide) (by decide +kernel)) fun c hc _ => ?_
  cases List.mem_singleton.mp hc
  exact ⟨by unfold Straight; decide +kernel, by decide +kernel, by decide +kernel⟩

end Samples

end Tessra.Daemon
