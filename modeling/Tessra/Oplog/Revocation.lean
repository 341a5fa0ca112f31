import Tessra.Oplog.Delegation

namespace Tessra.Oplog

open Tessra.Core Tessra.Data StoreM OpLog Verify

/-! Revocations, of authors and of the issuers of capabilities, against ops that
name older parents. -/

section Runs

variable [Crypto] {F S : Store} {log : OpLog} {op : Op} {past : List Delivery}

theorem LogRun.revokedBelow (h : LogRun past S log) (hF : S ⊆ F) (hfree : CollisionFree F)
    {d : Delivery} (hd : d ∈ past) (hv : d.Verified) {p : EntityId}
    (hp : .revoke p ∈ d.op.effects) : RevokedBelow F log.heads p := by
  obtain ⟨hmem, hop⟩ := h.took hd hv
  obtain ⟨x, hx, hbelow⟩ := (h.reached.keeps (hfree.mono hF)).below _ hmem
  exact ⟨x, hx, _, hbelow.mono hF hfree, d.op, value_get hfree (hF hop), hp⟩

/-- The author of an op that the log verifies is not revoked below the heads, and
its key is what the current view has for it. -/
theorem LogReached.author_current (h : LogReached S log) (hF : (log.accept op).after S ⊆ F)
    (hfree : CollisionFree F) (hverified : Delivery.Verified ⟨S, log, op⟩) :
    ¬ RevokedBelow F log.heads op.author ∧
      ∀ c : Contents, (∀ cell, c.at cell = mergedAt S cell log.heads) → ∀ version p,
        PointsAt F c op.author version p → p.key = some op.key := by
  by_cases hparents : op.parents = []
  · obtain ⟨hnew, ⟨id, log'⟩, hvalue⟩ := hverified
    obtain ⟨_, _, _, v', hv', _⟩ := accept_verified hnew hvalue
    have hheads := verifyOp_init hparents hv'
    rw [hheads]
    refine ⟨fun hrevoked => ?_, fun c hc version p hp => ?_⟩
    · obtain ⟨x, hx, _⟩ := hrevoked
      cases hx
    · have hnone := hc (.entity op.author)
      rw [hp.1] at hnone
      cases hnone
  · obtain ⟨_, v, c, v', cv, cc, hvetted⟩ := h.verified hparents hverified hF hfree
    obtain ⟨version, hatParents, hatCurrent⟩ := hvetted.checked.author
    obtain ⟨p, hp, _, hkey⟩ := ran_checkAuthorAtParents hvetted.sound hfree hatParents
    obtain ⟨hrevoked, hcurrent⟩ :=
      ran_checkAuthorAtCurrent hvetted.currentSound hfree hatCurrent
    refine ⟨fun hbelow => ?_, fun c' hc' version' p' hp' => ?_⟩
    · have hsome := (hvetted.currentRevoked op.author).mpr hbelow
      rw [hrevoked] at hsome
      cases hsome
    · have hat : PointsAt F cc op.author version' p' :=
        ⟨by rw [hvetted.currentAt, ← hc']; exact hp'.1, hp'.2⟩
      rcases (hcurrent version' p' hat).1 with rfl | hsame
      · have heq := hp.2.symm.trans hp'.2
        cases heq
        exact hkey
      · exact hsame

/-- Once an op that revokes a principal is accepted, every later current view
shows it, and no op of the principal is accepted, whatever parents it names; and
the key of an op is the one that the current view has for its author. -/
theorem revoked_author_rejected (hrun : LogRun past S log) (op : Op)
    (hfree : CollisionFree ((log.accept op).after S ++ log.currentView.after S)) :
    (∀ d ∈ past, d.Verified → ∀ p, .revoke p ∈ d.op.effects →
      (log.revokedIn log.heads p).value S = .ok true ∧
      (op.author = p → answer log op = none → ∃ e, (log.accept op).value S = .error e)) ∧
    (Delivery.Verified ⟨S, log, op⟩ → ∀ version p,
      (log.principalIn log.heads op.author).value S = .ok (some (version, p)) →
        p.key = some op.key) := by
  have hleft := List.subset_append_left ((log.accept op).after S) (log.currentView.after S)
  have hright := List.subset_append_right ((log.accept op).after S) (log.currentView.after S)
  have hS := List.Subset.trans (subset_after (log.accept op) S) hleft
  have hheads := (hrun.reached.keeps (hfree.mono hS)).heads
  obtain ⟨v, c, hreads⟩ := hrun.reached.reads hheads hright hfree
  constructor
  · intro d hd hv p hp
    have hbelow := hrun.revokedBelow hS hfree hd hv hp
    constructor
    · rw [hreads.revokedIn (hfree.mono hright), (hreads.revoked p).mpr hbelow]
    · intro hauthor hnew
      cases hvalue : (log.accept op).value S with
      | error e => exact ⟨e, rfl⟩
      | ok r =>
          have hnot := (hrun.reached.author_current hleft hfree ⟨hnew, r, hvalue⟩).1
          rw [hauthor] at hnot
          exact absurd hbelow hnot
  · intro hverified version p hp
    exact (hrun.reached.author_current hleft hfree hverified).2 c hreads.cells version p
      (hreads.pointsAt hfree hright hp)

section Chains

/-- No issuer of the chain is revoked, and every parent capability on it is
active, in the merged view of these ops. -/
def ChainAlive (S S' : Store) (log : OpLog) (ops : List ObjectId) (leaf : ObjectId) : Prop :=
  ∀ id cap, OnChain S' leaf id cap → (log.revokedIn ops cap.issuer).value S = .ok false ∧
    ∀ pid ∈ cap.parent, (log.capIn ops pid).value S = .ok true

/-- Of the chain's issuers and parent capabilities, the current view shows what
the merged view of these ops does. -/
def ChainCurrent (S S' : Store) (log : OpLog) (ops : List ObjectId) (leaf : ObjectId) : Prop :=
  ∀ id cap, OnChain S' leaf id cap →
    (log.revokedIn log.heads cap.issuer).value S = (log.revokedIn ops cap.issuer).value S ∧
    ∀ pid ∈ cap.parent, (log.capIn log.heads pid).value S = (log.capIn ops pid).value S

theorem Vetted.chainAlive {middle S' : Store} {v c v' : View} {cv cc : Contents} {leaf : ObjectId}
    {cap : Capability} (h : Vetted S F middle log op v c v' cv cc) (hfree : CollisionFree F)
    (hS' : S' ⊆ F) (hchain : Delegated F v cv leaf cap) :
    ChainAlive S S' log op.parents leaf := by
  have hbefore := hfree.mono (List.Subset.trans h.before h.after)
  intro id cap' hon
  have hdelegated := hchain.onChain (hon.mono hS' hfree)
  refine ⟨?_, fun pid hpid => ?_⟩
  · rw [h.parents.revokedIn hbefore, hdelegated.issued.unrevoked]
    rfl
  · rw [h.parents.capIn hbefore, ← h.parents.cells, hdelegated.parent_active hpid]

/-- In every run, an op of someone who is not an owner was verified against a
chain that is alive now exactly if the op's parents show of the chain what is so
now. -/
theorem chainAlive_iff (hrun : LogRun past S log)
    (hfree : CollisionFree ((log.accept op).after S)) (hnonOwner : NonOwner S log op)
    (hverified : Delivery.Verified ⟨S, log, op⟩) :
    ∃ leaf, op.cap = some leaf ∧
      (ChainAlive S ((log.accept op).after S) log log.heads leaf ↔
        ChainCurrent S ((log.accept op).after S) log op.parents leaf) := by
  obtain ⟨hparents, owners, howners, hauthor⟩ := hnonOwner
  obtain ⟨middle, v, c, v', cv, cc, hvetted⟩ :=
    hrun.reached.verified hparents hverified (List.Subset.refl _) hfree
  rw [hvetted.parents.ownersIn] at howners
  cases howners
  obtain ⟨leaf, cap, hauthorized, hchain⟩ := hvetted.delegated hfree hauthor
  have halive := hvetted.chainAlive hfree (List.Subset.refl _) hchain
  refine ⟨leaf, hauthorized.cited, ?_⟩
  constructor
  · intro hnow id cap' hon
    obtain ⟨hrevoked, hcaps⟩ := hnow id cap' hon
    obtain ⟨hrevokedThen, hcapsThen⟩ := halive id cap' hon
    exact ⟨hrevoked.trans hrevokedThen.symm, fun pid hpid =>
      (hcaps pid hpid).trans (hcapsThen pid hpid).symm⟩
  · intro hsame id cap' hon
    obtain ⟨hrevoked, hcaps⟩ := hsame id cap' hon
    obtain ⟨hrevokedThen, hcapsThen⟩ := halive id cap' hon
    exact ⟨hrevoked.trans hrevokedThen, fun pid hpid => (hcaps pid hpid).trans (hcapsThen pid hpid)⟩

end Chains

end Runs

section Samples

/-! A planner that delegates to a worker, and is revoked beside the worker's
next op. -/

def plannerPrincipal : Principal := { ownerPrincipal with id := .splat 32, name := "planner" }

def workerPrincipal : Principal := { ownerPrincipal with id := .splat 48, name := "worker" }

def sampleStandard : Standard where
  id := .splat 64
  prev := none
  name := "trunk"
  «extends» := none
  clauses := []
  scopes := none
  when := none
  auditPermille := none

def plannerCapability : Capability :=
  { sampleCapability with
    subject := .splat 32
    write := ⟨none, some ["a**"], none, none, none, none, none⟩
    read := ⟨some ["docs"], none, none⟩
    hard := some ((∅ : OrdMap String ℕ).insert "ops" 1)
    delegable := true }

def workerCapability : Capability :=
  { sampleCapability with
    issuer := .splat 32
    subject := .splat 48
    write := ⟨none, some ["ab/c"], none, none, none, none, none⟩
    hard := some ∅
    parent := some (.splat 5) }

def delegateBase : List Object := [
  .principal ownerPrincipal,
  .principal plannerPrincipal,
  .principal workerPrincipal,
  .standard sampleStandard,
  .capability plannerCapability,
  .capability workerCapability]

def delegateView : View where
  entities := .splat 12
  proposed := .splat 0
  claims := .splat 0
  caps := .splat 15
  revoked := .splat 0
  tombstoned := .splat 0
  lines := ∅
  roots := []
  owners := [.splat 1]
  deployed := ∅
  paused := none

def delegateInit : Op :=
  ownerOp "init" [] [.owner (.splat 1), .point (.splat 1) (.splat 1) none] (.splat 8)

def delegateGrant : Op :=
  ownerOp "grant" [.splat 9] [.point (.splat 32) (.splat 2) none,
    .point (.splat 48) (.splat 3) none, .point (.splat 64) (.splat 4) none, .cap (.splat 5),
    .cap (.splat 6)] (.splat 16)

def plannerOp (kind : String) (effects : List Effect) (view : ObjectId) : Op :=
  { ownerOp kind [.splat 17] effects view with author := .splat 32, cap := some (.splat 5) }

def workerOp (kind : String) (effects : List Effect) (view : ObjectId) : Op :=
  { ownerOp kind [.splat 17] effects view with author := .splat 48, cap := some (.splat 6) }

def delegateTable : List Object := [.trie .empty] ++ delegateBase ++ [
  .trie ⟨1#16, [.leaf (EntityId.splat 1).bytes (.id (.splat 1))]⟩,
  .view { delegateView with entities := .splat 7, caps := .splat 0 },
  .op delegateInit,
  .trie ⟨5#16, [.leaf (EntityId.splat 1).bytes (.id (.splat 1)),
    .leaf (EntityId.splat 32).bytes (.id (.splat 2))]⟩,
  .trie ⟨13#16, [.leaf (EntityId.splat 1).bytes (.id (.splat 1)),
    .leaf (EntityId.splat 32).bytes (.id (.splat 2)),
    .leaf (EntityId.splat 48).bytes (.id (.splat 3))]⟩,
  .trie ⟨29#16, [.leaf (EntityId.splat 1).bytes (.id (.splat 1)),
    .leaf (EntityId.splat 32).bytes (.id (.splat 2)),
    .leaf (EntityId.splat 48).bytes (.id (.splat 3)),
    .leaf (EntityId.splat 64).bytes (.id (.splat 4))]⟩,
  .trie ⟨1#16, [.leaf (ObjectId.splat 5).bytes .set]⟩,
  .trie ⟨96#16, [.leaf (ObjectId.splat 5).bytes .set, .leaf (ObjectId.splat 6).bytes .set]⟩,
  .trie ⟨1#16, [.node (.splat 14)]⟩,
  .view delegateView,
  .op delegateGrant]

def revokePlanner : Op := ownerOp "revoke" [.splat 17] [.revoke (.splat 32)] (.splat 19)

local instance revokeHash : Crypto := .ofTable (delegateTable ++ [
  .trie ⟨4#16, [.leaf (EntityId.splat 32).bytes .set]⟩,
  .view { delegateView with revoked := .splat 18 },
  .op revokePlanner,
  .op (workerOp "status" [] (.splat 16)),
  .op (plannerOp "status" [] (.splat 16))])

def plannerRevoked : Store × OpLog :=
  deliverAll delegateBase .new [delegateInit, delegateGrant, revokePlanner]

/-- An op of the planner that names parents from before is rejected. -/
theorem revoked_planner_rejected :
    (plannerRevoked.2.revokedIn plannerRevoked.2.heads (.splat 32)).value plannerRevoked.1 =
      .ok true ∧
    ∃ e, (plannerRevoked.2.accept (plannerOp "status" [] (.splat 16))).value plannerRevoked.1 =
      .error e := by
  have hmem : (⟨_, _, revokePlanner⟩ : Delivery) ∈ deliveries delegateBase .new
      [delegateInit, delegateGrant, revokePlanner] :=
    List.mem_cons_of_mem _ (List.mem_cons_of_mem _ List.mem_cons_self)
  obtain ⟨hrevoked, hrejected⟩ := (revoked_author_rejected (logRun_deliverAll _ _)
    (plannerOp "status" [] (.splat 16))
    (collisionFree_ofTable (by decide) (by decide +kernel))).1 _ hmem (by decide +kernel)
      (.splat 32) List.mem_cons_self
  exact ⟨hrevoked, hrejected rfl rfl⟩

/-- An op of the worker that names the same parents is accepted, although the
issuer of its capability is revoked now. -/
theorem revoked_issuer_accepted :
    LogRun (deliveries delegateBase .new [delegateInit, delegateGrant, revokePlanner])
      plannerRevoked.1 plannerRevoked.2 ∧
    CollisionFree ((plannerRevoked.2.accept (workerOp "status" [] (.splat 16))).after
      plannerRevoked.1) ∧
    NonOwner plannerRevoked.1 plannerRevoked.2 (workerOp "status" [] (.splat 16)) ∧
    Delivery.Verified ⟨plannerRevoked.1, plannerRevoked.2, workerOp "status" [] (.splat 16)⟩ ∧
    (plannerRevoked.2.revokedIn plannerRevoked.2.heads workerCapability.issuer).value
      plannerRevoked.1 = .ok true ∧
    ¬ ChainAlive plannerRevoked.1
      ((plannerRevoked.2.accept (workerOp "status" [] (.splat 16))).after plannerRevoked.1)
      plannerRevoked.2 plannerRevoked.2.heads (.splat 6) := by
  have hrevoked : (plannerRevoked.2.revokedIn plannerRevoked.2.heads
      workerCapability.issuer).value plannerRevoked.1 = .ok true := by decide +kernel
  refine ⟨logRun_deliverAll _ _, collisionFree_ofTable (by decide) (by decide +kernel),
    by decide +kernel, by decide +kernel, hrevoked, fun halive => ?_⟩
  have hnot := (halive (.splat 6) workerCapability ⟨.refl, by decide +kernel⟩).1
  rw [hrevoked] at hnot
  cases hnot

theorem chainAlive_iff_worker :
    ∃ leaf, (workerOp "status" [] (.splat 16)).cap = some leaf ∧
      (ChainAlive plannerRevoked.1
        ((plannerRevoked.2.accept (workerOp "status" [] (.splat 16))).after plannerRevoked.1)
        plannerRevoked.2 plannerRevoked.2.heads leaf ↔
      ChainCurrent plannerRevoked.1
        ((plannerRevoked.2.accept (workerOp "status" [] (.splat 16))).after plannerRevoked.1)
        plannerRevoked.2 (workerOp "status" [] (.splat 16)).parents leaf) :=
  chainAlive_iff (logRun_deliverAll _ _) (collisionFree_ofTable (by decide) (by decide +kernel))
    (by decide +kernel) (by decide +kernel)

end Samples

end Tessra.Oplog
