import Tessra.Oplog.Immutable

namespace Tessra.Oplog

open Tessra.Core Tessra.Data StoreM OpLog Verify

/-! Whose changes an op moves, and in whose name. -/

section Runs

variable [Crypto] {F S middle : Store} {log : OpLog} {op : Op} {v c v' : View}
  {cv cc : Contents} {past : List Delivery}

/-- The principal is the op's author, or another session of its agent. -/
def SameAgent (S : Store) (log : OpLog) (op : Op) (other : EntityId) : Prop :=
  other = op.author ∨ ∃ version version' p p' agent,
    (log.principalIn op.parents op.author).value S = .ok (some (version, p)) ∧
    (log.principalIn op.parents other).value S = .ok (some (version', p')) ∧
    p.parent = some agent ∧ p'.parent = some agent

/-- The ops that record, try or undo work on a change. -/
def workKinds : List String := ["snapshot", "try", "undo"]

/-- The revisions among these are those of the op's author or its agent. -/
def OwnRevisions (S F : Store) (log : OpLog) (op : Op) (ids : List ObjectId) : Prop :=
  ∀ i ∈ ids, ∀ r, (get Revision i).value F = .ok r → SameAgent S log op r.author

/-- What an effect points an entity at. -/
def pointTarget : Effect → Option ObjectId
  | .point _ to_ _ => some to_
  | _ => none

/-- No op that an accept call verified before points an entity at the object. -/
def Unpointed (past : List Delivery) (i : ObjectId) : Prop :=
  ∀ d ∈ past, d.Verified → ∀ e ∈ d.op.effects, pointTarget e ≠ some i

/-- The op moves its author's own changes, and in its author's own name. -/
structure MovesOwn (past : List Delivery) (S F : Store) (log : OpLog) (op : Op) : Prop where
  changes : op.kind ∈ workKinds → ∀ e to_ source, .point e to_ source ∈ op.effects →
    ∀ pointer, (log.entityIn op.parents e).value S = .ok (some pointer) →
      OwnRevisions S F log op pointer.ids
  name : ∀ e to_ source, .point e to_ source ∈ op.effects → Unpointed past to_ →
    ∀ r, (get Revision to_).value F = .ok r → r.author = op.author

/-- The op names only revisions of its author or its agent as what it moves from, and
only revisions in its author's name as what is new. -/
structure NamesOwn (past : List Delivery) (S F : Store) (log : OpLog) (op : Op) : Prop where
  sources : op.kind ∈ workKinds → ∀ e to_ source, .point e to_ source ∈ op.effects →
    ∀ pointer, source.bind Pointer.fromValue = some pointer →
      OwnRevisions S F log op pointer.ids
  targets : ∀ i r, (get Revision i).value F = .ok r → r.author ≠ op.author → Unpointed past i →
    ∀ e source, .point e i source ∉ op.effects

/-- In every run, an accepted op of someone who is not an owner moves only its
author's own changes and in its own name, exactly if it names no others. -/
theorem movesOwn_iff (hrun : LogRun past S log) (hfree : CollisionFree ((log.accept op).after S))
    (hnonOwner : NonOwner S log op) (hverified : Delivery.Verified ⟨S, log, op⟩) :
    MovesOwn past S ((log.accept op).after S) log op ↔
      NamesOwn past S ((log.accept op).after S) log op := by
  obtain ⟨middle, v, c, v', cv, cc, hvetted⟩ :=
    hrun.reached.verified hnonOwner.1 hverified (List.Subset.refl _) hfree
  have hbefore := hfree.mono (List.Subset.trans hvetted.before hvetted.after)
  have hfrom : ∀ e to_ source, .point e to_ source ∈ op.effects → ∀ pointer,
      (log.entityIn op.parents e).value S = .ok (some pointer) ↔
        source.bind Pointer.fromValue = some pointer := by
    intro e to_ source he pointer
    obtain ⟨_, _, hsource, _⟩ := hvetted.point hfree he
    rw [hvetted.parents.entityIn hbefore, hsource, hvetted.parents.cells, Except.ok.injEq]
  constructor
  · intro h
    constructor
    · intro hkind e to_ source he pointer hpointer
      exact h.changes hkind e to_ source he pointer ((hfrom e to_ source he pointer).mpr hpointer)
    · intro i r hr hother hnew e source he
      exact hother (h.name e i source he hnew r hr)
  · intro h
    constructor
    · intro hkind e to_ source he pointer hpointer
      exact h.sources hkind e to_ source he pointer ((hfrom e to_ source he pointer).mp hpointer)
    · intro e to_ source he hnew r hr
      by_contra hother
      exact h.targets to_ r hr hother hnew e source he

end Runs

section Samples

/-! A worker without any verb that moves the owner's change, in the owner's name. -/

def ownerDraft : Revision := sampleRevision (.splat 64) "draft" (.splat 0) []

def forgedDraft : Revision := { ownerDraft with prev := some (.splat 3), title := "forged" }

def forgeBase : List Object := [
  .principal ownerPrincipal,
  .principal helperPrincipal,
  .revision ownerDraft,
  .revision forgedDraft,
  .capability helperCapability]

def forgeInit : Op := { initOp with view := .splat 7 }

def forgeGrant : Op :=
  ownerOp "grant" [.splat 8] [.point (.splat 80) (.splat 2) none, .cap (.splat 5),
    .point (.splat 64) (.splat 3) none] (.splat 12)

def forgeSnapshot : Op :=
  { ownerOp "snapshot" [.splat 13]
      [.point (.splat 64) (.splat 4) (some (Pointer.id (.splat 3)).toValue)] (.splat 15) with
    author := .splat 80
    cap := some (.splat 5) }

def ownerLeaf : Slot := .leaf (EntityId.splat 1).bytes (.id (.splat 1))

def workerLeaf : Slot := .leaf (EntityId.splat 80).bytes (.id (.splat 2))

def forgeLeaves (draft : ℕ) : List Slot :=
  [ownerLeaf, .leaf (EntityId.splat 64).bytes (.id (.splat draft)), workerLeaf]

def forgeView (entities : ObjectId) : View := { initView with entities, caps := .splat 10 }

local instance forgeHash : Crypto := .ofTable ([.trie .empty] ++ forgeBase ++ [
  .trie ⟨1#16, [ownerLeaf]⟩,
  .view { initView with entities := .splat 6 },
  .op forgeInit,
  .trie ⟨33#16, [ownerLeaf, workerLeaf]⟩,
  .trie ⟨1#16, [.leaf (ObjectId.splat 5).bytes .set]⟩,
  .trie ⟨49#16, forgeLeaves 3⟩,
  .view (forgeView (.splat 11)),
  .op forgeGrant,
  .trie ⟨49#16, forgeLeaves 4⟩,
  .view (forgeView (.splat 14)),
  .op forgeSnapshot])

def forgePast : List Delivery := deliveries forgeBase .new [forgeInit, forgeGrant]

def beforeForgery : Store × OpLog := deliverAll forgeBase .new [forgeInit, forgeGrant]

def afterForgery : Store := (beforeForgery.2.accept forgeSnapshot).after beforeForgery.1

/-- The op is accepted: the owner's change moves to a revision that the worker wrote
in the owner's name. -/
theorem change_forged :
    LogRun forgePast beforeForgery.1 beforeForgery.2 ∧ CollisionFree afterForgery ∧
    NonOwner beforeForgery.1 beforeForgery.2 forgeSnapshot ∧
    Delivery.Verified ⟨beforeForgery.1, beforeForgery.2, forgeSnapshot⟩ ∧
    ¬ MovesOwn forgePast beforeForgery.1 afterForgery beforeForgery.2 forgeSnapshot := by
  refine ⟨logRun_deliverAll _ _, collisionFree_ofTable (by decide) (by decide +kernel),
    by decide +kernel, by decide +kernel, fun hown => ?_⟩
  have hnew : ∀ d ∈ forgePast, ∀ e ∈ d.op.effects, pointTarget e ≠ some (.splat 4) := by
    decide +kernel
  have hget : (get Revision (.splat 4)).value afterForgery = .ok forgedDraft := by decide +kernel
  have hname := hown.name (.splat 64) (.splat 4) _ List.mem_cons_self
    (fun d hd _ => hnew d hd) forgedDraft hget
  revert hname
  decide

theorem movesOwn_iff_forgery :
    MovesOwn forgePast beforeForgery.1 afterForgery beforeForgery.2 forgeSnapshot ↔
      NamesOwn forgePast beforeForgery.1 afterForgery beforeForgery.2 forgeSnapshot :=
  movesOwn_iff (logRun_deliverAll forgeBase [forgeInit, forgeGrant])
    (collisionFree_ofTable (by decide) (by decide +kernel)) (by decide +kernel) (by decide +kernel)

end Samples

end Tessra.Oplog
