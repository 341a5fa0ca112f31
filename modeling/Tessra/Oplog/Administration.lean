import Tessra.Oplog.Effects
import Tessra.Oplog.Revocation

namespace Tessra.Oplog

open Tessra.Core Tessra.Data StoreM OpLog Verify

/-! Administrative entities, and which ops move them without the verb. -/

/-- The verb for changing an entity whose version is the object. -/
def adminVerb : Object → Option String
  | .principal _ => some "principal"
  | o => verbOf o

theorem adminVerb_cases {o : Object} {verb : String} (h : adminVerb o = some verb) :
    verbOf o = some verb ∨ ∃ p, o = .principal p := by
  cases o with
  | principal p => exact .inr ⟨p, rfl⟩
  | _ => exact .inl h

section Runs

variable [Crypto] {S S' : Store} {log : OpLog} {op : Op} {cap : Capability} {e : EntityId}
  {cur : ObjectId} {o : Object} {verb : String} {past : List Delivery}

/-- A key that signs revocations: an owner's, or the author's if it may revoke. -/
def SignsRevocations (S : Store) (log : OpLog) (op : Op) (cap : Capability) (key : PublicKey) :
    Prop :=
  (key = op.key ∧ "revoke" ∈ cap.verbs) ∨ ∃ owners owner version p,
    (log.ownersIn op.parents).value S = .ok owners ∧ owner ∈ owners ∧
    (log.principalIn op.parents owner).value S = .ok (some (version, p)) ∧ p.key = some key

def Succeeds (S S' : Store) (log : OpLog) (op : Op) (cap : Capability) (e : EntityId)
    (cur : ObjectId) : Prop :=
  ∃ to_ source p key, .point e to_ source ∈ op.effects ∧
    (get Principal to_).value S' = .ok p ∧ p.id = e ∧ p.prev = some cur ∧
    verifyWith p key = .ok () ∧
    ((∃ old, (get Principal cur).value S' = .ok old ∧ old.key = some key) ∨
      (p.status = "revoked" ∧ SignsRevocations S log op cap key))

/-- An entity that is administrative in the view of the op's parents, and whose
verb the op's capability does not grant. -/
structure Guarded (S S' : Store) (log : OpLog) (op : Op) (cap : Capability) (e : EntityId)
    (cur : ObjectId) (o : Object) (verb : String) : Prop where
  pointer : (log.entityIn op.parents e).value S = .ok (some (.id cur))
  stored : o ∈ S'
  id : Crypto.objectId o = cur
  administers : adminVerb o = some verb
  ungranted : verb ∉ cap.verbs
  unsucceeded : ∀ p, o = .principal p → ¬ Succeeds S S' log op cap e cur

/-- The last write of an entity that the checks let through: it removes the
entity, retags it, or revokes it once more. -/
def Strays (S' : Store) (cur : ObjectId) (verb : String) (w : Option TrieValue) : Prop :=
  w = none ∨ ∃ o ∈ S', w = some (.id (Crypto.objectId o)) ∧ (adminVerb o ≠ some verb ∨
    Crypto.objectId o ≠ cur ∧ ∃ p, o = .principal p ∧ p.status = "revoked")

/-- A verified op of someone who is not an owner points an entity that it may not
administer at its current version, or strays. -/
theorem Vetted.strays_iff {F middle : Store} {v c v' : View} {cv cc : Contents}
    {capId to_ : ObjectId} {source : Option Value} (h : Vetted S F middle log op v c v' cv cc)
    (hfree : CollisionFree F) (hauthorized : Authorized middle F v c op capId cap)
    (hguarded : Guarded S F log op cap e cur o verb) (hat : cv.at (.entity e) = some (.id cur))
    (he : .point e to_ source ∈ op.effects) :
    to_ = cur ↔ ¬ Strays F cur verb (some (.id to_)) := by
  obtain ⟨o', hmem, rfl, hverbs⟩ := ran_checkPointScope (hauthorized.effects _ he)
  obtain ⟨landed, _, _, o'', hmem', hid, hlegal⟩ := h.point hfree he
  obtain rfl := hfree _ hmem' _ hmem hid
  have hprincipal : ∀ {o₁ : Object}, adminVerb o₁ = some verb →
      (∀ verb, verbOf o₁ = some verb → verb ∈ cap.verbs) → ∃ p, o₁ = .principal p := by
    intro o₁ hverb hallowed
    exact (adminVerb_cases hverb).resolve_left fun hv => hguarded.ungranted (hallowed verb hv)
  constructor
  · intro hcur hstrays
    have hsame := hfree _ hmem _ hguarded.stored (hcur.trans hguarded.id.symm)
    rcases hstrays with hnone | ⟨o₁, hmem₁, hw, hstray⟩
    · cases hnone
    · have heq := hfree _ hmem₁ _ hguarded.stored
        ((TrieValue.id.inj (Option.some.inj hw)).symm.trans (hcur.trans hguarded.id.symm))
      rcases hstray with hretag | ⟨hne, _⟩
      · exact hretag (heq ▸ hguarded.administers)
      · exact hne (heq ▸ hguarded.id)
  · intro hnot
    by_contra hne
    by_cases hverb : adminVerb o'' = some verb
    · obtain ⟨p, rfl⟩ := hprincipal hverb hverbs
      rw [hat] at hlegal
      obtain ⟨hid, hmove⟩ := hlegal
      cases hmove with
      | revoked _ _ hstatus =>
          exact hnot (.inr ⟨_, hmem, rfl, .inr ⟨hne, p, rfl, hstatus⟩⟩)
      | @rotated _ old _ key hold hprev _ hkey hsigned =>
          have hold' := get_ok hold
          have hsame := hfree _ hold'.1 _ hguarded.stored (hold'.2.trans hguarded.id.symm)
          exact hguarded.unsucceeded old hsame.symm ⟨_, source, p, key, he, value_get hfree hmem,
            hid, hprev, hsigned, .inl ⟨old, hold, hkey⟩⟩
    · exact hnot (.inr ⟨_, hmem, rfl, .inl hverb⟩)

/-- In every run, an op of someone who is not an owner leaves an entity that its
capability does not let it administer where it is, exactly if its last write of
the entity does not stray. -/
theorem guarded_unchanged_iff (hrun : LogRun past S log)
    (hfree : CollisionFree ((log.accept op).after S)) (hnonOwner : NonOwner S log op)
    (hverified : Delivery.Verified ⟨S, log, op⟩) :
    ∃ capId cap, op.cap = some capId ∧
      (get Capability capId).value ((log.accept op).after S) = .ok cap ∧
      ∀ e cur o verb, Guarded S ((log.accept op).after S) log op cap e cur o verb →
        (((log.deliver op S).entityIn [Crypto.objectId (.op op)] e).value
            ((log.accept op).after S) = (log.entityIn op.parents e).value S ↔
          ∀ w, (Cell.entity e).lastWrite op.effects = some w →
            ¬ Strays ((log.accept op).after S) cur verb w) := by
  obtain ⟨hparents, owners, howners, hauthor⟩ := hnonOwner
  obtain ⟨middle, v, _, v', cv, _, hvetted⟩ :=
    hrun.reached.verified hparents hverified (List.Subset.refl _) hfree
  rw [hvetted.parents.ownersIn] at howners
  cases howners
  obtain ⟨capId, cap, hauthorized⟩ := hvetted.checked.authorized hauthor
  obtain ⟨v₁, c₁, hproduced⟩ := hrun.produced hfree hverified
  refine ⟨capId, cap, hauthorized.cited, hauthorized.stored.value_get hfree, ?_⟩
  intro e cur o verb hguarded
  have hbefore := hvetted.parents.entityIn
    (hfree.mono (List.Subset.trans hvetted.before hvetted.after)) e
  have hafter := hproduced.reads.entityIn (hproduced.free hfree) e
  rw [hproduced.shows] at hafter
  have hpointer := hguarded.pointer
  rw [hbefore, Except.ok.injEq] at hpointer
  have hcur : cv.at (.entity e) = some (.id cur) := by
    rw [hvetted.parents.cells]
    exact bind_fromTrie_id hpointer
  rw [hafter, hguarded.pointer, Except.ok.injEq]
  cases hlast : (Cell.entity e).lastWrite op.effects with
  | none => simp [hpointer]
  | some w =>
      simp only [Option.getD_some, Option.some.injEq, forall_eq']
      rcases lastWrite_entity hlast with rfl | ⟨to_, source, rfl, he⟩
      · simp [Strays]
      · rw [← hvetted.strays_iff hfree hauthorized hguarded hcur he]
        simp [Pointer.fromTrie]

end Runs

section Samples

/-! A worker without any verb that removes a standard. -/

def removeStandard : Op := workerOp "status" [.unpoint (.splat 64)] (.splat 18)

local instance removeHash : Crypto := .ofTable (delegateTable ++ [
  .view { delegateView with entities := .splat 11 },
  .op removeStandard])

def beforeRemoval : Store × OpLog := deliverAll delegateBase .new [delegateInit, delegateGrant]

def afterRemoval : Store := (beforeRemoval.2.accept removeStandard).after beforeRemoval.1

private theorem standard_guarded : Guarded beforeRemoval.1 afterRemoval beforeRemoval.2
    removeStandard workerCapability (.splat 64) (.splat 4) (.standard sampleStandard)
    "standard" where
  pointer := by decide +kernel
  stored := by decide +kernel
  id := by decide +kernel
  administers := rfl
  ungranted := by decide
  unsucceeded := nofun

/-- The op is accepted, and the standard is gone. -/
theorem standard_removed :
    LogRun (deliveries delegateBase .new [delegateInit, delegateGrant]) beforeRemoval.1
      beforeRemoval.2 ∧
    CollisionFree afterRemoval ∧ NonOwner beforeRemoval.1 beforeRemoval.2 removeStandard ∧
    Delivery.Verified ⟨beforeRemoval.1, beforeRemoval.2, removeStandard⟩ ∧
    (get Capability (.splat 6)).value afterRemoval = .ok workerCapability ∧
    Guarded beforeRemoval.1 afterRemoval beforeRemoval.2 removeStandard workerCapability
      (.splat 64) (.splat 4) (.standard sampleStandard) "standard" ∧
    ((beforeRemoval.2.deliver removeStandard beforeRemoval.1).entityIn
      [Crypto.objectId (.op removeStandard)] (.splat 64)).value afterRemoval = .ok none :=
  ⟨logRun_deliverAll _ _, collisionFree_ofTable (by decide) (by decide +kernel),
    by decide +kernel, by decide +kernel, by decide +kernel, standard_guarded, by decide +kernel⟩

theorem guarded_unchanged_iff_removal :
    ∃ capId cap, removeStandard.cap = some capId ∧
      (get Capability capId).value afterRemoval = .ok cap ∧
      ∀ e cur o verb, Guarded beforeRemoval.1 afterRemoval beforeRemoval.2 removeStandard cap e cur
        o verb →
        (((beforeRemoval.2.deliver removeStandard beforeRemoval.1).entityIn
            [Crypto.objectId (.op removeStandard)] e).value afterRemoval =
          (beforeRemoval.2.entityIn removeStandard.parents e).value beforeRemoval.1 ↔
          ∀ w, (Cell.entity e).lastWrite removeStandard.effects = some w →
            ¬ Strays afterRemoval cur verb w) :=
  guarded_unchanged_iff (logRun_deliverAll delegateBase [delegateInit, delegateGrant])
    (collisionFree_ofTable (by decide) (by decide +kernel)) (by decide +kernel) (by decide +kernel)

end Samples

end Tessra.Oplog
