import Tessra.Oplog.Landed

namespace Tessra.Oplog

open Tessra.Core Tessra.Data StoreM OpLog Verify

/-! Landed changes, and which ops move them. -/

section Runs

variable [Crypto] {F S middle : Store} {log : OpLog} {op : Op} {v c v' : View}
  {cv cc : Contents} {e : EntityId} {pointer : Pointer} {landed : List ObjectId}
  {past : List Delivery}

/-- A change whose pointer, in the view that an op was made on, is a landed
revision or a conflict with one. -/
structure LandedChange (S F : Store) (log : OpLog) (op : Op) (landed : List ObjectId)
    (e : EntityId) (pointer : Pointer) : Prop where
  points : (log.entityIn op.parents e).value S = .ok (some pointer)
  holds : ∃ i ∈ pointer.ids, i ∈ landed ∧ ∃ r, (get Revision i).value F = .ok r

/-- The op lands a revision of the change that was not landed. -/
def LandsNew (F : Store) (op : Op) (landed : List ObjectId) (e : EntityId) : Prop :=
  ∃ line to_ r, lastHead line op.effects = some to_ ∧ to_ ∉ landed ∧
    (get Revision to_).value F = .ok r ∧ r.id = e

/-- The last write of a landed change that the checks let through: it removes the
change, ends its conflict, or points it at what is no revision. -/
def MovesLanded (F : Store) (pointer : Pointer) (w : Option TrieValue) : Prop :=
  w = none ∨ ∃ o ∈ F, w = some (.id (Crypto.objectId o)) ∧
    ((∃ ids, pointer = .conflict ids) ∨ ∀ r, o ≠ .revision r)

/-- A verified op that points a landed change anywhere moves it. -/
theorem Vetted.movesLanded {to_ i : ObjectId} {source : Option Value} {r : Revision}
    (h : Vetted S F middle log op v c v' cv cc) (hfree : CollisionFree F)
    (hkind : op.kind ≠ "restack") (he : .point e to_ source ∈ op.effects)
    (hpointer : (cv.at (.entity e)).bind Pointer.fromTrie = some pointer)
    (hi : i ∈ pointer.ids) (hlanded : Landed ((log.mergedView op.parents).after S) v i)
    (hr : (get Revision i).value F = .ok r) :
    pointer ≠ .id to_ ∧ MovesLanded F pointer (some (.id to_)) := by
  obtain ⟨landed, ⟨start, hstart, hend, hvalue⟩, _, o, ho, rfl, hlegal⟩ := h.point hfree he
  have hin : i ∈ landed := by
    obtain ⟨landed', hvalue', hmem⟩ := value_landedRevisions start v
    rw [hvalue] at hvalue'
    cases hvalue'
    have hstartFree := hfree.mono (List.Subset.trans (subset_after _ start) hend)
    exact (hmem i).mpr (hlanded.mono (List.Subset.trans h.before hstart) hstartFree)
  rw [hpointer] at hlegal
  cases pointer with
  | conflict ids => exact ⟨nofun, .inr ⟨o, ho, rfl, .inl ⟨ids, rfl⟩⟩⟩
  | id cur =>
      cases List.mem_singleton.mp hi
      have hother : ∀ r, o ≠ .revision r := by
        intro r' heq
        subst heq
        rcases hlegal.unlanded i rfl with hnot | hrestack
        · exact hnot hin
        · exact hkind hrestack
      refine ⟨fun hsame => ?_, .inr ⟨o, ho, rfl, .inr hother⟩⟩
      cases hsame
      obtain ⟨hmem, hid⟩ := get_ok hr
      exact hother r (hfree o ho _ hmem hid.symm)

end Runs

section Samples

/-! A worker without any verb that removes a landed change. -/

def helperPrincipal : Principal := { ownerPrincipal with id := .splat 80, name := "worker" }

def helperCapability : Capability := { sampleCapability with subject := .splat 80 }

def changeBase : List Object :=
  conflictBase.take 6 ++ [.principal helperPrincipal, .capability helperCapability]

def changeView : View :=
  { landView with entities := .splat 16, caps := .splat 15, lines := landTrunk (.splat 6) 0 }

def changeInit : Op := { landInit with view := .splat 12 }

def changeGrant : Op :=
  ownerOp "grant" [.splat 13] [.point (.splat 80) (.splat 7) none, .cap (.splat 8),
    .point (.splat 64) (.splat 6) none] (.splat 17)

def removeChange : Op :=
  { ownerOp "status" [.splat 18] [.unpoint (.splat 64)] (.splat 19) with
    author := .splat 80
    cap := some (.splat 8) }

def lineLeaves : List Slot :=
  [.leaf (EntityId.splat 1).bytes (.id (.splat 1)), .leaf (EntityId.splat 32).bytes (.id (.splat 3)),
    .leaf (EntityId.splat 48).bytes (.id (.splat 2))]

def helperLeaf : Slot := .leaf (EntityId.splat 80).bytes (.id (.splat 7))

local instance changeHash : Crypto := .ofTable ([.trie .empty] ++ changeBase ++ [
  .trie ⟨1#16, [.leaf (EntityId.splat 1).bytes (.id (.splat 1))]⟩,
  .trie ⟨9#16, [.leaf (EntityId.splat 1).bytes (.id (.splat 1)),
    .leaf (EntityId.splat 48).bytes (.id (.splat 2))]⟩,
  .trie ⟨13#16, lineLeaves⟩,
  .view { landView with entities := .splat 11 },
  .op changeInit,
  .trie ⟨45#16, lineLeaves ++ [helperLeaf]⟩,
  .trie ⟨1#16, [.leaf (ObjectId.splat 8).bytes .set]⟩,
  .trie ⟨61#16, lineLeaves ++ [.leaf (EntityId.splat 64).bytes (.id (.splat 6)), helperLeaf]⟩,
  .view changeView,
  .op changeGrant,
  .view { changeView with entities := .splat 14 },
  .op removeChange])

/-- The store and log that the worker's op meets. -/
def beforeChange : Store × OpLog := deliverAll changeBase .new [changeInit, changeGrant]

def afterChange : Store := (beforeChange.2.accept removeChange).after beforeChange.1

end Samples

end Tessra.Oplog
