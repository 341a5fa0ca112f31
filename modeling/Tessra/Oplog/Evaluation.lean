import Tessra.Core.Reading
import Tessra.Oplog.Clauses
import Tessra.Oplog.OwnChanges

namespace Tessra.Oplog.Standard

open Tessra.Core Tessra.Data

/-! What an evaluation reads, and what it returns. -/

section Evaluate

variable [Crypto]

/-- What the clauses of a standard are checked against. -/
def contextOf (records : List (String × Bytes)) (view : View) (revisionId : ObjectId)
    (revision : Revision) (attests : List ObjectId) : StoreM Ctx := do
  let loaded ← attests.mapM (loadAttestation view)
  let author ← principalOf view revision.author
  let index ← revisionIndex records revision
  let parentIndex ← match revision.parents.head? with
    | some p => do revisionIndex records (← get Revision p)
    | none => pure (some emptyIndex)
  return {
    revision
    attests := loaded
    subjects := subjectsOf revisionId revision
    index
    parentIndex
    authorParent := author.bind Principal.parent }

theorem evaluate_eq (records : List (String × Bytes)) (view : View) (standard : EntityId)
    (revisionId : ObjectId) (revision : Revision) (attests : List ObjectId) :
    evaluate records view standard revisionId revision attests = (do
      let standards ← chain view standard
      let ctx ← contextOf records view revisionId revision attests
      return standards.flatMap (checkStandard ctx)) := by
  unfold evaluate contextOf
  cases revision.parents.head? <;> simp only [bind_assoc, pure_bind]

/-- The context with the cited attestations left out is read apart from them. -/
theorem contextOf_eq (records : List (String × Bytes)) (view : View) (revisionId : ObjectId)
    (revision : Revision) (attests : List ObjectId) :
    contextOf records view revisionId revision attests = (do
      let loaded ← attests.mapM (loadAttestation view)
      let ctx ← contextOf records view revisionId revision []
      return { ctx with attests := loaded }) := by
  unfold contextOf
  cases revision.parents.head? <;> simp only [List.mapM_nil, bind_assoc, pure_bind]

theorem determined_entity (view : View) (id : EntityId) : (ViewState.entity view id).Determined :=
  (StoreM.determined_trieGet _ _).bind fun _ => StoreM.determined_pure _

theorem determined_principalOf (view : View) (id : EntityId) : (principalOf view id).Determined := by
  refine (determined_entity view id).bind fun p => ?_
  cases p with
  | none => exact StoreM.determined_pure _
  | some p =>
      refine (StoreM.determined_ofExcept _).bind fun oid => ?_
      exact StoreM.Determined.tryCatch ((StoreM.determined_get Principal oid).bind fun _ =>
        StoreM.determined_pure _) fun _ => StoreM.determined_pure _

theorem determined_loadAttestation (view : View) (id : ObjectId) :
    (loadAttestation view id).Determined :=
  (StoreM.determined_get Attestation id).bind fun _ => (determined_principalOf view _).bind fun _ =>
    StoreM.determined_pure _

theorem determined_chainFrom (view : View) (guard : ℕ) (id : EntityId) :
    (chainFrom view guard id).Determined := by
  induction guard generalizing id with
  | zero => exact StoreM.determined_throw _
  | succ guard ih =>
      refine (determined_entity view id).bind fun p => ?_
      cases p with
      | none => exact StoreM.determined_throw _
      | some p =>
          refine (StoreM.determined_ofExcept _).bind fun oid =>
            (StoreM.determined_get Standard oid).bind fun s => ?_
          cases s.extends with
          | none => exact StoreM.determined_pure _
          | some next => exact (ih next).bind fun _ => StoreM.determined_pure _

theorem determined_chain (view : View) (standard : EntityId) : (chain view standard).Determined :=
  (determined_chainFrom view 32 standard).bind fun _ => StoreM.determined_pure _

/-- The index that was cached, or else the one that the snapshot names. -/
def chosenIndex (snap : Snapshot) (cached : Option NodeIndex) : StoreM (Option NodeIndex) :=
  match cached, snap.index with
  | some idx, _ => pure (some idx)
  | none, some id => some <$> get NodeIndex id
  | none, none => pure none

theorem determined_chosenIndex (snap : Snapshot) (cached : Option NodeIndex) :
    (chosenIndex snap cached).Determined := by
  unfold chosenIndex
  cases cached with
  | some idx => exact StoreM.determined_pure _
  | none =>
      cases snap.index with
      | none => exact StoreM.determined_pure _
      | some id => exact (StoreM.determined_get NodeIndex id).bind fun _ => StoreM.determined_pure _

theorem indexOf_eq (records : List (String × Bytes)) (s : ObjectId) :
    indexOf records s = (do
      let snap ← get Snapshot s
      let cached ← match (records.lookup s!"idx:{s}").bind ObjectId.fromSlice with
        | some id => tryCatch (some <$> get NodeIndex id) fun _ => pure none
        | none => pure none
      chosenIndex snap cached) := by
  unfold indexOf
  congr 1

theorem determined_indexOf (records : List (String × Bytes)) (snapId : ObjectId) :
    (indexOf records snapId).Determined := by
  rw [indexOf_eq]
  refine (StoreM.determined_get Snapshot snapId).bind fun snap => ?_
  cases (records.lookup s!"idx:{snapId}").bind ObjectId.fromSlice with
  | none => exact (StoreM.determined_pure _).bind (determined_chosenIndex snap)
  | some id =>
      exact (StoreM.Determined.tryCatch ((StoreM.determined_get NodeIndex id).bind fun _ =>
        StoreM.determined_pure _) fun _ => StoreM.determined_pure _).bind
        (determined_chosenIndex snap)

theorem determined_revisionIndex (records : List (String × Bytes)) (revision : Revision) :
    (revisionIndex records revision).Determined := by
  unfold revisionIndex
  cases revision.snapshots.get? "" with
  | none => exact StoreM.determined_pure _
  | some s => exact determined_indexOf records s

theorem determined_contextOf (records : List (String × Bytes)) (view : View) (revisionId : ObjectId)
    (revision : Revision) (attests : List ObjectId) :
    (contextOf records view revisionId revision attests).Determined := by
  refine (StoreM.Determined.mapM (determined_loadAttestation view) attests).bind fun loaded =>
    (determined_principalOf view revision.author).bind fun author =>
      (determined_revisionIndex records revision).bind fun index => ?_
  cases revision.parents.head? with
  | none => exact (StoreM.determined_pure _).bind fun _ => StoreM.determined_pure _
  | some p =>
      exact (StoreM.determined_get Revision p).bind fun r => (determined_revisionIndex records r).bind
        fun _ => StoreM.determined_pure _

variable {S : Store} {records : List (String × Bytes)} {view : View} {id : ObjectId}
  {revision : Revision} {attests attests' : List ObjectId} {loaded' : List Loaded} {ctx : Ctx}

/-- Evaluate standards that were read before. -/
def evaluateAll (records : List (String × Bytes)) (view : View) (standards : List Standard)
    (id : ObjectId) (revision : Revision) (attests : List ObjectId) : StoreM (List Unmet) := do
  let ctx ← contextOf records view id revision attests
  return standards.flatMap (checkStandard ctx)

/-- The labels of the unmet clauses, if the evaluation succeeds. -/
def reported (result : Except Error (List Unmet)) : Option (Finset String) :=
  match result with
  | .ok unmet => some (unmet.map Unmet.clause).toFinset
  | .error _ => none

theorem value_evaluateAll (standards : List Standard) :
    (evaluateAll records view standards id revision attests).value S =
      (contextOf records view id revision attests).value S >>= fun ctx =>
        .ok (standards.flatMap (checkStandard ctx)) :=
  (determined_contextOf records view id revision attests).readOnly.value_bind _ S

theorem evaluateAll_one (hctx : (contextOf records view id revision attests).value S = .ok ctx)
    (s : Standard) :
    (evaluateAll records view [s] id revision attests).value S = .ok (checkStandard ctx s) := by
  rw [value_evaluateAll, hctx]
  change Except.ok _ = _
  rw [List.flatMap_singleton]

theorem value_evaluate (standard : EntityId) :
    (evaluate records view standard id revision attests).value S =
      (chain view standard).value S >>= fun standards =>
        (evaluateAll records view standards id revision attests).value S := by
  rw [evaluate_eq]
  exact (determined_chain view standard).readOnly.value_bind _ S

theorem value_contextOf :
    (contextOf records view id revision attests).value S =
      (attests.mapM (loadAttestation view)).value S >>= fun loaded =>
        (contextOf records view id revision []).value S >>= fun ctx =>
          .ok { ctx with attests := loaded } := by
  have hread := StoreM.Determined.mapM (determined_loadAttestation view) attests
  rw [contextOf_eq, hread.readOnly.value_bind]
  congr 1
  funext loaded
  exact (determined_contextOf records view id revision []).readOnly.value_bind _ S

theorem contextOf_attests (h : (contextOf records view id revision attests).value S = .ok ctx) :
    (attests.mapM (loadAttestation view)).value S = .ok ctx.attests := by
  rw [value_contextOf] at h
  cases hloaded : (attests.mapM (loadAttestation view)).value S with
  | error e =>
      rw [hloaded] at h
      cases h
  | ok loaded =>
      rw [hloaded] at h
      cases hframe : (contextOf records view id revision []).value S with
      | error e =>
          rw [hframe] at h
          cases h
      | ok frame =>
          rw [hframe] at h
          cases h
          rfl

/-- Other attestations change nothing else of the context. -/
theorem contextOf_citing (h : (contextOf records view id revision attests).value S = .ok ctx)
    (hloaded : (attests'.mapM (loadAttestation view)).value S = .ok loaded') :
    (contextOf records view id revision attests').value S = .ok { ctx with attests := loaded' } := by
  have hattests := contextOf_attests h
  rw [value_contextOf, hattests] at h
  rw [value_contextOf, hloaded]
  cases hframe : (contextOf records view id revision []).value S with
  | error e =>
      rw [hframe] at h
      cases h
  | ok frame =>
      rw [hframe] at h
      have hctx : { frame with attests := ctx.attests } = ctx := Except.ok.inj h
      rw [← hctx]
      rfl

end Evaluate

section Samples

/-! A draft of the owner's that a standard gates. -/

def gateLeaf : Slot := .leaf (EntityId.splat 64).bytes (.id (.splat 2))

def gateView : View := { initView with entities := .splat 3 }

def gateSnapshot : Snapshot := ⟨.splat 0, .splat 0, none, none⟩

def gatedDraft : Revision := sampleRevision (.splat 80) "draft" (.splat 4) []

/-- The owner's word on the draft. -/
def ownerSays (kind : String) (result : Value) : Attestation where
  kind := kind
  subject := some (ObjectId.splat 5).bytes
  bodies := none
  subjectType := none
  scope := none
  result := result
  env := none
  verifier := .splat 1
  runner := none
  evidence := none
  time := 0
  sigkind := "ed25519"
  sig := some ownerSig

/-- The objects of a gated draft, and more. -/
def gateTable (standard : Standard) (more : List Object) : List Object := [
  .trie .empty,
  .principal ownerPrincipal,
  .standard standard,
  .trie ⟨17#16, [ownerLeaf, gateLeaf]⟩,
  .snapshot gateSnapshot,
  .revision gatedDraft] ++ more

end Samples

end Tessra.Oplog.Standard
