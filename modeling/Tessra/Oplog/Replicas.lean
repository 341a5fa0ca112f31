import Tessra.Oplog.Evaluation

namespace Tessra.Oplog.Standard

open Tessra.Core Tessra.Data StoreM

/-! Replicas that evaluate alike, whatever their metadata. -/

section Told

variable {ctx : Ctx}

def changedCovered : Predicate :=
  { kind := "structural", name := some "changed.covered", args := none }

theorem holds_changedCovered : holds ctx changedCovered =
    match ctx.index, ctx.changedUnits with
    | none, _ => .no "no semantic index for this revision"
    | some _, none => .no "no semantic index for the parent revision"
    | some idx, some changed =>
        let uncovered := uncoveredChanged idx changed
        .ofBool uncovered.isEmpty
          s!"changed units with no covering test: {names uncovered}; add a test that calls each" := by
  have hleaf : changedCovered.kind ∉ compoundKinds := by decide
  rw [holds_leaf hleaf, holdsAt_structural rfl]
  rfl

/-- A reason that names units is none that names a missing index. -/
theorem uncovered_ne (units : String) : ∀ reason ∈ ["no semantic index for this revision",
    "no semantic index for the parent revision"],
    s!"changed units with no covering test: {units}; add a test that calls each" ≠ reason := by
  intro reason hreason heq
  have hfirst := congrArg (fun s : String => s.toList.head?) heq
  simp only [List.mem_cons, List.not_mem_nil, or_false] at hreason
  rcases hreason with rfl | rfl <;> simp [toString] at hfirst

/-- Whether the revision has an index, and where it has one whether its parent does, can be
told from what one standard reports. -/
theorem checkStandard_covered :
    ((checkStandard ctx (requiring changedCovered)).map Unmet.reason =
        ["no semantic index for this revision"] ↔ ctx.index = none) ∧
      ((checkStandard ctx (requiring changedCovered)).map Unmet.reason =
        ["no semantic index for the parent revision"] ↔
          ctx.index ≠ none ∧ ctx.parentIndex = none) := by
  have hholds := @holds_changedCovered ctx
  cases hindex : ctx.index with
  | none =>
      rw [hindex] at hholds
      rw [checkStandard_requiring hholds]
      simp
  | some idx =>
      cases hparent : ctx.parentIndex with
      | none =>
          have hchanged : ctx.changedUnits = none := by simp [Ctx.changedUnits, hindex, hparent]
          rw [hindex, hchanged] at hholds
          rw [checkStandard_requiring hholds]
          simp
      | some parent =>
          obtain ⟨changed, hchanged⟩ : ∃ changed, ctx.changedUnits = some changed :=
            ⟨_, by rw [Ctx.changedUnits, hindex, hparent]; rfl⟩
          rw [hindex, hchanged] at hholds
          cases hempty : (uncoveredChanged idx changed).isEmpty with
          | true =>
              simp only [hempty, Holds.ofBool, if_true] at hholds
              rw [checkStandard_requiring_yes hholds]
              simp
          | false =>
              simp only [hempty, Holds.ofBool, Bool.false_eq_true, if_false] at hholds
              rw [checkStandard_requiring hholds]
              have hne := uncovered_ne (names (uncoveredChanged idx changed))
              simp [hne]

end Told

section Metadata

variable [Crypto] {S S' : Store} {records records' : List (String × Bytes)} {view : View}
  {id : ObjectId} {revision : Revision} {attests : List ObjectId}

/-- Whether an index can be read. -/
def loads (S : Store) (id : ObjectId) : Bool := ((get NodeIndex id).value S).isOk

/-- The index that a store's metadata holds against a snapshot. -/
def cachedIndex (S : Store) (records : List (String × Bytes)) (snapId : ObjectId) :
    Option ObjectId :=
  ((records.lookup s!"idx:{snapId}").bind ObjectId.fromSlice).filter (loads S)

/-- The index that stands for a snapshot: the cached one, or else the named one. -/
def usedIndex (S : Store) (records : List (String × Bytes)) (snapId : ObjectId)
    (snap : Snapshot) : Option ObjectId :=
  (cachedIndex S records snapId).or snap.index

/-- Whichever of the metadata is asked, the same index stands for the snapshot. -/
def SnapshotAgrees (S : Store) (records records' : List (String × Bytes)) (s : ObjectId) : Prop :=
  ∀ snap, (get Snapshot s).value S = .ok snap →
    usedIndex S records s snap = usedIndex S records' s snap

/-- The metadata agree on the indexes of a revision and of its first parent. -/
structure IndexesAgree (S : Store) (records records' : List (String × Bytes)) (r : Revision) :
    Prop where
  own : ∀ s, r.snapshots.get? "" = some s → SnapshotAgrees S records records' s
  parent : ∀ p, r.parents.head? = some p → ∀ parent, (get Revision p).value S = .ok parent →
    ∀ s, parent.snapshots.get? "" = some s → SnapshotAgrees S records records' s

theorem value_chosenIndex (snap : Snapshot) :
    (chosenIndex snap none).value S =
      match snap.index with
      | some id => (get NodeIndex id).value S >>= fun idx => .ok (some idx)
      | none => .ok none := by
  unfold chosenIndex
  cases snap.index with
  | none => rfl
  | some id => exact (readOnly_get NodeIndex id).value_bind _ S

theorem value_indexOf (records : List (String × Bytes)) (s : ObjectId) :
    (indexOf records s).value S = (get Snapshot s).value S >>= fun snap =>
      match usedIndex S records s snap with
      | some id => (get NodeIndex id).value S >>= fun idx => .ok (some idx)
      | none => .ok none := by
  rw [indexOf_eq, (readOnly_get Snapshot s).value_bind]
  congr 1
  funext snap
  unfold usedIndex cachedIndex
  cases (records.lookup s!"idx:{s}").bind ObjectId.fromSlice with
  | none =>
      simp only [pure_bind, value_chosenIndex]
      rfl
  | some id =>
      have hget := readOnly_get NodeIndex id
      have hread : (some <$> get NodeIndex id).ReadOnly := hget.bind fun _ => readOnly_pure _
      have hcached : ((tryCatch (some <$> get NodeIndex id) fun _ => pure none) :
          StoreM (Option NodeIndex)).ReadOnly := hread.tryCatch fun _ => readOnly_pure _
      have hvalue : (some <$> get NodeIndex id).value S =
          (get NodeIndex id).value S >>= fun idx => .ok (some idx) := hget.value_bind _ S
      rw [hcached.value_bind]
      cases hload : (get NodeIndex id).value S with
      | error e =>
          rw [value_tryCatch_of_error hread _ (hvalue.trans (by rw [hload]; rfl))]
          have hloads : loads S id = false := by rw [loads, hload]; rfl
          simp only [Option.filter, hloads, Bool.false_eq_true, if_false, Option.none_or]
          exact value_chosenIndex snap
      | ok idx =>
          rw [value_tryCatch_of_ok _ (hvalue.trans (by rw [hload]; rfl))]
          have hloads : loads S id = true := by rw [loads, hload]; rfl
          simp only [Option.filter, hloads, if_true, Option.some_or, hload]
          rfl

/-- Stores with the same objects read the same index, if their metadata agree. -/
theorem value_indexOf_congr (hsame : SameObjects S S') {s : ObjectId}
    (h : SnapshotAgrees S records records' s) :
    (indexOf records s).value S = (indexOf records' s).value S' := by
  rw [← (determined_indexOf records' s).same hsame, value_indexOf, value_indexOf]
  cases hsnap : (get Snapshot s).value S with
  | error e => rfl
  | ok snap =>
      change (match usedIndex S records s snap with
        | some id => (get NodeIndex id).value S >>= fun idx => .ok (some idx)
        | none => .ok none) = _
      rw [h snap hsnap]
      rfl

theorem value_revisionIndex_congr (hsame : SameObjects S S')
    (h : ∀ s, revision.snapshots.get? "" = some s → SnapshotAgrees S records records' s) :
    (revisionIndex records revision).value S = (revisionIndex records' revision).value S' := by
  unfold revisionIndex
  cases hroot : revision.snapshots.get? "" with
  | none => rfl
  | some s => exact value_indexOf_congr hsame (h s hroot)

theorem value_contextOf_congr (hsame : SameObjects S S')
    (h : IndexesAgree S records records' revision) :
    (contextOf records view id revision attests).value S =
      (contextOf records' view id revision attests).value S' := by
  have hloaded := Determined.mapM (determined_loadAttestation view) attests
  have hauthor := determined_principalOf view revision.author
  have hindexOf := fun records => (determined_revisionIndex records revision).readOnly
  unfold contextOf
  refine value_bind_congr hloaded.readOnly hloaded.readOnly (hloaded.same hsame) fun loaded _ => ?_
  refine value_bind_congr hauthor.readOnly hauthor.readOnly (hauthor.same hsame) fun author _ => ?_
  refine value_bind_congr (hindexOf records) (hindexOf records')
    (value_revisionIndex_congr hsame h.own) fun index _ => ?_
  cases hparent : revision.parents.head? with
  | none => rfl
  | some p =>
      have hget := determined_get Revision p
      refine value_bind_congr hget.readOnly hget.readOnly (hget.same hsame) fun r hr => ?_
      rw [← hget.same hsame] at hr
      exact value_bind_congr (determined_revisionIndex records r).readOnly
        (determined_revisionIndex records' r).readOnly
        (value_revisionIndex_congr hsame (h.parent p hparent r hr)) fun _ _ => rfl

/-- Stores with the same objects evaluate every standard alike, if their metadata agree
on the indexes of the revision and of its first parent. -/
theorem evaluate_alike (hsame : SameObjects S S') (h : IndexesAgree S records records' revision)
    (standard : EntityId) :
    (evaluate records view standard id revision attests).value S =
      (evaluate records' view standard id revision attests).value S' := by
  rw [value_evaluate, value_evaluate, (determined_chain view standard).same hsame]
  congr 1
  funext standards
  rw [value_evaluateAll, value_evaluateAll, value_contextOf_congr hsame h]

/-- Stores that evaluate alike have an index of the revision both or neither, and then
one of its parent both or neither. -/
theorem present_alike {ctx ctx' : Ctx}
    (hctx : (contextOf records view id revision attests).value S = .ok ctx)
    (hctx' : (contextOf records' view id revision attests).value S' = .ok ctx')
    (h : (evaluateAll records view [requiring changedCovered] id revision attests).value S =
      (evaluateAll records' view [requiring changedCovered] id revision attests).value S') :
    (ctx.index = none ↔ ctx'.index = none) ∧
      (ctx.index ≠ none ∧ ctx.parentIndex = none ↔ ctx'.index ≠ none ∧ ctx'.parentIndex = none) := by
  rw [value_evaluateAll, value_evaluateAll, hctx, hctx'] at h
  have hunmet := Except.ok.inj h
  simp only [List.flatMap_singleton] at hunmet
  rw [← checkStandard_covered.1, ← checkStandard_covered.1, ← checkStandard_covered.2,
    ← checkStandard_covered.2, hunmet]
  exact ⟨Iff.rfl, Iff.rfl⟩

end Metadata

section Samples

/-! Two replicas, one of which cached an index of the draft. -/

def covering : Standard := requiring changedCovered

def coverTable : List Object := gateTable covering [.nodeIndex emptyIndex]

def indexed : List (String × Bytes) :=
  [("idx:" ++ toString (ObjectId.splat 4), (ObjectId.splat 6).bytes)]

local instance coverHash : Crypto := .ofTable coverTable

theorem metadata_matters :
    (evaluate indexed gateView (.splat 64) (.splat 5) gatedDraft []).value coverTable = .ok [] ∧
    (evaluate [] gateView (.splat 64) (.splat 5) gatedDraft []).value coverTable =
      .ok [⟨"require structural(changed.covered)", "no semantic index for this revision"⟩] := by
  constructor
  · decide +kernel
  · decide +kernel

theorem evaluate_alike_indexed :
    (evaluate indexed gateView (.splat 64) (.splat 5) gatedDraft []).value coverTable =
      (evaluate (("owner", []) :: indexed) gateView (.splat 64) (.splat 5) gatedDraft []).value
        coverTable :=
  evaluate_alike (fun _ => rfl)
    ⟨fun s hs => by cases hs; exact fun snap _ => by rfl, fun p hp => by cases hp⟩ (.splat 64)

end Samples

end Tessra.Oplog.Standard
