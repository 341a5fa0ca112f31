import Tessra.Oplog.Replicas
import Tessra.Oplog.Signed

namespace Tessra.Oplog.Standard

open Tessra.Core Tessra.Data

/-! Attestations about bodies, on revisions that contain only some of those. -/

/-- The attestation is keyed on bodies, of which some occurs in no node of the index. -/
def partly (index : Option NodeIndex) (att : Attestation) : Bool :=
  att.subject.isNone &&
    (att.bodies.getD []).any fun b => ((index.map NodeIndex.nodes).getD []).all (·.body ≠ b)

/-- The context without the attestations that only partly transfer. -/
def Ctx.transferred (ctx : Ctx) : Ctx :=
  { ctx with attests := ctx.attests.filter fun l => !partly ctx.index l.att }

section Leaves

variable {ctx : Ctx} {p : Predicate} {l : Loaded} {kind : String} {allowSelf : Bool}
  {units : List Node}

/-- Every unit is named by an attestation that transfers. -/
def NamedWhole (ctx : Ctx) (kind : String) (allowSelf : Bool) (units : List Node) : Prop :=
  ∀ u ∈ units, ∃ l ∈ ctx.attests, attestsTo kind allowSelf l ∧ u.body ∈ l.att.bodies.getD [] ∧
    partly ctx.index l.att = false

/-- Units that the cited attestations of a kind cover together are covered by those of them
that transfer, unless one is on the revision itself where that counts. -/
structure CoveredWhole (ctx : Ctx) : Prop where
  inScope : ∀ scope units, scopeUnits ctx scope = some units → ∀ kind allowSelf,
    AllCovered ctx kind allowSelf units → NamedWhole ctx kind allowSelf units
  snapshot : ∀ units, snapshotUnits ctx = some units → units ≠ [] → ∀ kind allowSelf,
    AllCovered ctx kind allowSelf units →
      (∃ l ∈ ctx.attests, attestsTo kind allowSelf l ∧ ctx.onSubject l) ∨
        NamedWhole ctx kind allowSelf units

theorem allCovered_transferred :
    AllCovered ctx.transferred kind allowSelf units ↔ NamedWhole ctx kind allowSelf units := by
  refine forall₂_congr fun u _ => ?_
  simp only [Covered, Ctx.transferred, List.mem_filter, Bool.not_eq_true']
  constructor
  · rintro ⟨l, ⟨hl, hwhole⟩, hattests, hbody⟩
    exact ⟨l, hl, hattests, hbody, hwhole⟩
  · rintro ⟨l, hl, hattests, hbody, hwhole⟩
    exact ⟨l, ⟨hl, hwhole⟩, hattests, hbody⟩

theorem NamedWhole.covered (h : NamedWhole ctx kind allowSelf units) :
    AllCovered ctx kind allowSelf units := by
  intro u hu
  obtain ⟨l, hl, hattests, hbody, _⟩ := h u hu
  exact ⟨l, hl, hattests, hbody⟩

/-- What is on a subject transfers. -/
theorem whole_of_subject (h : ctx.onSubject l) : partly ctx.index l.att = false := by
  unfold Ctx.onSubject at h
  unfold partly
  cases hsubject : l.att.subject with
  | none =>
      rw [hsubject] at h
      cases h
  | some s => rfl

/-- Attestations that are counted for their subject are all kept. -/
theorem filter_transferred {counts : Loaded → Bool} (h : ∀ l, counts l → ctx.onSubject l) :
    ctx.transferred.attests.filter counts = ctx.attests.filter counts := by
  rw [Ctx.transferred, List.filter_filter]
  refine List.filter_congr fun l _ => ?_
  cases hcounts : counts l with
  | false => rfl
  | true => simp [whole_of_subject (h l hcounts)]

theorem exists_transferred {counts : Loaded → Bool} (h : ∀ l, counts l → ctx.onSubject l) :
    (∃ l ∈ ctx.transferred.attests, counts l) ↔ ∃ l ∈ ctx.attests, counts l := by
  have hmem : ∀ l, counts l → (l ∈ ctx.transferred.attests ↔ l ∈ ctx.attests) := by
    intro l hl
    simp [Ctx.transferred, whole_of_subject (h l hl)]
  exact exists_congr fun l => and_congr_left fun hl => hmem l hl

theorem votes_transferred : votes ctx.transferred p = votes ctx p := by
  have hjudges : judgesOn ctx.transferred (p.name.getD "") = judgesOn ctx (p.name.getD "") :=
    filter_transferred fun l hl => (Bool.and_eq_true_iff.mp hl).2
  rw [votes, hjudges]
  rfl

/-- Where units are covered by what transfers, every attest predicate keeps its answer. -/
theorem holdsAttest_transferred (h : CoveredWhole ctx) (p : Predicate) :
    holdsAttest ctx.transferred p = .yes ↔ holdsAttest ctx p = .yes := by
  cases hscope : argText p "for" with
  | none =>
      have hsubject := @exists_transferred ctx
        (fun l => attestsTo (p.name.getD "") (argTrue p "self") l && ctx.onSubject l)
        fun l hl => (Bool.and_eq_true_iff.mp hl).2
      simp only [Bool.and_eq_true] at hsubject
      rw [holdsAttest_unscoped hscope, holdsAttest_unscoped hscope]
      change (∃ l ∈ ctx.transferred.attests, _ ∧ ctx.onSubject l) ∨ _ ↔ _
      rw [hsubject]
      constructor
      · rintro (hon | ⟨units, hunits, hne, hall⟩)
        · exact .inl hon
        · exact .inr ⟨units, hunits, hne, (allCovered_transferred.mp hall).covered⟩
      · rintro (hon | ⟨units, hunits, hne, hall⟩)
        · exact .inl hon
        · refine (h.snapshot units hunits hne _ _ hall).imp id fun hwhole => ?_
          exact ⟨units, hunits, hne, allCovered_transferred.mpr hwhole⟩
  | some scope =>
      rw [holdsAttest_scoped hscope, holdsAttest_scoped hscope]
      refine exists_congr fun units => and_congr_right fun hunits => ?_
      constructor
      · exact fun hall => (allCovered_transferred.mp hall).covered
      · exact fun hall => allCovered_transferred.mpr (h.inScope scope units hunits _ _ hall)

theorem holdsAt_transferred (h : CoveredWhole ctx) (hp : p.kind ∉ compoundKinds) :
    holdsAt ctx.transferred 1 p = .yes ↔ holdsAt ctx 1 p = .yes := by
  by_cases hattest : p.kind = "attest"
  · rw [holdsAt_attest hattest, holdsAt_attest hattest, holdsAttest_transferred h]
  by_cases happroved : p.kind = "approved"
  · rw [holdsAt_approved happroved, holdsAt_approved happroved, holdsApproved_eq_yes,
      holdsApproved_eq_yes]
    exact and_congr_right fun _ => exists_transferred fun l hl => (Bool.and_eq_true_iff.mp hl).2
  by_cases hjudge : p.kind = "judge"
  · rw [holdsAt_judge hjudge, holdsAt_judge hjudge, holdsJudge_eq_yes, holdsJudge_eq_yes]
    unfold yesVotes
    rw [votes_transferred]
  by_cases hobserve : p.kind = "observe"
  · rw [holdsAt_observe hobserve, holdsAt_observe hobserve, holdsObserve_eq_yes,
      holdsObserve_eq_yes]
    have hobserved := @filter_transferred ctx (observes ctx (p.name.getD "")) fun l hl =>
      (Bool.and_eq_true_iff.mp (Bool.and_eq_true_iff.mp hl).1).2
    change (∃ l, latest (ctx.transferred.attests.filter (observes ctx _)) = some l ∧ _) ↔ _
    rw [hobserved]
  simp only [compoundKinds, List.mem_cons, List.not_mem_nil, or_false, not_or] at hp
  simp only [holdsAt, hattest, happroved, hjudge, hobserve, hp, if_false]
  rfl

theorem checkClause_transferred (h : CoveredWhole ctx) (c : Clause) :
    checkClause ctx.transferred c = none ↔ checkClause ctx c = none := by
  have hholds : ∀ p, holds ctx.transferred p = .yes ↔ holds ctx p = .yes := fun p =>
    holdsAt_congr (fun _ hp => holdsAt_transferred h hp) (predDepth p) p
  simp only [checkClause_eq_none, hholds, ne_eq]

theorem latestRank_transferred : latestRank ctx.transferred = latestRank ctx := by
  have hrisk : Ctx.latestRisk ctx.transferred = ctx.latestRisk := by
    rw [latestRisk_eq, latestRisk_eq]
    exact congrArg firstLatest (@filter_transferred ctx (isRisk ctx) fun l hl =>
      (Bool.and_eq_true_iff.mp hl).2)
  rw [latestRank, latestRank, hrisk]

/-- The same clauses are met. -/
theorem labels_transferred (h : CoveredWhole ctx) (s : Standard) (label : String) :
    label ∈ labels ctx.transferred s ↔ label ∈ labels ctx s := by
  simp only [mem_labels, riskClauses_labels, latestRank_transferred, ne_eq,
    checkClause_transferred h]

/-- An attest predicate of a kind, for a scope, by whom it trusts. -/
def attesting (kind : String) (scope : Option String) (allowSelf : Bool) : Predicate where
  kind := "attest"
  name := some kind
  args := some (match scope with
    | none => OrdMap.insert ∅ "self" (.bool allowSelf)
    | some scope => (OrdMap.insert ∅ "self" (.bool allowSelf)).insert "for" (.text scope))

theorem attesting_self (kind : String) (scope : Option String) (allowSelf : Bool) :
    argTrue (attesting kind scope allowSelf) "self" = allowSelf := by
  cases scope <;> cases allowSelf <;> simp [argTrue, arg, attesting]

theorem attesting_for (kind : String) (scope : Option String) (allowSelf : Bool) :
    argText (attesting kind scope allowSelf) "for" = scope := by
  cases scope <;> simp [argText, arg, attesting, Value.asText]

/-- If no clause gets unmet, all units are covered by what transfers. -/
theorem coveredWhole_of_met (h : ∀ p : Predicate, p.kind = "attest" →
      holdsAttest ctx p = .yes → holdsAttest ctx.transferred p = .yes) : CoveredWhole ctx where
  inScope scope units hunits kind allowSelf hall := by
    have hfor := attesting_for kind (some scope) allowSelf
    have hself := attesting_self kind (some scope) allowSelf
    have hbefore : holdsAttest ctx (attesting kind (some scope) allowSelf) = .yes := by
      rw [holdsAttest_scoped hfor, hself]
      exact ⟨units, hunits, hall⟩
    have hafter := h _ rfl hbefore
    rw [holdsAttest_scoped hfor, hself] at hafter
    obtain ⟨units', hunits', hwhole⟩ := hafter
    cases Option.some.inj (hunits.symm.trans hunits')
    exact allCovered_transferred.mp hwhole
  snapshot units hunits hne kind allowSelf hall := by
    have hfor := attesting_for kind none allowSelf
    have hself := attesting_self kind none allowSelf
    have hbefore : holdsAttest ctx (attesting kind none allowSelf) = .yes := by
      rw [holdsAttest_unscoped hfor, hself]
      exact .inr ⟨units, hunits, hne, hall⟩
    have hafter := h _ rfl hbefore
    rw [holdsAttest_unscoped hfor, hself] at hafter
    rcases hafter with ⟨l, hl, hon⟩ | ⟨units', hunits', _, hwhole⟩
    · exact .inl ⟨l, List.mem_of_mem_filter hl, hon⟩
    · cases Option.some.inj (hunits.symm.trans hunits')
      exact .inr (allCovered_transferred.mp hwhole)

end Leaves

section Evaluations

variable [Crypto] {S : Store} {records : List (String × Bytes)} {view : View} {id : ObjectId}
  {revision : Revision} {attests : List ObjectId} {ctx : Ctx}

/-- The cited attestations without those that only partly transfer. -/
def transferring (S : Store) (index : Option NodeIndex) (attests : List ObjectId) :
    List ObjectId :=
  attests.filter fun a =>
    match (get Attestation a).value S with
    | .ok att => !partly index att
    | .error _ => true

/-- No clause of a standard that is met is unmet without the attestations that only
partly transfer. -/
def NeverTurned (S : Store) (records : List (String × Bytes)) (view : View) (id : ObjectId)
    (revision : Revision) (attests : List ObjectId) : Prop :=
  ∀ index, (revisionIndex records revision).value S = .ok index → ∀ s before after,
    (evaluateAll records view [s] id revision attests).value S = .ok before →
    (evaluateAll records view [s] id revision (transferring S index attests)).value S =
      .ok after →
    after.map Unmet.clause ⊆ before.map Unmet.clause

theorem contextOf_index (h : (contextOf records view id revision attests).value S = .ok ctx) :
    (revisionIndex records revision).value S = .ok ctx.index := by
  have hread := (StoreM.Determined.mapM (determined_loadAttestation view) attests).readOnly S
  rw [contextOf] at h
  obtain ⟨loaded, _, h, _⟩ := StoreM.bind_ok h
  obtain ⟨author, _, h, _⟩ := StoreM.bind_ok h
  obtain ⟨index, hindex, h, _⟩ := StoreM.bind_ok h
  rw [(determined_principalOf view revision.author).readOnly, hread] at hindex
  rw [hindex]
  cases hparent : revision.parents.head? with
  | none =>
      rw [hparent] at h
      cases h
      rfl
  | some p =>
      rw [hparent] at h
      obtain ⟨parent, _, h, _⟩ := StoreM.bind_ok h
      obtain ⟨parentIndex, _, h, _⟩ := StoreM.bind_ok h
      cases h
      rfl

theorem loadAttestation_att {a : ObjectId} {l : Loaded}
    (h : (loadAttestation view a).value S = .ok l) : (get Attestation a).value S = .ok l.att := by
  rw [loadAttestation] at h
  obtain ⟨att, hatt, h, _⟩ := StoreM.bind_ok h
  obtain ⟨p, _, h, _⟩ := StoreM.bind_ok h
  cases h
  exact hatt

theorem contextOf_transferring
    (h : (contextOf records view id revision attests).value S = .ok ctx) :
    (contextOf records view id revision (transferring S ctx.index attests)).value S =
      .ok ctx.transferred := by
  refine contextOf_citing h (StoreM.value_mapM_filter
    (fun a => (determined_loadAttestation view a).readOnly) ?_ (contextOf_attests h))
  intro a l hl
  rw [loadAttestation_att hl]

/-- Without what only partly transfers no clause gets unmet, exactly if units covered
together are covered by what transfers. -/
theorem neverTurned_iff : NeverTurned S records view id revision attests ↔
    ∀ ctx, (contextOf records view id revision attests).value S = .ok ctx → CoveredWhole ctx := by
  constructor
  · intro h ctx hctx
    refine coveredWhole_of_met fun p hp hyes => ?_
    have hleaf : p.kind ∉ compoundKinds := by simp [hp, compoundKinds]
    have hmet : ∀ ctx, checkStandard ctx (requiring p) = [] ↔ holdsAttest ctx p = .yes := by
      intro ctx
      rw [checkStandard_eq_nil_iff, holds_leaf hleaf, holdsAt_attest hp]
    have hunmet := h ctx.index (contextOf_index hctx) (requiring p) _ _ (evaluateAll_one hctx _)
      (evaluateAll_one (contextOf_transferring hctx) _)
    rw [(hmet ctx).mpr hyes] at hunmet
    exact (hmet ctx.transferred).mp (List.map_eq_nil_iff.mp (List.subset_nil.mp hunmet))
  · intro h index hindex s before after hbefore hafter label hlabel
    cases hctx : (contextOf records view id revision attests).value S with
    | error e =>
        rw [value_evaluateAll, hctx] at hbefore
        cases hbefore
    | ok ctx =>
        cases Except.ok.inj (hindex.symm.trans (contextOf_index hctx))
        rw [evaluateAll_one hctx] at hbefore
        rw [evaluateAll_one (contextOf_transferring hctx)] at hafter
        cases hbefore
        cases hafter
        exact (labels_transferred (h ctx hctx) s label).mp hlabel

end Evaluations

section Samples

/-! A run of a unit and its test, cited on a draft that has only the unit. -/

def draftUnit : Node where
  nid := .splat 90
  path := "src/lib.rs"
  kind := "function"
  name := "parse"
  span := (0, 1)
  body := .splat 91
  parent := none
  deps := none
  setlike := none

def draftIndex : NodeIndex := { emptyIndex with nodes := [draftUnit] }

def pairRun : Attestation :=
  { ownerSays "tests.pass" (.bool true) with
    subject := none
    bodies := some [.splat 91, .splat 92] }

def runRequired : Standard := requiring (attesting "tests.pass" (some "changed_nodes") false)

def runTable : List Object :=
  gateTable runRequired [.nodeIndex draftIndex, .attestation pairRun]

local instance runHash : Crypto := .ofTable runTable

/-- The run meets the clause, although no node of the index has the test's body. -/
theorem partial_run_counts :
    (evaluate indexed gateView (.splat 64) (.splat 5) gatedDraft [.splat 7]).value runTable =
      .ok [] ∧
    transferring runTable (some draftIndex) [.splat 7] = [] ∧
    (evaluate indexed gateView (.splat 64) (.splat 5) gatedDraft []).value runTable ≠ .ok [] ∧
    ¬ NeverTurned runTable indexed gateView (.splat 5) gatedDraft [.splat 7] := by
  have hkept : transferring runTable (some draftIndex) [.splat 7] = [] := by decide +kernel
  refine ⟨by decide +kernel, hkept, by decide +kernel, fun h => ?_⟩
  have hunmet := h (some draftIndex) (by decide +kernel) runRequired []
    [⟨"require attest(tests.pass, for=changed_nodes, self=false)",
      "changed units without a tests.pass attestation: parse"⟩]
    (by decide +kernel) (by rw [hkept]; decide +kernel)
  simp at hunmet

end Samples

end Tessra.Oplog.Standard
