import Tessra.Daemon.AttestationIndex
import Tessra.Oplog.CitationOrder
import Tessra.Oplog.Transfer

namespace Tessra.Daemon.Verifiers

open Tessra.Core Tessra.Data Tessra.Oplog Tessra.Oplog.Standard

/-! The trunk standard on what is collected for a revision, and on all there is. -/

section Contexts

variable {ctx : Ctx} {keep : Loaded → Bool} {p : Predicate} {units : List Node} {kind : String}
  {allowSelf : Bool}

/-- The context with the attestations to keep. -/
def keeping (keep : Loaded → Bool) (ctx : Ctx) : Ctx :=
  { ctx with attests := ctx.attests.filter keep }

/-- Whatever is on a subject, or names a body of the index, is kept. -/
structure Keeps (keep : Loaded → Bool) (ctx : Ctx) : Prop where
  subject : ∀ l, ctx.onSubject l → keep l
  body : ∀ l, ∀ index ∈ ctx.index, ∀ n ∈ index.nodes, n.body ∈ l.att.bodies.getD [] → keep l

theorem changedUnits_subset (h : ctx.changedUnits = some units) :
    ∃ index ∈ ctx.index, units ⊆ index.nodes := by
  rw [Ctx.changedUnits] at h
  obtain ⟨index, hindex, h⟩ := Option.bind_eq_some_iff.mp h
  obtain ⟨parent, _, h⟩ := Option.bind_eq_some_iff.mp h
  cases h
  exact ⟨index, hindex, List.filter_subset_self _⟩

theorem scopeUnits_subset {scope : String} (h : scopeUnits ctx scope = some units) :
    ∃ index ∈ ctx.index, units ⊆ index.nodes := by
  unfold scopeUnits at h
  split_ifs at h
  · rw [Ctx.newTests] at h
    obtain ⟨parent, _, h⟩ := Option.bind_eq_some_iff.mp h
    obtain ⟨changed, hchanged, h⟩ := Option.bind_eq_some_iff.mp h
    cases h
    obtain ⟨index, hindex, hsub⟩ := changedUnits_subset hchanged
    exact ⟨index, hindex, List.Subset.trans (List.filter_subset_self _) hsub⟩
  · obtain ⟨changed, hchanged, rfl⟩ := Option.map_eq_some_iff.mp h
    obtain ⟨index, hindex, hsub⟩ := changedUnits_subset hchanged
    exact ⟨index, hindex, List.Subset.trans (List.filter_subset_self _) hsub⟩

theorem snapshotUnits_subset (h : snapshotUnits ctx = some units) :
    ∃ index ∈ ctx.index, units ⊆ index.nodes := by
  obtain ⟨changed, hchanged, rfl⟩ := Option.map_eq_some_iff.mp h
  obtain ⟨index, hindex, hsub⟩ := changedUnits_subset hchanged
  exact ⟨index, hindex, List.Subset.trans (List.filter_subset_self _) hsub⟩

/-- Units of the index are covered by the attestations that are kept. -/
theorem Keeps.allCovered (h : Keeps keep ctx) (hunits : ∃ index ∈ ctx.index, units ⊆ index.nodes) :
    AllCovered (keeping keep ctx) kind allowSelf units ↔ AllCovered ctx kind allowSelf units := by
  obtain ⟨index, hindex, hsub⟩ := hunits
  refine forall₂_congr fun u hu => exists_congr fun l => ?_
  constructor
  · rintro ⟨hl, hattests, hbody⟩
    exact ⟨List.mem_of_mem_filter hl, hattests, hbody⟩
  · rintro ⟨hl, hattests, hbody⟩
    exact ⟨List.mem_filter.mpr ⟨hl, h.body l index hindex u (hsub hu) hbody⟩, hattests, hbody⟩

/-- Attestations that are counted for their subject are all kept. -/
theorem Keeps.filter (h : Keeps keep ctx) (counts : Loaded → Bool)
    (hcounts : ∀ l, counts l → ctx.onSubject l) :
    (keeping keep ctx).attests.filter counts = ctx.attests.filter counts := by
  rw [keeping, List.filter_filter]
  refine List.filter_congr fun l _ => ?_
  cases hc : counts l with
  | false => rfl
  | true => rw [h.subject l (hcounts l hc), Bool.and_self]

theorem Keeps.exists_counts (h : Keeps keep ctx) (counts : Loaded → Bool)
    (hcounts : ∀ l, counts l → ctx.onSubject l) :
    (∃ l ∈ (keeping keep ctx).attests, counts l) ↔ ∃ l ∈ ctx.attests, counts l := by
  refine exists_congr fun l => and_congr_left fun hl => ?_
  rw [keeping, List.mem_filter]
  exact and_iff_left (h.subject l (hcounts l hl))

theorem Keeps.votes (h : Keeps keep ctx) : votes (keeping keep ctx) p = votes ctx p := by
  have hjudges : judgesOn (keeping keep ctx) (p.name.getD "") = judgesOn ctx (p.name.getD "") :=
    h.filter _ fun l hl => (Bool.and_eq_true_iff.mp hl).2
  rw [Standard.votes, hjudges]
  rfl

theorem Keeps.holdsAttest (h : Keeps keep ctx) (p : Predicate) :
    holdsAttest (keeping keep ctx) p = .yes ↔ holdsAttest ctx p = .yes := by
  cases hscope : argText p "for" with
  | none =>
      have hsubject := h.exists_counts
        (fun l => attestsTo (p.name.getD "") (argTrue p "self") l && ctx.onSubject l)
        fun l hl => (Bool.and_eq_true_iff.mp hl).2
      simp only [Bool.and_eq_true] at hsubject
      rw [holdsAttest_unscoped hscope, holdsAttest_unscoped hscope]
      refine or_congr hsubject (exists_congr fun units => and_congr_right fun hunits => ?_)
      exact and_congr_right fun _ => h.allCovered (snapshotUnits_subset hunits)
  | some scope =>
      rw [holdsAttest_scoped hscope, holdsAttest_scoped hscope]
      exact exists_congr fun units => and_congr_right fun hunits =>
        h.allCovered (scopeUnits_subset hunits)

theorem Keeps.holdsAt (h : Keeps keep ctx) (hp : p.kind ∉ compoundKinds) :
    holdsAt (keeping keep ctx) 1 p = .yes ↔ holdsAt ctx 1 p = .yes := by
  by_cases hattest : p.kind = "attest"
  · rw [holdsAt_attest hattest, holdsAt_attest hattest, h.holdsAttest]
  by_cases happroved : p.kind = "approved"
  · rw [holdsAt_approved happroved, holdsAt_approved happroved, holdsApproved_eq_yes,
      holdsApproved_eq_yes]
    exact and_congr_right fun _ => h.exists_counts _ fun l hl => (Bool.and_eq_true_iff.mp hl).2
  by_cases hjudge : p.kind = "judge"
  · rw [holdsAt_judge hjudge, holdsAt_judge hjudge, holdsJudge_eq_yes, holdsJudge_eq_yes]
    unfold yesVotes
    rw [h.votes]
  by_cases hobserve : p.kind = "observe"
  · rw [holdsAt_observe hobserve, holdsAt_observe hobserve, holdsObserve_eq_yes,
      holdsObserve_eq_yes]
    have hobserved := h.filter (observes ctx (p.name.getD "")) fun l hl =>
      (Bool.and_eq_true_iff.mp (Bool.and_eq_true_iff.mp hl).1).2
    change (∃ l, latest ((keeping keep ctx).attests.filter (observes ctx _)) = some l ∧ _) ↔ _
    rw [hobserved]
  -- No other predicate looks at the attestations.
  simp only [compoundKinds, List.mem_cons, List.not_mem_nil, or_false, not_or] at hp
  simp only [Standard.holdsAt, hattest, happroved, hjudge, hobserve, hp, if_false]
  rfl

theorem Keeps.latestRank (h : Keeps keep ctx) :
    latestRank (keeping keep ctx) = latestRank ctx := by
  have hrisk : Ctx.latestRisk (keeping keep ctx) = ctx.latestRisk := by
    rw [latestRisk_eq, latestRisk_eq]
    exact congrArg firstLatest (h.filter _ fun l hl => (Bool.and_eq_true_iff.mp hl).2)
  rw [Standard.latestRank, Standard.latestRank, hrisk]

/-- The same clauses are met by what is kept. -/
theorem Keeps.labels (h : Keeps keep ctx) (s : Standard) (label : String) :
    label ∈ labels (keeping keep ctx) s ↔ label ∈ labels ctx s := by
  have hholds : ∀ p, holds (keeping keep ctx) p = .yes ↔ holds ctx p = .yes := fun p =>
    holdsAt_congr (fun _ hp => h.holdsAt hp) (predDepth p) p
  have hclause : ∀ c, checkClause (keeping keep ctx) c = none ↔ checkClause ctx c = none := by
    intro c
    simp only [checkClause_eq_none, hholds, ne_eq]
  simp only [mem_labels, riskClauses_labels, h.latestRank, ne_eq, hclause]

end Contexts

section Status

variable [Crypto] {readsAs : Bytes → Option Attestation} {S : Store} {m : Metadata}
  {found : List (ObjectId × Attestation)}

/-- The metadata as the evaluation of a standard reads them. -/
def records (m : Metadata) : List (String × Bytes) := m.entries.map fun e => (e.1, e.2)

/-- The trunk standard against a revision with every attestation that could apply to it. -/
def standardUnmet (m : Metadata) (view : View) (standard : EntityId) (revId : ObjectId)
    (rev : Revision) (bodies : List ObjectId) : StoreM (List Unmet) :=
  evaluate (records m) view standard revId rev (collectFor m revId rev bodies)

/-- What an evaluation takes for a subject of the revision, attestations are collected for. -/
theorem subjectsOf_subset (revId : ObjectId) (rev : Revision) :
    Standard.subjectsOf revId rev ⊆ subjectsOf revId rev := by
  intro s hs
  simp only [Standard.subjectsOf, subjectsOf, List.map_append, List.map_cons, List.cons_append,
    List.mem_cons, List.mem_append, List.mem_map, Option.mem_toList] at hs ⊢
  refine hs.imp_right (Or.imp_left fun ⟨id, hid, heq⟩ => ⟨id, ?_, heq⟩)
  exact (Option.mem_filter_iff.mp hid).1

theorem attestationAt_of_get {id : ObjectId} {att : Attestation}
    (h : (get Attestation id).value S = .ok att) : attestationAt readsAs S id = some att := by
  obtain ⟨o, ho, hrest, _⟩ := StoreM.bind_ok h
  have hfind : S.find? (fun o => Crypto.objectId o = id) = o := Except.ok.inj ho
  rw [attestationAt, hfind]
  cases o with
  | none => cases hrest
  | some o =>
      cases hof : TessraObject.ofObject (T := Attestation) o with
      | none =>
          simp only [hof] at hrest
          cases hrest
      | some att' =>
          simp only [hof] at hrest
          cases hrest
          rw [TessraObject.toObject_of_ofObject hof]
          rfl

theorem contextOf_subjects {records : List (String × Bytes)} {view : View} {id : ObjectId}
    {revision : Revision} {attests : List ObjectId} {ctx : Ctx}
    (h : (contextOf records view id revision attests).value S = .ok ctx) :
    ctx.subjects = Standard.subjectsOf id revision := by
  rw [contextOf] at h
  obtain ⟨loaded, _, h, _⟩ := StoreM.bind_ok h
  obtain ⟨author, _, h, _⟩ := StoreM.bind_ok h
  obtain ⟨index, _, h, _⟩ := StoreM.bind_ok h
  cases hparent : revision.parents.head? with
  | none =>
      rw [hparent] at h
      cases h
      rfl
  | some p =>
      rw [hparent] at h
      obtain ⟨parent, _, h, _⟩ := StoreM.bind_ok h
      obtain ⟨parentIndex, _, h, _⟩ := StoreM.bind_ok h
      cases h
      rfl

/-- Each citation of an evaluation that succeeds is of an attestation. -/
theorem exists_loaded {view : View} {attests : List ObjectId} {loaded : List Loaded}
    (h : (attests.mapM (loadAttestation view)).value S = .ok loaded) {id : ObjectId}
    (hid : id ∈ attests) : ∃ l, (loadAttestation view id).value S = .ok l := by
  induction (StoreM.value_mapM_eq_ok fun a => (determined_loadAttestation view a).readOnly).mp h
    with
  | nil => cases hid
  | cons hl hrest ih =>
      rcases List.mem_cons.mp hid with rfl | hid
      · exact ⟨_, hl⟩
      · exact ih ((StoreM.value_mapM_eq_ok fun a =>
          (determined_loadAttestation view a).readOnly).mpr hrest) hid

/-- Does the attestation apply, if there is one under the identifier? -/
def appliesAt (S : Store) (applies : Attestation → Bool) (id : ObjectId) : Bool :=
  match (get Attestation id).value S with
  | .ok att => applies att
  | .error _ => false

/-- Whatever else of the index is cited among what is collected for a revision, the same
clauses of the trunk standard are unmet. -/
theorem collected_suffices (h : Run readsAs S m found) {view : View} {standard : EntityId}
    {revId : ObjectId} {rev : Revision} {idx : Option NodeIndex}
    (hidx : (revisionIndex (records m) rev).value S = .ok idx) {bodies : List ObjectId}
    (hbodies : ∀ b, b ∈ bodies ↔ ∃ index ∈ idx, ∃ n ∈ index.nodes, n.body = b)
    {cited : List ObjectId} (hcited : ∀ id ∈ cited, ∃ att, (id, att) ∈ found)
    (hamong : cited.filter (· ∈ collectFor m revId rev bodies) = collectFor m revId rev bodies)
    {unmet : List Unmet}
    (hunmet : (evaluate (records m) view standard revId rev cited).value S = .ok unmet) :
    reported ((standardUnmet m view standard revId rev bodies).value S) =
      some (unmet.map Unmet.clause).toFinset := by
  classical
  have hread := fun a => (determined_loadAttestation view a).readOnly
  rw [value_evaluate] at hunmet
  cases hchain : (chain view standard).value S with
  | error e =>
      rw [hchain] at hunmet
      cases hunmet
  | ok standards =>
  rw [hchain] at hunmet
  change (evaluateAll (records m) view standards revId rev cited).value S = .ok unmet at hunmet
  cases hctx : (contextOf (records m) view revId rev cited).value S with
  | error e =>
      rw [value_evaluateAll, hctx] at hunmet
      cases hunmet
  | ok ctx =>
  -- What is kept of the loaded citations is what is collected.
  have hfilter : cited.filter (appliesAt S fun att => Applies revId rev idx att) =
      collectFor m revId rev bodies := by
    rw [← hamong]
    refine List.filter_congr fun id hid => ?_
    obtain ⟨l, hl⟩ := exists_loaded (contextOf_attests hctx) hid
    have hatt := loadAttestation_att hl
    have happlies : Applies revId rev idx l.att ↔ id ∈ collectFor m revId rev bodies := by
      rw [h.mem_collectFor revId rev hbodies]
      obtain ⟨att, hfound⟩ := hcited id hid
      have hsame : ∀ att, (id, att) ∈ found → att = l.att := fun att hfound =>
        Option.some.inj ((h.stored _ hfound).symm.trans (attestationAt_of_get hatt))
      constructor
      · exact fun happlies => ⟨att, hfound, hsame att hfound ▸ happlies⟩
      · rintro ⟨att, hfound, happlies⟩
        exact hsame att hfound ▸ happlies
    simp only [appliesAt, hatt, happlies]
  have hkeep : ∀ a l, (loadAttestation view a).value S = .ok l →
      appliesAt S (fun att => Applies revId rev idx att) a = decide (Applies revId rev idx l.att) :=
    fun a l hl => by simp only [appliesAt, loadAttestation_att hl]
  have hloaded := StoreM.value_mapM_filter hread hkeep (contextOf_attests hctx)
  rw [hfilter] at hloaded
  have hkeeps : Keeps (fun l => decide (Applies revId rev idx l.att)) ctx := by
    cases Except.ok.inj (hidx.symm.trans (contextOf_index hctx))
    refine ⟨fun l hl => decide_eq_true (.inl ?_), fun l index hindex n hn hbody => ?_⟩
    · rw [Ctx.onSubject, contextOf_subjects hctx] at hl
      cases hs : l.att.subject with
      | none =>
          rw [hs] at hl
          cases hl
      | some s =>
          rw [hs] at hl
          exact ⟨s, rfl, subjectsOf_subset revId rev (of_decide_eq_true hl)⟩
    · exact decide_eq_true (.inr ⟨n.body, hbody, index, hindex, n, hn, rfl⟩)
  rw [standardUnmet, value_evaluate, hchain]
  change reported ((evaluateAll (records m) view standards revId rev
    (collectFor m revId rev bodies)).value S) = _
  have hreported : reported ((evaluateAll (records m) view standards revId rev cited).value S) =
      some (unmet.map Unmet.clause).toFinset := by
    rw [hunmet]
    rfl
  rw [reported_evaluateAll (contextOf_citing hctx hloaded), ← hreported,
    reported_evaluateAll hctx, Option.some.injEq]
  ext label
  simp only [List.mem_toFinset, List.mem_flatMap]
  exact exists_congr fun s => and_congr_right fun _ => hkeeps.labels s label

end Status

section Samples

/-! A draft whose tests passed, beside an attestation of something else. -/

def passRequired : Standard := requiring (attesting "tests.pass" none false)

def passed : Attestation := ownerSays "tests.pass" (.bool true)

def failedElsewhere : Attestation :=
  { ownerSays "tests.pass" (.bool false) with subject := some (ObjectId.splat 9).bytes }

def passTable : List Object :=
  gateTable passRequired [.attestation passed, .attestation failedElsewhere]

local instance passHash : Crypto := .ofTable passTable

def passEffects : List Effect := [.put (.splat 6), .put (.splat 7)]

def passMetadata : Metadata :=
  indexOpAttestations (fun _ => none) passTable (OrdMap.insert ∅ "repo_id" []) passEffects

theorem passRun : Run (fun _ => none) passTable passMetadata
    [(.splat 6, passed), (.splat 7, failedElsewhere)] := by
  have hoffers : offers (fun _ => none) passTable (putIds passEffects) =
      [(.splat 6, passed), (.splat 7, failedElsewhere)] := by decide
  rw [← hoffers]
  exact (Run.init passTable []).commit passEffects

theorem pass_cited : ∀ id ∈ [ObjectId.splat 7, .splat 6],
    ∃ att, (id, att) ∈ [(ObjectId.splat 6, passed), (.splat 7, failedElsewhere)] := by
  simp

theorem pass_index : (revisionIndex (records passMetadata) gatedDraft).value passTable =
    .ok none := by decide

theorem pass_unmet : (evaluate (records passMetadata) gateView (.splat 64) (.splat 5) gatedDraft
    [.splat 7, .splat 6]).value passTable = .ok [] := by decide

theorem collected_suffices_passed :
    reported ((standardUnmet passMetadata gateView (.splat 64) (.splat 5) gatedDraft []).value
      passTable) = some ∅ ∧ collectFor passMetadata (.splat 5) gatedDraft [] = [.splat 6] :=
  ⟨collected_suffices passRun pass_index (by simp) pass_cited (by decide) pass_unmet,
    by decide⟩

end Samples

end Tessra.Daemon.Verifiers
