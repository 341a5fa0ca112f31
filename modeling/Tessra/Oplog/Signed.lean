import Tessra.Core.Sig
import Tessra.Oplog.Evaluation

namespace Tessra.Oplog.Standard

open Tessra.Core Tessra.Data

/-! Which of the cited attestations clauses count, and whether those are signed. -/

section Counting

variable {ctx : Ctx} {p : Predicate} {l : Loaded} {keep : Loaded → Bool}

/-- The units that an attest predicate can be met by covering. -/
def unitsAsked (ctx : Ctx) (p : Predicate) : Option (List Node) :=
  match argText p "for" with
  | none => (snapshotUnits ctx).filter fun units => !units.isEmpty
  | some scope => scopeUnits ctx scope

/-- All units are covered by true attestations of the kind. -/
def AllCovered (ctx : Ctx) (kind : String) (allowSelf : Bool) (units : List Node) : Prop :=
  ∀ u ∈ units, Covered ctx kind allowSelf u

/-- What a predicate that holds counts a cited attestation for. -/
inductive Counts (ctx : Ctx) (p : Predicate) (l : Loaded) : Prop
  | subject (kind : p.kind = "attest") (unscoped : argText p "for" = none)
      (attests : attestsTo (p.name.getD "") (argTrue p "self") l) (about : ctx.onSubject l)
  | unit {units : List Node} {u : Node} (kind : p.kind = "attest")
      (asked : unitsAsked ctx p = some units)
      (covered : AllCovered ctx (p.name.getD "") (argTrue p "self") units) (mem : u ∈ units)
      (attests : attestsTo (p.name.getD "") (argTrue p "self") l)
      (names : u.body ∈ l.att.bodies.getD [])
  | approval (kind : p.kind = "approved") (yes : approves ctx p l)
  | vote (kind : p.kind = "judge") (cast : l ∈ votes ctx p) (yes : truthy l.att.result)
  | observed (kind : p.kind = "observe")
      (last : latest (ctx.attests.filter (observes ctx (p.name.getD ""))) = some l)

/-- The kinds of predicates that attestations meet. -/
def attestedKinds : List String := ["attest", "approved", "judge", "observe"]

theorem latest_filter {judges : List Loaded} (h : latest judges = some l) (hl : keep l) :
    latest (judges.filter keep) = some l := by
  induction judges using List.reverseRecOn with
  | nil => cases h
  | append_singleton judges x ih =>
      rw [latest_concat] at h
      rw [List.filter_append, List.filter_singleton]
      split_ifs at h with hle
      · cases h
        rw [hl, Bool.cond_true, latest_concat]
        cases hkept : latest (judges.filter keep) with
        | none => rfl
        | some b =>
            cases hlast : latest judges with
            | none =>
                rw [latest_eq_none.mp hlast] at hkept
                cases hkept
            | some a =>
                rw [hlast] at hle
                have hb := (latest_max hlast).2 b (List.mem_of_mem_filter (latest_max hkept).1)
                have ha : a.att.time ≤ l.att.time := by simpa using hle
                simp [hb.trans ha]
      · have hrest := ih h
        cases keep x with
        | false => simpa using hrest
        | true =>
            rw [Bool.cond_true, latest_concat, hrest]
            rw [h] at hle
            simp only [if_neg hle]

/-- The attestations that a predicate counts are enough for it to hold. -/
theorem counted_suffice (hp : p.kind ∈ attestedKinds) (h : holds ctx p = .yes)
    (hkeep : ∀ l ∈ ctx.attests, Counts ctx p l → keep l) :
    holds { ctx with attests := ctx.attests.filter keep } p = .yes := by
  have hkept : ∀ l ∈ ctx.attests, Counts ctx p l → l ∈ ctx.attests.filter keep :=
    fun l hl hcounts => List.mem_filter.mpr ⟨hl, hkeep l hl hcounts⟩
  have hleaf : p.kind ∉ compoundKinds := by
    simp only [attestedKinds, List.mem_cons, List.not_mem_nil, or_false] at hp
    rcases hp with hkind | hkind | hkind | hkind <;> simp [compoundKinds, hkind]
  have hcovered : p.kind = "attest" → ∀ units, unitsAsked ctx p = some units →
      AllCovered ctx (p.name.getD "") (argTrue p "self") units →
      AllCovered { ctx with attests := ctx.attests.filter keep } (p.name.getD "")
        (argTrue p "self") units := by
    intro hkind units hasked hall u hu
    obtain ⟨l, hl, hattests, hbody⟩ := hall u hu
    exact ⟨l, hkept l hl (.unit hkind hasked hall hu hattests hbody), hattests, hbody⟩
  rw [holds_leaf hleaf] at h ⊢
  simp only [attestedKinds, List.mem_cons, List.not_mem_nil, or_false] at hp
  rcases hp with hkind | hkind | hkind | hkind
  · rw [holdsAt_attest hkind] at h ⊢
    cases hscope : argText p "for" with
    | none =>
        rw [holdsAttest_unscoped hscope] at h ⊢
        rcases h with ⟨l, hl, hattests, habout⟩ | ⟨units, hunits, hne, hall⟩
        · exact .inl ⟨l, hkept l hl (.subject hkind hscope hattests habout), hattests, habout⟩
        · have hasked : unitsAsked ctx p = some units := by
            rw [unitsAsked, hscope, Option.mem_def.mp hunits]
            simp [hne]
          exact .inr ⟨units, hunits, hne, hcovered hkind units hasked hall⟩
    | some scope =>
        rw [holdsAttest_scoped hscope] at h ⊢
        obtain ⟨units, hunits, hall⟩ := h
        have hasked : unitsAsked ctx p = some units := by
          rw [unitsAsked, hscope]
          exact hunits
        exact ⟨units, hunits, hcovered hkind units hasked hall⟩
  · rw [holdsAt_approved hkind] at h ⊢
    rw [holdsApproved_eq_yes] at h ⊢
    obtain ⟨hby, l, hl, hyes⟩ := h
    exact ⟨hby, l, hkept l hl (.approval hkind hyes), hyes⟩
  · rw [holdsAt_judge hkind] at h ⊢
    rw [holdsJudge_eq_yes] at h ⊢
    have hvotes : votes { ctx with attests := ctx.attests.filter keep } p = votes ctx p := by
      have hjudges : judgesOn { ctx with attests := ctx.attests.filter keep } (p.name.getD "") =
          (judgesOn ctx (p.name.getD "")).filter keep := List.filter_comm _ _ _
      have hcomm : votes { ctx with attests := ctx.attests.filter keep } p =
          (votes ctx p).filter keep := by
        rw [votes, hjudges]
        exact List.filter_comm _ _ _
      rw [hcomm, List.filter_eq_self]
      intro l hl
      exact hkeep l (List.mem_of_mem_filter (List.mem_of_mem_filter hl))
        (.vote hkind hl (h.1 l hl))
    unfold yesVotes at h ⊢
    rw [hvotes]
    exact h
  · rw [holdsAt_observe hkind] at h ⊢
    rw [holdsObserve_eq_yes] at h ⊢
    obtain ⟨l, hlast, hwithin⟩ := h
    have hl := List.mem_of_mem_filter (latest_max hlast).1
    refine ⟨l, ?_, hwithin⟩
    change latest ((ctx.attests.filter keep).filter (observes ctx (p.name.getD ""))) = some l
    rw [List.filter_comm]
    exact latest_filter hlast (hkeep l hl (.observed hkind hlast))

end Counting

/-- The lists of units that some attest predicate can be met by covering. -/
def askedUnits (ctx : Ctx) : List (List Node) :=
  ((snapshotUnits ctx).filter fun units => !units.isEmpty).toList ++
    (scopeUnits ctx "new_tests").toList ++ (scopeUnits ctx "changed_nodes").toList

/-- An observe predicate without bounds. -/
def observed (signal : String) : Predicate :=
  { kind := "observe", name := some signal, args := none }

section Asking

variable {ctx : Ctx} {p : Predicate} {l : Loaded} {kind : String} {allowSelf : Bool}
  {units : List Node}

/-- An attest predicate that trusts everyone. -/
def attestedBy (kind : String) (scope : Option String) : Predicate where
  kind := "attest"
  name := some kind
  args := some (match scope with
    | none => OrdMap.insert ∅ "self" (.bool true)
    | some scope => (OrdMap.insert ∅ "self" (.bool true)).insert "for" (.text scope))

theorem attestedBy_self (kind : String) (scope : Option String) :
    argTrue (attestedBy kind scope) "self" = true := by
  cases scope <;> simp [argTrue, arg, attestedBy]

theorem attestedBy_for (kind : String) (scope : Option String) :
    argText (attestedBy kind scope) "for" = scope := by
  cases scope <;> simp [argText, arg, attestedBy, Value.asText]

theorem attestsTo_self (h : attestsTo kind allowSelf l) : attestsTo kind true l := by
  unfold attestsTo Ctx.trusted at h ⊢
  simp only [Bool.and_eq_true] at h ⊢
  simp [h.1.1, h.1.2]

theorem AllCovered.self (h : AllCovered ctx kind allowSelf units) :
    AllCovered ctx kind true units := by
  intro u hu
  obtain ⟨l, hl, hattests, hbody⟩ := h u hu
  exact ⟨l, hl, attestsTo_self hattests, hbody⟩

theorem mem_askedUnits (h : unitsAsked ctx p = some units) : units ∈ askedUnits ctx := by
  unfold unitsAsked at h
  unfold askedUnits
  cases hscope : argText p "for" with
  | none =>
      rw [hscope] at h
      simp [h]
  | some scope =>
      rw [hscope] at h
      change scopeUnits ctx scope = some units at h
      have hscopes : scope = "new_tests" ∨ scope = "changed_nodes" := by
        by_contra hother
        rw [not_or] at hother
        simp [scopeUnits, hother.1, hother.2] at h
      rcases hscopes with rfl | rfl <;> simp [h]

theorem exists_unitsAsked (kind : String) (h : units ∈ askedUnits ctx) :
    ∃ scope, unitsAsked ctx (attestedBy kind scope) = some units := by
  simp only [askedUnits, List.mem_append, Option.mem_toList] at h
  simp only [unitsAsked, attestedBy_for]
  rcases h with (h | h) | h
  · exact ⟨none, h⟩
  · exact ⟨some "new_tests", h⟩
  · exact ⟨some "changed_nodes", h⟩

theorem holds_attestedBy {scope : Option String}
    (hasked : unitsAsked ctx (attestedBy kind scope) = some units)
    (hall : AllCovered ctx kind true units) : holds ctx (attestedBy kind scope) = .yes := by
  have hleaf : (attestedBy kind scope).kind ∉ compoundKinds := by
    simp [attestedBy, compoundKinds]
  have hname : (attestedBy kind scope).name.getD "" = kind := rfl
  have hfor := attestedBy_for kind scope
  rw [holds_leaf hleaf, holdsAt_attest rfl]
  rw [unitsAsked, hfor] at hasked
  cases scope with
  | none =>
      rw [holdsAttest_unscoped hfor, hname, attestedBy_self]
      obtain ⟨hunits, hne⟩ := Option.filter_eq_some_iff.mp hasked
      exact .inr ⟨units, hunits, by simpa using hne, hall⟩
  | some scope =>
      rw [holdsAttest_scoped hfor, hname, attestedBy_self]
      exact ⟨units, hasked, hall⟩

end Asking

section Signatures

variable [Crypto] {S : Store} {records : List (String × Bytes)} {view : View} {id : ObjectId}
  {revision : Revision} {attests : List ObjectId} {ctx : Ctx} {p : Predicate}

/-- The attestation is signed by its runner, or where it has none by its verifier, as the
view has them. -/
def SignedIn (S : Store) (view : View) (att : Attestation) : Prop :=
  ∃ signer key, (principalOf view (att.runner.getD att.verifier)).value S = .ok (some signer) ∧
    signer.key = some key ∧ verifyWith att key = .ok ()

/-- Every clause of the standard is met. -/
def Satisfied (S : Store) (records : List (String × Bytes)) (view : View) (id : ObjectId)
    (revision : Revision) (attests : List ObjectId) (s : Standard) : Prop :=
  (evaluateAll records view [s] id revision attests).value S = .ok []

/-- Clauses are met by signed attestations only, and none that is unmet without some
that are not signed is met with them. -/
structure OnlySigned (S : Store) (records : List (String × Bytes)) (view : View)
    (id : ObjectId) (revision : Revision) (attests : List ObjectId) : Prop where
  required : ∀ p, Satisfied S records view id revision attests (requiring p) → ∀ ctx,
    (contextOf records view id revision attests).value S = .ok ctx →
      ∀ l ∈ ctx.attests, Counts ctx p l → SignedIn S view l.att
  risky : ∀ level clauses,
    Satisfied S records view id revision attests (fromRisk level clauses) → ∀ ctx,
      (contextOf records view id revision attests).value S = .ok ctx →
        ∀ att, ctx.latestRisk = some att → SignedIn S view att
  unmet : ∀ p, p.kind ∈ attestedKinds → ∀ ctx,
    (contextOf records view id revision attests).value S = .ok ctx → ∀ keep : Loaded → Bool,
      (∀ l ∈ ctx.attests, SignedIn S view l.att → keep l) →
        holds { ctx with attests := ctx.attests.filter keep } p ≠ .yes → holds ctx p ≠ .yes

/-- The attestations that can count for something are signed. -/
structure CountableSigned (S : Store) (view : View) (ctx : Ctx) : Prop where
  subject : ∀ l ∈ ctx.attests, truthy l.att.result → ctx.onSubject l → SignedIn S view l.att
  unit : ∀ units ∈ askedUnits ctx, ∀ kind, AllCovered ctx kind true units →
    ∀ l ∈ ctx.attests, attestsTo kind true l → (∃ u ∈ units, u.body ∈ l.att.bodies.getD []) →
      SignedIn S view l.att
  observed : ∀ signal l, latest (ctx.attests.filter (observes ctx signal)) = some l →
    SignedIn S view l.att
  risk : ∀ att, ctx.latestRisk = some att → riskRank att ≠ none → SignedIn S view att

theorem satisfied_iff (hctx : (contextOf records view id revision attests).value S = .ok ctx)
    (s : Standard) :
    Satisfied S records view id revision attests s ↔ checkStandard ctx s = [] := by
  rw [Satisfied, evaluateAll_one hctx, Except.ok.injEq]

omit [Crypto] in
theorem checkStandard_eq_nil_iff : checkStandard ctx (requiring p) = [] ↔ holds ctx p = .yes := by
  cases h : holds ctx p with
  | yes => simp [checkStandard_requiring_yes h]
  | no reason => simp [checkStandard_requiring h]

omit [Crypto] in
theorem latestRank_of_fromRisk {level : String} {clauses : List Clause}
    (h : checkStandard ctx (fromRisk level clauses) = []) : latestRank ctx ≠ none := by
  intro hnone
  have hlabel : s!"when risk>={level}" ∈
      (checkRiskClauses ctx ⟨level, clauses⟩).map Unmet.clause :=
    (riskClauses_labels ⟨level, clauses⟩).mpr (.inl ⟨hnone, rfl⟩)
  have hcheck : checkStandard ctx (fromRisk level clauses) =
      checkRiskClauses ctx ⟨level, clauses⟩ := by
    simp [checkStandard, fromRisk]
  rw [hcheck] at h
  rw [h] at hlabel
  cases hlabel

omit [Crypto] in
theorem fromRisk_met (h : latestRank ctx ≠ none) : checkStandard ctx (fromRisk "" []) = [] := by
  have hcheck : checkStandard ctx (fromRisk "" []) = checkRiskClauses ctx ⟨"", []⟩ := by
    simp [checkStandard, fromRisk]
  rw [latestRank_eq] at h
  rw [hcheck, checkRiskClauses]
  cases hrisk : ctx.risk with
  | none => simp [hrisk] at h
  | some r => simp

theorem OnlySigned.countable (h : OnlySigned S records view id revision attests)
    (hctx : (contextOf records view id revision attests).value S = .ok ctx) :
    CountableSigned S view ctx where
  subject l hl htrue habout := by
    have hfor := attestedBy_for l.att.kind none
    have hattests : attestsTo l.att.kind true l := by simp [attestsTo, htrue, Ctx.trusted]
    have hself := attestedBy_self l.att.kind none
    have hcounts : Counts ctx (attestedBy l.att.kind none) l :=
      .subject rfl hfor (hself.symm ▸ hattests) habout
    have hleaf : (attestedBy l.att.kind none).kind ∉ compoundKinds := by
      simp [attestedBy, compoundKinds]
    have hholds : holds ctx (attestedBy l.att.kind none) = .yes := by
      rw [holds_leaf hleaf, holdsAt_attest rfl, holdsAttest_unscoped hfor, hself]
      exact .inl ⟨l, hl, hattests, habout⟩
    exact h.required _ ((satisfied_iff hctx _).mpr (checkStandard_eq_nil_iff.mpr hholds)) ctx hctx
      l hl hcounts
  unit units hunits kind hall l hl hattests hnames := by
    obtain ⟨scope, hasked⟩ := exists_unitsAsked kind hunits
    obtain ⟨u, hu, hbody⟩ := hnames
    have hholds := holds_attestedBy hasked hall
    have hself := attestedBy_self kind scope
    have hcounts : Counts ctx (attestedBy kind scope) l :=
      .unit rfl hasked (hself.symm ▸ hall) hu (hself.symm ▸ hattests) hbody
    exact h.required _ ((satisfied_iff hctx _).mpr (checkStandard_eq_nil_iff.mpr hholds)) ctx hctx
      l hl hcounts
  observed signal l hlast := by
    have hleaf : (observed signal).kind ∉ compoundKinds := by simp [Standard.observed, compoundKinds]
    have hholds : holds ctx (observed signal) = .yes := by
      rw [holds_leaf hleaf, holdsAt_observe rfl, holdsObserve_eq_yes]
      exact ⟨l, hlast, by simp [Within, argInt, arg, Standard.observed]⟩
    exact h.required _ ((satisfied_iff hctx _).mpr (checkStandard_eq_nil_iff.mpr hholds)) ctx hctx
      l (List.mem_of_mem_filter (latest_max hlast).1) (.observed rfl hlast)
  risk att hatt hrank := by
    have hlatest : latestRank ctx ≠ none := by rwa [latestRank, hatt]
    exact h.risky "" [] ((satisfied_iff hctx _).mpr (fromRisk_met hlatest)) ctx hctx att hatt

theorem CountableSigned.counts (h : CountableSigned S view ctx) {l : Loaded}
    (hl : l ∈ ctx.attests) (hcounts : Counts ctx p l) : SignedIn S view l.att := by
  cases hcounts with
  | subject _ _ hattests habout =>
      simp only [attestsTo, Bool.and_eq_true] at hattests
      exact h.subject l hl hattests.1.2 habout
  | unit _ hasked hall hu hattests hbody =>
      exact h.unit _ (mem_askedUnits hasked) _ hall.self l hl (attestsTo_self hattests)
        ⟨_, hu, hbody⟩
  | approval _ hyes =>
      simp only [approves, Bool.and_eq_true] at hyes
      exact h.subject l hl hyes.1.1.1.2 hyes.2
  | vote _ hcast hyes =>
      have hjudge := (List.mem_filter.mp (List.mem_of_mem_filter hcast)).2
      rw [Bool.and_eq_true] at hjudge
      exact h.subject l hl hyes hjudge.2
  | observed _ hlast => exact h.observed _ l hlast

/-- Clauses are met by signed attestations only, exactly if those are signed that can
count. -/
theorem onlySigned_iff : OnlySigned S records view id revision attests ↔
    ∀ ctx, (contextOf records view id revision attests).value S = .ok ctx →
      CountableSigned S view ctx := by
  constructor
  · intro h ctx hctx
    exact h.countable hctx
  · intro h
    constructor
    · intro p _ ctx hctx l hl hcounts
      exact (h ctx hctx).counts hl hcounts
    · intro level clauses hmet ctx hctx att hatt
      have hrank := latestRank_of_fromRisk ((satisfied_iff hctx _).mp hmet)
      rw [latestRank, hatt] at hrank
      exact (h ctx hctx).risk att hatt hrank
    · intro p hp ctx hctx keep hkeep hunmet hmet
      exact hunmet (counted_suffice hp hmet fun l hl hcounts =>
        hkeep l hl ((h ctx hctx).counts hl hcounts))

end Signatures

section Samples

/-! A human's approval that nobody signed. -/

def approving : Standard := requiring humanApproved

def unsignedApproval : Attestation := { ownerSays "approval.human" (.bool true) with sig := none }

def approvalTable : List Object := gateTable approving [.attestation unsignedApproval]

local instance approvalHash : Crypto := .ofTable approvalTable

def loadedApproval : Loaded := ⟨unsignedApproval, some "human", none, none, some "owner"⟩

def approvalContext : Ctx where
  revision := gatedDraft
  attests := [loadedApproval]
  subjects := subjectsOf (.splat 5) gatedDraft
  index := none
  parentIndex := some emptyIndex
  authorParent := none

/-- The standard is satisfied by the unsigned approval, and unmet without it. -/
theorem unsigned_counts :
    (evaluate [] gateView (.splat 64) (.splat 5) gatedDraft [.splat 6]).value approvalTable =
      .ok [] ∧
    (evaluate [] gateView (.splat 64) (.splat 5) gatedDraft []).value approvalTable ≠ .ok [] ∧
    (get Attestation (.splat 6)).value approvalTable = .ok unsignedApproval ∧
    ¬ SignedIn approvalTable gateView unsignedApproval ∧
    ¬ OnlySigned approvalTable [] gateView (.splat 5) gatedDraft [.splat 6] := by
  have hunsigned : ¬ SignedIn approvalTable gateView unsignedApproval := by
    rintro ⟨_, key, _, _, hsigned⟩
    have hnone : verifyWith unsignedApproval key ≠ .ok () := by
      rw [verifyWith, show SignedObject.sig unsignedApproval = none from rfl]
      simp
    exact hnone hsigned
  refine ⟨by decide +kernel, by decide +kernel, by decide +kernel, hunsigned, fun honly => ?_⟩
  have hctx : (contextOf [] gateView (.splat 5) gatedDraft [.splat 6]).value approvalTable =
      .ok approvalContext := by rfl
  exact hunsigned ((honly.countable hctx).subject loadedApproval List.mem_cons_self (by decide)
    (by decide))

end Samples

end Tessra.Oplog.Standard
