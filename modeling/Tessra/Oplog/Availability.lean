import Tessra.Data.Kleene
import Tessra.Oplog.Evaluation

namespace Tessra.Oplog.Standard

open Tessra.Core Tessra.Data

/-! What a clause is reported as when what its predicate needs is not available. -/

/-- Structural checks that need no index. -/
def indexFree : List String := ["flags.none", "intent.linked"]

/-- Structural checks of the units of tests. -/
def testChecks : List String := ["test.modified", "test.deleted", "test.weakened", "test.skipped"]

/-- What a predicate without parts needs is not there: the units of an index that is
missing, a name or a kind that nobody knows, or a kind that is not built. -/
def unavailable (ctx : Ctx) (p : Predicate) : Bool :=
  if p.kind = "structural" then
    match p.name with
    | none => true
    | some name =>
        if name ∈ indexFree then false
        else if name ∈ testChecks then (structuralUnits ctx name).isNone
        else if name = "changed.covered" then ctx.changedUnits.isNone
        else true
  else if p.kind = "attest" then
    match argText p "for" with
    | none =>
        !ctx.subjectAttested (p.name.getD "") (argTrue p "self") && ctx.changedUnits.isNone
    | some scope => (scopeUnits ctx scope).isNone
  else if p.kind = "approved" then p.name.getD "human" ≠ "human"
  else p.kind ∉ ["judge", "observe"]

/-- What can be said of a predicate with what is available. -/
def verdictAt (ctx : Ctx) : ℕ → Predicate → Kleene
  | 0, _ => .unknown
  | fuel + 1, p =>
      if p.kind = "all" then .all ((subPreds p).map (verdictAt ctx fuel))
      else if p.kind = "any" then .any ((subPreds p).map (verdictAt ctx fuel))
      else if p.kind = "not" then
        match subPreds p with
        | q :: _ => (verdictAt ctx fuel q).not
        | [] => .no
      else if unavailable ctx p then .unknown
      else if holdsAt ctx 1 p = .yes then .yes
      else .no

def verdict (ctx : Ctx) (p : Predicate) : Kleene := verdictAt ctx (predDepth p) p

/-- A negation turns an unavailable part of the predicate into what makes it hold. -/
def turnsAt (ctx : Ctx) : ℕ → Predicate → Bool
  | 0, _ => false
  | fuel + 1, p =>
      if p.kind = "all" then
        (subPreds p).all (fun q => verdictAt ctx fuel q = .yes || turnsAt ctx fuel q) &&
          (subPreds p).any (turnsAt ctx fuel)
      else if p.kind = "any" then
        (subPreds p).all (fun q => verdictAt ctx fuel q ≠ .yes) &&
          (subPreds p).any (turnsAt ctx fuel)
      else if p.kind = "not" then
        match subPreds p with
        | q :: _ => verdictAt ctx fuel q = .unknown && !turnsAt ctx fuel q
        | [] => false
      else false

def turns (ctx : Ctx) (p : Predicate) : Bool := turnsAt ctx (predDepth p) p

section Predicates

variable {ctx : Ctx} {p : Predicate} {fuel : ℕ}

theorem holdsStructural_testChecks {name : String} (hname : name ∈ testChecks)
    (h : structuralUnits ctx name = none) : holdsStructural ctx (some name) = .no noIndex := by
  have hfree : name ∉ indexFree := by
    simp only [testChecks, List.mem_cons, List.not_mem_nil, or_false] at hname
    rcases hname with rfl | rfl | rfl | rfl <;> decide
  simp only [indexFree, List.mem_cons, List.not_mem_nil, or_false, not_or] at hfree
  unfold testChecks at hname
  simp only [holdsStructural, if_neg hfree.1, if_neg hfree.2, if_pos hname, h]

/-- What is not available does not hold. -/
theorem unavailable_no (hp : p.kind ∉ compoundKinds) (h : unavailable ctx p) :
    holdsAt ctx 1 p ≠ .yes := by
  intro hyes
  unfold unavailable at h
  split_ifs at h with hstructural hattest happroved
  · rw [holdsAt_structural hstructural] at hyes
    cases hname : p.name with
    | none =>
        rw [hname] at hyes
        cases hyes
    | some name =>
        rw [hname] at hyes
        simp only [hname] at h
        split_ifs at h with hfree htest hcovered
        · rw [Option.isNone_iff_eq_none] at h
          rw [holdsStructural_testChecks htest h] at hyes
          cases hyes
        · rw [Option.isNone_iff_eq_none] at h
          subst hcovered
          cases hindex : ctx.index <;> simp [holdsStructural, hindex, h] at hyes
        · simp only [indexFree, List.mem_cons, List.not_mem_nil, or_false, not_or] at hfree
          unfold testChecks at htest
          simp [holdsStructural, hfree.1, hfree.2, htest, hcovered] at hyes
  · rw [holdsAt_attest hattest] at hyes
    cases hscope : argText p "for" with
    | none =>
        simp only [hscope, Bool.and_eq_true, Bool.not_eq_true', Option.isNone_iff_eq_none] at h
        rw [holdsAttest_unscoped hscope, ← subjectAttested_iff] at hyes
        simp [h.1, snapshotUnits, h.2] at hyes
    | some scope =>
        simp only [hscope, Option.isNone_iff_eq_none] at h
        rw [holdsAttest_scoped hscope] at hyes
        simp [h] at hyes
  · rw [holdsAt_approved happroved, holdsApproved_eq_yes] at hyes
    exact of_decide_eq_true h hyes.1
  · simp only [compoundKinds, List.mem_cons, List.not_mem_nil, or_false, not_or] at hp
    simp only [List.mem_cons, List.not_mem_nil, or_false, decide_eq_true_eq, not_or] at h
    simp only [holdsAt, hstructural, hattest, happroved, hp, h, if_false] at hyes
    split_ifs at hyes

theorem verdictAt_leaf (ctx : Ctx) (fuel : ℕ) (hp : p.kind ∉ compoundKinds) :
    verdictAt ctx (fuel + 1) p =
      if unavailable ctx p then .unknown else if holdsAt ctx 1 p = .yes then .yes else .no := by
  simp only [compoundKinds, List.mem_cons, List.not_mem_nil, or_false, not_or] at hp
  simp [verdictAt, hp.1, hp.2.1, hp.2.2]

/-- The answer for a predicate is what can be said of it, where something can. -/
theorem answers (ctx : Ctx) (fuel : ℕ) (p : Predicate) :
    Kleene.Answers (verdictAt ctx fuel p) (holdsAt ctx fuel p = .yes) := by
  induction fuel generalizing p with
  | zero => exact Kleene.answers_unknown _
  | succ fuel ih =>
      by_cases hcompound : p.kind ∈ compoundKinds
      · simp only [compoundKinds, List.mem_cons, List.not_mem_nil, or_false] at hcompound
        rcases hcompound with hkind | hkind | hkind
        · have hall := Kleene.Answers.all (l := subPreds p) fun q _ => ih q
          simpa [verdictAt, hkind, holdsAt_all hkind] using hall
        · have hany := Kleene.Answers.any (l := subPreds p) fun q _ => ih q
          simpa [verdictAt, hkind, holdsAt_any hkind] using hany
        · rw [holdsAt_not hkind]
          cases hsubs : subPreds p with
          | nil => simpa [verdictAt, hkind, hsubs] using Kleene.answers_no (b := _) (by simp)
          | cons q rest => simpa [verdictAt, hkind, hsubs] using (ih q).not
      · rw [holdsAt_leaf ctx fuel hcompound, verdictAt_leaf ctx fuel hcompound]
        split_ifs with hunavailable hyes
        · exact Kleene.answers_unknown _
        · exact Kleene.answers_yes hyes
        · exact Kleene.answers_no hyes

/-- An unknown predicate is taken to hold exactly if a negation turns it. -/
theorem turnsAt_iff (ctx : Ctx) (fuel : ℕ) (p : Predicate) :
    turnsAt ctx fuel p ↔ Kleene.Turned (verdictAt ctx fuel p) (holdsAt ctx fuel p = .yes) := by
  induction fuel generalizing p with
  | zero => simp [turnsAt, Kleene.Turned, holdsAt]
  | succ fuel ih =>
      by_cases hcompound : p.kind ∈ compoundKinds
      · simp only [compoundKinds, List.mem_cons, List.not_mem_nil, or_false] at hcompound
        rcases hcompound with hkind | hkind | hkind
        · have hall := Kleene.turned_all (l := subPreds p) fun q _ => answers ctx fuel q
          simp only [← ih] at hall
          simpa [turnsAt, verdictAt, hkind, holdsAt_all hkind] using hall.symm
        · have hany := Kleene.turned_any (l := subPreds p) fun q _ => answers ctx fuel q
          simp only [← ih] at hany
          simpa [turnsAt, verdictAt, hkind, holdsAt_any hkind] using hany.symm
        · have hnot := fun q => @Kleene.turned_not (verdictAt ctx fuel q) (holdsAt ctx fuel q = .yes)
          simp only [← ih] at hnot
          rw [holdsAt_not hkind]
          cases hsubs : subPreds p with
          | nil => simp [turnsAt, verdictAt, hkind, hsubs, Kleene.Turned]
          | cons q rest => simpa [turnsAt, verdictAt, hkind, hsubs] using (hnot q).symm
      · have hno : unavailable ctx p → holdsAt ctx 1 p ≠ .yes := unavailable_no hcompound
        rw [holdsAt_leaf ctx fuel hcompound, verdictAt_leaf ctx fuel hcompound]
        simp only [compoundKinds, List.mem_cons, List.not_mem_nil, or_false, not_or] at hcompound
        simp only [turnsAt, hcompound, if_false, Bool.false_eq_true, false_iff, Kleene.Turned]
        split_ifs with hunavailable
        · exact fun h => hno hunavailable h.2
        · simp
        · simp

/-- No part of the predicate is negated. -/
def negationFree : ℕ → Predicate → Bool
  | 0, _ => true
  | fuel + 1, p => p.kind ≠ "not" && (subPreds p).all (negationFree fuel)

theorem turnsAt_negationFree (h : negationFree fuel p) : ¬ turnsAt ctx fuel p := by
  induction fuel generalizing p with
  | zero => simp [turnsAt]
  | succ fuel ih =>
      simp only [negationFree, Bool.and_eq_true, decide_eq_true_eq, List.all_eq_true] at h
      have hparts : (subPreds p).any (turnsAt ctx fuel) = false := by
        rw [List.any_eq_false]
        exact fun q hq => ih (h.2 q hq)
      simp [turnsAt, h.1, hparts]

end Predicates

section Clauses

variable {ctx : Ctx} {c : Clause}

/-- What can be said of a clause with what is available. -/
def clauseVerdict (ctx : Ctx) (c : Clause) : Kleene :=
  .any ((c.unless.map (verdict ctx)).toList ++ [
    if c.op = "require" then verdict ctx c.pred
    else if c.op = "forbid" then (verdict ctx c.pred).not
    else .no])

/-- A negation, or a forbid, turns an unavailable part of the clause into what meets it. -/
def turnsClause (ctx : Ctx) (c : Clause) : Bool :=
  clauseVerdict ctx c = .unknown && (c.unless.any (turns ctx) ||
    (c.op = "require" && turns ctx c.pred) ||
    (c.op = "forbid" && verdict ctx c.pred = .unknown && !turns ctx c.pred))

theorem turns_iff (p : Predicate) :
    turns ctx p ↔ Kleene.Turned (verdict ctx p) (holds ctx p = .yes) :=
  turnsAt_iff ctx (predDepth p) p

/-- What a clause requires without negation is never turned. -/
theorem turnsClause_negationFree (hop : c.op = "require")
    (hpred : negationFree (predDepth c.pred) c.pred)
    (hunless : ∀ u ∈ c.unless, negationFree (predDepth u) u) : ¬ turnsClause ctx c := by
  have hforbid : c.op ≠ "forbid" := by simp [hop]
  have hfree : ∀ p, negationFree (predDepth p) p → turns ctx p = false := fun p hp =>
    eq_false_of_ne_true (turnsAt_negationFree hp)
  have hunless' : c.unless.any (turns ctx) = false := by
    rw [Option.any_eq_false]
    exact fun u hu => hfree u (hunless u hu)
  simp [turnsClause, hforbid, hfree c.pred hpred, hunless']

theorem clauseVerdict_unknown (h : clauseVerdict ctx c = .unknown) :
    (∀ u ∈ c.unless, verdict ctx u ≠ .yes) ∧ (c.op = "require" → verdict ctx c.pred ≠ .yes) ∧
      (c.op = "forbid" → (verdict ctx c.pred).not ≠ .yes) := by
  have hnone : .yes ∉ (c.unless.map (verdict ctx)).toList ++ [
      if c.op = "require" then verdict ctx c.pred
      else if c.op = "forbid" then (verdict ctx c.pred).not
      else .no] := by
    intro hyes
    rw [clauseVerdict, Kleene.any, if_pos hyes] at h
    cases h
  simp only [List.mem_append, Option.mem_toList, Option.map_eq_some_iff, List.mem_singleton,
    not_or, not_exists, not_and] at hnone
  refine ⟨fun u hu => hnone.1 u hu, fun hrequire hyes => ?_, fun hforbid hyes => ?_⟩
  · exact hnone.2 (by rw [if_pos hrequire, hyes])
  · have hop : c.op ≠ "require" := by simp [hforbid]
    exact hnone.2 (by rw [if_neg hop, if_pos hforbid, hyes])

/-- A clause of which nothing can be said is met exactly if it is turned. -/
theorem turnsClause_iff :
    turnsClause ctx c ↔ clauseVerdict ctx c = .unknown ∧ checkClause ctx c = none := by
  unfold turnsClause
  simp only [Bool.and_eq_true, Bool.or_eq_true, decide_eq_true_eq, Bool.not_eq_true',
    checkClause_eq_none]
  refine and_congr_right fun hunknown => ?_
  obtain ⟨hunless, hrequire, hforbid⟩ := clauseVerdict_unknown hunknown
  have hanswers := fun q => answers ctx (predDepth q) q
  have hholds : ∀ q, verdict ctx q ≠ .yes → (turns ctx q ↔ holds ctx q = .yes) := by
    intro q hne
    rw [turns_iff]
    exact ((hanswers q).iff.trans (or_iff_right hne)).symm
  have hnot : (verdict ctx c.pred).not ≠ .yes → (verdict ctx c.pred = .unknown ∧
      turns ctx c.pred = false ↔ holds ctx c.pred ≠ .yes) := by
    intro hne
    rw [← Bool.not_eq_true, turns_iff, ← Kleene.turned_not]
    exact ((hanswers c.pred).not.iff.trans (or_iff_right hne)).symm
  rw [or_assoc, and_assoc]
  refine or_congr ?_ (or_congr ?_ ?_)
  · rw [Option.any_eq_true]
    exact exists_congr fun u => and_congr_right fun hu => hholds u (hunless u hu)
  · exact and_congr_right fun hop => hholds c.pred (hrequire hop)
  · exact and_congr_right fun hop => hnot (hforbid hop)

end Clauses

section Evaluate

variable [Crypto] {S : Store} {records : List (String × Bytes)} {view : View} {id : ObjectId}
  {revision : Revision} {attests : List ObjectId} {standard : EntityId}

/-- The clause applies to the context from a risk level on. -/
def Applies (ctx : Ctx) (w : RiskClauses) : Prop :=
  ∃ rank ∈ latestRank ctx, levelRank w.riskAtLeast ≤ rank

/-- An evaluation reports every clause of which nothing can be said. -/
def ReportsUnknown (S : Store) (records : List (String × Bytes)) (view : View)
    (standard : EntityId) (id : ObjectId) (revision : Revision) (attests : List ObjectId) : Prop :=
  ∀ standards ctx, (chain view standard).value S = .ok standards →
    (contextOf records view id revision attests).value S = .ok ctx →
    ∃ unmet, (evaluate records view standard id revision attests).value S = .ok unmet ∧
      ∀ s ∈ standards,
        (∀ c ∈ s.clauses, clauseVerdict ctx c = .unknown →
          ∃ u ∈ unmet, checkClause ctx c = some u) ∧
        ∀ w ∈ s.when.getD [], Applies ctx w → ∀ c ∈ w.clauses, clauseVerdict ctx c = .unknown →
          checkClause ctx c ≠ none ∧ ∃ u ∈ unmet, u.clause = riskLabel w.riskAtLeast c

/-- No clause that applies is turned by a negation. -/
def Unturned (S : Store) (records : List (String × Bytes)) (view : View)
    (standard : EntityId) (id : ObjectId) (revision : Revision) (attests : List ObjectId) : Prop :=
  ∀ standards ctx, (chain view standard).value S = .ok standards →
    (contextOf records view id revision attests).value S = .ok ctx → ∀ s ∈ standards,
      (∀ c ∈ s.clauses, ¬ turnsClause ctx c) ∧
      ∀ w ∈ s.when.getD [], Applies ctx w → ∀ c ∈ w.clauses, ¬ turnsClause ctx c

end Evaluate

section Samples

/-! A standard that forbids weakened tests, of a draft without an index. -/

def strict : Standard where
  id := .splat 64
  prev := none
  name := "strict"
  «extends» := none
  clauses := [{
    op := "forbid"
    pred := { kind := "structural", name := some "test.weakened", args := none }
    «unless» := none }]
  scopes := none
  when := none
  auditPermille := none

def strictTable : List Object := gateTable strict []

local instance strictHash : Crypto := .ofTable strictTable

def unindexedContext : Ctx where
  revision := gatedDraft
  attests := []
  subjects := subjectsOf (.splat 5) gatedDraft
  index := none
  parentIndex := some emptyIndex
  authorParent := none

end Samples

end Tessra.Oplog.Standard
