import Tessra.Data.Firsts
import Tessra.Oplog.Standard

namespace Tessra.Oplog.Standard

open Tessra.Core Tessra.Data

/-! When the predicates and clauses of a standard hold. -/

/-- The kinds of predicates that others make up. -/
def compoundKinds : List String := ["all", "any", "not"]

section Compounds

variable {ctx ctx' : Ctx} {p : Predicate} {results : List Holds} {fuel : ℕ}

@[simp] theorem ofBool_eq_yes {b : Bool} {reason : String} :
    Holds.ofBool b reason = .yes ↔ b = true := by
  cases b <;> simp [Holds.ofBool]

@[simp] theorem holdsAll_eq_yes : holdsAll results = .yes ↔ ∀ h ∈ results, h = .yes := by
  unfold holdsAll
  cases hfind : results.find? (· ≠ .yes) with
  | none =>
      simp only [Option.getD_none, true_iff]
      intro h hh
      simpa using List.find?_eq_none.mp hfind h hh
  | some h =>
      have hno : h ≠ .yes := by simpa using List.find?_some hfind
      simp only [Option.getD_some]
      exact ⟨fun hyes => absurd hyes hno, fun hall => hall h (List.mem_of_find?_eq_some hfind)⟩

@[simp] theorem holdsAny_eq_yes : holdsAny results = .yes ↔ .yes ∈ results := by
  simp [holdsAny]

@[simp] theorem holdsNot_eq_yes : holdsNot results = .yes ↔ ∃ h ∈ results.head?, h ≠ .yes := by
  cases results with
  | nil => simp [holdsNot]
  | cons h rest => cases h <;> simp [holdsNot]

theorem holdsAt_structural (h : p.kind = "structural") :
    holdsAt ctx (fuel + 1) p = holdsStructural ctx p.name := by
  simp [holdsAt, h]

theorem holdsAt_attest (h : p.kind = "attest") : holdsAt ctx (fuel + 1) p = holdsAttest ctx p := by
  simp [holdsAt, h]

theorem holdsAt_approved (h : p.kind = "approved") :
    holdsAt ctx (fuel + 1) p = holdsApproved ctx p := by
  simp [holdsAt, h]

theorem holdsAt_judge (h : p.kind = "judge") : holdsAt ctx (fuel + 1) p = holdsJudge ctx p := by
  simp [holdsAt, h]

theorem holdsAt_observe (h : p.kind = "observe") :
    holdsAt ctx (fuel + 1) p = holdsObserve ctx p := by
  simp [holdsAt, h]

theorem holdsAt_all (h : p.kind = "all") :
    holdsAt ctx (fuel + 1) p = holdsAll ((subPreds p).map (holdsAt ctx fuel)) := by
  simp [holdsAt, h]

theorem holdsAt_any (h : p.kind = "any") :
    holdsAt ctx (fuel + 1) p = holdsAny ((subPreds p).map (holdsAt ctx fuel)) := by
  simp [holdsAt, h]

theorem holdsAt_not (h : p.kind = "not") :
    holdsAt ctx (fuel + 1) p = holdsNot ((subPreds p).map (holdsAt ctx fuel)) := by
  simp [holdsAt, h]

theorem holdsAt_leaf (ctx : Ctx) (fuel : ℕ) (h : p.kind ∉ compoundKinds) :
    holdsAt ctx (fuel + 1) p = holdsAt ctx 1 p := by
  simp only [compoundKinds, List.mem_cons, List.not_mem_nil, or_false, not_or] at h
  simp [holdsAt, h.1, h.2.1, h.2.2]

theorem predDepth_pos (p : Predicate) : 0 < predDepth p := by
  unfold predDepth
  split
  · exact Nat.one_pos
  · exact Nat.succ_pos _

theorem holds_succ (ctx : Ctx) (p : Predicate) : ∃ fuel, holds ctx p = holdsAt ctx (fuel + 1) p :=
  ⟨predDepth p - 1, by rw [holds, Nat.sub_add_cancel (predDepth_pos p)]⟩

theorem holds_leaf (h : p.kind ∉ compoundKinds) : holds ctx p = holdsAt ctx 1 p := by
  obtain ⟨fuel, hfuel⟩ := holds_succ ctx p
  rw [hfuel, holdsAt_leaf ctx fuel h]

/-- Contexts that agree on which predicates without parts hold agree on all. -/
theorem holdsAt_congr (hleaf : ∀ p, p.kind ∉ compoundKinds →
      (holdsAt ctx 1 p = .yes ↔ holdsAt ctx' 1 p = .yes)) (fuel : ℕ) (p : Predicate) :
    holdsAt ctx fuel p = .yes ↔ holdsAt ctx' fuel p = .yes := by
  induction fuel generalizing p with
  | zero => simp [holdsAt]
  | succ fuel ih =>
      by_cases hcompound : p.kind ∈ compoundKinds
      · simp only [compoundKinds, List.mem_cons, List.not_mem_nil, or_false] at hcompound
        rcases hcompound with hkind | hkind | hkind
        · simp only [holdsAt_all hkind, holdsAll_eq_yes, List.forall_mem_map, ih]
        · simp only [holdsAt_any hkind, holdsAny_eq_yes, List.mem_map, ih]
        · simp only [holdsAt_not hkind, holdsNot_eq_yes]
          cases subPreds p with
          | nil => rfl
          | cons q rest => simp [ih q]
      · rw [holdsAt_leaf ctx fuel hcompound, holdsAt_leaf ctx' fuel hcompound]
        exact hleaf p hcompound

end Compounds

section Attest

variable {ctx : Ctx} {p : Predicate} {kind scope : String} {allowSelf : Bool} {units : List Node}

/-- A true attestation of the kind, by a signer whom the predicate trusts. -/
def attestsTo (kind : String) (allowSelf : Bool) (l : Loaded) : Bool :=
  l.att.kind = kind && truthy l.att.result && Ctx.trusted l allowSelf

def Covered (ctx : Ctx) (kind : String) (allowSelf : Bool) (u : Node) : Prop :=
  ∃ l ∈ ctx.attests, attestsTo kind allowSelf l ∧ u.body ∈ l.att.bodies.getD []

/-- The units that an attestation of a snapshot's units has to cover. -/
def snapshotUnits (ctx : Ctx) : Option (List Node) :=
  ctx.changedUnits.map fun changed =>
    changed.filter fun n => n.kind ∉ uncoverableKinds || isTestKind n.kind

/-- The units that the scope of an attest predicate names. -/
def scopeUnits (ctx : Ctx) (scope : String) : Option (List Node) :=
  if scope = "new_tests" then ctx.newTests
  else if scope = "changed_nodes" then
    ctx.changedUnits.map fun changed => changed.filter fun n => n.kind ∉ uncoverableKinds
  else none

theorem uncovered_isEmpty :
    (ctx.uncoveredByBodies kind units allowSelf).isEmpty = true ↔
      ∀ u ∈ units, Covered ctx kind allowSelf u := by
  simp only [Ctx.uncoveredByBodies, List.isEmpty_iff, List.filter_eq_nil_iff, Covered]
  refine forall₂_congr fun u _ => ?_
  simp only [decide_eq_true_eq, not_not, List.mem_flatMap, attestsTo]
  refine exists_congr fun l => and_congr_right fun _ => ?_
  split_ifs with h
  · simp only [h, true_and]
  · simp [h]

theorem subjectAttested_iff :
    ctx.subjectAttested kind allowSelf = true ↔
      ∃ l ∈ ctx.attests, attestsTo kind allowSelf l ∧ ctx.onSubject l := by
  simp only [Ctx.subjectAttested, List.any_eq_true, attestsTo, Bool.and_eq_true]

theorem attestedByBodies_iff :
    attestedByBodies ctx kind allowSelf = true ↔
      ∃ units ∈ snapshotUnits ctx, units ≠ [] ∧ ∀ u ∈ units, Covered ctx kind allowSelf u := by
  unfold attestedByBodies snapshotUnits
  cases ctx.changedUnits with
  | none => simp
  | some changed =>
      simp only [Option.map_some, Option.mem_def, Option.some.injEq, exists_eq_left',
        Bool.and_eq_true, Bool.not_eq_true', List.isEmpty_eq_false_iff, uncovered_isEmpty]

theorem holdsAttest_unscoped (h : argText p "for" = none) :
    holdsAttest ctx p = .yes ↔
      (∃ l ∈ ctx.attests, attestsTo (p.name.getD "") (argTrue p "self") l ∧ ctx.onSubject l) ∨
      ∃ units ∈ snapshotUnits ctx, units ≠ [] ∧
        ∀ u ∈ units, Covered ctx (p.name.getD "") (argTrue p "self") u := by
  rw [← subjectAttested_iff, ← attestedByBodies_iff, ← Bool.or_eq_true]
  simp only [holdsAttest, h]
  split_ifs with hyes
  · simp [hyes]
  · cases ctx.negativeOnRevision (p.name.getD "") <;> simp [hyes]

theorem holdsAttest_scoped (h : argText p "for" = some scope) :
    holdsAttest ctx p = .yes ↔
      ∃ units ∈ scopeUnits ctx scope,
        ∀ u ∈ units, Covered ctx (p.name.getD "") (argTrue p "self") u := by
  simp only [holdsAttest, h, scopeUnits]
  by_cases hnew : scope = "new_tests"
  · simp only [hnew, if_true]
    cases ctx.newTests with
    | none => simp
    | some tests =>
        simp only [Option.mem_def, Option.some.injEq, exists_eq_left', ← uncovered_isEmpty]
        split_ifs with hempty
        · simp [hempty]
        · split <;> simp [hempty]
  · by_cases hchanged : scope = "changed_nodes"
    · simp only [if_neg hnew, if_pos hchanged]
      cases ctx.changedUnits with
      | none => simp
      | some changed =>
          simp only [Option.map_some, Option.mem_def, Option.some.injEq, exists_eq_left',
            ofBool_eq_yes, uncovered_isEmpty]
    · simp [hnew, hchanged]

end Attest

section Approved

variable {ctx : Ctx} {p : Predicate}

/-- A human's yes to what the context is about. -/
def approves (ctx : Ctx) (p : Predicate) (l : Loaded) : Bool :=
  l.att.kind = "approval.human" && truthy l.att.result && l.signerKind = some "human" &&
    (!argTrue p "keysigned" || l.att.runner.isNone) && ctx.onSubject l

def humanApproved : Predicate := { kind := "approved", name := none, args := none }

theorem holdsApproved_eq_yes :
    holdsApproved ctx p = .yes ↔
      p.name.getD "human" = "human" ∧ ∃ l ∈ ctx.attests, approves ctx p l := by
  have hany : (ctx.attests.any fun l => l.att.kind = "approval.human" && truthy l.att.result &&
      l.signerKind = some "human" && (!argTrue p "keysigned" || l.att.runner.isNone) &&
      ctx.onSubject l) = ctx.attests.any (approves ctx p) := rfl
  simp only [holdsApproved, hany, ← List.any_eq_true]
  by_cases hby : p.name.getD "human" = "human"
  · cases hyes : ctx.attests.any (approves ctx p) with
    | true => simp [hby]
    | false =>
        simp only [hby, ne_eq, not_true_eq_false, if_false, Bool.false_eq_true, and_false,
          iff_false]
        split_ifs <;> simp
  · simp [hby]

end Approved

section Observe

variable {ctx : Ctx} {p : Predicate} {l : List Loaded} {x y : Loaded}

/-- A trusted observation of the signal on what the context is about. -/
def observes (ctx : Ctx) (signal : String) (l : Loaded) : Bool :=
  l.att.kind = s!"observe.{signal}" && ctx.onSubject l && Ctx.trusted l false

def observedValue (l : Loaded) : ℤ :=
  match l.att.result with
  | .integer i => asI64 i
  | _ => 0

def Within (p : Predicate) (value : ℤ) : Prop :=
  (∀ m ∈ argInt p "max", value ≤ m) ∧ ∀ m ∈ argInt p "min", m ≤ value

theorem latest_concat (l : List Loaded) (x : Loaded) :
    latest (l ++ [x]) =
      if (latest l).all (fun b => b.att.time ≤ x.att.time) then some x else latest l := by
  rw [latest, List.foldl_append]
  rfl

theorem latest_eq_none : latest l = none ↔ l = [] := by
  induction l using List.reverseRecOn with
  | nil => simp [latest]
  | append_singleton l x ih =>
      rw [latest_concat]
      cases h : latest l with
      | none => simp
      | some b => split_ifs <;> simp

theorem latest_max (h : latest l = some x) : x ∈ l ∧ ∀ y ∈ l, y.att.time ≤ x.att.time := by
  induction l using List.reverseRecOn generalizing x with
  | nil => cases h
  | append_singleton l z ih =>
      rw [latest_concat] at h
      cases hl : latest l with
      | none =>
          rw [hl] at h
          cases h
          rw [latest_eq_none.mp hl]
          simp
      | some b =>
          obtain ⟨hb, hmax⟩ := ih hl
          simp only [hl, Option.all_some, decide_eq_true_eq] at h
          split_ifs at h with hle
          · cases h
            refine ⟨by simp, fun y hy => ?_⟩
            rcases List.mem_append.mp hy with hy | hy
            · exact (hmax y hy).trans hle
            · rw [List.mem_singleton.mp hy]
          · cases h
            refine ⟨List.mem_append_left _ hb, fun y hy => ?_⟩
            rcases List.mem_append.mp hy with hy | hy
            · exact hmax y hy
            · rw [List.mem_singleton.mp hy]
              exact (not_le.mp hle).le

theorem within_iff (p : Predicate) (value : ℤ) (above below : ℤ → String) :
    (match (argInt p "max").filter (· < value), (argInt p "min").filter (value < ·) with
      | some m, _ => Holds.no (above m)
      | none, some m => .no (below m)
      | none, none => .yes) = .yes ↔ Within p value := by
  cases hmax : (argInt p "max").filter (· < value) with
  | some m =>
      obtain ⟨hm, hlt⟩ := Option.filter_eq_some_iff.mp hmax
      refine iff_of_false (by simp) fun h => ?_
      have hle := h.1 m hm
      simp only [decide_eq_true_eq] at hlt
      omega
  | none =>
      have hle : ∀ m ∈ argInt p "max", value ≤ m := by
        simpa using Option.filter_eq_none_iff.mp hmax
      cases hmin : (argInt p "min").filter (value < ·) with
      | some m =>
          obtain ⟨hm, hlt⟩ := Option.filter_eq_some_iff.mp hmin
          refine iff_of_false (by simp) fun h => ?_
          have hge := h.2 m hm
          simp only [decide_eq_true_eq] at hlt
          omega
      | none => exact iff_of_true rfl ⟨hle, by simpa using Option.filter_eq_none_iff.mp hmin⟩

theorem holdsObserve_eq_yes :
    holdsObserve ctx p = .yes ↔
      ∃ l, latest (ctx.attests.filter (observes ctx (p.name.getD ""))) = some l ∧
        Within p (observedValue l) := by
  have hobserved : ∀ signal, (ctx.attests.filter fun l => l.att.kind = s!"observe.{signal}" &&
      ctx.onSubject l && Ctx.trusted l false) = ctx.attests.filter (observes ctx signal) :=
    fun _ => rfl
  simp only [holdsObserve, hobserved]
  cases latest (ctx.attests.filter (observes ctx (p.name.getD ""))) with
  | none => simp
  | some l =>
      simp only [Option.some.injEq, exists_eq_left']
      exact within_iff p (observedValue l) _ _

end Observe

section Judge

variable {ctx : Ctx} {p : Predicate} {minConf : ℤ} {l : Loaded} {judges : List Loaded}

/-- A verdict of one of the author's own agent's judges. -/
def isOwn (ctx : Ctx) (l : Loaded) : Bool :=
  l.signerParent.isSome && l.signerParent = ctx.authorParent

def judgeKey (l : Loaded) : EntityId := l.signerParent.getD l.att.verifier

/-- A verdict that counts: another agent's, and confident enough. -/
def isVote (ctx : Ctx) (minConf : ℤ) (l : Loaded) : Bool :=
  !isOwn ctx l && minConf ≤ (judgeResult l.att.result).1

def judgesOn (ctx : Ctx) (rubric : String) : List Loaded :=
  ctx.attests.filter fun l => l.att.kind = s!"judge.{rubric}" && ctx.onSubject l

def minConfidence (p : Predicate) : ℤ := (argInt p "min_confidence").getD 0

def judgesNeeded (p : Predicate) : ℕ := (max ((argInt p "judges").getD 1) 1).toNat

def votes (ctx : Ctx) (p : Predicate) : List Loaded :=
  (judgesOn ctx (p.name.getD "")).filter (isVote ctx (minConfidence p))

/-- The first yes vote of each agent. -/
def yesVotes (ctx : Ctx) (p : Predicate) : List Loaded :=
  firsts judgeKey ((votes ctx p).filter fun l => truthy l.att.result)

def verdicts (ctx : Ctx) (minConf : ℤ) (judges : List Loaded) : Verdicts :=
  judges.foldl (addVerdict ctx minConf) ⟨[], [], [], 0⟩

theorem verdicts_concat (judges : List Loaded) (l : Loaded) :
    verdicts ctx minConf (judges ++ [l]) =
      addVerdict ctx minConf (verdicts ctx minConf judges) l := by
  rw [verdicts, List.foldl_append]
  rfl

theorem addVerdict_no (v : Verdicts) : (addVerdict ctx minConf v l).no = [] ↔
    v.no = [] ∧ (isVote ctx minConf l → truthy l.att.result) := by
  unfold addVerdict isVote isOwn
  by_cases hown : (l.signerParent.isSome && decide (l.signerParent = ctx.authorParent)) = true
  · simp [hown]
  · by_cases hlow : (judgeResult l.att.result).1 < minConf
    · simp [hown, hlow, not_le.mpr hlow]
    · by_cases htrue : truthy l.att.result
      · simp only [hown, hlow, htrue, implies_true, and_true, Bool.false_eq_true, if_false, if_true]
        split_ifs <;> rfl
      · simp [hown, hlow, htrue, not_lt.mp hlow]

theorem addVerdict_yes (v : Verdicts) : ∃ who, (addVerdict ctx minConf v l).yes =
    if isVote ctx minConf l && truthy l.att.result then
      if v.yes.any fun y => y.1 = judgeKey l then v.yes
      else v.yes ++ [(judgeKey l, l.signerModel, who)]
    else v.yes := by
  unfold addVerdict isVote isOwn
  by_cases hown : (l.signerParent.isSome && decide (l.signerParent = ctx.authorParent)) = true
  · exact ⟨"", by simp [hown]⟩
  · by_cases hlow : (judgeResult l.att.result).1 < minConf
    · exact ⟨"", by simp [hown, hlow, not_le.mpr hlow]⟩
    · by_cases htrue : truthy l.att.result
      · simp only [hown, hlow, htrue, not_lt.mp hlow, Bool.false_eq_true, if_false, if_true,
          Bool.not_false, decide_true, Bool.and_self]
        change ∃ who, (if (v.yes.any fun y => y.1 = judgeKey l) = true then v
          else { v with yes := v.yes ++ [(judgeKey l, l.signerModel, _)] }).yes = _
        split_ifs with hany
        · exact ⟨"", rfl⟩
        · exact ⟨_, rfl⟩
      · exact ⟨"", by simp [hown, hlow, htrue]⟩

theorem verdicts_no : (verdicts ctx minConf judges).no = [] ↔
    ∀ l ∈ judges, isVote ctx minConf l → truthy l.att.result := by
  induction judges using List.reverseRecOn with
  | nil => simp [verdicts]
  | append_singleton judges l ih =>
      rw [verdicts_concat, addVerdict_no, ih]
      simp [or_imp, forall_and]

theorem verdicts_yes : ((verdicts ctx minConf judges).yes.map fun y => (y.1, y.2.1)) =
    (firsts judgeKey (judges.filter fun l => isVote ctx minConf l && truthy l.att.result)).map
      fun l => (judgeKey l, l.signerModel) := by
  induction judges using List.reverseRecOn with
  | nil => rfl
  | append_singleton judges l ih =>
      have hany : ((verdicts ctx minConf judges).yes.any fun y => y.1 = judgeKey l) =
          (firsts judgeKey (judges.filter fun l => isVote ctx minConf l &&
            truthy l.att.result)).any (judgeKey · = judgeKey l) := by
        have hkeys := congrArg (List.any · fun y => y.1 = judgeKey l) ih
        simpa only [List.any_map, Function.comp_def] using hkeys
      obtain ⟨who, hyes⟩ := @addVerdict_yes ctx minConf l (verdicts ctx minConf judges)
      rw [verdicts_concat, hyes, List.filter_append]
      cases hvote : isVote ctx minConf l && truthy l.att.result with
      | false =>
          rw [List.filter_singleton, hvote, Bool.cond_false, List.append_nil,
            if_neg Bool.false_ne_true, ih]
      | true =>
          rw [List.filter_singleton, hvote, Bool.cond_true, firsts_concat, if_pos rfl, hany]
          split_ifs
          · exact ih
          · rw [List.map_append, List.map_append, ih]
            rfl

theorem judged_iff (v : Verdicts) (needed : ℕ) (distinct : Bool) (no few same : String) :
    (if v.no ≠ [] then Holds.no no
      else if v.yes.length < needed then .no few
      else if distinct && (v.yes.map fun y => y.2.1).dedup.length < min needed v.yes.length then
        .no same
      else .yes) = .yes ↔
      v.no = [] ∧ needed ≤ v.yes.length ∧
        (distinct → min needed v.yes.length ≤ (v.yes.map fun y => y.2.1).dedup.length) := by
  split_ifs with hno hfew hsame
  · simp [hno]
  · simp [not_le.mpr hfew]
  · rw [Bool.and_eq_true, decide_eq_true_eq] at hsame
    simp [hsame.1, not_le.mpr hsame.2]
  · rw [Bool.and_eq_true, decide_eq_true_eq, not_and, not_lt] at hsame
    exact iff_of_true rfl ⟨not_not.mp hno, not_lt.mp hfew, hsame⟩

theorem holdsJudge_eq_yes :
    holdsJudge ctx p = .yes ↔
      (∀ l ∈ votes ctx p, truthy l.att.result) ∧ judgesNeeded p ≤ (yesVotes ctx p).length ∧
      (argTrue p "distinct_models" → min (judgesNeeded p) (yesVotes ctx p).length ≤
        ((yesVotes ctx p).map Loaded.signerModel).dedup.length) := by
  have hpairs := @verdicts_yes ctx (minConfidence p) (judgesOn ctx (p.name.getD ""))
  have hfilter : (judgesOn ctx (p.name.getD "")).filter
      (fun l => isVote ctx (minConfidence p) l && truthy l.att.result) =
        (votes ctx p).filter fun l => truthy l.att.result := by
    rw [votes, List.filter_filter]
    exact List.filter_congr fun l _ => Bool.and_comm _ _
  rw [hfilter] at hpairs
  have hlength := congrArg List.length hpairs
  have hmodels := congrArg (List.map Prod.snd) hpairs
  rw [List.length_map, List.length_map] at hlength
  simp only [List.map_map, Function.comp_def] at hmodels
  have hno := @verdicts_no ctx (minConfidence p) (judgesOn ctx (p.name.getD ""))
  have hvotes : (∀ l ∈ votes ctx p, truthy l.att.result) ↔
      (verdicts ctx (minConfidence p) (judgesOn ctx (p.name.getD ""))).no = [] := by
    rw [hno]
    simp [votes]
  rw [hvotes, yesVotes, ← hlength, ← hmodels]
  exact judged_iff (verdicts ctx (minConfidence p) (judgesOn ctx (p.name.getD "")))
    (judgesNeeded p) (argTrue p "distinct_models") _ _ _

end Judge

section Risk

variable {ctx : Ctx} {att : Attestation}

/-- A trusted risk attestation on what the context is about. -/
def isRisk (ctx : Ctx) (l : Loaded) : Bool :=
  l.att.kind = "risk.change" && Ctx.trusted l false && ctx.onSubject l

def firstLatest (l : List Loaded) : Option Attestation :=
  l.foldl (fun best l => if best.all (fun b => b.time < l.att.time) then some l.att else best) none

theorem latestRisk_eq : ctx.latestRisk = firstLatest (ctx.attests.filter (isRisk ctx)) := by
  rw [firstLatest, List.foldl_filter, Ctx.latestRisk]
  congr 1
  funext best l
  unfold isRisk
  by_cases hkind : l.att.kind = "risk.change"
  · cases htrusted : Ctx.trusted l false <;> cases honSubject : ctx.onSubject l <;> simp [hkind]
  · simp [hkind]

theorem firstLatest_concat (l : List Loaded) (x : Loaded) :
    firstLatest (l ++ [x]) =
      if (firstLatest l).all (fun b => b.time < x.att.time) then some x.att else firstLatest l := by
  rw [firstLatest, List.foldl_append]
  rfl

theorem firstLatest_eq_none {l : List Loaded} : firstLatest l = none ↔ l = [] := by
  induction l using List.reverseRecOn with
  | nil => simp [firstLatest]
  | append_singleton l x ih =>
      rw [firstLatest_concat]
      cases firstLatest l with
      | none => simp
      | some b => split_ifs <;> simp

theorem firstLatest_max {l : List Loaded} (h : firstLatest l = some att) :
    (∃ x ∈ l, x.att = att) ∧ ∀ y ∈ l, y.att.time ≤ att.time := by
  induction l using List.reverseRecOn generalizing att with
  | nil => cases h
  | append_singleton l z ih =>
      rw [firstLatest_concat] at h
      cases hl : firstLatest l with
      | none =>
          rw [hl] at h
          cases h
          rw [firstLatest_eq_none.mp hl]
          simp
      | some b =>
          obtain ⟨⟨x, hx, hb⟩, hmax⟩ := ih hl
          simp only [hl, Option.all_some, decide_eq_true_eq] at h
          split_ifs at h with hlt
          · cases h
            refine ⟨⟨z, by simp, rfl⟩, fun y hy => ?_⟩
            rcases List.mem_append.mp hy with hy | hy
            · exact (hmax y hy).trans hlt.le
            · rw [List.mem_singleton.mp hy]
          · cases h
            refine ⟨⟨x, List.mem_append_left _ hx, hb⟩, fun y hy => ?_⟩
            rcases List.mem_append.mp hy with hy | hy
            · exact hmax y hy
            · rw [List.mem_singleton.mp hy]
              exact not_lt.mp hlt

/-- How much risk an attestation sees, as far as clauses tell. -/
def riskRank (att : Attestation) : Option ℕ :=
  match att.result with
  | .map m =>
      match Value.lookupText "score" m, Value.lookupText "level" m with
      | some (.integer _), some (.text level) => some (levelRank level)
      | _, _ => none
  | _ => none

/-- How much risk the latest attestation of it sees. -/
def latestRank (ctx : Ctx) : Option ℕ := ctx.latestRisk.bind riskRank

theorem latestRank_eq : latestRank ctx = ctx.risk.map fun r => levelRank r.2.1 := by
  unfold latestRank Ctx.risk
  cases ctx.latestRisk with
  | none => rfl
  | some att =>
      simp only [Option.bind_eq_bind, Option.bind_some, riskRank]
      cases att.result with
      | map m =>
          dsimp only
          cases Value.lookupText "score" m with
          | none => rfl
          | some score =>
              cases Value.lookupText "level" m with
              | none => cases score <;> rfl
              | some level => cases score <;> cases level <;> rfl
      | _ => rfl

end Risk

section Clause

variable {ctx ctx' : Ctx} {c : Clause}

def clauseText (c : Clause) : String :=
  match c.unless with
  | some u => s!"{describe c.pred} unless {describe u}"
  | none => describe c.pred

/-- What a clause is reported as. -/
def clauseLabel (c : Clause) : String :=
  let text := clauseText c
  s!"{c.op} {text}"

theorem checkClause_eq_none : checkClause ctx c = none ↔
    (∃ u ∈ c.unless, holds ctx u = .yes) ∨ (c.op = "require" ∧ holds ctx c.pred = .yes) ∨
      (c.op = "forbid" ∧ holds ctx c.pred ≠ .yes) := by
  have hunless : (c.unless.any fun u => holds ctx u = .yes) = true ↔
      ∃ u ∈ c.unless, holds ctx u = .yes := by
    simp [Option.any_eq_true]
  rw [← hunless]
  unfold checkClause
  split_ifs with hmet hrequire hforbid
  · simp [hmet]
  · cases hpred : holds ctx c.pred <;> simp [hmet, hrequire]
  · cases hpred : holds ctx c.pred <;> simp [hmet, hforbid]
  · simp [hmet, hrequire, hforbid]

theorem checkClause_label {u : Unmet} (h : checkClause ctx c = some u) :
    u.clause = clauseLabel c := by
  have hspaced : ∀ op text : String, toString (op ++ " ") ++ toString text =
      toString op ++ toString " " ++ toString text := fun _ _ => rfl
  unfold checkClause at h
  split_ifs at h with hmet hrequire hforbid
  · cases hpred : holds ctx c.pred <;> rw [hpred] at h <;> cases h
    rw [clauseLabel, hrequire]
    exact hspaced "require" (clauseText c)
  · cases hpred : holds ctx c.pred <;> rw [hpred] at h <;> cases h
    rw [clauseLabel, hforbid]
    exact hspaced "forbid" (clauseText c)
  · cases h
    rfl

/-- A standard with one clause. -/
def requiring (p : Predicate) : Standard where
  id := zeroEntity
  prev := none
  name := ""
  «extends» := none
  clauses := [{ op := "require", pred := p, «unless» := none }]
  scopes := none
  when := none
  auditPermille := none

theorem checkStandard_requiring {p : Predicate} {reason : String} (h : holds ctx p = .no reason) :
    checkStandard ctx (requiring p) =
      [⟨clauseLabel { op := "require", pred := p, «unless» := none }, reason⟩] := by
  have hclause : checkClause ctx { op := "require", pred := p, «unless» := none } =
      some ⟨clauseLabel { op := "require", pred := p, «unless» := none }, reason⟩ := by
    cases hcheck : checkClause ctx { op := "require", pred := p, «unless» := none } with
    | none =>
        rw [checkClause_eq_none] at hcheck
        simp [h] at hcheck
    | some u =>
        have hlabel := checkClause_label hcheck
        simp only [checkClause, Option.any_none, Bool.false_eq_true, if_false, if_true, h,
          Option.some.injEq] at hcheck
        rw [← hlabel, ← hcheck]
  simp only [checkStandard, requiring, List.filterMap_cons, List.filterMap_nil, hclause,
    Option.getD_none, List.flatMap_nil, List.append_nil]

theorem checkStandard_requiring_yes {p : Predicate} (h : holds ctx p = .yes) :
    checkStandard ctx (requiring p) = [] := by
  have hclause : checkClause ctx { op := "require", pred := p, «unless» := none } = none := by
    simp [checkClause_eq_none, h]
  simp only [checkStandard, requiring, List.filterMap_cons, List.filterMap_nil, hclause,
    Option.getD_none, List.flatMap_nil, List.append_nil]

section Labels

variable {label : String}

/-- What a clause that applies from a risk on is reported as. -/
def riskLabel (level : String) (c : Clause) : String :=
  let text := clauseLabel c
  s!"when risk>={level}: {text}"

theorem clauses_labels (clauses : List Clause) :
    label ∈ (clauses.filterMap (checkClause ctx)).map Unmet.clause ↔
      ∃ c ∈ clauses, checkClause ctx c ≠ none ∧ label = clauseLabel c := by
  simp only [List.mem_map, List.mem_filterMap]
  constructor
  · rintro ⟨u, ⟨c, hc, hu⟩, rfl⟩
    exact ⟨c, hc, by simp [hu], checkClause_label hu⟩
  · rintro ⟨c, hc, hne, rfl⟩
    obtain ⟨u, hu⟩ := Option.ne_none_iff_exists'.mp hne
    exact ⟨u, ⟨c, hc, hu⟩, checkClause_label hu⟩

theorem riskClauses_labels (w : RiskClauses) :
    label ∈ (checkRiskClauses ctx w).map Unmet.clause ↔
      (latestRank ctx = none ∧ label = s!"when risk>={w.riskAtLeast}") ∨
      ∃ rank ∈ latestRank ctx, levelRank w.riskAtLeast ≤ rank ∧
        ∃ c ∈ w.clauses, checkClause ctx c ≠ none ∧ label = riskLabel w.riskAtLeast c := by
  rw [latestRank_eq]
  unfold checkRiskClauses
  cases ctx.risk with
  | none => simp
  | some r =>
      obtain ⟨score, level, factors⟩ := r
      simp only [Option.map_some, reduceCtorEq, false_and, false_or, Option.mem_def,
        Option.some.injEq, exists_eq_left']
      split_ifs with hlow
      · simp [not_le.mpr hlow]
      · simp only [not_lt.mp hlow, true_and, List.map_map, List.mem_map, List.mem_filterMap,
          Function.comp_def]
        constructor
        · rintro ⟨u, ⟨c, hc, hu⟩, rfl⟩
          exact ⟨c, hc, by simp [hu], by rw [checkClause_label hu]; rfl⟩
        · rintro ⟨c, hc, hne, rfl⟩
          obtain ⟨u, hu⟩ := Option.ne_none_iff_exists'.mp hne
          exact ⟨u, ⟨c, hc, hu⟩, by rw [checkClause_label hu]; rfl⟩

/-- What a standard's unmet clauses are called. -/
def labels (ctx : Ctx) (s : Standard) : List String := (checkStandard ctx s).map Unmet.clause

theorem mem_labels {s : Standard} :
    label ∈ labels ctx s ↔
      (∃ c ∈ s.clauses, checkClause ctx c ≠ none ∧ label = clauseLabel c) ∨
      ∃ w ∈ s.when.getD [], label ∈ (checkRiskClauses ctx w).map Unmet.clause := by
  rw [labels, checkStandard, List.map_append, List.mem_append, clauses_labels, List.map_flatMap,
    List.mem_flatMap]

/-- A standard with clauses that apply from a risk level on. -/
def fromRisk (level : String) (clauses : List Clause) : Standard where
  id := zeroEntity
  prev := none
  name := ""
  «extends» := none
  clauses := []
  scopes := none
  when := some [⟨level, clauses⟩]
  auditPermille := none

end Labels

end Clause

end Tessra.Oplog.Standard
