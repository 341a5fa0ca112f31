import Tessra.Oplog.Evaluation

namespace Tessra.Oplog.Standard

open Tessra.Core Tessra.Data

/-! When the order and repetition of the attestations that are cited do not matter. -/

/-- Two lists with the same members. -/
def SameMembers {α : Type} (l l' : List α) : Prop := ∀ x, x ∈ l ↔ x ∈ l'

theorem SameMembers.filter {α : Type} {l l' : List α} (h : SameMembers l l') (keep : α → Bool) :
    SameMembers (l.filter keep) (l'.filter keep) := by
  intro x
  simp only [List.mem_filter, h x]

/-- A list with one entry for each key of another. -/
structure Choice {α β : Type} (key : α → β) (l chosen : List α) : Prop where
  subset : ∀ x ∈ chosen, x ∈ l
  nodup : (chosen.map key).Nodup
  covers : ∀ x ∈ l, key x ∈ chosen.map key

section Choice

variable {α β : Type} [DecidableEq β] {key : α → β} {l l' chosen chosen' : List α}

theorem choice_firsts (key : α → β) (l : List α) : Choice key l (firsts key l) where
  subset _ := mem_of_mem_firsts
  nodup := nodup_keys_firsts key l
  covers _ hx := mem_keys_firsts.mpr (List.mem_map_of_mem hx)

omit [DecidableEq β] in
theorem Choice.congr (h : Choice key l chosen) (hsame : SameMembers l l') :
    Choice key l' chosen where
  subset x hx := (hsame x).mp (h.subset x hx)
  nodup := h.nodup
  covers x hx := h.covers x ((hsame x).mpr hx)

omit [DecidableEq β] in
theorem Choice.length_eq (h : Choice key l chosen) (h' : Choice key l chosen') :
    chosen.length = chosen'.length := by
  have hkeys : ∀ k, k ∈ chosen.map key ↔ k ∈ chosen'.map key := by
    intro k
    constructor
    · intro hk
      obtain ⟨x, hx, rfl⟩ := List.mem_map.mp hk
      exact h'.covers x (h.subset x hx)
    · intro hk
      obtain ⟨x, hx, rfl⟩ := List.mem_map.mp hk
      exact h.covers x (h'.subset x hx)
  have hperm := (List.perm_ext_iff_of_nodup h.nodup h'.nodup).mpr hkeys
  simpa using hperm.length_eq

/-- A choice that leads a list is what its firsts are. -/
theorem Choice.firsts_lead (h : Choice key l chosen) : firsts key (chosen ++ l) = chosen :=
  firsts_of_lead h.nodup h.covers

end Choice

/-- The most judges that a clause can ask for. -/
def maxJudges : ℕ := 2 ^ 63 - 1

/-- How many models some judges used, as far as clauses tell. -/
def modelsOf (judges : List Loaded) : ℕ :=
  min (judges.map Loaded.signerModel).dedup.length maxJudges

/-- The votes on a rubric that are confident enough. -/
def votesOn (ctx : Ctx) (rubric : String) (minConf : ℤ) : List Loaded :=
  (judgesOn ctx rubric).filter (isVote ctx minConf)

/-- The cited attestations leave no choice: the latest risk and the latest observations
are all alike, and whichever of each agent's yes votes is taken, they use as many
models, where nobody votes no. -/
structure Steady (ctx : Ctx) : Prop where
  risk : ∀ l ∈ ctx.attests, ∀ l' ∈ ctx.attests, isRisk ctx l → isRisk ctx l' →
    (∀ y ∈ ctx.attests, isRisk ctx y → y.att.time ≤ l.att.time) → l.att.time = l'.att.time →
      riskRank l.att = riskRank l'.att
  observed : ∀ signal, ∀ l ∈ ctx.attests, ∀ l' ∈ ctx.attests, observes ctx signal l →
    observes ctx signal l' →
    (∀ y ∈ ctx.attests, observes ctx signal y → y.att.time ≤ l.att.time) →
    l.att.time = l'.att.time → observedValue l = observedValue l'
  models : ∀ rubric minConf, -(2 ^ 63) ≤ minConf → minConf < 2 ^ 63 →
    (∀ l ∈ votesOn ctx rubric minConf, truthy l.att.result) → ∀ chosen chosen',
      Choice judgeKey (votesOn ctx rubric minConf) chosen →
      Choice judgeKey (votesOn ctx rubric minConf) chosen' → modelsOf chosen = modelsOf chosen'

section Numbers

theorem asI64_bounds (i : ℤ) : -(2 ^ 63) ≤ asI64 i ∧ asI64 i < 2 ^ 63 := by
  unfold asI64
  have h₁ := Int.le_bmod (x := i) (m := 2 ^ 64) (by decide)
  have h₂ := Int.bmod_lt (x := i) (m := 2 ^ 64) (by decide)
  omega

theorem asI64_of_bounds {i : ℤ} (h₁ : -(2 ^ 63) ≤ i) (h₂ : i < 2 ^ 63) : asI64 i = i := by
  unfold asI64
  rw [Int.bmod_eq_of_le] <;> omega

theorem argInt_bounds {p : Predicate} {k : String} {m : ℤ} (h : argInt p k = some m) :
    -(2 ^ 63) ≤ m ∧ m < 2 ^ 63 := by
  unfold argInt at h
  obtain ⟨v, _, hv⟩ := Option.bind_eq_some_iff.mp h
  cases v with
  | integer i =>
      cases hv
      exact asI64_bounds i
  | text t =>
      obtain ⟨_, hm⟩ := Option.filter_eq_some_iff.mp hv
      simpa using hm
  | _ => cases hv

theorem judgesNeeded_le (p : Predicate) : judgesNeeded p ≤ maxJudges := by
  unfold judgesNeeded maxJudges
  cases h : argInt p "judges" with
  | none => simp
  | some m =>
      have hm := argInt_bounds h
      simp only [Option.getD_some]
      omega

theorem minConfidence_bounds (p : Predicate) :
    -(2 ^ 63) ≤ minConfidence p ∧ minConfidence p < 2 ^ 63 := by
  unfold minConfidence
  cases h : argInt p "min_confidence" with
  | none => decide
  | some m => exact argInt_bounds h

theorem observedValue_bounds (l : Loaded) :
    -(2 ^ 63) ≤ observedValue l ∧ observedValue l < 2 ^ 63 := by
  unfold observedValue
  split
  · exact asI64_bounds _
  · decide

end Numbers

section Sufficient

variable {ctx : Ctx} {attests : List Loaded} {p : Predicate}

theorem Steady.observe (h : Steady ctx) (hsame : SameMembers ctx.attests attests) :
    holdsObserve ctx p = .yes ↔ holdsObserve { ctx with attests } p = .yes := by
  have hfilter := hsame.filter (observes ctx (p.name.getD ""))
  rw [holdsObserve_eq_yes, holdsObserve_eq_yes]
  change _ ↔ ∃ l, latest (attests.filter (observes ctx (p.name.getD ""))) = some l ∧ _
  cases hlatest : latest (ctx.attests.filter (observes ctx (p.name.getD ""))) with
  | none =>
      have hnil : attests.filter (observes ctx (p.name.getD "")) = [] := by
        rw [List.eq_nil_iff_forall_not_mem]
        intro x hx
        have hx := (hfilter x).mpr hx
        rw [latest_eq_none.mp hlatest] at hx
        cases hx
      simp [hnil, latest]
  | some l =>
      obtain ⟨hl, hmax⟩ := latest_max hlatest
      cases hlatest' : latest (attests.filter (observes ctx (p.name.getD ""))) with
      | none =>
          have hl := (hfilter l).mp hl
          rw [latest_eq_none.mp hlatest'] at hl
          cases hl
      | some l' =>
          obtain ⟨hl', hmax'⟩ := latest_max hlatest'
          have hl'' := (hfilter l').mpr hl'
          have htime := le_antisymm (hmax' l ((hfilter l).mp hl)) (hmax l' hl'')
          have hvalue := h.observed (p.name.getD "") l (List.mem_of_mem_filter hl) l'
            (List.mem_of_mem_filter hl'') (List.mem_filter.mp hl).2 (List.mem_filter.mp hl').2
            (fun y hy hobserves => hmax y (List.mem_filter.mpr ⟨hy, hobserves⟩)) htime
          simp [hvalue]

theorem Steady.judge (h : Steady ctx) (hsame : SameMembers ctx.attests attests) :
    holdsJudge ctx p = .yes ↔ holdsJudge { ctx with attests } p = .yes := by
  have hvotes : SameMembers (votes ctx p) (votes { ctx with attests } p) :=
    (hsame.filter _).filter _
  rw [holdsJudge_eq_yes, holdsJudge_eq_yes]
  by_cases htrue : ∀ l ∈ votes ctx p, truthy l.att.result
  · have htrue' : ∀ l ∈ votes { ctx with attests } p, truthy l.att.result := fun l hl =>
      htrue l ((hvotes l).mpr hl)
    have hyes : yesVotes ctx p = firsts judgeKey (votes ctx p) := by
      rw [yesVotes, List.filter_eq_self.mpr htrue]
    have hyes' : yesVotes { ctx with attests } p =
        firsts judgeKey (votes { ctx with attests } p) := by
      rw [yesVotes, List.filter_eq_self.mpr htrue']
    have hchoice := choice_firsts judgeKey (votes ctx p)
    have hchoice' := (choice_firsts judgeKey (votes { ctx with attests } p)).congr
      fun x => (hvotes x).symm
    have hbounds := minConfidence_bounds p
    have hmodels := h.models (p.name.getD "") (minConfidence p) hbounds.1 hbounds.2 htrue
      _ _ hchoice hchoice'
    have hneeded := judgesNeeded_le p
    rw [hyes, hyes', ← hchoice.length_eq hchoice']
    unfold modelsOf at hmodels
    have hle : ∀ n d d' : ℕ, min d maxJudges = min d' maxJudges →
        (min (judgesNeeded p) n ≤ d ↔ min (judgesNeeded p) n ≤ d') := by
      intro n d d' heq
      omega
    rw [hle _ _ _ hmodels]
    exact and_congr_left fun _ => iff_of_true htrue htrue'
  · refine iff_of_false (fun hall => htrue hall.1) fun hall => htrue fun l hl => ?_
    exact hall.1 l ((hvotes l).mp hl)

theorem Covered.congr {kind : String} {allowSelf : Bool} {u : Node}
    (hsame : SameMembers ctx.attests attests) :
    Covered ctx kind allowSelf u ↔ Covered { ctx with attests } kind allowSelf u :=
  exists_congr fun l => and_congr_left fun _ => hsame l

theorem holdsAttest_congr (hsame : SameMembers ctx.attests attests) :
    holdsAttest ctx p = .yes ↔ holdsAttest { ctx with attests } p = .yes := by
  have hcovered : ∀ u, Covered ctx (p.name.getD "") (argTrue p "self") u ↔
      Covered { ctx with attests } (p.name.getD "") (argTrue p "self") u := fun u =>
    Covered.congr hsame
  cases hscope : argText p "for" with
  | none =>
      rw [holdsAttest_unscoped hscope, holdsAttest_unscoped hscope]
      refine or_congr (exists_congr fun l => and_congr_left fun _ => hsame l) ?_
      exact exists_congr fun units => and_congr_right fun _ => and_congr_right fun _ =>
        forall₂_congr fun u _ => hcovered u
  | some scope =>
      rw [holdsAttest_scoped hscope, holdsAttest_scoped hscope]
      exact exists_congr fun units => and_congr_right fun _ => forall₂_congr fun u _ => hcovered u

theorem holdsApproved_congr (hsame : SameMembers ctx.attests attests) :
    holdsApproved ctx p = .yes ↔ holdsApproved { ctx with attests } p = .yes := by
  rw [holdsApproved_eq_yes, holdsApproved_eq_yes]
  exact and_congr_right fun _ => exists_congr fun l => and_congr_left fun _ => hsame l

theorem Steady.leaf (h : Steady ctx) (hsame : SameMembers ctx.attests attests)
    (hleaf : p.kind ∉ compoundKinds) :
    holdsAt ctx 1 p = .yes ↔ holdsAt { ctx with attests } 1 p = .yes := by
  by_cases hstructural : p.kind = "structural"
  · rw [holdsAt_structural hstructural, holdsAt_structural hstructural]
    rfl
  · by_cases hattest : p.kind = "attest"
    · rw [holdsAt_attest hattest, holdsAt_attest hattest]
      exact holdsAttest_congr hsame
    · by_cases happroved : p.kind = "approved"
      · rw [holdsAt_approved happroved, holdsAt_approved happroved]
        exact holdsApproved_congr hsame
      · by_cases hjudge : p.kind = "judge"
        · rw [holdsAt_judge hjudge, holdsAt_judge hjudge]
          exact h.judge hsame
        · by_cases hobserve : p.kind = "observe"
          · rw [holdsAt_observe hobserve, holdsAt_observe hobserve]
            exact h.observe hsame
          · simp only [compoundKinds, List.mem_cons, List.not_mem_nil, or_false, not_or] at hleaf
            simp [holdsAt, hstructural, hattest, happroved, hjudge, hobserve, hleaf.1, hleaf.2.1,
              hleaf.2.2]

theorem Steady.holds (h : Steady ctx) (hsame : SameMembers ctx.attests attests)
    (p : Predicate) : holds ctx p = .yes ↔ holds { ctx with attests } p = .yes :=
  holdsAt_congr (fun _ hleaf => h.leaf hsame hleaf) (predDepth p) p

theorem Steady.checkClause (h : Steady ctx) (hsame : SameMembers ctx.attests attests)
    (c : Clause) :
    checkClause ctx c = none ↔ Standard.checkClause { ctx with attests } c = none := by
  simp only [checkClause_eq_none, h.holds hsame, ne_eq]

end Sufficient

section Labels

variable {ctx : Ctx} {attests : List Loaded} {s : Standard} {label : String}

theorem Steady.latestRank (h : Steady ctx) (hsame : SameMembers ctx.attests attests) :
    latestRank ctx = Standard.latestRank { ctx with attests } := by
  have hfilter := hsame.filter (isRisk ctx)
  have hrisk : Ctx.latestRisk { ctx with attests } = firstLatest (attests.filter (isRisk ctx)) :=
    latestRisk_eq
  rw [Standard.latestRank, Standard.latestRank, hrisk, latestRisk_eq]
  cases hlatest : firstLatest (ctx.attests.filter (isRisk ctx)) with
  | none =>
      have hnil : attests.filter (isRisk ctx) = [] := by
        rw [List.eq_nil_iff_forall_not_mem]
        intro x hx
        have hx := (hfilter x).mpr hx
        rw [firstLatest_eq_none.mp hlatest] at hx
        cases hx
      simp [hnil, firstLatest]
  | some att =>
      obtain ⟨⟨l, hl, rfl⟩, hmax⟩ := firstLatest_max hlatest
      cases hlatest' : firstLatest (attests.filter (isRisk ctx)) with
      | none =>
          have hl := (hfilter l).mp hl
          rw [firstLatest_eq_none.mp hlatest'] at hl
          cases hl
      | some att' =>
          obtain ⟨⟨l', hl', rfl⟩, hmax'⟩ := firstLatest_max hlatest'
          have hl'' := (hfilter l').mpr hl'
          have htime := le_antisymm (hmax' l ((hfilter l).mp hl)) (hmax l' hl'')
          exact h.risk l (List.mem_of_mem_filter hl) l' (List.mem_of_mem_filter hl'')
            (List.mem_filter.mp hl).2 (List.mem_filter.mp hl').2
            (fun y hy hrisky => hmax y (List.mem_filter.mpr ⟨hy, hrisky⟩)) htime

/-- Steady citations are reported alike in whatever order they are given. -/
theorem Steady.labels (h : Steady ctx) (hsame : SameMembers ctx.attests attests) :
    label ∈ labels ctx s ↔ label ∈ Standard.labels { ctx with attests } s := by
  simp only [mem_labels, riskClauses_labels, ← h.latestRank hsame, ne_eq, h.checkClause hsame]

end Labels

/-! Citations that leave a choice, and the clauses that the choice decides. -/

/-- The attestations with others cited before and after them. -/
def Ctx.citing (ctx : Ctx) (lead last : List Loaded) : Ctx :=
  { ctx with attests := lead ++ ctx.attests ++ last }

/-- A clause of no known op. -/
def unknownClause : Clause where
  op := ""
  pred := { kind := "", name := none, args := none }
  «unless» := none

def atMost (signal : String) (value : ℤ) : Predicate where
  kind := "observe"
  name := some signal
  args := some (OrdMap.insert ∅ "max" (.integer value))

def judgedBy (rubric : String) (minConf : ℤ) (models : ℕ) : Predicate where
  kind := "judge"
  name := some rubric
  args := some (((OrdMap.insert ∅ "judges" (.integer models)).insert "distinct_models"
    (.bool true)).insert "min_confidence" (.integer minConf))

section Necessary

variable {ctx : Ctx} {lead last : List Loaded} {l l' : Loaded} {p : Predicate}

theorem labels_requiring (hleaf : p.kind ∉ compoundKinds) :
    (∀ label, label ∉ labels ctx (requiring p)) ↔ holdsAt ctx 1 p = .yes := by
  rw [← holds_leaf hleaf]
  have hclause : checkClause ctx { op := "require", pred := p, «unless» := none } = none ↔
      holds ctx p = .yes := by
    simp [checkClause_eq_none]
  simp only [mem_labels, requiring, List.mem_singleton, exists_eq_left, ne_eq, hclause,
    Option.getD_none, List.not_mem_nil, false_and, exists_false, or_false]
  constructor
  · intro h
    by_contra hno
    exact h _ ⟨hno, rfl⟩
  · intro hyes label h
    exact h.1 hyes

theorem labels_unread {level : String} :
    (∀ label, label ∉ labels ctx (fromRisk level [])) ↔ latestRank ctx ≠ none := by
  simp [mem_labels, fromRisk, riskClauses_labels]

theorem labels_fromRisk {level : String} {rank : ℕ} (hrank : latestRank ctx = some rank) :
    (∀ label, label ∉ labels ctx (fromRisk level [unknownClause])) ↔ rank < levelRank level := by
  have hunknown : checkClause ctx unknownClause ≠ none := by
    simp [checkClause_eq_none, unknownClause]
  simp [mem_labels, fromRisk, riskClauses_labels, hrank, hunknown]

theorem firstLatest_lead {l : Loaded} {rest : List Loaded}
    (h : ∀ y ∈ rest, y.att.time ≤ l.att.time) : firstLatest (l :: rest) = some l.att := by
  induction rest using List.reverseRecOn with
  | nil => rfl
  | append_singleton rest y ih =>
      rw [← List.cons_append, firstLatest_concat, ih fun y hy => h y (by simp [hy])]
      have hle := h y (by simp)
      simp [not_lt.mpr hle]

theorem latestRank_lead (hl : isRisk ctx l)
    (hmax : ∀ y ∈ ctx.attests, isRisk ctx y → y.att.time ≤ l.att.time) :
    latestRank (ctx.citing [l] []) = riskRank l.att := by
  have hfilter : ([l] ++ ctx.attests ++ []).filter (isRisk ctx) =
      l :: ctx.attests.filter (isRisk ctx) := by
    simp [hl]
  have hrisk : (ctx.citing [l] []).latestRisk =
      firstLatest (([l] ++ ctx.attests ++ []).filter (isRisk ctx)) := latestRisk_eq
  rw [latestRank, hrisk, hfilter, firstLatest_lead, Option.bind_some]
  intro y hy
  exact hmax y (List.mem_of_mem_filter hy) (List.mem_filter.mp hy).2

theorem levelRank_of_riskRank {att : Attestation} {rank : ℕ} (h : riskRank att = some rank) :
    ∃ level, levelRank level = rank := by
  unfold riskRank at h
  split at h
  · split at h
    · exact ⟨_, Option.some.inj h⟩
    · cases h
  · cases h

/-- The attestation that is cited last is the one observed, if none is later. -/
theorem holdsObserve_last (hl : observes ctx (p.name.getD "") l)
    (hmax : ∀ y ∈ ctx.attests, observes ctx (p.name.getD "") y → y.att.time ≤ l.att.time) :
    holdsObserve (ctx.citing [] [l]) p = .yes ↔ Within p (observedValue l) := by
  have hfilter : ([] ++ ctx.attests ++ [l]).filter (observes ctx (p.name.getD "")) =
      ctx.attests.filter (observes ctx (p.name.getD "")) ++ [l] := by
    simp [hl]
  have hlatest : latest (([] ++ ctx.attests ++ [l]).filter (observes ctx (p.name.getD ""))) =
      some l := by
    rw [hfilter, latest_concat]
    cases h : latest (ctx.attests.filter (observes ctx (p.name.getD ""))) with
    | none => rfl
    | some x =>
        have hx := (latest_max h).1
        have hle := hmax x (List.mem_of_mem_filter hx) (List.mem_filter.mp hx).2
        simp [hle]
  rw [holdsObserve_eq_yes]
  change (∃ x, latest (([] ++ ctx.attests ++ [l]).filter (observes ctx (p.name.getD ""))) =
    some x ∧ _) ↔ _
  rw [hlatest]
  simp

theorem within_atMost {signal : String} {value m : ℤ} (h₁ : -(2 ^ 63) ≤ m) (h₂ : m < 2 ^ 63) :
    Within (atMost signal m) value ↔ value ≤ m := by
  have hmax : argInt (atMost signal m) "max" = some m := by
    simp [argInt, arg, atMost, asI64_of_bounds h₁ h₂]
  have hmin : argInt (atMost signal m) "min" = none := by
    simp [argInt, arg, atMost]
  simp [Within, hmax, hmin]

/-- Yes votes of different agents that are cited first are the ones that count. -/
theorem holdsJudge_lead {rubric : String} {minConf : ℤ} {models : ℕ} {chosen : List Loaded}
    (h₁ : -(2 ^ 63) ≤ minConf) (h₂ : minConf < 2 ^ 63) (hpos : 0 < models)
    (hmodels : models ≤ maxJudges)
    (htrue : ∀ l ∈ votesOn ctx rubric minConf, truthy l.att.result)
    (hchosen : Choice judgeKey (votesOn ctx rubric minConf) chosen)
    (hlength : models ≤ chosen.length) :
    holdsJudge (ctx.citing chosen []) (judgedBy rubric minConf models) = .yes ↔
      models ≤ modelsOf chosen := by
  unfold maxJudges at hmodels
  have hconf : minConfidence (judgedBy rubric minConf models) = minConf := by
    simp [minConfidence, argInt, arg, judgedBy, asI64_of_bounds h₁ h₂]
  have hneeded : judgesNeeded (judgedBy rubric minConf models) = models := by
    have hasI64 : asI64 models = models := asI64_of_bounds (by omega) (by omega)
    simp only [judgesNeeded, argInt, arg, judgedBy, OrdMap.get?_insert, Option.bind_some,
      String.reduceEq, if_false, if_true, hasI64, Option.getD_some]
    omega
  have hdistinct : argTrue (judgedBy rubric minConf models) "distinct_models" = true := by
    simp [argTrue, arg, judgedBy]
  have hname : (judgedBy rubric minConf models).name.getD "" = rubric := rfl
  have hself : ∀ l ∈ chosen, l ∈ votesOn ctx rubric minConf := hchosen.subset
  have hvotes : votes (ctx.citing chosen []) (judgedBy rubric minConf models) =
      chosen ++ votesOn ctx rubric minConf := by
    have hfilter : (chosen ++ ctx.attests ++ []).filter (fun l : Loaded =>
        l.att.kind = s!"judge.{rubric}" && ctx.onSubject l) =
          chosen ++ judgesOn ctx rubric := by
      rw [List.append_nil, List.filter_append, List.filter_eq_self.mpr fun l hl =>
        (List.mem_filter.mp (List.mem_of_mem_filter (hself l hl))).2]
      rfl
    rw [votes, hname, hconf]
    change ((chosen ++ ctx.attests ++ []).filter (fun l : Loaded =>
      l.att.kind = s!"judge.{rubric}" && ctx.onSubject l)).filter (isVote ctx minConf) = _
    rw [hfilter, List.filter_append, List.filter_eq_self.mpr fun l hl =>
      (List.mem_filter.mp (hself l hl)).2]
    rfl
  have htrue' : ∀ l ∈ chosen ++ votesOn ctx rubric minConf, truthy l.att.result := by
    intro l hl
    exact (List.mem_append.mp hl).elim (fun hl => htrue l (hself l hl)) (htrue l)
  have hyes : yesVotes (ctx.citing chosen []) (judgedBy rubric minConf models) = chosen := by
    rw [yesVotes, hvotes, List.filter_eq_self.mpr htrue', hchosen.firsts_lead]
  rw [holdsJudge_eq_yes, hvotes, hyes, hneeded, hdistinct, min_eq_left hlength]
  unfold modelsOf maxJudges
  constructor
  · rintro ⟨_, _, hle⟩
    have hle := hle rfl
    omega
  · intro hle
    exact ⟨htrue', hlength, fun _ => by omega⟩

end Necessary

section Converse

variable {ctx : Ctx}

/-- Whatever is cited again before or after, a standard reports the same. -/
def CitingFree (ctx : Ctx) : Prop :=
  ∀ lead last, lead ⊆ ctx.attests → last ⊆ ctx.attests → ∀ s label,
    label ∈ labels ctx s ↔ label ∈ labels (ctx.citing lead last) s

variable {lead lead' last last' : List Loaded}

theorem CitingFree.labels (h : CitingFree ctx) (hlead : lead ⊆ ctx.attests)
    (hlast : last ⊆ ctx.attests) (hlead' : lead' ⊆ ctx.attests) (hlast' : last' ⊆ ctx.attests)
    (s : Standard) : (∀ label, label ∉ labels (ctx.citing lead last) s) ↔
      ∀ label, label ∉ labels (ctx.citing lead' last') s :=
  forall_congr' fun label => not_congr
    ((h lead last hlead hlast s label).symm.trans (h lead' last' hlead' hlast' s label))

theorem CitingFree.leaf (h : CitingFree ctx) (hlead : lead ⊆ ctx.attests)
    (hlast : last ⊆ ctx.attests) (hlead' : lead' ⊆ ctx.attests) (hlast' : last' ⊆ ctx.attests)
    {p : Predicate} (hleaf : p.kind ∉ compoundKinds) :
    holdsAt (ctx.citing lead last) 1 p = .yes ↔ holdsAt (ctx.citing lead' last') 1 p = .yes := by
  rw [← labels_requiring hleaf, ← labels_requiring hleaf]
  exact h.labels hlead hlast hlead' hlast' (requiring p)

theorem CitingFree.risk (h : CitingFree ctx) {l l' : Loaded} (hl : l ∈ ctx.attests)
    (hl' : l' ∈ ctx.attests) (hrisk : isRisk ctx l) (hrisk' : isRisk ctx l')
    (hmax : ∀ y ∈ ctx.attests, isRisk ctx y → y.att.time ≤ l.att.time)
    (htime : l.att.time = l'.att.time) : riskRank l.att = riskRank l'.att := by
  have hone : [l] ⊆ ctx.attests := List.cons_subset.mpr ⟨hl, List.nil_subset _⟩
  have hone' : [l'] ⊆ ctx.attests := List.cons_subset.mpr ⟨hl', List.nil_subset _⟩
  have hrank := latestRank_lead hrisk hmax
  have hrank' := latestRank_lead hrisk' (by rwa [← htime])
  have hsame := h.labels hone (List.nil_subset _) hone' (List.nil_subset _)
  have hunread := fun level => hsame (fromRisk level [])
  have hrisky := fun level => hsame (fromRisk level [unknownClause])
  simp only [labels_unread, hrank, hrank'] at hunread
  cases hr : riskRank l.att with
  | none =>
      cases hr' : riskRank l'.att with
      | none => rfl
      | some rank' => simpa [hr, hr'] using hunread ""
  | some rank =>
      cases hr' : riskRank l'.att with
      | none => simpa [hr, hr'] using hunread ""
      | some rank' =>
          obtain ⟨level, hlevel⟩ := levelRank_of_riskRank hr
          obtain ⟨level', hlevel'⟩ := levelRank_of_riskRank hr'
          rw [hr] at hrank
          rw [hr'] at hrank'
          simp only [labels_fromRisk hrank, labels_fromRisk hrank'] at hrisky
          have hlow := hrisky level
          have hhigh := hrisky level'
          rw [hlevel] at hlow
          rw [hlevel'] at hhigh
          congr 1
          omega

theorem CitingFree.observed (h : CitingFree ctx) {signal : String} {l l' : Loaded}
    (hl : l ∈ ctx.attests) (hl' : l' ∈ ctx.attests) (hobserves : observes ctx signal l)
    (hobserves' : observes ctx signal l')
    (hmax : ∀ y ∈ ctx.attests, observes ctx signal y → y.att.time ≤ l.att.time)
    (htime : l.att.time = l'.att.time) : observedValue l = observedValue l' := by
  have hone : [l] ⊆ ctx.attests := List.cons_subset.mpr ⟨hl, List.nil_subset _⟩
  have hone' : [l'] ⊆ ctx.attests := List.cons_subset.mpr ⟨hl', List.nil_subset _⟩
  have hbound : ∀ m, -(2 ^ 63) ≤ m → m < 2 ^ 63 → (observedValue l ≤ m ↔ observedValue l' ≤ m) := by
    intro m h₁ h₂
    have hsame := h.leaf (List.nil_subset _) hone (List.nil_subset _) hone'
      (p := atMost signal m) (by simp [atMost, compoundKinds])
    rw [holdsAt_observe rfl, holdsAt_observe rfl, holdsObserve_last hobserves hmax,
      holdsObserve_last hobserves' (by rwa [← htime]), within_atMost h₁ h₂,
      within_atMost h₁ h₂] at hsame
    exact hsame
  have hbounds := observedValue_bounds l
  have hbounds' := observedValue_bounds l'
  have hle := (hbound _ hbounds.1 hbounds.2).mp le_rfl
  have hge := (hbound _ hbounds'.1 hbounds'.2).mpr le_rfl
  exact le_antisymm hge hle

theorem CitingFree.models_le (h : CitingFree ctx) {rubric : String} {minConf : ℤ}
    (h₁ : -(2 ^ 63) ≤ minConf) (h₂ : minConf < 2 ^ 63)
    (htrue : ∀ l ∈ votesOn ctx rubric minConf, truthy l.att.result) {chosen chosen' : List Loaded}
    (hchosen : Choice judgeKey (votesOn ctx rubric minConf) chosen)
    (hchosen' : Choice judgeKey (votesOn ctx rubric minConf) chosen') :
    modelsOf chosen' ≤ modelsOf chosen := by
  rcases Nat.eq_zero_or_pos (modelsOf chosen') with hzero | hpos
  · rw [hzero]
    exact Nat.zero_le _
  · have hcited : ∀ {judges}, Choice judgeKey (votesOn ctx rubric minConf) judges →
        judges ⊆ ctx.attests := fun hjudges l hl =>
      List.mem_of_mem_filter (List.mem_of_mem_filter (hjudges.subset l hl))
    have hsame := h.leaf (hcited hchosen') (List.nil_subset _) (hcited hchosen)
      (List.nil_subset _) (p := judgedBy rubric minConf (modelsOf chosen'))
      (by simp [judgedBy, compoundKinds])
    have hmax : modelsOf chosen' ≤ maxJudges := min_le_right _ _
    have hlength' : modelsOf chosen' ≤ chosen'.length := by
      have hdedup := (chosen'.map Loaded.signerModel).dedup_sublist.length_le
      rw [List.length_map] at hdedup
      exact (min_le_left _ _).trans hdedup
    have hlength := hlength'.trans_eq (hchosen'.length_eq hchosen)
    rw [holdsAt_judge rfl, holdsAt_judge rfl,
      holdsJudge_lead h₁ h₂ hpos hmax htrue hchosen' hlength',
      holdsJudge_lead h₁ h₂ hpos hmax htrue hchosen hlength] at hsame
    exact hsame.mp le_rfl

theorem CitingFree.steady (h : CitingFree ctx) : Steady ctx where
  risk _ hl _ hl' := h.risk hl hl'
  observed _ _ hl _ hl' := h.observed hl hl'
  models _ _ h₁ h₂ htrue _ _ hchosen hchosen' :=
    le_antisymm (h.models_le h₁ h₂ htrue hchosen' hchosen)
      (h.models_le h₁ h₂ htrue hchosen hchosen')

end Converse

section Evaluate

variable [Crypto] {S : Store} {records : List (String × Bytes)} {view : View} {id : ObjectId}
  {revision : Revision} {attests attests' ids : List ObjectId} {loaded loaded' : List Loaded}
  {ctx : Ctx}

/-- Whatever order and repetition the attestations are cited in, the same clauses of
the same standards are unmet. -/
structure OrderFree (S : Store) (records : List (String × Bytes)) (view : View) (id : ObjectId)
    (revision : Revision) (attests : List ObjectId) : Prop where
  all : ∀ attests', SameMembers attests attests' → ∀ standards,
    reported ((evaluateAll records view standards id revision attests').value S) =
      reported ((evaluateAll records view standards id revision attests).value S)
  one : ∀ attests', SameMembers attests attests' → ∀ standard,
    reported ((evaluate records view standard id revision attests').value S) =
      reported ((evaluate records view standard id revision attests).value S)

theorem reported_evaluateAll {standards : List Standard}
    (h : (contextOf records view id revision attests).value S = .ok ctx) :
    reported ((evaluateAll records view standards id revision attests).value S) =
      some (standards.flatMap (labels ctx)).toFinset := by
  rw [value_evaluateAll, h]
  change some _ = some _
  rw [List.map_flatMap]
  rfl

theorem loaded_sameMembers (hsame : SameMembers attests attests')
    (h : (attests.mapM (loadAttestation view)).value S = .ok loaded) :
    ∃ loaded', (attests'.mapM (loadAttestation view)).value S = .ok loaded' ∧
      SameMembers loaded loaded' := by
  have hread := fun a => (determined_loadAttestation view a).readOnly
  have hall := (StoreM.value_mapM_eq_ok hread).mp h
  obtain ⟨loaded', hloaded'⟩ := StoreM.exists_value_mapM (S := S) hread (l := attests') (by
    intro a ha
    obtain ⟨i, hi, heq⟩ := List.getElem_of_mem ((hsame a).mpr ha)
    have hi' : i < loaded.length := hall.length_eq ▸ hi
    have hload := hall.get hi hi'
    rw [List.get_eq_getElem, heq] at hload
    exact ⟨_, hload⟩)
  refine ⟨loaded', hloaded', fun l => ?_⟩
  rw [StoreM.mem_value_mapM hread h, StoreM.mem_value_mapM hread hloaded']
  exact exists_congr fun a => and_congr_left fun _ => hsame a

/-- Any selection of the loaded attestations can be cited. -/
theorem exists_cited (h : (attests.mapM (loadAttestation view)).value S = .ok loaded)
    {chosen : List Loaded} (hchosen : chosen ⊆ loaded) :
    ∃ ids, ids ⊆ attests ∧ (ids.mapM (loadAttestation view)).value S = .ok chosen := by
  have hread := fun a => (determined_loadAttestation view a).readOnly
  simp only [StoreM.value_mapM_eq_ok hread]
  induction chosen with
  | nil => exact ⟨[], List.nil_subset _, .nil⟩
  | cons l chosen ih =>
      obtain ⟨hl, hrest⟩ := List.cons_subset.mp hchosen
      obtain ⟨a, ha, hload⟩ := (StoreM.mem_value_mapM hread h l).mp hl
      obtain ⟨ids, hids, hall⟩ := ih hrest
      exact ⟨a :: ids, List.cons_subset.mpr ⟨ha, hids⟩, .cons hload hall⟩

theorem OrderFree.citingFree (h : OrderFree S records view id revision attests)
    (hctx : (contextOf records view id revision attests).value S = .ok ctx) : CitingFree ctx := by
  intro lead last hlead hlast s label
  have hread := fun a => (determined_loadAttestation view a).readOnly
  have hattests := contextOf_attests hctx
  obtain ⟨ids, hids, hlead⟩ := exists_cited hattests hlead
  obtain ⟨ids', hids', hlast⟩ := exists_cited hattests hlast
  have hcited : ((ids ++ attests ++ ids').mapM (loadAttestation view)).value S =
      .ok (lead ++ ctx.attests ++ last) := by
    rw [StoreM.value_mapM_eq_ok hread] at hattests hlead hlast ⊢
    exact List.rel_append (List.rel_append hlead hattests) hlast
  have hsame : SameMembers attests (ids ++ attests ++ ids') := by
    intro a
    simp only [List.mem_append]
    constructor
    · intro ha
      exact .inl (.inr ha)
    · rintro ((ha | ha) | ha)
      · exact hids ha
      · exact ha
      · exact hids' ha
  have hciting : (contextOf records view id revision (ids ++ attests ++ ids')).value S =
      .ok (ctx.citing lead last) := contextOf_citing hctx hcited
  have hreported := h.all _ hsame [s]
  rw [reported_evaluateAll hciting, reported_evaluateAll hctx, Option.some.injEq] at hreported
  have hlabel := congrArg (label ∈ ·) hreported
  simpa using hlabel.symm

/-- The order and repetition of the citations matter to no standard, exactly if they are
steady where they can be read. -/
theorem orderFree_iff : OrderFree S records view id revision attests ↔
    ∀ ctx, (contextOf records view id revision attests).value S = .ok ctx → Steady ctx := by
  constructor
  · intro h ctx hctx
    exact (h.citingFree hctx).steady
  · intro hsteady
    have hall : ∀ attests', SameMembers attests attests' → ∀ standards,
        reported ((evaluateAll records view standards id revision attests').value S) =
          reported ((evaluateAll records view standards id revision attests).value S) := by
      intro attests' hsame standards
      cases hctx : (contextOf records view id revision attests).value S with
      | ok ctx =>
          obtain ⟨loaded', hloaded', hmembers⟩ :=
            loaded_sameMembers hsame (contextOf_attests hctx)
          rw [reported_evaluateAll (contextOf_citing hctx hloaded'), reported_evaluateAll hctx,
            Option.some.injEq]
          ext label
          simp only [List.mem_toFinset, List.mem_flatMap, (hsteady ctx hctx).labels hmembers]
      | error e =>
          cases hctx' : (contextOf records view id revision attests').value S with
          | error e' =>
              rw [value_evaluateAll, value_evaluateAll, hctx, hctx']
              rfl
          | ok ctx' =>
              obtain ⟨loaded, hloaded, _⟩ :=
                loaded_sameMembers (fun a => (hsame a).symm) (contextOf_attests hctx')
              rw [contextOf_citing hctx' hloaded] at hctx
              cases hctx
    refine ⟨hall, fun attests' hsame standard => ?_⟩
    rw [value_evaluate, value_evaluate]
    cases (chain view standard).value S with
    | error e => rfl
    | ok standards => exact hall attests' hsame standards

end Evaluate

section Samples

/-! Two reports of the risk of a revision, of the same time. -/

def cautious : Standard where
  id := .splat 64
  prev := none
  name := "cautious"
  «extends» := none
  clauses := []
  scopes := none
  when := some [⟨"high", [{ op := "require", pred := humanApproved, «unless» := none }]⟩]
  auditPermille := none

def riskReport (level : String) : Attestation :=
  ownerSays "risk.change" (.map [(.text "level", .text level), (.text "score", .integer 1)])

def riskTable : List Object :=
  gateTable cautious [.attestation (riskReport "low"), .attestation (riskReport "high")]

local instance riskHash : Crypto := .ofTable riskTable

/-- Cited first, the report of a low risk satisfies the standard; cited second, it does
not. -/
theorem order_matters :
    (evaluate [] gateView (.splat 64) (.splat 5) gatedDraft [.splat 6, .splat 7]).value
      riskTable = .ok [] ∧
    reported ((evaluate [] gateView (.splat 64) (.splat 5) gatedDraft
      [.splat 7, .splat 6]).value riskTable) = some {"when risk>=high: require approved()"} ∧
    ¬ OrderFree riskTable [] gateView (.splat 5) gatedDraft [.splat 6, .splat 7] := by
  have hlow : (evaluate [] gateView (.splat 64) (.splat 5) gatedDraft
      [.splat 6, .splat 7]).value riskTable = .ok [] := by decide +kernel
  have hhigh : reported ((evaluate [] gateView (.splat 64) (.splat 5) gatedDraft
      [.splat 7, .splat 6]).value riskTable) = some {"when risk>=high: require approved()"} := by
    decide +kernel
  refine ⟨hlow, hhigh, fun hfree => ?_⟩
  have hsame : SameMembers [ObjectId.splat 6, .splat 7] [.splat 7, .splat 6] := fun _ => by
    simp [or_comm]
  have hreported := hfree.one _ hsame (.splat 64)
  rw [hlow, hhigh] at hreported
  revert hreported
  decide

end Samples

end Tessra.Oplog.Standard
