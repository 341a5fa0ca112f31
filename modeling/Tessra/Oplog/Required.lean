import Tessra.Oplog.CitationOrder
import Tessra.Oplog.Inheritance
import Tessra.Oplog.PredicatePrint

namespace Tessra.Oplog.Standard

open Tessra.Core Tessra.Data

/-! The attestations that a chain of standards asks for, and those that evaluating it looks
for. -/

/-- A kind of attestation and what it is asked for. -/
abbrev Ask := String × Option String

section Collecting

def addAsk (out : List Ask) (ask : Ask) : List Ask := if ask ∈ out then out else out ++ [ask]

def walkAt : ℕ → Predicate → List Ask → List Ask
  | 0, _, out => out
  | fuel + 1, p, out =>
      if p.kind = "attest" then
        match p.name with
        | some n => addAsk out (n, argText p "for")
        | none => out
      else if p.kind ∈ compoundKinds then (subPreds p).foldl (fun out q => walkAt fuel q out) out
      else out

def walk (out : List Ask) (p : Predicate) : List Ask := walkAt (predDepth p) p out

def requiredAttestations (chain : List Standard) : List Ask :=
  chain.foldl (fun out s => s.clauses.foldl (fun out c =>
    c.unless.toList.foldl walk (walk out c.pred)) out) []

end Collecting

section Named

/-- A predicate names the attestation, itself or in those nested in it. -/
inductive Names : Predicate → Ask → Prop
  | attest {p : Predicate} {n : String} (hkind : p.kind = "attest") (hname : p.name = some n) :
      Names p (n, argText p "for")
  | nested {p q : Predicate} {ask : Ask} (hkind : p.kind ∈ compoundKinds) (hq : q ∈ subPreds p)
      (h : Names q ask) : Names p ask

def NamedIn (c : Clause) (ask : Ask) : Prop := Names c.pred ask ∨ ∃ u ∈ c.unless, Names u ask

/-- Some clause of the chain that applies at every risk names the attestation. -/
def NamedBy (chain : List Standard) (ask : Ask) : Prop :=
  ∃ s ∈ chain, ∃ c ∈ s.clauses, NamedIn c ask

variable {p : Predicate} {ask : Ask} {out : List Ask}

theorem mem_addAsk {new : Ask} : ask ∈ addAsk out new ↔ ask ∈ out ∨ ask = new := by
  unfold addAsk
  split_ifs with h
  · exact ⟨Or.inl, fun hor => hor.elim id fun heq => heq ▸ h⟩
  · simp

/-- What a fold adds is what each of its steps adds. -/
theorem mem_foldl_of_step {α β : Type} {step : List β → α → List β} {P : α → β → Prop}
    {l : List α} (h : ∀ a ∈ l, ∀ out x, x ∈ step out a ↔ x ∈ out ∨ P a x)
    (out : List β) (x : β) :
    x ∈ l.foldl step out ↔ x ∈ out ∨ ∃ a ∈ l, P a x := by
  induction l generalizing out with
  | nil => simp
  | cons a l ih =>
      rw [List.foldl_cons, ih fun b hb => h b (List.mem_cons_of_mem a hb),
        h a List.mem_cons_self, or_assoc, List.exists_mem_cons_iff]

theorem names_attest (hkind : p.kind = "attest") :
    Names p ask ↔ ∃ n, p.name = some n ∧ ask = (n, argText p "for") := by
  constructor
  · intro h
    cases h with
    | attest _ hname => exact ⟨_, hname, rfl⟩
    | nested hcompound => exact absurd (hkind ▸ hcompound) (by decide)
  · rintro ⟨n, hname, rfl⟩
    exact .attest hkind hname

theorem names_compound (hkind : p.kind ∈ compoundKinds) :
    Names p ask ↔ ∃ q ∈ subPreds p, Names q ask := by
  constructor
  · intro h
    cases h with
    | attest hattest => exact absurd (hattest ▸ hkind) (by decide)
    | nested _ hq h => exact ⟨_, hq, h⟩
  · rintro ⟨q, hq, h⟩
    exact .nested hkind hq h

theorem not_names (hattest : p.kind ≠ "attest") (hkind : p.kind ∉ compoundKinds) :
    ¬ Names p ask := by
  intro h
  cases h with
  | attest h => exact hattest h
  | nested h => exact hkind h

theorem mem_walkAt {fuel : ℕ} (h : predDepth p ≤ fuel) :
    ask ∈ walkAt fuel p out ↔ ask ∈ out ∨ Names p ask := by
  induction fuel generalizing p ask out with
  | zero => exact absurd h (Nat.not_le.mpr (predDepth_pos p))
  | succ fuel ih =>
      rw [walkAt]
      split_ifs with hattest hcompound
      · rw [names_attest hattest]
        cases hname : p.name with
        | none => simp
        | some n => simp [mem_addAsk]
      · rw [names_compound hcompound]
        refine mem_foldl_of_step (P := Names) (fun q hq out' x => ih ?_) out ask
        have hlt := predDepth_lt hq
        omega
      · exact (or_iff_left (not_names hattest hcompound)).symm

theorem mem_walk : ask ∈ walk out p ↔ ask ∈ out ∨ Names p ask := mem_walkAt le_rfl

/-- The collector finds what the clauses name that apply at every risk. -/
theorem mem_requiredAttestations {chain : List Standard} :
    ask ∈ requiredAttestations chain ↔ NamedBy chain ask := by
  have hclause : ∀ c : Clause, ∀ out x,
      x ∈ c.unless.toList.foldl walk (walk out c.pred) ↔ x ∈ out ∨ NamedIn c x := by
    intro c out x
    rw [mem_foldl_of_step (P := Names) fun u _ out x => mem_walk, mem_walk, NamedIn, or_assoc]
    simp
  have hstandard : ∀ s : Standard, ∀ out x, x ∈ s.clauses.foldl (fun out c =>
      c.unless.toList.foldl walk (walk out c.pred)) out ↔ x ∈ out ∨ ∃ c ∈ s.clauses, NamedIn c x :=
    fun s out x => mem_foldl_of_step (P := NamedIn) (fun c _ => hclause c) out x
  rw [requiredAttestations, mem_foldl_of_step
    (P := fun s x => ∃ c ∈ s.clauses, NamedIn c x) fun s _ => hstandard s]
  simp [NamedBy]

end Named

section Evaluating

/-- The attestations that evaluating a predicate looks for. -/
def asksAt : ℕ → Predicate → List Ask
  | 0, _ => []
  | fuel + 1, p =>
      if p.kind = "attest" then p.name.toList.map fun n => (n, argText p "for")
      else if p.kind = "all" ∨ p.kind = "any" ∨ p.kind = "not" then
        (subPreds p).flatMap (asksAt fuel)
      else []

def asks (p : Predicate) : List Ask := asksAt (predDepth p) p

/-- What is asked for when a clause is checked: its predicate only where nothing waives it. -/
def clauseAsks (ctx : Ctx) (c : Clause) : List Ask :=
  c.unless.toList.flatMap asks ++
    if c.unless.any fun u => holds ctx u = .yes then [] else asks c.pred

def riskAsks (ctx : Ctx) (w : RiskClauses) : List Ask :=
  match ctx.risk with
  | none => []
  | some (_, level, _) =>
      if levelRank level < levelRank w.riskAtLeast then [] else w.clauses.flatMap (clauseAsks ctx)

/-- What is asked for when a chain of standards is evaluated. -/
def evaluationAsks (ctx : Ctx) (chain : List Standard) : List Ask :=
  chain.flatMap fun s =>
    s.clauses.flatMap (clauseAsks ctx) ++ (s.when.getD []).flatMap (riskAsks ctx)

variable {p : Predicate} {ask : Ask} {ctx : Ctx} {c : Clause} {chain : List Standard}

theorem mem_asksAt {fuel : ℕ} (h : predDepth p ≤ fuel) : ask ∈ asksAt fuel p ↔ Names p ask := by
  induction fuel generalizing p ask with
  | zero => exact absurd h (Nat.not_le.mpr (predDepth_pos p))
  | succ fuel ih =>
      have hkinds : p.kind = "all" ∨ p.kind = "any" ∨ p.kind = "not" ↔ p.kind ∈ compoundKinds := by
        simp [compoundKinds]
      rw [asksAt]
      split_ifs with hattest hcompound
      · rw [names_attest hattest]
        cases hname : p.name with
        | none => simp
        | some n => simp
      · rw [names_compound (hkinds.mp hcompound), List.mem_flatMap]
        refine exists_congr fun q => and_congr_right fun hq => ih ?_
        have hlt := predDepth_lt hq
        omega
      · exact iff_of_false List.not_mem_nil (not_names hattest (hkinds.not.mp hcompound))

theorem mem_asks : ask ∈ asks p ↔ Names p ask := mem_asksAt le_rfl

/-- What an `unless` of a clause waives whatever is cited. -/
def Idle (c : Clause) : Prop := ∀ ctx, ∃ u ∈ c.unless, holds ctx u = .yes

theorem mem_clauseAsks : ask ∈ clauseAsks ctx c ↔
    (∃ u ∈ c.unless, Names u ask) ∨ (¬ ∃ u ∈ c.unless, holds ctx u = .yes) ∧ Names c.pred ask := by
  have hunless : (c.unless.any fun u => holds ctx u = .yes) = true ↔
      ∃ u ∈ c.unless, holds ctx u = .yes := by
    simp [Option.any_eq_true]
  rw [clauseAsks, List.mem_append, List.mem_flatMap, ← hunless]
  refine or_congr ?_ ?_
  · exact exists_congr fun u => and_congr Option.mem_toList mem_asks
  · split_ifs with h
    · simp [h]
    · simp [h, mem_asks]

instance nonempty_ctx : Nonempty Ctx := ⟨yesContext ownerDraft [] zeroObject⟩

theorem exists_clauseAsks : (∃ ctx, ask ∈ clauseAsks ctx c) ↔
    (∃ u ∈ c.unless, Names u ask) ∨ ¬ Idle c ∧ Names c.pred ask := by
  simp only [mem_clauseAsks, exists_or, exists_const, exists_and_right, Idle, not_forall]

/-- Evaluation asks in a clause that applies from some risk up. -/
def AskedFromRisk (chain : List Standard) (ask : Ask) : Prop :=
  ∃ ctx : Ctx, ∃ s ∈ chain, ∃ w ∈ s.when.getD [], ask ∈ riskAsks ctx w

theorem exists_evaluationAsks : (∃ ctx, ask ∈ evaluationAsks ctx chain) ↔
    (∃ s ∈ chain, ∃ c ∈ s.clauses, (∃ u ∈ c.unless, Names u ask) ∨
      ¬ Idle c ∧ Names c.pred ask) ∨ AskedFromRisk chain ask := by
  have hmem : ∀ ctx, ask ∈ evaluationAsks ctx chain ↔
      (∃ s ∈ chain, ∃ c ∈ s.clauses, ask ∈ clauseAsks ctx c) ∨
        ∃ s ∈ chain, ∃ w ∈ s.when.getD [], ask ∈ riskAsks ctx w := by
    intro ctx
    simp only [evaluationAsks, List.mem_flatMap, List.mem_append, and_or_left, exists_or]
  simp only [hmem, exists_or, AskedFromRisk]
  refine or_congr_left ?_
  constructor
  · rintro ⟨ctx, s, hs, c, hc, hask⟩
    exact ⟨s, hs, c, hc, exists_clauseAsks.mp ⟨ctx, hask⟩⟩
  · rintro ⟨s, hs, c, hc, hask⟩
    obtain ⟨ctx, hask⟩ := exists_clauseAsks.mpr hask
    exact ⟨ctx, s, hs, c, hc, hask⟩

/-- The collector knows what evaluation can ask for, and nothing else, just where every risk
clause asks for what a clause names that applies at every risk, and no attestation is named
only by predicates that are always waived. -/
theorem requiredAttestations_exact_iff :
    (∀ ask, ask ∈ requiredAttestations chain ↔ ∃ ctx, ask ∈ evaluationAsks ctx chain) ↔
      (∀ ask, AskedFromRisk chain ask → NamedBy chain ask) ∧
        ∀ s ∈ chain, ∀ c ∈ s.clauses, Idle c → ∀ ask, Names c.pred ask →
          AskedFromRisk chain ask ∨ ∃ s' ∈ chain, ∃ c' ∈ s'.clauses,
            (∃ u ∈ c'.unless, Names u ask) ∨ ¬ Idle c' ∧ Names c'.pred ask := by
  simp only [mem_requiredAttestations, exists_evaluationAsks]
  constructor
  · intro h
    refine ⟨fun ask hrisk => (h ask).mpr (Or.inr hrisk), fun s hs c hc _ ask hask => ?_⟩
    exact ((h ask).mp ⟨s, hs, c, hc, Or.inl hask⟩).symm
  · rintro ⟨hrisk, hidle⟩ ask
    constructor
    · rintro ⟨s, hs, c, hc, hpred | hunless⟩
      · by_cases hwaived : Idle c
        · exact (hidle s hs c hc hwaived ask hpred).symm
        · exact Or.inl ⟨s, hs, c, hc, Or.inr ⟨hwaived, hpred⟩⟩
      · exact Or.inl ⟨s, hs, c, hc, Or.inl hunless⟩
    · rintro (⟨s, hs, c, hc, hunless | ⟨-, hpred⟩⟩ | hask)
      · exact ⟨s, hs, c, hc, Or.inr hunless⟩
      · exact ⟨s, hs, c, hc, Or.inl hpred⟩
      · exact hrisk ask hask

end Evaluating

section Samples

/-! A standard that asks for a scan of what is risky. -/

def scanned : Predicate := ⟨"attest", some "security.scan", none⟩

def carefulChain : List Standard :=
  [fromRisk "high" [{ op := "require", pred := scanned, «unless» := none }]]

/-- A revision with a report that it is risky. -/
def riskyContext : Ctx :=
  { yesContext ownerDraft [(ObjectId.splat 5).bytes] (.splat 5) with
    attests := [{ yesAbout (.splat 5) with
      att := riskReport "high", signerKind := some "daemon" }] }

/-- The scan is asked for, and the runner does not know of it. -/
theorem scan_not_required : ("security.scan", none) ∉ requiredAttestations carefulChain ∧
    ("security.scan", none) ∈ evaluationAsks riskyContext carefulChain := by
  decide +kernel

end Samples

end Tessra.Oplog.Standard
