import Tessra.Oplog.Restacked

namespace Tessra.Oplog.Standard

open Tessra.Core Tessra.Data

/-! What a run on some units has to cover for it to count as one on the snapshot. -/

/-- A unit that the parent's index does not have, or has with another body or name. -/
def Changed (parent : NodeIndex) (n : Node) : Prop :=
  ∀ m, parent.nodes.reverse.find? (fun m => m.nid = n.nid) = some m →
    m.body ≠ n.body ∨ m.name ≠ n.name

/-- A unit of code, or a test. -/
def Coverable (n : Node) : Prop := n.kind ∉ uncoverableKinds ∨ isTestKind n.kind = true

variable {ctx : Ctx} {p : Predicate} {idx parent : NodeIndex} {n : Node} {units : List Node}

theorem mem_changedUnits (hidx : ctx.index = some idx) (hparent : ctx.parentIndex = some parent) :
    ∃ units, ctx.changedUnits = some units ∧
      ∀ n, n ∈ units ↔ n ∈ idx.nodes ∧ Changed parent n := by
  refine ⟨_, by rw [Ctx.changedUnits, hidx, hparent]; rfl, fun n => ?_⟩
  rw [List.mem_filter]
  refine and_congr_right fun _ => ?_
  rw [Changed]
  cases parent.nodes.reverse.find? (fun m => m.nid = n.nid) with
  | none => simp
  | some m =>
      simp only [Option.some.injEq, forall_eq', Bool.or_eq_true, decide_eq_true_eq]

theorem mem_snapshotUnits (hidx : ctx.index = some idx)
    (hparent : ctx.parentIndex = some parent) :
    ∃ units, snapshotUnits ctx = some units ∧
      ∀ n, n ∈ units ↔ n ∈ idx.nodes ∧ Changed parent n ∧ Coverable n := by
  obtain ⟨changed, hchanged, hmem⟩ := mem_changedUnits hidx hparent
  refine ⟨_, by rw [snapshotUnits, hchanged]; rfl, fun n => ?_⟩
  rw [List.mem_filter, hmem, and_assoc, Coverable, Bool.or_eq_true, decide_eq_true_eq]

theorem holds_attest (hp : p.kind = "attest") : holds ctx p = holdsAttest ctx p := by
  obtain ⟨fuel, hfuel⟩ := holds_succ ctx p
  rw [hfuel, holdsAt_attest hp]

/-- A run counts when it is on a subject of the revision, or when some unit that it could
cover was added, changed or renamed, and it was on the bodies of all of these. -/
theorem holds_attest_iff (hp : p.kind = "attest") (hfor : argText p "for" = none)
    (hidx : ctx.index = some idx) (hparent : ctx.parentIndex = some parent) :
    holds ctx p = .yes ↔
      (∃ l ∈ ctx.attests, attestsTo (p.name.getD "") (argTrue p "self") l ∧ ctx.onSubject l) ∨
      ((∃ n ∈ idx.nodes, Changed parent n ∧ Coverable n) ∧
        ∀ n ∈ idx.nodes, Changed parent n → Coverable n →
          Covered ctx (p.name.getD "") (argTrue p "self") n) := by
  obtain ⟨units, hunits, hmem⟩ := mem_snapshotUnits hidx hparent
  rw [holds_attest hp, holdsAttest_unscoped hfor, hunits]
  refine or_congr_right ?_
  simp only [Option.mem_def, Option.some.injEq, exists_eq_left', hmem, and_imp]
  refine and_congr_left fun _ => ?_
  constructor
  · intro hne
    obtain ⟨n, hn⟩ := List.exists_mem_of_ne_nil _ hne
    exact ⟨n, (hmem n).mp hn⟩
  · rintro ⟨n, hn⟩
    exact List.ne_nil_of_mem ((hmem n).mpr hn)

section Samples

def testsRun : Predicate := ⟨"attest", some "tests.pass", none⟩

def codeUnit (nid body : ℕ) (path name : String) : Node :=
  ⟨.splat nid, path, "function", name, (0, 1), .splat body, none, none, none⟩

def indexNow : NodeIndex := ⟨.splat 0, "", [], [codeUnit 1 11 "a.rs" "f"], none⟩

def indexBefore : NodeIndex :=
  ⟨.splat 1, "", [], [codeUnit 1 10 "a.rs" "f", codeUnit 2 20 "b.rs" "g"], none⟩

/-- `f` was changed and tested, and `g` was deleted. -/
def partialContext : Ctx where
  revision := ownerDraft
  attests := [{ yesAbout (.splat 5) with
    att := { (yesAbout (.splat 5)).att with
      kind := "tests.pass", subject := none, bodies := some [.splat 11] }
    signerKind := some "verifier" }]
  subjects := subjectsOf (.splat 5) ownerDraft
  index := some indexNow
  parentIndex := some indexBefore
  authorParent := none

/-- The files of the revision and of its parent. -/
def filesNow : OrdMap String ObjectId :=
  ((∅ : OrdMap String ObjectId).insert "a.rs" (.splat 31)).insert "data.csv" (.splat 32)

def filesBefore : OrdMap String ObjectId :=
  (((∅ : OrdMap String ObjectId).insert "a.rs" (.splat 33)).insert "b.rs" (.splat 34)).insert
    "data.csv" (.splat 35)

/-- The run on `f` counts, though a function was deleted and a file differs that has no
unit. -/
theorem unseen_changes_pass :
    holds partialContext testsRun = .yes ∧
    partialContext.subjectAttested "tests.pass" false = false ∧
    (∃ idx ∈ partialContext.index, ∃ parent ∈ partialContext.parentIndex,
      (∃ g ∈ parent.nodes, Coverable g ∧ ∀ n ∈ idx.nodes, n.nid ≠ g.nid) ∧
      filesNow.get? "data.csv" ≠ filesBefore.get? "data.csv" ∧
      ∀ n ∈ idx.nodes, n.path ≠ "data.csv") := by
  refine ⟨by decide +kernel, by decide +kernel, indexNow, rfl, indexBefore, rfl,
    ⟨codeUnit 2 20 "b.rs" "g", by decide, .inl (by decide), by decide⟩, by decide +kernel,
    by decide⟩

/-- The same run, held to what it is about. -/
theorem holds_attest_iff_partial :
    holds partialContext testsRun = .yes ↔
      (∃ l ∈ partialContext.attests, attestsTo "tests.pass" (argTrue testsRun "self") l ∧
        partialContext.onSubject l) ∨
      ((∃ n ∈ indexNow.nodes, Changed indexBefore n ∧ Coverable n) ∧
        ∀ n ∈ indexNow.nodes, Changed indexBefore n → Coverable n →
          Covered partialContext "tests.pass" (argTrue testsRun "self") n) :=
  holds_attest_iff rfl rfl rfl rfl

end Samples

end Tessra.Oplog.Standard
