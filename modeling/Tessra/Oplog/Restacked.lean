import Tessra.Daemon.Revisions
import Tessra.Oplog.Inheritance

namespace Tessra.Oplog.Standard

open Tessra.Core Tessra.Data
open Tessra.Daemon (revisionId)

/-! Revisions that the system derives from one another, and the approvals that they carry. -/

section Builders

variable [Crypto]

/-- The revision of a change merged onto a new base. -/
def mergedOnto (base snap : ObjectId) (rev : Revision) (now : ℤ) (ops : Option (List SemOp)) :
    Revision where
  id := rev.id
  prev := some (revisionId rev)
  snapshots := (∅ : OrdMap String ObjectId).insert "" snap
  parents := [base, revisionId rev]
  intent := rev.intent
  title := rev.title
  body := rev.body
  author := rev.author
  time := now
  ops := ops
  flags := rev.flags

/-- A landing of a revision on the head of a line. -/
def landing (headId snap : ObjectId) (rev : Revision) (now : ℤ) : Revision :=
  mergedOnto headId snap rev now none

/-- A child of a landed revision, restacked onto the landing. -/
def restacked (landingId snap : ObjectId) (x : Revision) (now : ℤ) : Revision :=
  mergedOnto landingId snap x now x.ops

/-- A revision merged with conflicts, recorded instead of a landing. -/
def conflicted (headId snap : ObjectId) (rev : Revision) (now : ℤ) : Revision :=
  mergedOnto headId snap rev now none

/-- One revision is built from another one by the system. -/
inductive Builds (rev : Revision) : Revision → Prop
  | landing (headId snap : ObjectId) (now : ℤ) : Builds rev (landing headId snap rev now)
  | restack (landingId snap : ObjectId) (now : ℤ) : Builds rev (restacked landingId snap rev now)
  | conflict (headId snap : ObjectId) (now : ℤ) : Builds rev (conflicted headId snap rev now)

variable {rev next : Revision}

/-- Each builder derives a revision in one way. -/
theorem Builds.merged (h : Builds rev next) :
    ∃ base snap now ops, next = mergedOnto base snap rev now ops := by
  cases h with
  | landing headId snap now => exact ⟨headId, snap, now, none, rfl⟩
  | restack landingId snap now => exact ⟨landingId, snap, now, rev.ops, rfl⟩
  | conflict headId snap now => exact ⟨headId, snap, now, none, rfl⟩

/-- A derived revision is about itself, the one that it was built from, and its snapshot. -/
theorem Builds.subjects (h : Builds rev next) (b : Bytes) :
    b ∈ subjectsOf (revisionId next) next ↔ b = (revisionId next).bytes ∨
      b = (revisionId rev).bytes ∨ ∃ snap ∈ next.snapshots.values, b = snap.bytes := by
  obtain ⟨base, snap, now, ops, rfl⟩ := h.merged
  simp [subjectsOf, mergedOnto, Option.filter, eq_comm]

/-- Revisions of one change, the newest first, of which each was built from the next. -/
def Derivation (revs : List Revision) : Prop := revs.IsChain fun next rev => Builds rev next

/-- What a human said about the first revision, and meets a clause for it, meets the clause
for the last one. -/
def ApprovalSurvives (first last : Revision) : Prop :=
  ∀ (ctx ctx' : Ctx) (p : Predicate), p.kind = "approved" →
    (∀ l ∈ ctx.attests, l.att.subject = some (revisionId first).bytes) →
    ctx.subjects = subjectsOf (revisionId first) first →
    ctx'.subjects = subjectsOf (revisionId last) last → ctx'.attests = ctx.attests →
      holds ctx p = .yes → holds ctx' p = .yes

omit [Crypto] in
theorem holds_approved {ctx : Ctx} {p : Predicate} (hp : p.kind = "approved") :
    holds ctx p = .yes ↔ p.name.getD "human" = "human" ∧ ∃ l ∈ ctx.attests, approves ctx p l := by
  obtain ⟨fuel, hfuel⟩ := holds_succ ctx p
  rw [hfuel, holdsAt_approved hp, holdsApproved_eq_yes]

/-- An approval survives if what it names is among what the last revision is about. -/
theorem approvalSurvives_iff {first last : Revision} : ApprovalSurvives first last ↔
    (revisionId first).bytes ∈ subjectsOf (revisionId last) last := by
  constructor
  · intro h
    have hown : (revisionId first).bytes ∈ subjectsOf (revisionId first) first := by
      simp [subjectsOf]
    have hyes := h (yesContext first _ (revisionId first)) (yesContext last _ (revisionId first))
      humanApproved rfl (fun l hl => by rw [List.mem_singleton.mp hl]; rfl) rfl rfl rfl
      (holds_yesContext.mpr hown)
    exact holds_yesContext.mp hyes
  · intro hmem ctx ctx' p hp hsubject _ hctx' hattests hyes
    obtain ⟨hby, l, hl, happroves⟩ := (holds_approved hp).mp hyes
    refine (holds_approved hp).mpr ⟨hby, l, hattests ▸ hl, ?_⟩
    have hon : ctx'.onSubject l = true := by
      rw [Ctx.onSubject, hsubject l hl, hctx']
      simpa using hmem
    simp only [approves, Bool.and_eq_true] at happroves ⊢
    exact ⟨happroves.1, hon⟩

variable {S : Store} {last first : Revision} {older : List Revision}

/-- Along every chain of landings, restacks, and recorded conflicts, the newest first, an
approval of the first revision survives just where the first is the last one, or the one that
the last was built from. -/
theorem approval_survives_iff (hchain : Derivation (last :: older))
    (hfirst : (last :: older).getLast? = some first) (hfree : CollisionFree S)
    (hstored : .revision first ∈ S) (hsnaps : ∀ id ∈ last.snapshots.values,
      ∃ snap : Snapshot, .snapshot snap ∈ S ∧ Crypto.objectId (.snapshot snap) = id) :
    ApprovalSurvives first last ↔
      ∃ rev ∈ (last :: older).take 2, revisionId first = revisionId rev := by
  have hother : (revisionId first).bytes ∉ last.snapshots.values.map ObjectId.bytes := by
    intro hmem
    obtain ⟨id, hid, heq⟩ := List.mem_map.mp hmem
    obtain ⟨snap, hsnap, hsnapId⟩ := hsnaps id hid
    have hsame := hfree _ hsnap _ hstored (hsnapId.trans (ObjectId.bytes_injective heq))
    cases hsame
  rw [approvalSurvives_iff]
  cases older with
  | nil =>
      obtain rfl : last = first := Option.some.inj hfirst
      exact iff_of_true (by simp [subjectsOf]) ⟨last, List.mem_cons_self, rfl⟩
  | cons prev older =>
      have hbuilds : Builds prev last := (List.isChain_cons_cons.mp hchain).1
      have hbytes : ∀ id : ObjectId, (revisionId first).bytes = id.bytes ↔ revisionId first = id :=
        fun id => ObjectId.bytes_injective.eq_iff
      have htake : (∃ rev ∈ (last :: prev :: older).take 2, revisionId first = revisionId rev) ↔
          revisionId first = revisionId last ∨ revisionId first = revisionId prev := by
        simp [List.take]
      rw [hbuilds.subjects, hbytes, hbytes, htake]
      constructor
      · rintro (hlast | hprev | ⟨snap, hsnap, heq⟩)
        · exact Or.inl hlast
        · exact Or.inr hprev
        · exact absurd (List.mem_map.mpr ⟨snap, hsnap, heq.symm⟩) hother
      · rintro (hlast | hprev)
        · exact Or.inl hlast
        · exact Or.inr (Or.inl hprev)

end Builders

section Samples

/-! A draft that is restacked twice. -/

def stackSnapshot : Snapshot := ⟨.splat 8, .splat 8, none, none⟩

def stackDraft : Revision := sampleRevision (.splat 64) "draft" (.splat 3) []

def stackOnce : Revision :=
  { stackDraft with prev := some (.splat 0), parents := [.splat 9, .splat 0], time := 1 }

def stackTwice : Revision :=
  { stackDraft with prev := some (.splat 1), parents := [.splat 10, .splat 1], time := 2 }

def stackTable : List Object :=
  [.revision stackDraft, .revision stackOnce, .revision stackTwice, .snapshot stackSnapshot]

local instance stackHash : Crypto := .ofTable stackTable

theorem derivation_once : Derivation [stackOnce, stackDraft] := by
  have hbuilds : stackOnce = restacked (.splat 9) (.splat 3) stackDraft 1 := by decide +kernel
  exact List.isChain_pair.mpr (hbuilds ▸ .restack (.splat 9) (.splat 3) 1)

theorem derivation_twice : Derivation [stackTwice, stackOnce, stackDraft] := by
  have hbuilds : stackTwice = restacked (.splat 10) (.splat 3) stackOnce 2 := by decide +kernel
  exact List.isChain_cons_cons.mpr ⟨hbuilds ▸ .restack (.splat 10) (.splat 3) 2, derivation_once⟩

theorem stackOnce_snapshot : ∀ id ∈ stackOnce.snapshots.values, ∃ snap : Snapshot,
    .snapshot snap ∈ stackTable ∧ Crypto.objectId (.snapshot snap) = id := by
  intro id hid
  have hvalues : stackOnce.snapshots.values = [.splat 3] := by decide +kernel
  rw [hvalues, List.mem_singleton] at hid
  exact ⟨stackSnapshot, by decide +kernel, by rw [hid]; decide +kernel⟩

theorem approval_survives_once : ApprovalSurvives stackDraft stackOnce ↔
    ∃ rev ∈ [stackOnce, stackDraft].take 2, revisionId stackDraft = revisionId rev :=
  approval_survives_iff (S := stackTable) derivation_once rfl
    (collisionFree_ofTable (by decide) fun _ => id) (by decide +kernel) stackOnce_snapshot

/-- The approval of the draft is lost when it is restacked a second time. -/
theorem approval_lost_twice : Derivation [stackTwice, stackOnce, stackDraft] ∧
    ¬ ApprovalSurvives stackDraft stackTwice := by
  refine ⟨derivation_twice, fun hsurvives => ?_⟩
  rw [approvalSurvives_iff] at hsurvives
  revert hsurvives
  decide +kernel

end Samples

end Tessra.Oplog.Standard
