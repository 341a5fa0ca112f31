import Tessra.Oplog.Chains
import Tessra.Oplog.Clauses
import Tessra.Oplog.OwnChanges

namespace Tessra.Oplog

open Tessra.Core Tessra.Data StoreM OpLog Verify Standard

/-! Whose attestations a revision inherits. -/

namespace Standard

/-- The kinds of clauses that someone's say meets. -/
def approvalKinds : List String := ["approved", "judge", "attest"]

/-- What an attestation names that is about the revision itself. -/
def ownSubjects (id : ObjectId) (r : Revision) : List Bytes :=
  (id :: r.snapshots.values).map ObjectId.bytes

/-- No clause that someone's say meets holds of the revision by what was said about
another one. -/
def ApprovedItself (id : ObjectId) (r : Revision) : Prop :=
  ∀ ctx : Ctx, ctx.revision = r → ctx.subjects = subjectsOf id r → ∀ p : Predicate,
    p.kind ∈ approvalKinds → holds ctx p = .yes →
      holds { ctx with subjects := ownSubjects id r } p = .yes

variable {ctx : Ctx} {p : Predicate} {id : ObjectId} {r : Revision}

theorem onSubject_congr {subjects : List Bytes} (h : ∀ b, b ∈ subjects ↔ b ∈ ctx.subjects)
    (l : Loaded) : Ctx.onSubject { ctx with subjects } l = ctx.onSubject l := by
  unfold Ctx.onSubject
  cases l.att.subject with
  | none => rfl
  | some b => simp [h b]

/-- What a context is about matters only by its members. -/
theorem holds_congr_subjects {subjects : List Bytes} (h : ∀ b, b ∈ subjects ↔ b ∈ ctx.subjects)
    (hp : p.kind ∈ approvalKinds) :
    holds { ctx with subjects } p = .yes ↔ holds ctx p = .yes := by
  have hon := onSubject_congr h
  obtain ⟨fuel, hfuel⟩ := holds_succ ctx p
  obtain ⟨fuel', hfuel'⟩ := holds_succ { ctx with subjects } p
  rw [hfuel, hfuel']
  simp only [approvalKinds, List.mem_cons, List.not_mem_nil, or_false] at hp
  rcases hp with hkind | hkind | hkind
  · simp only [holdsAt_approved hkind, holdsApproved_eq_yes, approves, hon]
  · rw [holdsAt_judge hkind, holdsAt_judge hkind, holdsJudge_eq_yes, holdsJudge_eq_yes]
    simp only [votes, yesVotes, judgesOn, hon]
    rfl
  · rw [holdsAt_attest hkind, holdsAt_attest hkind]
    cases hscope : argText p "for" with
    | none =>
        simp only [holdsAttest_unscoped hscope, hon]
        rfl
    | some scope =>
        simp only [holdsAttest_scoped hscope]
        rfl

/-- A human's yes about an object. -/
def yesAbout (i : ObjectId) : Loaded where
  att := {
    kind := "approval.human"
    subject := some i.bytes
    bodies := none
    subjectType := none
    scope := none
    result := .bool true
    env := none
    verifier := zeroEntity
    runner := none
    evidence := none
    time := 0
    sigkind := "ed25519"
    sig := none }
  signerKind := some "human"
  signerParent := none
  signerModel := none
  signerName := none

/-- A context with no more than a human's yes about an object. -/
def yesContext (r : Revision) (subjects : List Bytes) (i : ObjectId) : Ctx where
  revision := r
  attests := [yesAbout i]
  subjects := subjects
  index := none
  parentIndex := none
  authorParent := none

theorem holds_yesContext {subjects : List Bytes} {i : ObjectId} :
    holds (yesContext r subjects i) humanApproved = .yes ↔ i.bytes ∈ subjects := by
  have hleaf : humanApproved.kind ∉ compoundKinds := by decide
  rw [holds_leaf hleaf, holdsAt_approved rfl, holdsApproved_eq_yes]
  simp only [yesContext, approves, yesAbout, humanApproved, argTrue, arg, truthy, Ctx.onSubject,
    Option.any_some, Option.getD_none, List.mem_singleton, exists_eq_left, true_and]
  simp only [decide_true, Bool.and_true, Option.bind_none, reduceCtorEq, decide_false,
    Bool.not_false, Bool.true_or]
  exact decide_eq_true_iff

/-- What a revision derived by a merge inherits counts for it, unless the revision that
it was derived from is itself or one of its snapshots. -/
theorem approvedItself_iff {parent : ObjectId} (hprev : r.prev = some parent)
    (hparents : r.parents[1]? = some parent) :
    ApprovedItself id r ↔ parent = id ∨ parent ∈ r.snapshots.values := by
  have hmem : parent.bytes ∈ ownSubjects id r ↔ parent = id ∨ parent ∈ r.snapshots.values := by
    rw [ownSubjects, List.mem_map_of_injective ObjectId.bytes_injective, List.mem_cons]
  have hsubjects : subjectsOf id r =
      id.bytes :: parent.bytes :: r.snapshots.values.map ObjectId.bytes := by
    simp [subjectsOf, hprev, hparents, Option.filter]
  rw [← hmem]
  constructor
  · intro h
    have hinherited : parent.bytes ∈ subjectsOf id r := by simp [hsubjects]
    have hyes := h (yesContext r (subjectsOf id r) parent) rfl rfl humanApproved (by decide)
      (holds_yesContext.mpr hinherited)
    exact holds_yesContext.mp hyes
  · intro hown ctx _ hctx p hp hyes
    refine (holds_congr_subjects (fun b => ?_) hp).mpr hyes
    rw [hctx, hsubjects]
    simp only [ownSubjects, List.map_cons, List.mem_cons] at hown ⊢
    constructor
    · rintro (h | h)
      · exact .inl h
      · exact .inr (.inr h)
    · rintro (h | rfl | h)
      · exact .inl h
      · exact hown
      · exact .inr h

end Standard

section Runs

variable [Crypto] {F S middle : Store} {log : OpLog} {op : Op} {v c v' : View}
  {cv cc : Contents} {past : List Delivery}

/-- The op points a change at the object, or lands it. -/
def Introduces (op : Op) (i : ObjectId) : Prop :=
  (∃ e source, .point e i source ∈ op.effects) ∨
    ∃ line source seq attests id, .head line i source seq attests id ∈ op.effects

/-- The op's author coordinates a line of the view that the op was made on. -/
def Coordinates (S : Store) (log : OpLog) (op : Op) : Prop :=
  ∃ name ls, lineAt S log op.parents name = some ls ∧ ls.coordinator = op.author

/-- Nothing that was said about another revision counts for one that the op
introduces. -/
def BoundToContent (F : Store) (op : Op) : Prop :=
  ∀ i, Introduces op i → ∀ r, (get Revision i).value F = .ok r → ∀ parent,
    r.prev = some parent → r.parents[1]? = some parent → ApprovedItself i r

/-- No revision that the op points a change at has as its second parent the one that
the change is at, or where the change is at none the one that it names as its last. -/
structure Unmerged (S F : Store) (log : OpLog) (op : Op) : Prop where
  current : ∀ e i source, .point e i source ∈ op.effects → ∀ r,
    (get Revision i).value F = .ok r → ∀ cur,
      (log.entityIn op.parents e).value S = .ok (some (.id cur)) → r.parents[1]? = some cur →
        cur = i ∨ cur ∈ r.snapshots.values
  other : ∀ e i source, .point e i source ∈ op.effects → ∀ r,
    (get Revision i).value F = .ok r →
      (∀ cur, (log.entityIn op.parents e).value S ≠ .ok (some (.id cur))) → ∀ parent,
        r.prev = some parent → r.parents[1]? = some parent →
          parent = i ∨ parent ∈ r.snapshots.values

theorem Vetted.no_head (h : Vetted S F middle log op v c v' cv cc)
    (hnonOwner : op.author ∉ v.owners) (hnot : ¬ Coordinates S log op) {line : String}
    {i : ObjectId} {source : Option Value} {seq : ℕ} {attests : List ObjectId}
    {id : Option EntityId} : .head line i source seq attests id ∉ op.effects := by
  intro he
  obtain ⟨landed, _, hlegal⟩ := h.checked.legal
  cases hls : v.lines.get? line with
  | none =>
      obtain ⟨howner, _⟩ := ran_checkHead_new hls (hlegal _ he)
      exact hnonOwner (of_decide_eq_true howner)
  | some ls =>
      obtain ⟨hcoordinator, _⟩ := ran_checkHead hls (hlegal _ he)
      exact hnot ⟨line, ls, by rw [lineAt_of_value h.parents.value, hls], hcoordinator⟩

/-- In every run, approvals of other revisions count for none that an accepted op of
someone who is neither an owner nor a coordinator introduces, exactly if it points no
change at a revision made to look like a merge of where the change is. -/
theorem boundToContent_iff (hrun : LogRun past S log)
    (hfree : CollisionFree ((log.accept op).after S)) (hnonOwner : NonOwner S log op)
    (hnot : ¬ Coordinates S log op) (hverified : Delivery.Verified ⟨S, log, op⟩) :
    BoundToContent ((log.accept op).after S) op ↔
      Unmerged S ((log.accept op).after S) log op := by
  obtain ⟨middle, v, c, v', cv, cc, hvetted⟩ :=
    hrun.reached.verified hnonOwner.1 hverified (List.Subset.refl _) hfree
  obtain ⟨_, owners, howners, hauthor⟩ := hnonOwner
  rw [hvetted.parents.ownersIn] at howners
  cases howners
  have hbefore := hfree.mono (List.Subset.trans hvetted.before hvetted.after)
  have hprev : ∀ e i source, .point e i source ∈ op.effects → ∀ r,
      (get Revision i).value ((log.accept op).after S) = .ok r → ∀ cur,
        (log.entityIn op.parents e).value S = .ok (some (.id cur)) → r.prev = some cur := by
    intro e i source he r hr cur hcur
    obtain ⟨landed, _, _, o, ho, rfl, hlegal⟩ := hvetted.point hfree he
    obtain ⟨hmem, hid⟩ := get_ok hr
    have hsame := hfree _ hmem _ ho hid
    subst hsame
    rw [hvetted.parents.entityIn hbefore, Except.ok.injEq, ← hvetted.parents.cells] at hcur
    exact hlegal.prev cur hcur
  constructor
  · intro h
    constructor
    · intro e i source he r hr cur hcur hsecond
      have hcurPrev := hprev e i source he r hr cur hcur
      exact (approvedItself_iff hcurPrev hsecond).mp
        (h i (.inl ⟨e, source, he⟩) r hr cur hcurPrev hsecond)
    · intro e i source he r hr _ parent hparent hsecond
      exact (approvedItself_iff hparent hsecond).mp
        (h i (.inl ⟨e, source, he⟩) r hr parent hparent hsecond)
  · intro h i hintroduces r hr parent hparent hsecond
    rw [approvedItself_iff hparent hsecond]
    rcases hintroduces with ⟨e, source, he⟩ | ⟨line, source, seq, attests, id, he⟩
    · by_cases hat : ∃ cur, (log.entityIn op.parents e).value S = .ok (some (.id cur))
      · obtain ⟨cur, hcur⟩ := hat
        have hsame := hparent.symm.trans (hprev e i source he r hr cur hcur)
        cases hsame
        exact h.current e i source he r hr parent hcur hsecond
      · exact h.other e i source he r hr (fun cur hcur => hat ⟨cur, hcur⟩) parent hparent hsecond
    · exact absurd he (hvetted.no_head hauthor hnot)

end Runs

section Samples

/-! A worker without any verb that has another tree inherit what was said of the
change. -/

def mergedDraft : Revision :=
  { sampleRevision (.splat 64) "draft" (.splat 255) [.splat 3, .splat 3] with
    prev := some (.splat 3) }

def inheritBase : List Object := [
  .principal ownerPrincipal,
  .principal helperPrincipal,
  .revision ownerDraft,
  .revision mergedDraft,
  .capability helperCapability]

local instance inheritHash : Crypto := .ofTable ([.trie .empty] ++ inheritBase ++ [
  .trie ⟨1#16, [ownerLeaf]⟩,
  .view { initView with entities := .splat 6 },
  .op forgeInit,
  .trie ⟨33#16, [ownerLeaf, workerLeaf]⟩,
  .trie ⟨1#16, [.leaf (ObjectId.splat 5).bytes .set]⟩,
  .trie ⟨49#16, forgeLeaves 3⟩,
  .view (forgeView (.splat 11)),
  .op forgeGrant,
  .trie ⟨49#16, forgeLeaves 4⟩,
  .view (forgeView (.splat 14)),
  .op forgeSnapshot])

def beforeInheriting : Store × OpLog := deliverAll inheritBase .new [forgeInit, forgeGrant]

def afterInheriting : Store := (beforeInheriting.2.accept forgeSnapshot).after beforeInheriting.1

private theorem worker_coordinates_nothing :
    ¬ Coordinates beforeInheriting.1 beforeInheriting.2 forgeSnapshot := by
  rintro ⟨name, ls, hls, _⟩
  have hview : (beforeInheriting.2.mergedView forgeSnapshot.parents).value beforeInheriting.1 =
      .ok (forgeView (.splat 11)) := by decide +kernel
  rw [lineAt_of_value hview] at hls
  cases hls

/-- The op is accepted, and a human's yes to the draft counts for another tree. -/
theorem approval_inherited :
    LogRun (deliveries inheritBase .new [forgeInit, forgeGrant]) beforeInheriting.1
      beforeInheriting.2 ∧
    CollisionFree afterInheriting ∧
    NonOwner beforeInheriting.1 beforeInheriting.2 forgeSnapshot ∧
    ¬ Coordinates beforeInheriting.1 beforeInheriting.2 forgeSnapshot ∧
    Delivery.Verified ⟨beforeInheriting.1, beforeInheriting.2, forgeSnapshot⟩ ∧
    ¬ BoundToContent afterInheriting forgeSnapshot := by
  refine ⟨logRun_deliverAll _ _, collisionFree_ofTable (by decide) (by decide +kernel),
    by decide +kernel, worker_coordinates_nothing, by decide +kernel, fun hbound => ?_⟩
  have hget : (get Revision (.splat 4)).value afterInheriting = .ok mergedDraft := by
    decide +kernel
  have hitself := hbound (.splat 4) (.inl ⟨_, _, List.mem_cons_self⟩) mergedDraft hget
    (.splat 3) rfl rfl
  rw [approvedItself_iff rfl rfl] at hitself
  revert hitself
  decide

theorem boundToContent_iff_inheriting :
    BoundToContent afterInheriting forgeSnapshot ↔
      Unmerged beforeInheriting.1 afterInheriting beforeInheriting.2 forgeSnapshot :=
  boundToContent_iff (logRun_deliverAll inheritBase [forgeInit, forgeGrant])
    (collisionFree_ofTable (by decide) (by decide +kernel)) (by decide +kernel)
    worker_coordinates_nothing (by decide +kernel)

end Samples

end Tessra.Oplog
