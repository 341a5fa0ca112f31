import Tessra.Oplog.Conflicts
import Tessra.Oplog.Effects

namespace Tessra.Oplog

open Tessra.Core Tessra.Data StoreM OpLog Verify Relation

/-! The landed revisions of views, and which ops keep them landed. -/

section Landed

variable [Crypto] {S S' : Store} {v : View} {head rev x y : ObjectId}

theorem landedNext_ok (h : y ∈ landedNext S x) :
    ∃ r, Object.revision r ∈ S ∧ Crypto.objectId (.revision r) = x ∧
      landedNext S x = r.parents := by
  unfold landedNext at h ⊢
  cases hfind : S.find? fun o => Crypto.objectId o = x with
  | none => simp [hfind] at h
  | some o =>
      rw [hfind] at h
      cases o with
      | revision r =>
          exact ⟨r, List.mem_of_find?_eq_some hfind, by simpa using List.find?_some hfind, rfl⟩
      | _ => cases h

theorem landedNext_of_mem (hfree : CollisionFree S) {r : Revision} (hr : Object.revision r ∈ S) :
    landedNext S (Crypto.objectId (.revision r)) = r.parents := by
  have hfound : ∃ o, S.find? (fun o => Crypto.objectId o = Crypto.objectId (.revision r)) =
      some o :=
    Option.isSome_iff_exists.mp (List.find?_isSome.mpr ⟨_, hr, by simp⟩)
  obtain ⟨o, ho⟩ := hfound
  have hsame := hfree o (List.mem_of_find?_eq_some ho) _ hr (by simpa using List.find?_some ho)
  rw [landedNext, ho, hsame]

theorem landedNext_mono (hsub : S ⊆ S') (hfree : CollisionFree S') (h : y ∈ landedNext S x) :
    y ∈ landedNext S' x := by
  obtain ⟨r, hr, rfl, hparents⟩ := landedNext_ok h
  rwa [landedNext_of_mem hfree (hsub hr), ← hparents]

/-- A revision is `head` or reachable from it through parents. -/
def Reaches (S : Store) : ObjectId → ObjectId → Prop :=
  ReflTransGen fun x y => y ∈ landedNext S x

theorem Reaches.mono (h : Reaches S head rev) (hsub : S ⊆ S') (hfree : CollisionFree S') :
    Reaches S' head rev :=
  h.lift (fun x => x) fun _ _ => landedNext_mono hsub hfree

/-- The step of the walk over the landed revisions. -/
def landedStep (S : Store) (x : ObjectId) : Except Error (List ObjectId) := .ok (landedNext S x)

theorem reaches_iff : ReflTransGen (StepsTo (landedStep S)) head rev ↔ Reaches S head rev := by
  have hstep : StepsTo (landedStep S) = fun x y => y ∈ landedNext S x := by
    funext x y
    simp [StepsTo, landedStep]
  rw [hstep]
  exact Iff.rfl

/-- What a line's head names or reaches is landed. -/
def Landed (S : Store) (v : View) (rev : ObjectId) : Prop :=
  ∃ head ∈ headRevisions v, Reaches S head rev

theorem sum_landedStep_le (dom : Finset ObjectId) :
    ∑ x ∈ dom, outDegree (landedStep S) x ≤ (S.map landedCount).sum := by
  rw [← Finset.sum_filter_ne_zero]
  have hobject : ∀ x ∈ dom.filter fun x => outDegree (landedStep S) x ≠ 0,
      ∃ o ∈ S, Crypto.objectId o = x ∧ outDegree (landedStep S) x ≤ landedCount o := by
    intro x hx
    have hdegree := (Finset.mem_filter.mp hx).2
    obtain ⟨y, hy⟩ := List.exists_mem_of_length_pos (Nat.pos_of_ne_zero hdegree)
    obtain ⟨r, hr, hid, hparents⟩ := landedNext_ok hy
    exact ⟨_, hr, hid, by rw [outDegree, landedStep, hparents]; exact le_rfl⟩
  have hnonempty : Nonempty Object := ⟨.blob []⟩
  choose! object hmem hid hcount using hobject
  refine sum_outDegree_le (f := object) ?_ hmem hcount
  intro x hx y hy heq
  rw [← hid x hx, ← hid y hy, heq]

/-- The walk from some revisions ends. -/
theorem exists_walk (S : Store) (starts : List ObjectId) :
    ∃ walked, worklist (landedStep S) .outOfFuel (starts.length + (S.map landedCount).sum) []
      starts = .ok walked := by
  let dom := starts.toFinset ∪ (S.flatMap fun o => landedNext S (Crypto.objectId o)).toFinset
  refine worklist_ok dom (fun x _ => ⟨_, rfl, fun y hy => ?_⟩) (fun x hx => ?_) ?_
  · obtain ⟨r, hr, rfl, _⟩ := landedNext_ok hy
    exact Finset.mem_union_right _ (List.mem_toFinset.mpr (List.mem_flatMap.mpr ⟨_, hr, hy⟩))
  · exact Finset.mem_union_left _ (List.mem_toFinset.mpr hx)
  · have hsum := sum_landedStep_le (S := S) dom
    simp only [List.toFinset_nil, Finset.sdiff_empty]
    exact Nat.add_le_add_left hsum _

theorem value_landedRevisions (S : Store) (v : View) :
    ∃ landed, (landedRevisions v).value S = .ok landed ∧ ∀ rev, rev ∈ landed ↔ Landed S v rev := by
  have hlanded : ∃ landed, (landedRevisions v).value S = .ok landed :=
    exists_walk S (headRevisions v)
  obtain ⟨landed, hlanded⟩ := hlanded
  refine ⟨landed, hlanded, fun rev => ?_⟩
  have hpending : Pending (landedStep S) [] (headRevisions v) := by
    intro y hy
    cases hy
  have hmem := mem_worklist hpending hlanded rev
  simp only [List.not_mem_nil, false_or, reaches_iff] at hmem
  exact hmem

theorem Landed.mono (h : Landed S v rev) (hsub : S ⊆ S') (hfree : CollisionFree S') :
    Landed S' v rev := by
  obtain ⟨head, hhead, hreaches⟩ := h
  exact ⟨head, hhead, hreaches.mono hsub hfree⟩

end Landed

section Runs

variable [Crypto] {F S S' : Store} {log : OpLog} {op : Op} {ops : List ObjectId} {v v' : View}
  {c : Contents} {rev : ObjectId} {past : List Delivery}

/-- The landed revisions of the merged view of ops. -/
def OpLog.landedIn (log : OpLog) (ops : List ObjectId) : StoreM (List ObjectId) := do
  landedRevisions (← log.mergedView ops)

theorem Reads.landedIn (h : Reads F S log ops v c) :
    ∃ landed, (log.landedIn ops).value S = .ok landed ∧
      ∀ rev, rev ∈ landed ↔ Landed ((log.mergedView ops).after S) v rev := by
  rw [OpLog.landedIn, (bind_of_ok h.value).1]
  exact value_landedRevisions _ v

/-- A revision is landed once the lines of a view have the heads that an op gives
them. -/
def LandedBy (S : Store) (op : Op) (v : View) (rev : ObjectId) : Prop :=
  ∃ line head, (lastHead line op.effects = some head ∨
    lastHead line op.effects = none ∧ head ∈ namedAt v line) ∧ Reaches S head rev

/-- What the heads of the lines that an op moves named is landed afterwards. -/
def Advances (S : Store) (op : Op) (v : View) : Prop :=
  ∀ line to_, lastHead line op.effects = some to_ → ∀ i ∈ namedAt v line, LandedBy S op v i

omit [Crypto] in
theorem mem_headRevisions_produced (hheads : ∀ line,
      headAt v' line = headOver (headAt v line) (lastHead line op.effects)) {i : ObjectId} :
    i ∈ headRevisions v' ↔ ∃ line, lastHead line op.effects = some i ∨
      lastHead line op.effects = none ∧ i ∈ namedAt v line := by
  rw [mem_headRevisions]
  refine exists_congr fun line => ?_
  cases hlast : lastHead line op.effects with
  | none =>
      have hsame : headAt v' line = headAt v line := by rw [hheads, hlast]; rfl
      simp [namedAt_of_head hsame]
  | some to_ =>
      have hto : headAt v' line = some (Pointer.id to_).toValue := by rw [hheads, hlast]; rfl
      simp [namedAt_of_id hto, eq_comm]

theorem landed_produced (hheads : ∀ line,
      headAt v' line = headOver (headAt v line) (lastHead line op.effects)) :
    Landed S v' rev ↔ LandedBy S op v rev := by
  simp only [Landed, LandedBy, mem_headRevisions_produced hheads]
  constructor
  · intro h
    obtain ⟨head, ⟨line, hhead⟩, hreaches⟩ := h
    exact ⟨line, head, hhead, hreaches⟩
  · intro h
    obtain ⟨line, head, hhead, hreaches⟩ := h
    exact ⟨head, ⟨line, hhead⟩, hreaches⟩

/-- No landed revision is lost exactly if the op advances its lines. -/
theorem landed_kept_iff (hsub : S ⊆ S') (hfree : CollisionFree S') :
    (∀ rev, Landed S v rev → LandedBy S' op v rev) ↔ Advances S' op v := by
  constructor
  · intro h line to_ _ i hi
    exact h i ⟨i, mem_headRevisions.mpr ⟨line, hi⟩, .refl⟩
  · intro h rev hrev
    obtain ⟨head, hhead, hreaches⟩ := hrev
    obtain ⟨line, hline⟩ := mem_headRevisions.mp hhead
    have hreaches := Reaches.mono hreaches hsub hfree
    cases hlast : lastHead line op.effects with
    | none => exact ⟨line, head, .inr ⟨hlast, hline⟩, hreaches⟩
    | some to_ =>
        obtain ⟨line', head', hhead', hreaches'⟩ := h line to_ hlast head hline
        exact ⟨line', head', hhead', hreaches'.trans hreaches⟩

theorem Vetted.headAt {middle : Store} {cur : View} {cv cc : Contents}
    (h : Vetted S F middle log op v cur v' cv cc) (hfree : CollisionFree F) (line : String) :
    headAt v' line = headOver (headAt v line) (lastHead line op.effects) := by
  obtain ⟨_, _, hhead⟩ := h.applied.ensures hfree fun _ _ =>
    ensures_apply_head op.effects op.parents.head? line
  exact hhead

theorem verifyOp_empty (hparents : op.parents = []) (hvalue : (verifyOp log op).value S = .ok v')
    (hfree : CollisionFree ((verifyOp log op).after S)) :
    (log.mergedView op.parents).after S ⊆ (verifyOp log op).after S ∧
      ∃ v, (log.mergedView op.parents).value S = .ok v ∧ ∀ line, namedAt v line = [] := by
  have hunfold : verifyOp log op = verifyInit log op := by
    rw [verifyOp, if_pos (by rw [hparents]; rfl)]
  rw [hunfold] at hvalue hfree ⊢
  obtain ⟨_, _, hrest⟩ := (ran_of_value hvalue).bind
  obtain ⟨_, _, hrest⟩ := hrest.bind
  obtain ⟨_, _, hrest⟩ := hrest.bind
  obtain ⟨_, _, hrest⟩ := hrest.bind
  obtain ⟨_, _, hrest⟩ := hrest.bind
  obtain ⟨v, hempty, _⟩ := hrest.bind
  obtain ⟨_, _, _, hlines, _⟩ := hempty.ensures hfree fun _ _ => returns_empty.ensures
  obtain ⟨start, hstart, hend, hv⟩ := hempty
  rw [hparents]
  refine ⟨fun o ho => hend ?_, v, hv, fun line => ?_⟩
  · rcases List.mem_append.mp ho with ho | ho
    · exact List.mem_append_left _ (hstart ho)
    · exact List.mem_append_right _ ho
  · rw [namedAt, Oplog.headAt, hlines]
    rfl

theorem LogReached.parentsRead (h : LogReached S log)
    (hfree : CollisionFree ((log.accept op).after S)) (hverified : Delivery.Verified ⟨S, log, op⟩) :
    (log.mergedView op.parents).after S ⊆ (log.accept op).after S ∧
      ∃ v c, Reads ((log.accept op).after S) S log op.parents v c ∧
        (op.parents = [] → ∀ line, namedAt v line = []) := by
  by_cases hparents : op.parents = []
  · obtain ⟨hnew, ⟨id, log'⟩, hvalue⟩ := hverified
    obtain ⟨_, _, hall, v', hv', hafter⟩ := accept_verified hnew hvalue
    have hsub : (verifyOp log op).after S ⊆ (log.accept op).after S :=
      hafter ▸ List.subset_append_left _ _
    obtain ⟨hF, v, hv, hnone⟩ := verifyOp_empty hparents hv' (hfree.mono hsub)
    obtain ⟨v₁, c, hreads⟩ := h.reads hall (List.Subset.trans hF hsub) hfree
    have hsame := hv.symm.trans hreads.value
    cases hsame
    exact ⟨List.Subset.trans hF hsub, v, c, hreads, fun _ => hnone⟩
  · obtain ⟨middle, v, _, v', c, _, hvetted⟩ :=
      h.verified hparents hverified (List.Subset.refl _) hfree
    exact ⟨List.Subset.trans hvetted.before hvetted.after, v, c, hvetted.parents,
      fun hnil => absurd hnil hparents⟩

/-- In every run, what was landed in the view that an accepted op was made on is
landed in the view that it produces, exactly if the op advances the lines that it
moves. -/
theorem landed_grows_iff (hrun : LogRun past S log)
    (hfree : CollisionFree ((log.accept op).after S)) (hverified : Delivery.Verified ⟨S, log, op⟩) :
    ∃ v before after, (log.mergedView op.parents).value S = .ok v ∧
      (log.landedIn op.parents).value S = .ok before ∧
      ((log.deliver op S).landedIn [Crypto.objectId (.op op)]).value ((log.accept op).after S) =
        .ok after ∧
      (before ⊆ after ↔ Advances ((log.accept op).after S) op v) := by
  obtain ⟨v₁, c₁, hproduced⟩ := hrun.produced hfree hverified
  obtain ⟨after, hafter, hmemAfter⟩ := hproduced.reads.landedIn
  rw [mergedView_singleton, readOnly_viewOf] at hmemAfter
  obtain ⟨hsub, v, c, hreads, hnone⟩ := hrun.reached.parentsRead hfree hverified
  obtain ⟨before, hbefore, hmemBefore⟩ := hreads.landedIn
  refine ⟨v, before, after, hreads.value, hbefore, hafter, ?_⟩
  rw [← landed_kept_iff hsub hfree]
  refine forall_congr' fun rev => ?_
  rw [hmemBefore, hmemAfter]
  by_cases hparents : op.parents = []
  · refine iff_of_true (fun hrev => ?_) fun hrev => ?_
    all_goals
      obtain ⟨head, hhead, _⟩ := hrev
      obtain ⟨line, hline⟩ := mem_headRevisions.mp hhead
      rw [hnone hparents] at hline
      cases hline
  · obtain ⟨middle, v', _, v₂, _, _, hvetted⟩ :=
      hrun.reached.verified hparents hverified (List.Subset.refl _) hfree
    have hsame := hreads.value.symm.trans hvetted.parents.value
    cases hsame
    have hsame := hvetted.produced_eq hproduced (List.Subset.refl _) hfree
    subst hsame
    rw [landed_produced (hvetted.headAt hfree)]

end Runs

section Samples

/-! A coordinator that lands a revision beside the head. -/

def rootRevision : Revision := sampleRevision (.splat 96) "root" (.splat 5) []

def rootLand : Op :=
  ownerOp "land" [.splat 14]
    [.head "trunk" (.splat 15) (some (Pointer.id (.splat 6)).toValue) 1 [] none] (.splat 16)

local instance rootHash : Crypto := .ofTable (conflictTable.take 15 ++ [
  .revision rootRevision,
  .view { landView with lines := landTrunk (.splat 15) 1 },
  .op rootLand])

/-- The store and log that the landing meets. -/
def beforeRoot : Store × OpLog := deliverAll (conflictBase ++ [.revision rootRevision]) .new [landInit]

def afterRoot : Store := (beforeRoot.2.accept rootLand).after beforeRoot.1

/-- The landing is accepted, and what was landed before no longer is. -/
theorem base_not_landed :
    LogRun (deliveries (conflictBase ++ [.revision rootRevision]) .new [landInit]) beforeRoot.1
      beforeRoot.2 ∧
    CollisionFree afterRoot ∧ Delivery.Verified ⟨beforeRoot.1, beforeRoot.2, rootLand⟩ ∧
    (beforeRoot.2.landedIn rootLand.parents).value beforeRoot.1 = .ok [.splat 6] ∧
    ((beforeRoot.2.deliver rootLand beforeRoot.1).landedIn [Crypto.objectId (.op rootLand)]).value
      afterRoot = .ok [.splat 15] :=
  ⟨logRun_deliverAll _ _, collisionFree_ofTable (by decide) (by decide +kernel),
    by decide +kernel, by decide +kernel, by decide +kernel⟩

theorem landed_grows_iff_root :
    ∃ v before after, (beforeRoot.2.mergedView rootLand.parents).value beforeRoot.1 = .ok v ∧
      (beforeRoot.2.landedIn rootLand.parents).value beforeRoot.1 = .ok before ∧
      ((beforeRoot.2.deliver rootLand beforeRoot.1).landedIn
        [Crypto.objectId (.op rootLand)]).value afterRoot = .ok after ∧
      (before ⊆ after ↔ Advances afterRoot rootLand v) :=
  landed_grows_iff (logRun_deliverAll _ _)
    (collisionFree_ofTable (by decide) (by decide +kernel)) (by decide +kernel)

end Samples

end Tessra.Oplog
