import Tessra.Oplog.ViewLaws

namespace Tessra.Oplog

open Tessra.Core Tessra.Data StoreM

/-! Views over whole runs: those reached from the view before init by effects
and merges, and those obtained from a base by effects alone. -/

section Runs

variable [Crypto] {S : Store} {views : List View} {base a b v : View}

/-- The stores and views of runs, between which any objects may be put. -/
inductive ViewsReached : Store → List View → Prop
  | start : ViewsReached [] []
  | put {S : Store} {views : List View} (o : Object) :
      ViewsReached S views → ViewsReached (S ++ [o]) views
  | empty {S : Store} {views : List View} {v : View} :
      ViewsReached S views → ViewState.empty.value S = .ok v →
      ViewsReached (ViewState.empty.after S) (v :: views)
  | apply {S : Store} {views : List View} {v v' : View} (effects : List Effect)
      (parentOp : Option ObjectId) : ViewsReached S views → v ∈ views →
      (ViewState.apply v effects parentOp).value S = .ok v' →
      ViewsReached ((ViewState.apply v effects parentOp).after S) (v' :: views)
  | merge {S : Store} {views : List View} {base a b v : View} :
      ViewsReached S views → base ∈ views → a ∈ views → b ∈ views →
      (ViewState.merge base a b).value S = .ok v →
      ViewsReached ((ViewState.merge base a b).after S) (v :: views)

/-- A view reached from a reached base by applying lists of effects. -/
inductive Obtained (base : View) : Store → View → Prop
  | base {S : Store} {views : List View} :
      ViewsReached S views → base ∈ views → Obtained base S base
  | put {S : Store} {a : View} (o : Object) : Obtained base S a → Obtained base (S ++ [o]) a
  | apply {S : Store} {a a' : View} (effects : List Effect) (parentOp : Option ObjectId) :
      Obtained base S a → (ViewState.apply a effects parentOp).value S = .ok a' →
      Obtained base ((ViewState.apply a effects parentOp).after S) a'

theorem ViewsReached.sound (h : ViewsReached S views) (hfree : CollisionFree S) :
    ∀ v ∈ views, ∃ c, Sound S v c := by
  induction h with
  | start => simp
  | put o _ ih =>
      intro v hv
      obtain ⟨c, hc⟩ := ih (hfree.mono (List.subset_append_left _ _)) v hv
      exact ⟨c, hc.mono (List.subset_append_left _ _)⟩
  | @empty S views v _ hvalue ih =>
      intro v' hv'
      rcases List.mem_cons.mp hv' with rfl | hv'
      · exact ⟨_, (returns_empty.ensures hfree v' hvalue).1⟩
      · obtain ⟨c, hc⟩ := ih (hfree.mono (subset_after _ S)) v' hv'
        exact ⟨c, hc.mono (subset_after _ S)⟩
  | @apply S views v v₁ effects parentOp _ hv hvalue ih =>
      have hviews := ih (hfree.mono (subset_after _ S))
      intro v' hv'
      rcases List.mem_cons.mp hv' with rfl | hv'
      · obtain ⟨c, hc⟩ := hviews v hv
        exact ⟨_, (ensures_apply hc effects parentOp hfree v' hvalue).1⟩
      · obtain ⟨c, hc⟩ := hviews v' hv'
        exact ⟨c, hc.mono (subset_after _ S)⟩
  | @merge S views base a b v₁ _ hbase ha hb hvalue ih =>
      have hviews := ih (hfree.mono (subset_after _ S))
      intro v' hv'
      rcases List.mem_cons.mp hv' with rfl | hv'
      · obtain ⟨cbase, hbase⟩ := hviews base hbase
        obtain ⟨ca, ha⟩ := hviews a ha
        obtain ⟨cb, hb⟩ := hviews b hb
        exact ⟨_, ((returns_merge hbase ha hb).ensures hfree v' hvalue).1⟩
      · obtain ⟨c, hc⟩ := hviews v' hv'
        exact ⟨c, hc.mono (subset_after _ S)⟩

/-- What an obtained view owes to its base. -/
theorem Obtained.sound (h : Obtained base S a) (hfree : CollisionFree S) :
    ∃ cbase ca, Sound S base cbase ∧ Sound S a ca ∧ LinesFrom base a ∧ cbase.Grows ca := by
  induction h with
  | base hreached hmem =>
      obtain ⟨c, hc⟩ := hreached.sound hfree base hmem
      exact ⟨c, c, hc, hc, .of_eq rfl, fun _ hk => hk, fun _ hk => hk⟩
  | put o _ ih =>
      obtain ⟨cbase, ca, hbase, ha, hlines, hgrows⟩ :=
        ih (hfree.mono (List.subset_append_left _ _))
      exact ⟨cbase, ca, hbase.mono (List.subset_append_left _ _),
        ha.mono (List.subset_append_left _ _), hlines, hgrows⟩
  | @apply S a a' effects parentOp _ hvalue ih =>
      obtain ⟨cbase, ca, hbase, ha, hlines, hgrows⟩ := ih (hfree.mono (subset_after _ S))
      obtain ⟨ha', hlines'⟩ := ensures_apply ha effects parentOp hfree a' hvalue
      have hgrows' := Contents.actAll_grows effects ca
      exact ⟨cbase, _, hbase.mono (subset_after _ S), ha', hlines.trans hlines',
        fun k hk => hgrows'.revoked k (hgrows.revoked k hk),
        fun k hk => hgrows'.tombstoned k (hgrows.tombstoned k hk)⟩

theorem Obtained.merge_left (ha : Obtained base S a)
    (hfree : CollisionFree ((ViewState.merge base a base).after S)) :
    (ViewState.merge base a base).value S =
        .ok { a with paused := mergePaused a.paused base.paused } := by
  obtain ⟨cbase, ca, hbase, ha, hlines, hgrows⟩ := ha.sound (hfree.mono (subset_after _ S))
  obtain ⟨v, hv, hsound, hparts⟩ := returns_merge hbase ha hbase hfree
  rw [hv]
  obtain ⟨entities, proposed, claims, caps, revoked, tombstoned, lines, roots, owners,
    deployed, paused⟩ := v
  obtain ⟨rfl, rfl, rfl, rfl, rfl⟩ := hparts
  congr 1
  simp only [View.mk.injEq, and_true]
  refine ⟨?_, ?_, ?_, ?_, ?_, ?_, mergeLines_left hlines, mergeSetVec_left _ ha.roots,
    mergeSetVec_left _ ha.owners, mergeDeployed_left _ _⟩
  · exact hsound.entities.unique ha.entities fun k _ => by
      simp only [Contents.merge, threeWay_left]
  · exact hsound.proposed.unique ha.proposed fun k _ => by
      simp only [Contents.merge, threeWay_left]
  · exact hsound.claims.unique ha.claims fun k _ => by
      simp only [Contents.merge, threeWay_left]
  · exact hsound.caps.unique ha.caps fun k _ => by
      simp only [Contents.merge, threeWay_left]
  · exact hsound.revoked.unique ha.revoked fun k _ =>
      union_left ha.revoked_set hbase.revoked_set hgrows.revoked k
  · exact hsound.tombstoned.unique ha.tombstoned fun k _ =>
      union_left ha.tombstoned_set hbase.tombstoned_set hgrows.tombstoned k

theorem Obtained.merge_right (hb : Obtained base S b)
    (hfree : CollisionFree ((ViewState.merge base base b).after S)) :
    (ViewState.merge base base b).value S =
        .ok { b with paused := mergePaused base.paused b.paused } := by
  obtain ⟨cbase, cb, hbase, hb, hlines, hgrows⟩ := hb.sound (hfree.mono (subset_after _ S))
  obtain ⟨v, hv, hsound, hparts⟩ := returns_merge hbase hbase hb hfree
  rw [hv]
  obtain ⟨entities, proposed, claims, caps, revoked, tombstoned, lines, roots, owners,
    deployed, paused⟩ := v
  obtain ⟨rfl, rfl, rfl, rfl, rfl⟩ := hparts
  congr 1
  simp only [View.mk.injEq, and_true]
  refine ⟨?_, ?_, ?_, ?_, ?_, ?_, mergeLines_right hlines, ?_, ?_, ?_⟩
  · exact hsound.entities.unique hb.entities fun k _ => by
      simp only [Contents.merge, threeWay_right]
  · exact hsound.proposed.unique hb.proposed fun k _ => by
      simp only [Contents.merge, threeWay_right]
  · exact hsound.claims.unique hb.claims fun k _ => by
      simp only [Contents.merge, threeWay_right]
  · exact hsound.caps.unique hb.caps fun k _ => by
      simp only [Contents.merge, threeWay_right]
  · exact hsound.revoked.unique hb.revoked fun k _ =>
      union_right hb.revoked_set hbase.revoked_set hgrows.revoked k
  · exact hsound.tombstoned.unique hb.tombstoned fun k _ =>
      union_right hb.tombstoned_set hbase.tombstoned_set hgrows.tombstoned k
  · rw [mergeSetVec_comm, mergeSetVec_left _ hb.roots]
  · rw [mergeSetVec_comm, mergeSetVec_left _ hb.owners]
  · rw [mergeDeployed_comm, mergeDeployed_left]

/-- Where one side is the base, the merge is the other side. -/
def TakesOnlySide (S : Store) (base a b : View) : Prop :=
  (ViewState.merge base a base).value S = .ok a ∧
    (ViewState.merge base base b).value S = .ok b

/-- The sides' pauses are sorted, the first resumed nothing of the base, and
the second kept each pause of the base as it was. -/
def PausesKept (base a b : Option (List PauseState)) : Prop :=
  (SortedScopes a ∧ ∀ p ∈ base.getD [], ∃ q ∈ a.getD [], q.scope = p.scope) ∧
    (SortedScopes b ∧ ∀ p ∈ base.getD [], p ∈ b.getD [])

theorem takesOnlySide_iff (ha : Obtained base S a) (hb : Obtained base S b)
    (hfree : CollisionFree ((ViewState.merge base a base).after S))
    (hfree' : CollisionFree ((ViewState.merge base base b).after S)) :
    TakesOnlySide S base a b ↔ PausesKept base.paused a.paused b.paused := by
  have hstart := hfree.mono (subset_after _ S)
  obtain ⟨_, _, hbaseSound, haSound, _, _⟩ := ha.sound hstart
  obtain ⟨_, _, _, hbSound, _, _⟩ := hb.sound hstart
  rw [TakesOnlySide, ha.merge_left hfree, hb.merge_right hfree', PausesKept,
    ← mergePaused_left haSound.paused hbaseSound.paused,
    ← mergePaused_right hbSound.paused hbaseSound.paused]
  apply and_congr
  · constructor
    · intro h
      exact congrArg View.paused (Except.ok.inj h)
    · intro h
      rw [h]
  · constructor
    · intro h
      exact congrArg View.paused (Except.ok.inj h)
    · intro h
      rw [h]

/-- The merge does not depend on which side comes first, and keeps both heads
of a line that moved to different revisions on the two sides. -/
def MergesAlike (S : Store) (base a b : View) : Prop :=
  (ViewState.merge base a b).value S = (ViewState.merge base b a).value S ∧
    ∀ v, (ViewState.merge base a b).value S = .ok v → ∀ name x y,
      MovedApart base a b name x y → ∃ m ids, v.lines.get? name = some m ∧
        lineHead m = some (.conflict ids) ∧
        ∀ p, lineHead x = some p ∨ lineHead y = some p → p.ids ⊆ ids

theorem mergesAlike_iff (ha : Obtained base S a) (hb : Obtained base S b)
    (hfree : CollisionFree ((ViewState.merge base a b).after S))
    (hfree' : CollisionFree ((ViewState.merge base b a).after S)) :
    MergesAlike S base a b ↔
      LinesAgree base.lines a.lines b.lines ∧ PausedAgree a.paused b.paused := by
  have hstart := hfree.mono (subset_after _ S)
  obtain ⟨cbase, ca, hbaseSound, haSound, hafrom, _⟩ := ha.sound hstart
  obtain ⟨_, cb, _, hbSound, hbfrom, _⟩ := hb.sound hstart
  obtain ⟨v, hv, hsound, hparts⟩ := returns_merge hbaseSound haSound hbSound hfree
  obtain ⟨w, hw, hsound', hparts'⟩ := returns_merge hbaseSound hbSound haSound hfree'
  rw [← mergeLines_comm hafrom hbfrom haSound.heads hbSound.heads,
    ← mergePaused_comm haSound.paused hbSound.paused, MergesAlike, hv, hw]
  rw [Contents.merge_comm] at hsound'
  constructor
  · intro h
    obtain rfl := Except.ok.inj h.1
    exact ⟨hparts.lines.symm.trans hparts'.lines, hparts.paused.symm.trans hparts'.paused⟩
  · intro h
    obtain ⟨hlines, hpaused⟩ := h
    refine ⟨congrArg Except.ok ?_, ?_⟩
    · have hroots : v.roots = w.roots := by
        rw [hparts.roots, hparts'.roots, mergeSetVec_comm]
      have howners : v.owners = w.owners := by
        rw [hparts.owners, hparts'.owners, mergeSetVec_comm]
      have hdeployed : v.deployed = w.deployed := by
        rw [hparts.deployed, hparts'.deployed, mergeDeployed_comm]
      have hline : v.lines = w.lines := by
        rw [hparts.lines, hparts'.lines, hlines]
      have hpause : v.paused = w.paused := by
        rw [hparts.paused, hparts'.paused, hpaused]
      obtain ⟨_, _, _, _, _, _, _, _, _, _, _⟩ := v
      obtain ⟨_, _, _, _, _, _, _, _, _, _, _⟩ := w
      simp only [View.mk.injEq]
      exact ⟨hsound.entities.unique hsound'.entities fun _ _ => rfl,
        hsound.proposed.unique hsound'.proposed fun _ _ => rfl,
        hsound.claims.unique hsound'.claims fun _ _ => rfl,
        hsound.caps.unique hsound'.caps fun _ _ => rfl,
        hsound.revoked.unique hsound'.revoked fun _ _ => rfl,
        hsound.tombstoned.unique hsound'.tombstoned fun _ _ => rfl,
        hline, hroots, howners, hdeployed, hpause⟩
    · intro v' hv' name x y hmoved
      cases hv'
      rw [hparts.lines]
      cases hbase : base.lines.get? name with
      | some bs => exact hmoved.joined hafrom hbfrom hbase
      | none =>
          have hagree := (mergeLines_comm hafrom hbfrom haSound.heads hbSound.heads).mp hlines
          exact absurd (hagree name x y hbase hmoved.first hmoved.second).2.1 hmoved.apart

end Runs

section Samples

/-! Views over empty tries: a pause that one side takes back, and a line that
both sides create. -/

def emptyTries : List Object := [.trie .empty]

local instance emptyHash : Crypto := .ofTable emptyTries

def initialView : View where
  entities := .splat 0
  proposed := .splat 0
  claims := .splat 0
  caps := .splat 0
  revoked := .splat 0
  tombstoned := .splat 0
  lines := ∅
  roots := []
  owners := []
  deployed := ∅
  paused := none

def ownedView : View := { initialView with owners := [.splat 1] }

def pausedView : View := { ownedView with paused := some [⟨"", .splat 1, .splat 9⟩] }

def trunkView (head : ObjectId) : View :=
  { ownedView with
    lines := (∅ : OrdMap String LineState).insert "trunk"
      ⟨.splat 7, (Pointer.id head).toValue, 0, .splat 1⟩ }

private theorem initial_reached : ViewsReached emptyTries [initialView] :=
  .empty .start rfl

private theorem owned_reached : ViewsReached emptyTries [ownedView, initialView] :=
  .apply (v := initialView) [.owner (.splat 1)] none initial_reached (by decide) rfl

private theorem paused_reached :
    ViewsReached emptyTries [pausedView, ownedView, initialView] :=
  .apply (v := ownedView) [.pause ""] (some (.splat 9)) owned_reached (by decide) rfl

private theorem resumed_obtained : Obtained pausedView emptyTries ownedView :=
  .apply (a := pausedView) [.resume ""] none (.base paused_reached (by decide)) rfl

private theorem paused_obtained : Obtained pausedView emptyTries pausedView :=
  .base paused_reached (by decide)

private theorem trunk_obtained (head : ObjectId) :
    Obtained ownedView emptyTries (trunkView head) :=
  .apply (a := ownedView) [.head "trunk" head none 0 [] (some (.splat 7))] none
    (.base owned_reached (by decide)) rfl

private theorem merge_free (base a b : View)
    (h : ∀ o ∈ (ViewState.merge base a b).after emptyTries, o ∈ emptyTries) :
    CollisionFree ((ViewState.merge base a b).after emptyTries) :=
  collisionFree_ofTable (by decide) h

/-- A resume on one side comes undone when the other side is the base. -/
theorem resume_comes_undone : Obtained pausedView emptyTries ownedView ∧
    Obtained pausedView emptyTries pausedView ∧
    CollisionFree ((ViewState.merge pausedView ownedView pausedView).after emptyTries) ∧
    CollisionFree ((ViewState.merge pausedView pausedView pausedView).after emptyTries) ∧
    ¬ TakesOnlySide emptyTries pausedView ownedView pausedView := by
  refine ⟨resumed_obtained, paused_obtained, merge_free _ _ _ (by decide +kernel),
    merge_free _ _ _ (by decide +kernel), fun h => ?_⟩
  have hvalue : (ViewState.merge pausedView ownedView pausedView).value emptyTries ≠
      .ok ownedView := by decide +kernel
  exact hvalue h.1

theorem takesOnlySide_paused : TakesOnlySide emptyTries pausedView pausedView pausedView ↔
    PausesKept pausedView.paused pausedView.paused pausedView.paused :=
  takesOnlySide_iff paused_obtained paused_obtained (merge_free _ _ _ (by decide +kernel))
    (merge_free _ _ _ (by decide +kernel))

/-- A line created on both sides ends at the second side's head. -/
theorem created_line_loses_head : Obtained ownedView emptyTries (trunkView (.splat 2)) ∧
    Obtained ownedView emptyTries (trunkView (.splat 3)) ∧
    CollisionFree ((ViewState.merge ownedView (trunkView (.splat 2))
      (trunkView (.splat 3))).after emptyTries) ∧
    CollisionFree ((ViewState.merge ownedView (trunkView (.splat 3))
      (trunkView (.splat 2))).after emptyTries) ∧
    ¬ MergesAlike emptyTries ownedView (trunkView (.splat 2)) (trunkView (.splat 3)) := by
  refine ⟨trunk_obtained _, trunk_obtained _, merge_free _ _ _ (by decide +kernel),
    merge_free _ _ _ (by decide +kernel), fun h => ?_⟩
  have hvalue : (ViewState.merge ownedView (trunkView (.splat 2))
      (trunkView (.splat 3))).value emptyTries ≠
      (ViewState.merge ownedView (trunkView (.splat 3)) (trunkView (.splat 2))).value
        emptyTries := by decide +kernel
  exact hvalue h.1

theorem mergesAlike_trunk :
    MergesAlike emptyTries ownedView (trunkView (.splat 2)) (trunkView (.splat 2)) ↔
      LinesAgree ownedView.lines (trunkView (.splat 2)).lines (trunkView (.splat 2)).lines ∧
        PausedAgree (trunkView (.splat 2)).paused (trunkView (.splat 2)).paused :=
  mergesAlike_iff (trunk_obtained _) (trunk_obtained _) (merge_free _ _ _ (by decide +kernel))
    (merge_free _ _ _ (by decide +kernel))

end Samples

end Tessra.Oplog
