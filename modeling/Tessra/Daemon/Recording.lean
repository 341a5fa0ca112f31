import Tessra.Daemon.Revisions
import Tessra.Oplog.Building

namespace Tessra.Daemon

open Tessra.Core Tessra.Data Tessra.Oplog StoreM OpLog Verify Relation

/-! The op that a snapshot builds, and when its verification accepts it. -/

section Record

variable [Crypto]

/-- Who a verb acts for. -/
structure Actor where
  signer : Signer
  cap : Option ObjectId

/-- Record what a snapshot found in a workspace as the next revision of the change,
or as a new change over a landed revision, and build its op. -/
def recordSnapshot (log : OpLog) (actor : Actor) (idem : Bytes) (w : Workspace) (found : Found)
    (now : ℤ) : StoreM Op := do
  let curId := w.revision
  let cur ← get Revision curId
  let view ← log.currentView
  let landed ← landedRevisions view
  let rev := snapshotted (decide (curId ∈ landed)) curId cur w.pending
    { found with author := actor.signer.principal }
  let revId ← put rev
  let point ← pointEffect log rev.id revId
  buildOp log actor.signer actor.cap "snapshot" (argsWithIdem idem ∅) [.put revId, point] now

/-- The author stands in a view: active under its key, not revoked, and an owner or
the subject of an active capability that an owner's chain vouches for. -/
structure Standing (S : Store) (v : View) (actor : Actor) : Prop where
  author : ∃ version p, (resolvePrincipal v actor.signer.principal).value S =
    .ok (some (version, p)) ∧ p.status = "active" ∧ p.key = some actor.signer.key
  unrevoked : (ViewState.principalRevoked v actor.signer.principal).value S = .ok false
  authorized : actor.signer.principal ∉ v.owners → ∃ capId cap, actor.cap = some capId ∧
    (ViewState.inSet v.caps capId).value S = .ok true ∧ (get Capability capId).value S = .ok cap ∧
    cap.subject = actor.signer.principal ∧ (checkChain v cap capId).value S = .ok ()

/-- Every landed revision is in the store. -/
def HistoryStored (S : Store) (v : View) : Prop :=
  ∀ x, Landed S v x → ∃ r, .revision r ∈ S ∧ Crypto.objectId (.revision r) = x

end Record

section Accepted

variable [Crypto] {S S' T : Store} {log : OpLog} {actor : Actor} {v : View} {c : Contents}
  {op : Op} {x : ObjectId}

theorem returns_require {holds : Bool} {e : Error} (h : holds = true) :
    (require holds e).Returns S fun _ S' => S' = S := by
  rw [h]
  exact returns_pure rfl

theorem returns_orThrow {α : Type} {a : α} {e : Error} :
    (orThrow (some a) e).Returns S fun b S' => b = a ∧ S' = S := returns_pure ⟨rfl, rfl⟩

theorem HistoryStored.landed_iff (h : HistoryStored S v) (hsub : S ⊆ S')
    (hfree : CollisionFree S') : Landed S' v x ↔ Landed S v x := by
  refine ⟨fun hlanded => ?_, fun hlanded => hlanded.mono hsub hfree⟩
  obtain ⟨head, hhead, hreaches⟩ := hlanded
  refine ⟨head, hhead, ?_⟩
  induction hreaches with
  | refl => exact .refl
  | @tail y z _ hnext ih =>
      obtain ⟨r, hr, rfl⟩ := h y ⟨head, hhead, ih⟩
      refine ih.tail ?_
      rw [landedNext_of_mem hfree (hsub hr)] at hnext
      rwa [landedNext_of_mem (hfree.mono hsub) hr]

/-- What the checks of verification return on an op whose author stands. -/
theorem Standing.returns_author (h : Standing T v actor) (hT : T.Sublist S)
    (hauthor : op.author = actor.signer.principal) (hkey : op.key = actor.signer.key) :
    (checkAuthorAtParents v op).Returns S fun version S' => T.Sublist S' ∧
      ∃ p, (resolvePrincipal v op.author).value T = .ok (some (version, p)) ∧
        p.status = "active" := by
  obtain ⟨version, p, hresolve, hactive, hsame⟩ := h.author
  rw [← hauthor] at hresolve
  refine ((stable_resolvePrincipal v op.author).answers hresolve hT).bind ?_
  rintro _ S₁ _ ⟨rfl, hT₁⟩
  refine Returns.bind returns_orThrow ?_
  rintro _ _ _ ⟨rfl, rfl⟩
  refine Returns.bind (returns_require (by simpa using hactive)) ?_
  rintro _ _ _ rfl
  refine Returns.bind (returns_require (by simpa [hkey] using hsame)) ?_
  rintro _ _ _ rfl
  exact returns_pure ⟨hT₁, p, hresolve, hactive⟩

theorem Standing.returns_current (h : Standing T v actor) (hT : T.Sublist S)
    (hauthor : op.author = actor.signer.principal) {version : ObjectId} {p : Principal}
    (hresolve : (resolvePrincipal v op.author).value T = .ok (some (version, p)))
    (hactive : p.status = "active") :
    (checkAuthorAtCurrent v op version).Returns S fun _ S' => T.Sublist S' := by
  have hunrevoked := h.unrevoked
  rw [← hauthor] at hunrevoked
  refine ((stable_principalRevoked v op.author).answers hunrevoked hT).bind ?_
  rintro _ S₁ _ ⟨rfl, hT₁⟩
  refine Returns.bind (returns_require rfl) ?_
  rintro _ _ _ rfl
  refine ((stable_resolvePrincipal v op.author).answers hresolve hT₁).bind ?_
  rintro _ S₂ _ ⟨rfl, hT₂⟩
  refine Returns.bind (returns_require (by simp)) ?_
  rintro _ _ _ rfl
  exact (returns_require (by simpa using hactive)).mono fun _ _ _ hS => hS ▸ hT₂

/-- A capability authorizes an op of a verb that needs no grant, where it authorizes
the effects. -/
theorem Standing.returns_authorization (h : Standing T v actor) (hT : T.Sublist S)
    (hauthor : op.author = actor.signer.principal) (hcap : op.cap = actor.cap)
    (hkind : op.kind ∈ ungated) (hnot : actor.signer.principal ∉ v.owners)
    (heffects : ∀ cap S', S ⊆ S' →
      (op.effects.forM (authorizeEffect v cap)).Returns S' fun _ _ => True) :
    (checkAuthorization v v op).Returns S fun _ S' => T.Sublist S' := by
  obtain ⟨capId, cap, hsome, hin, hget, hsubject, hchain⟩ := h.authorized hnot
  rw [← hcap] at hsome
  unfold checkAuthorization
  rw [hsome]
  refine Returns.bind returns_orThrow ?_
  rintro _ _ _ ⟨rfl, rfl⟩
  refine ((stable_inSet v.caps _).answers hin hT).bind ?_
  rintro _ S₁ hsub₁ ⟨rfl, hT₁⟩
  refine Returns.bind (returns_require rfl) ?_
  rintro _ _ _ rfl
  refine ((stable_inSet v.caps _).answers hin hT₁).bind ?_
  rintro _ S₂ hsub₂ ⟨rfl, hT₂⟩
  refine Returns.bind (returns_require rfl) ?_
  rintro _ _ _ rfl
  refine ((stable_get Capability _).answers hget hT₂).bind ?_
  rintro _ S₃ hsub₃ ⟨rfl, hT₃⟩
  refine Returns.bind (returns_require (by simp [hsubject, hauthor])) ?_
  rintro _ _ _ rfl
  refine ((stable_checkChainFrom v 64 _ _).answers hchain hT₃).bind ?_
  rintro _ S₄ hsub₄ ⟨-, hT₄⟩
  refine Returns.bind (returns_require (by simp [hkind])) ?_
  rintro _ _ _ rfl
  have hsub := List.Subset.trans (List.Subset.trans hsub₁ hsub₂) (List.Subset.trans hsub₃ hsub₄)
  exact (heffects _ _ hsub).traced.mono fun _ _ _ hS => hT₄.trans hS.1

/-- A snapshot's move of a change, and the revision that it moves the change to. -/
structure Moves (T S : Store) (v : View) (op : Op) (rev : Revision) (current : Option Pointer) :
    Prop where
  kind : op.kind = "snapshot"
  writes : op.effects = [.put (revisionId rev),
    .point rev.id (revisionId rev) (current.map Pointer.toValue)]
  stored : .revision rev ∈ S
  points : (ViewState.entity v rev.id).value T = .ok current

theorem Moves.point_mem {rev : Revision} {current : Option Pointer}
    (h : Moves T S v op rev current) :
    .point rev.id (revisionId rev) (current.map Pointer.toValue) ∈ op.effects := by
  rw [h.writes]
  exact List.mem_cons_of_mem _ List.mem_cons_self

theorem Moves.returns_effects {rev : Revision} {current : Option Pointer} (cap : Capability)
    (h : Moves T S v op rev current) (hsub : S ⊆ S') :
    (op.effects.forM (authorizeEffect v cap)).Returns S' fun _ _ => True := by
  rw [h.writes]
  refine Returns.bind (P := fun _ S₁ => S₁ = S') (returns_pure rfl) ?_
  rintro _ S₁ _ rfl
  refine Returns.bind (P := fun _ S₂ => S₂ = S₁) ?_ fun _ _ _ _ => returns_pure trivial
  refine Returns.bind (P := fun o S₂ => o = some (.revision rev) ∧ S₂ = S₁)
    (returns_getBytes (hsub h.stored) ⟨rfl, rfl⟩) ?_
  rintro _ S₂ _ ⟨rfl, rfl⟩
  refine Returns.bind returns_orThrow ?_
  rintro _ S₃ _ ⟨rfl, rfl⟩
  exact returns_pure rfl

theorem returns_checkFrom {entity : EntityId} {current : Option Pointer} :
    (checkFrom entity current (current.map Pointer.toValue)).Returns S fun _ S' => S' = S := by
  cases current with
  | none => exact returns_require rfl
  | some p => exact returns_require (by simp)

theorem returns_checkRevisionMove {landed : List ObjectId} {entity : EntityId}
    {current : Option Pointer} {r : Revision} (h : RevisionMove op landed entity current r) :
    (checkRevisionMove landed op entity current r).Returns S fun _ S' => S' = S := by
  refine Returns.bind (returns_require (by simpa using h.id)) ?_
  rintro _ S₁ _ rfl
  cases current with
  | none => exact returns_pure rfl
  | some p =>
      cases p with
      | conflict ids => exact returns_pure rfl
      | id cur =>
          refine Returns.bind (returns_require (by simpa using h.unlanded cur rfl)) ?_
          rintro _ S₂ _ rfl
          exact returns_require (by simpa using h.prev cur rfl)

/-- Where every landed set of the view allows the move, verification passes it. -/
theorem Moves.returns_legality {rev : Revision} {current : Option Pointer}
    {records : List (String × Bytes)} {isOwner : Bool} (h : Moves T S v op rev current)
    (hT : T.Sublist S') (hsub : S ⊆ S')
    (hallowed : ∀ landed, (landedRevisions v).value S' = .ok landed →
      RevisionMove op landed rev.id current rev) :
    (checkLegality records v op isOwner).Returns S' fun _ _ => True := by
  obtain ⟨landed, hlanded, -⟩ := value_landedRevisions S' v
  have hwalk : (landedRevisions v).Returns S' fun landed' S₁ => landed' = landed ∧ S₁ = S' :=
    fun _ => ⟨landed, hlanded, rfl, List.append_nil S'⟩
  have hmove := hallowed landed hlanded
  refine hwalk.bind ?_
  rintro _ S₁ _ ⟨rfl, rfl⟩
  rw [h.writes]
  refine Returns.bind (P := fun _ S₂ => S₂ = S₁) (returns_pure rfl) ?_
  rintro _ S₂ _ rfl
  refine Returns.bind (P := fun _ _ => True) ?_ fun _ _ _ _ => returns_pure trivial
  refine ((stable_entity v rev.id).answers h.points hT).bind ?_
  rintro _ S₃ hsub₃ ⟨rfl, -⟩
  refine Returns.bind returns_checkFrom ?_
  rintro _ S₄ _ rfl
  refine Returns.bind (P := fun o S₅ => o = some (.revision rev) ∧ S₅ = S₄)
    (returns_getBytes (hsub₃ (hsub h.stored)) ⟨rfl, rfl⟩) ?_
  rintro _ S₅ _ ⟨rfl, rfl⟩
  refine Returns.bind returns_orThrow ?_
  rintro _ S₆ _ ⟨rfl, rfl⟩
  exact (returns_checkRevisionMove hmove).mono fun _ _ _ _ => trivial

/-- Who stands may make any move of a change that the landed revisions allow. -/
theorem Moves.returns_checkOp {rev : Revision} {current : Option Pointer}
    (h : Moves T S v op rev current) (hstanding : Standing T v actor) (hT : T.Sublist S')
    (hsub : S ⊆ S') (hauthor : op.author = actor.signer.principal)
    (hkey : op.key = actor.signer.key) (hcap : op.cap = actor.cap)
    (hsigned : verifyWith op op.key = .ok ())
    (hallowed : ∀ S'' landed, S' ⊆ S'' → CollisionFree S'' →
      (landedRevisions v).value S'' = .ok landed → RevisionMove op landed rev.id current rev) :
    (checkOp log v v op).Returns S' fun _ _ => True := by
  refine (hstanding.returns_author hT hauthor hkey).bind ?_
  rintro version S₁ hsub₁ ⟨hT₁, p, hresolve, hactive⟩
  refine (hstanding.returns_current hT₁ hauthor hresolve hactive).bind ?_
  rintro _ S₂ hsub₂ hT₂
  have hpassed : (requireSigned op op.key (.rejected 5 "signature")).Returns S₂
      fun _ S₃ => S₃ = S₂ := by
    rw [requireSigned, hsigned]
    exact returns_pure rfl
  refine hpassed.bind ?_
  rintro _ S₃ _ rfl
  have hsub₃ := List.Subset.trans hsub₁ hsub₂
  have hlegal : ∀ S₄, S₃ ⊆ S₄ → T.Sublist S₄ →
      (checkLegality log.records v op (decide (op.author ∈ v.owners))).Returns S₄
        fun _ _ => True := by
    intro S₄ hsub₄ hT₄
    refine Returns.of_free fun hfree => ?_
    have hsub₄ := List.Subset.trans hsub₃ hsub₄
    exact h.returns_legality hT₄ (List.Subset.trans hsub hsub₄) fun landed hlanded =>
      hallowed S₄ landed hsub₄ hfree hlanded
  by_cases howner : op.author ∈ v.owners
  · simp only [howner, decide_true, if_true] at hlegal ⊢
    exact hlegal S₃ (List.Subset.refl _) hT₂
  · simp only [howner, decide_false, Bool.false_eq_true, if_false] at hlegal ⊢
    refine (hstanding.returns_authorization hT₂ hauthor hcap ?_ (hauthor ▸ howner) ?_).bind ?_
    · rw [h.kind]
      decide
    · intro cap S₄ hsub₄
      exact h.returns_effects cap (List.Subset.trans hsub (List.Subset.trans hsub₃ hsub₄))
    · rintro _ S₄ hsub₄ hT₄
      exact hlegal S₄ hsub₄ hT₄

/-- A built snapshot: whether the workspace held a landed revision, and the pointer
that the change had. -/
structure Snapped (T S' : Store) (log : OpLog) (v : View) (actor : Actor) (w : Workspace)
    (cur : Revision) (found : Found) (op : Op) (landed : Bool) (current : Option Pointer) :
    Prop where
  moves : Moves T S' v op (snapshotted landed w.revision cur w.pending
    { found with author := actor.signer.principal }) current
  built : ∃ next, Built log actor.signer actor.cap "snapshot" op.effects v next S' op

theorem value_entity (hsound : Sound S v c) (hfree : CollisionFree S) (e : EntityId) :
    (ViewState.entity v e).value S = .ok ((c.at (.entity e)).bind Pointer.fromTrie) := by
  obtain ⟨_, hx, rfl, _⟩ := hsound.at (.entity e) ((readOnly_trieGet _ _ S).symm ▸ hfree)
  exact (bind_of_ok hx).1

theorem returns_apply_point (hsound : Sound T v c) (put_ : ObjectId) (e : EntityId) (to_ : ObjectId)
    (source : Option Value) (parent : Option ObjectId) (hsub : T ⊆ S) :
    (ViewState.apply v [.put put_, .point e to_ source] parent).Returns S fun _ _ => True := by
  refine Returns.bind (P := fun v' _ => v' = v) (returns_pure rfl) ?_
  rintro _ S₁ hsub₁ rfl
  refine Returns.bind (P := fun _ _ => True) ?_ fun _ _ _ _ => returns_pure trivial
  have hentities := hsound.entities.mono (List.Subset.trans hsub hsub₁)
  refine (returns_insert hentities (by decide) e.length_bytes (.id to_)).bind ?_
  exact fun _ _ _ _ => returns_pure trivial

theorem returns_pointEffect {e : EntityId} {to_ : ObjectId} {current : Option Pointer}
    (hv : log.currentView.value S = .ok v) (hT : (log.currentView.after S).Sublist S')
    (hpoints : (ViewState.entity v e).value (log.currentView.after S) = .ok current) :
    (pointEffect log e to_).Returns S' fun effect S'' =>
      effect = .point e to_ (current.map Pointer.toValue) ∧ S'.Sublist S'' := by
  have hS := (List.sublist_append_left S _).trans hT
  refine ((stable_mergedView log.heads).returns hv hS).traced.bind ?_
  rintro v S₁ _ ⟨hsub₁, -, rfl, hT₁⟩
  refine ((stable_entity v e).answers hpoints hT₁).traced.bind ?_
  rintro current S₂ _ ⟨hsub₂, -, rfl, -⟩
  exact returns_pure ⟨rfl, hsub₁.trans hsub₂⟩

theorem returns_recordSnapshot {w : Workspace} {cur : Revision} {found : Found} {idem : Bytes}
    {now : ℤ} (hv : log.currentView.value S = .ok v)
    (hsound : Sound (log.currentView.after S) v c)
    (hcur : (get Revision w.revision).value S = .ok cur) (hstored : HistoryStored S v) :
    (recordSnapshot log actor idem w found now).Returns S fun op S' =>
      (log.currentView.after S).Sublist S' ∧
      ∃ landed current, (landed = true ↔ Landed S v w.revision) ∧
        Snapped (log.currentView.after S) S' log v actor w cur found op landed current := by
  refine ((stable_get Revision _).answers hcur (List.Sublist.refl S)).bind ?_
  rintro cur S₁ hsub₁ ⟨rfl, hS₁⟩
  refine ((stable_mergedView log.heads).returns hv hS₁).bind ?_
  rintro v S₂ hsub₂ ⟨rfl, hT₂⟩
  refine Returns.of_free fun hfree₂ => ?_
  have hfreeT := hfree₂.mono hT₂.subset
  obtain ⟨landed, hlanded, hmem⟩ := value_landedRevisions S₂ v
  have hwalk : (landedRevisions v).Returns S₂ fun landed' S₃ => landed' = landed ∧ S₃ = S₂ :=
    fun _ => ⟨landed, hlanded, rfl, List.append_nil S₂⟩
  refine hwalk.bind ?_
  rintro landed S₃ _ ⟨rfl, rfl⟩
  have hstarts : S ⊆ S₃ := List.Subset.trans hsub₁ hsub₂
  have hdecided : decide (w.revision ∈ landed) = true ↔ Landed S v w.revision := by
    rw [decide_eq_true_iff, hmem, hstored.landed_iff hstarts hfree₂]
  have hput : ∀ rev : Revision, (put rev).Returns S₃ fun revId S₄ =>
      revId = revisionId rev ∧ S₃.Sublist S₄ ∧ .revision rev ∈ S₄ := fun rev _ =>
    ⟨_, rfl, rfl, List.sublist_append_left _ _,
      List.mem_append_right _ (List.mem_singleton_self _)⟩
  refine (hput _).bind ?_
  rintro revId S₄ hsub₄ ⟨rfl, hS₄, hrev⟩
  have hpoints := fun e => value_entity hsound hfreeT e
  refine (returns_pointEffect hv (hT₂.trans hS₄) (hpoints _)).bind ?_
  rintro _ S₅ hsub₅ ⟨rfl, hS₅⟩
  have hT₅ := hT₂.trans (hS₄.trans hS₅)
  have hS := (List.sublist_append_left S _).trans hT₅
  refine Returns.mono (Returns.traced (returns_buildOp hv hS fun S' hsub =>
    returns_apply_point hsound _ _ _ _ _ (List.Subset.trans hT₅.subset hsub))) ?_
  rintro op S₆ _ ⟨hS₆, -, ⟨next, hbuilt⟩, hT₆⟩
  exact ⟨hT₆, _, _, hdecided,
    { moves :=
        { kind := hbuilt.kind
          writes := hbuilt.writes
          stored := hS₆.subset (hS₅.subset hrev)
          points := hpoints _ }
      built := ⟨next, hbuilt.writes ▸ hbuilt⟩ }⟩

/-- A snapshot in a workspace, verified on the log that it was built on. -/
def verifySnapshot (log : OpLog) (actor : Actor) (idem : Bytes) (w : Workspace) (found : Found)
    (now : ℤ) : StoreM View := do
  verifyOp log (← recordSnapshot log actor idem w found now)

/-- The change is at the revision that the workspace holds, or at no single one. -/
def AtCurrent (S : Store) (v : View) (change : EntityId) (curId : ObjectId) : Prop :=
  ∀ p, (ViewState.entity v change).value S = .ok (some (.id p)) → p = curId

theorem Snapped.allowed {w : Workspace} {cur : Revision} {found : Found} {landed : Bool}
    {current : Option Pointer} {next : List ObjectId}
    (h : Snapped T S log v actor w cur found op landed current)
    (hfresh : (ViewState.entity v found.fresh).value T = .ok none)
    (hlanded : landed = false → w.revision ∉ next ∧ AtCurrent T v cur.id w.revision) :
    RevisionMove op next (snapshotted landed w.revision cur w.pending
      { found with author := actor.signer.principal }).id current
      (snapshotted landed w.revision cur w.pending
        { found with author := actor.signer.principal }) := by
  have hpoints := h.moves.points
  cases landed with
  | true =>
      change (ViewState.entity v found.fresh).value T = _ at hpoints
      rw [hfresh] at hpoints
      cases hpoints
      exact ⟨rfl, nofun, nofun⟩
  | false =>
      obtain ⟨hnot, hat⟩ := hlanded rfl
      change (ViewState.entity v cur.id).value T = _ at hpoints
      refine ⟨rfl, fun p hp => ?_, fun p hp => ?_⟩
      · subst hp
        exact .inl (hat p hpoints ▸ hnot)
      · subst hp
        exact congrArg some (hat p hpoints).symm

/-- A verified snapshot of a change moved it from the revision that the workspace held. -/
theorem Snapped.atCurrent {w : Workspace} {cur : Revision} {found : Found}
    {current : Option Pointer} {v' : View} (hrun : LogReached S log) (hheads : log.heads ≠ [])
    (h : Snapped T S log v actor w cur found op false current)
    (hfree : CollisionFree ((verifyOp log op).after S))
    (hvalue : (verifyOp log op).value S = .ok v') : AtCurrent T v cur.id w.revision := by
  obtain ⟨next, hbuilt⟩ := h.built
  have hparents : op.parents ≠ [] := hbuilt.parents ▸ hheads
  obtain ⟨middle, _, _, cv, _, hvetted⟩ :=
    hrun.vetted hparents hvalue (List.Subset.refl _) hfree
  obtain ⟨landed, _, hfrom, o, ho, hid, hlegal⟩ := hvetted.point hfree h.moves.point_mem
  have hrev := hfree o ho _ (subset_after _ S h.moves.stored) hid
  subst hrev
  intro p hp
  have hcurrent := h.moves.points.symm.trans hp
  cases hcurrent
  have hprev := hlegal.prev p (by rw [← hfrom]; simp)
  exact (Option.some.inj hprev).symm

/-- On every reachable log and in every workspace whose revision is stored, a snapshot
by who stands builds an op that verification accepts, exactly if the workspace holds a
landed revision or the one that its change is at. -/
theorem snapshot_accepted_iff (actor : Actor) (w : Workspace) (cur : Revision) (found : Found)
    (idem : Bytes) (now : ℤ) (hrun : LogReached S log) (hheads : log.heads ≠ [])
    (hfree : CollisionFree ((verifySnapshot log actor idem w found now).after S))
    (hv : log.currentView.value S = .ok v)
    (hstanding : Standing (log.currentView.after S) v actor)
    (hcur : (get Revision w.revision).value S = .ok cur) (hstored : HistoryStored S v)
    (hfresh : (ViewState.entity v found.fresh).value (log.currentView.after S) = .ok none) :
    (∃ v', (verifySnapshot log actor idem w found now).value S = .ok v') ↔
      Landed S v w.revision ∨ AtCurrent (log.currentView.after S) v cur.id w.revision := by
  have hcurrentFree : CollisionFree (log.currentView.after S) := by
    refine hfree.mono (List.Subset.trans ?_ (subset_after_bind _ _ S))
    rw [recordSnapshot, (bind_of_ok hcur).2, readOnly_get]
    exact subset_after_bind _ _ S
  obtain ⟨v₁, c, hreads⟩ := hrun.reads (hrun.keeps (hcurrentFree.mono (subset_after _ S))).heads
    (List.Subset.refl _) hcurrentFree
  have hverified := (hrun.keeps (hcurrentFree.mono (subset_after _ S))).heads
  cases hv.symm.trans hreads.value
  have hsound := hreads.sound
  constructor
  · rintro ⟨v', hvalue⟩
    obtain ⟨op, hop, hverify, hafter⟩ := bind_ok hvalue
    rw [verifySnapshot, hafter] at hfree
    have hfreeOp := hfree.mono (subset_after (verifyOp log op) _)
    obtain ⟨op', hop', hT, landed, current, hlanded, hsnapped⟩ :=
      returns_recordSnapshot hv hsound hcur hstored hfreeOp
    cases hop.symm.trans hop'
    cases landed with
    | true => exact .inl (hlanded.mp rfl)
    | false => exact .inr (hsnapped.atCurrent hrun.putAll hheads hfree hverify)
  · intro hat
    have hverifies : (verifySnapshot log actor idem w found now).Returns S fun _ _ => True := by
      refine (returns_recordSnapshot hv hsound hcur hstored).traced.bind ?_
      rintro op S' hsub ⟨hS', -, hT, landed, current, hlanded, hsnapped⟩
      obtain ⟨next, hbuilt⟩ := hsnapped.built
      refine (hbuilt.returns_verifyOp hheads hverified hv hS' fun S₁ hT₁ hsub₁ => ?_).mono
        fun _ _ _ _ => trivial
      refine hsnapped.moves.returns_checkOp hstanding hT₁ hsub₁.subset hbuilt.author hbuilt.key
        hbuilt.cap hbuilt.signed fun S₂ next hsub₂ hfree₂ hvalue => ?_
      refine hsnapped.allowed hfresh fun hfalse => ?_
      have hnot : ¬ Landed S v w.revision := by simp [← hlanded, hfalse]
      refine ⟨fun hmem => hnot ?_, hat.resolve_left hnot⟩
      obtain ⟨next', hnext', hiff⟩ := value_landedRevisions S₂ v
      cases hvalue.symm.trans hnext'
      have hsub₂ := List.Subset.trans hsub (List.Subset.trans hsub₁.subset hsub₂)
      exact (hstored.landed_iff hsub₂ hfree₂).mp ((hiff _).mp hmem)
    obtain ⟨v', hv', -⟩ := hverifies hfree
    exact ⟨v', hv'⟩

end Accepted

section Samples

/-! A change that two workspaces hold: one snapshots it twice, the other was made from
the first of these snapshots. -/

def sampleFound (time : ℤ) : Found := ⟨.splat 96, .splat 5, none, .splat 1, time, none⟩

def trunkWorkspace : Workspace := ⟨.splat 70, .splat 6, none, []⟩

def firstWorkspace : Workspace := ⟨.splat 70, .splat 6, some (.splat 15), []⟩

/-- The workspace that `create` makes from the first snapshot. -/
def laterWorkspace : Workspace := ⟨.splat 71, .splat 15, some (.splat 15), []⟩

def sampleIdem (n : ℕ) : Bytes := (EntityId.splat n).bytes

def firstSnapshot : Revision :=
  snapshotted true (.splat 6) (sampleRevision (.splat 64) "base" (.splat 5) []) [] (sampleFound 1)

def nextSnapshot (time : ℤ) : Revision :=
  snapshotted false (.splat 15) firstSnapshot [] (sampleFound time)

def changeTrie (rev : ObjectId) : TrieNode :=
  ⟨77#16, [.leaf (EntityId.splat 1).bytes (.id (.splat 1)),
    .leaf (EntityId.splat 32).bytes (.id (.splat 3)),
    .leaf (EntityId.splat 48).bytes (.id (.splat 2)),
    .leaf (EntityId.splat 96).bytes (.id rev)]⟩

def snapshotOp (n : ℕ) (parent rev : ObjectId) (source : Option ObjectId) (view : ObjectId) : Op :=
  { ownerOp "snapshot" [parent] [.put rev,
      .point (.splat 96) rev (source.map fun id => (Pointer.id id).toValue)] view with
    args := argsWithIdem (sampleIdem n) ∅ }

def recordTable : List Object := conflictTable.take 15 ++ [
  .revision firstSnapshot,
  .trie (changeTrie (.splat 15)),
  .view { landView with entities := .splat 16 },
  .op (snapshotOp 1 (.splat 14) (.splat 15) none (.splat 17)),
  .revision (nextSnapshot 2),
  .trie (changeTrie (.splat 19)),
  .view { landView with entities := .splat 20 },
  .op (snapshotOp 2 (.splat 18) (.splat 19) (some (.splat 15)) (.splat 21)),
  .revision (nextSnapshot 3),
  .trie (changeTrie (.splat 23)),
  .view { landView with entities := .splat 24 }]

local instance recordHash : Crypto := .ofTable recordTable

def ownerActor : Actor := ⟨⟨.splat 1, ownerKey, fun _ => ownerSig, fun _ => rfl⟩, none⟩

/-- The log after init and some of the snapshots of the first workspace. -/
def recorded (snapshots : ℕ) : Store × OpLog :=
  acceptAll ([] ++ (conflictBase ++ [.revision firstSnapshot, .revision (nextSnapshot 2)])) .new
    ([landInit, snapshotOp 1 (.splat 14) (.splat 15) none (.splat 17),
      snapshotOp 2 (.splat 18) (.splat 19) (some (.splat 15)) (.splat 21)].take (snapshots + 1))

private theorem recorded_reached (n : ℕ) : LogReached (recorded n).1 (recorded n).2 :=
  LogReached.new.putAll.acceptAll

/-- The first workspace snapshots its change twice.  In a workspace made from the first
of these snapshots, the owner's snapshot is rejected. -/
theorem snapshot_blocked :
    LogReached (recorded 2).1 (recorded 2).2 ∧
    (recordSnapshot (recorded 0).2 ownerActor (sampleIdem 1) trunkWorkspace (sampleFound 1) 0).value
      (recorded 0).1 = .ok (snapshotOp 1 (.splat 14) (.splat 15) none (.splat 17)) ∧
    (recordSnapshot (recorded 1).2 ownerActor (sampleIdem 2) firstWorkspace (sampleFound 2) 0).value
      (recorded 1).1 = .ok (snapshotOp 2 (.splat 18) (.splat 19) (some (.splat 15)) (.splat 21)) ∧
    (recorded 2).2.heads = [.splat 22] ∧
    (verifySnapshot (recorded 2).2 ownerActor (sampleIdem 3) laterWorkspace (sampleFound 3) 0).value
      (recorded 2).1 = .error (.rejected 7 "prev" "revision prev must be the current version") :=
  ⟨recorded_reached 2, by decide +kernel, by decide +kernel, by decide +kernel, by decide +kernel⟩

private theorem historyStored_recorded : HistoryStored (recorded 0).1 landView := by
  obtain ⟨landed, hlanded, hmem⟩ := value_landedRevisions (recorded 0).1 landView
  have hone : (landedRevisions landView).value (recorded 0).1 = .ok [.splat 6] := by decide +kernel
  cases hlanded.symm.trans hone
  intro x hx
  cases List.mem_singleton.mp ((hmem x).mpr hx)
  exact ⟨sampleRevision (.splat 64) "base" (.splat 5) [], by decide +kernel, by decide +kernel⟩

theorem snapshot_accepted_over_landed :
    (∃ v', (verifySnapshot (recorded 0).2 ownerActor (sampleIdem 1) trunkWorkspace (sampleFound 1)
        0).value (recorded 0).1 = .ok v') ↔
      Landed (recorded 0).1 landView (.splat 6) ∨
        AtCurrent ((recorded 0).2.currentView.after (recorded 0).1) landView (.splat 64)
          (.splat 6) :=
  snapshot_accepted_iff ownerActor trunkWorkspace (sampleRevision (.splat 64) "base" (.splat 5) [])
    (sampleFound 1) (sampleIdem 1) 0 (recorded_reached 0) (by decide +kernel) (collisionFree_ofTable (by decide) (by decide +kernel))
    (by decide +kernel)
    ⟨⟨.splat 1, ownerPrincipal, by decide +kernel, rfl, rfl⟩, by decide +kernel,
      fun hnot => absurd List.mem_cons_self hnot⟩
    (by decide +kernel) historyStored_recorded (by decide +kernel)

end Samples

end Tessra.Daemon
