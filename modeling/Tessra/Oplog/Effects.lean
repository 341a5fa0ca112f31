import Tessra.Oplog.Reads

namespace Tessra.Oplog

open Tessra.Core Tessra.Data StoreM OpLog Verify

/-! What the effects of a verified op passed, and the view that they produce. -/

/-- The verb that a capability needs to point an entity at the object. -/
def verbOf : Object → Option String
  | .standard _ => some "standard"
  | .hook _ => some "hook"
  | .channel _ => some "channel"
  | .target _ => some "target"
  | .line _ => some "line"
  | _ => none

theorem lastWrite_entity {e : EntityId} {effects : List Effect} {w : Option TrieValue}
    (h : (Cell.entity e).lastWrite effects = some w) :
    w = none ∨ ∃ to_ source, w = some (.id to_) ∧ .point e to_ source ∈ effects := by
  obtain ⟨effect, hmem, heffect⟩ := Cell.writtenBy_of_lastWrite h
  cases effect with
  | point e' to_ source =>
      simp only [Cell.writtenBy] at heffect
      split_ifs at heffect with he
      cases heffect
      exact .inr ⟨to_, source, rfl, he ▸ hmem⟩
  | unpoint e' =>
      simp only [Cell.writtenBy] at heffect
      split_ifs at heffect
      cases heffect
      exact .inl rfl
  | _ => cases heffect

section Points

variable [Crypto] {F S S' : Store} {log : OpLog} {op : Op} {v c v' : View} {cv cc : Contents}
  {e : EntityId} {to_ : ObjectId} {source : Option Value} {current : Option Pointer}
  {landed : List ObjectId} {isOwner : Bool}

omit [Crypto] in
theorem ran_checkFrom (h : (checkFrom e current source).Ran S S' ()) :
    source.bind Pointer.fromValue = current := by
  unfold checkFrom at h
  cases current with
  | none => simpa using ran_require h
  | some p => simpa using ran_require h

/-- What moving a change to a revision asks for. -/
structure RevisionMove (op : Op) (landed : List ObjectId) (e : EntityId)
    (current : Option Pointer) (r : Revision) : Prop where
  id : r.id = e
  unlanded : ∀ cur, current = some (.id cur) → cur ∉ landed ∨ op.kind = "restack"
  prev : ∀ cur, current = some (.id cur) → r.prev = some cur

omit [Crypto] in
theorem ran_checkRevisionMove {r : Revision}
    (h : (checkRevisionMove landed op e current r).Ran S S' ()) :
    RevisionMove op landed e current r := by
  obtain ⟨_, hid, h⟩ := h.bind
  have hid : r.id = e := of_decide_eq_true (ran_require hid)
  cases current with
  | none => exact ⟨hid, nofun, nofun⟩
  | some p =>
      cases p with
      | conflict ids => exact ⟨hid, nofun, nofun⟩
      | id cur =>
          obtain ⟨_, hunlanded, hprev⟩ := Ran.bind h
          have hunlanded := ran_require hunlanded
          simp only [Bool.or_eq_true, decide_eq_true_eq] at hunlanded
          have hprev : r.prev = some cur := of_decide_eq_true (ran_require hprev)
          constructor
          · exact hid
          · intro cur' hcur
            cases hcur
            exact hunlanded
          · intro cur' hcur
            cases hcur
            exact hprev

/-- What moving an entity to a version of a principal asks for, by what the
entity points at. -/
inductive PrincipalMove (F : Store) (cv : Contents) (op : Op) (isOwner : Bool) :
    Option Pointer → Principal → Prop
  | session {p agent : Principal} {parent : EntityId} {version : ObjectId} {key : PublicKey} :
      p.kind = "session" → p.parent = some parent → PointsAt F cv parent version agent →
      agent.kind = "agent" → agent.key = some key → verifyWith p key = .ok () →
      PrincipalMove F cv op isOwner none p
  | created {p : Principal} : p.kind ≠ "session" → isOwner = true → verifyWith p op.key = .ok () →
      PrincipalMove F cv op isOwner none p
  | revoked {p old : Principal} {cur : ObjectId} : (get Principal cur).value F = .ok old →
      p.prev = some cur → p.status = "revoked" →
      isOwner = true ∨ (cv.revoked p.id.bytes).isSome →
      PrincipalMove F cv op isOwner (some (.id cur)) p
  | rotated {p old : Principal} {cur : ObjectId} {key : PublicKey} :
      (get Principal cur).value F = .ok old → p.prev = some cur → p.status ≠ "revoked" →
      old.key = some key → verifyWith p key = .ok () →
      PrincipalMove F cv op isOwner (some (.id cur)) p
  | conflict {p : Principal} {ids : List ObjectId} :
      PrincipalMove F cv op isOwner (some (.conflict ids)) p

theorem ran_checkPrincipalMove (hv : Sound S v cv) (hfree : CollisionFree S') {p : Principal}
    (h : (checkPrincipalMove v op isOwner e current p).Ran S S' ()) :
    p.id = e ∧ PrincipalMove S' cv op isOwner current p := by
  obtain ⟨_, hid, h⟩ := h.bind
  refine ⟨of_decide_eq_true (ran_require hid), ?_⟩
  cases current with
  | none =>
      simp only at h
      split_ifs at h with hkind
      · obtain ⟨parent, hparent, h⟩ := Ran.bind h
        obtain ⟨found, hfound, h⟩ := h.bind
        obtain ⟨⟨version, agent⟩, hagent, h⟩ := h.bind
        obtain ⟨_, hisAgent, h⟩ := h.bind
        obtain ⟨key, hkey, hsigned⟩ := h.bind
        rw [ran_orThrow hagent] at hfound
        exact .session hkind (ran_orThrow hparent) (ran_resolvePrincipal hv hfree hfound)
          (of_decide_eq_true (ran_require hisAgent)) (ran_orThrow hkey) (ran_requireSigned hsigned)
      · obtain ⟨_, howner, hsigned⟩ := h.bind
        exact .created hkind (ran_require howner) (ran_requireSigned hsigned)
  | some pointer =>
      cases pointer with
      | conflict ids => exact .conflict
      | id cur =>
          simp only at h
          obtain ⟨old, hold, h⟩ := h.bind
          obtain ⟨_, hprev, h⟩ := h.bind
          have hold := hold.value_get hfree
          have hprev : p.prev = some cur := of_decide_eq_true (ran_require hprev)
          split_ifs at h with hstatus
          · obtain ⟨revoked, hrevoked, h⟩ := h.bind
            have hallowed := ran_require h
            rw [ran_principalRevoked hv hfree hrevoked, Bool.or_eq_true] at hallowed
            exact .revoked hold hprev hstatus hallowed
          · obtain ⟨key, hkey, hsigned⟩ := h.bind
            exact .rotated hold hprev hstatus (ran_orThrow hkey) (ran_requireSigned hsigned)

/-- What pointing an entity at an object asks for. -/
def PointLegal (F : Store) (cv : Contents) (op : Op) (landed : List ObjectId) (isOwner : Bool)
    (e : EntityId) (current : Option Pointer) : Object → Prop
  | .revision r => RevisionMove op landed e current r
  | .hook h => h.as = op.author ∨ isOwner = true
  | .principal p => p.id = e ∧ PrincipalMove F cv op isOwner current p
  | _ => True

theorem ran_checkPoint (hv : Sound S v cv) (hfree : CollisionFree S')
    (h : (checkPoint v landed op isOwner e to_ source).Ran S S' ()) :
    source.bind Pointer.fromValue = (cv.at (.entity e)).bind Pointer.fromTrie ∧
      ∃ o ∈ S', Crypto.objectId o = to_ ∧ PointLegal S' cv op landed isOwner e
        ((cv.at (.entity e)).bind Pointer.fromTrie) o := by
  obtain ⟨current, hcurrent, h⟩ := h.bind
  obtain ⟨_, hfrom, h⟩ := h.bind
  obtain ⟨found, hfound, h⟩ := h.bind
  obtain ⟨o, ho, h⟩ := h.bind
  rw [ran_orThrow ho] at hfound
  rw [← ran_entity hv hfree hcurrent]
  obtain ⟨hmem, hid⟩ := hfound.getBytes
  refine ⟨ran_checkFrom hfrom, o, hmem, hid, ?_⟩
  cases o with
  | revision r => exact ran_checkRevisionMove h
  | hook hook => simpa [PointLegal] using ran_require h
  | principal p => exact ran_checkPrincipalMove hv hfree h
  | _ => trivial

theorem Vetted.point {middle : Store} (h : Vetted S F middle log op v c v' cv cc)
    (hfree : CollisionFree F) (he : .point e to_ source ∈ op.effects) :
    ∃ landed, (landedRevisions v).Ran middle F landed ∧
      source.bind Pointer.fromValue = (cv.at (.entity e)).bind Pointer.fromTrie ∧
      ∃ o ∈ F, Crypto.objectId o = to_ ∧ PointLegal F cv op landed (decide (op.author ∈ v.owners)) e
        ((cv.at (.entity e)).bind Pointer.fromTrie) o := by
  obtain ⟨landed, hlanded, heffects⟩ := h.checked.legal
  exact ⟨landed, hlanded, ran_checkPoint h.sound hfree (heffects _ he)⟩

theorem ran_checkPointScope {cap : Capability} (h : (checkPointScope cap to_).Ran S S' ()) :
    ∃ o ∈ S', Crypto.objectId o = to_ ∧ ∀ verb, verbOf o = some verb → verb ∈ cap.verbs := by
  obtain ⟨found, hfound, h⟩ := h.bind
  obtain ⟨o, ho, h⟩ := h.bind
  rw [ran_orThrow ho] at hfound
  obtain ⟨hmem, hid⟩ := hfound.getBytes
  refine ⟨o, hmem, hid, fun verb hverb => ?_⟩
  cases o with
  | standard | hook | channel | target | line =>
      cases hverb
      exact of_decide_eq_true (ran_require h)
  | _ => cases hverb

end Points

section Produced

variable [Crypto] {S : Store} {log : OpLog} {op : Op} {past : List Delivery}

theorem mergedView_singleton (o : ObjectId) : log.mergedView [o] = log.viewOf o := by
  rw [mergedView, sortedDedup_singleton]
  exact bind_pure (log.viewOf o)

theorem readOnly_viewOf (o : ObjectId) : (log.viewOf o).ReadOnly := by
  refine ReadOnly.bind ?_ fun view => readOnly_get View view
  unfold viewIdOf
  split
  · exact readOnly_pure _
  · exact (readOnly_get Op o).bind fun _ => readOnly_pure _

structure Produced (S : Store) (log : OpLog) (op : Op) (v : View) (c : Contents) : Prop where
  reads : Reads ((log.accept op).after S) ((log.accept op).after S) (log.deliver op S)
    [Crypto.objectId (.op op)] v c
  named : Crypto.objectId (.view v) = op.view
  stored : Object.view v ∈ (log.accept op).after S
  cells : ∀ cell, c.at cell = (cell.lastWrite op.effects).getD (mergedAt S cell op.parents)

theorem LogRun.produced (hrun : LogRun past S log) (hfree : CollisionFree ((log.accept op).after S))
    (hverified : Delivery.Verified ⟨S, log, op⟩) : ∃ v c, Produced S log op v c := by
  have hreached := (hrun.deliver op).reached
  obtain ⟨hdeliver, hparents⟩ := deliver_verified hverified
  obtain ⟨_, hmem⟩ := (hrun.deliver op).took (List.mem_append_right _ List.mem_cons_self) hverified
  have hverifiedMem : Crypto.objectId (.op op) ∈ (log.deliver op S).verified := by
    rw [hdeliver]
    exact mem_record_verified.mpr (.inr rfl)
  have hafter : ((log.deliver op S).mergedView [Crypto.objectId (.op op)]).after
      ((log.accept op).after S) = (log.accept op).after S := by
    rw [mergedView_singleton, readOnly_viewOf]
  obtain ⟨v, c, hreads⟩ := hreached.reads (List.forall_mem_singleton.mpr hverifiedMem)
    (by rw [hafter]; exact List.Subset.refl _) hfree
  obtain ⟨op', v', _, hrecorded, _, hview⟩ :=
    (hreached.keeps hfree).value_viewOf hfree hverifiedMem
  have hvalue := hreads.value
  rw [mergedView_singleton, hview] at hvalue
  cases hvalue
  have hget : (getOp (Crypto.objectId (.op op))).value ((log.accept op).after S) = .ok op :=
    value_get hfree hmem
  rw [hrecorded.get_op hfree] at hget
  cases hget
  refine ⟨v, c, hreads, hrecorded.view_id, hrecorded.view_mem, fun cell => ?_⟩
  rw [hreads.cells]
  rw [hdeliver] at hreached
  exact hrun.reached.mergedAt_recorded hreached (subset_after _ S) hfree hmem hparents cell

theorem Produced.free {v : View} {c : Contents} (_ : Produced S log op v c)
    (hfree : CollisionFree ((log.accept op).after S)) :
    CollisionFree (((log.deliver op S).mergedView [Crypto.objectId (.op op)]).after
      ((log.accept op).after S)) := by
  rwa [mergedView_singleton, readOnly_viewOf]

theorem Produced.shows {v : View} {c : Contents} (h : Produced S log op v c) (cell : Cell) :
    mergedAt ((log.accept op).after S) cell [Crypto.objectId (.op op)] =
      (cell.lastWrite op.effects).getD (mergedAt S cell op.parents) := by
  rw [← h.reads.cells, h.cells]

omit [Crypto] in
theorem bind_fromTrie_id {x : Option TrieValue} {i : ObjectId}
    (h : x.bind Pointer.fromTrie = some (.id i)) : x = some (.id i) := by
  cases x with
  | none => cases h
  | some x => cases x <;> cases h; rfl

theorem Vetted.produced_eq {middle F : Store} {v cur v₁ v₂ : View} {cv cc c : Contents}
    (h : Vetted S F middle log op v cur v₁ cv cc) (hproduced : Produced S log op v₂ c)
    (hF : (log.accept op).after S ⊆ F) (hfree : CollisionFree F) : v₂ = v₁ := by
  have hsame := hfree _ (hF hproduced.stored) _ h.stored (hproduced.named.trans h.named.symm)
  cases hsame
  rfl

end Produced

end Tessra.Oplog
