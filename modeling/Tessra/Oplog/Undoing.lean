import Tessra.Oplog.Building
import Tessra.Oplog.Effects
import Tessra.Oplog.Heads
import Tessra.Oplog.LastWrite

namespace Tessra.Oplog

open Tessra.Core Tessra.Data StoreM OpLog Verify

/-! Taking back an op: its inverse effects, last to first, on the current heads. -/

section Texts

def debugEntity (id : EntityId) : String :=
  s!"EntityId({String.ofList (id.toLetters.toList.take 8)})"

def variantText (name : String) (fields : List (String × String)) : String :=
  name ++ " \x7b " ++ ", ".intercalate (fields.map fun f => f.1 ++ ": " ++ f.2) ++ " \x7d"

/-- How a refusal names an effect that has no inverse. -/
def effectText : Effect → String
  | .unpoint entity => variantText "Unpoint" [("entity", debugEntity entity)]
  | .unclaim claim => variantText "Unclaim" [("claim", debugEntity claim)]
  | .tomb of tomb => variantText "Tomb" [("of", of.debug), ("tomb", tomb.debug)]
  | .deploy target to_ =>
      variantText "Deploy" [("target", debugEntity target), ("to", to_.debug)]
  | .owner principal => variantText "Owner" [("principal", debugEntity principal)]
  | .unowner principal => variantText "Unowner" [("principal", debugEntity principal)]
  | .root name => variantText "Root" [("name", quote name)]
  | .unroot name => variantText "Unroot" [("name", quote name)]
  | .coordinator line to_ =>
      variantText "Coordinator" [("line", quote line), ("to", debugEntity to_)]
  -- the others have an inverse, or a refusal of their own
  | _ => ""

end Texts

section Model

variable [Crypto]

/-- The effects that take an effect back, if nothing moved on since. -/
def inverseOf (current : View) : Effect → StoreM (List Effect)
  | .put _ => pure []
  | .point entity to_ source => do
      let now ← ViewState.entity current entity
      require (now = some (.id to_))
        (.other s!"entity {entity} has moved on since the op; undo refused")
      match source.bind Pointer.fromValue with
      | some (.id prev) => return [.point entity prev (some (Pointer.id to_).toValue)]
      | some (.conflict _) => throw (.other "cannot undo a conflict resolution")
      | none => return [.unpoint entity]
  | .propose rev => pure [.unpropose rev]
  | .unpropose rev => pure [.propose rev]
  | .claim claim _ => pure [.unclaim claim]
  | .cap cap => pure [.uncap cap]
  | .uncap cap => pure [.cap cap]
  | .pause scope => pure [.resume scope]
  | .resume scope => pure [.pause scope]
  | .head .. => throw (.other "a landing is not undone; revert it")
  | .revoke _ => throw (.other "a revocation is never undone")
  | e => throw (.other s!"effect {effectText e} is not undoable")

def inversesOf (current : View) : List Effect → StoreM (List Effect)
  | [] => pure []
  | e :: rest => do return (← inverseOf current e) ++ (← inversesOf current rest)

/-- Undo an op authored by any of `allowed`. -/
def undoAs (log : OpLog) (signer : Signer) (cap : Option ObjectId) (allowed : List EntityId)
    (target : ObjectId) (idem : Bytes) (time : ℤ) : StoreM Op := do
  let targetOp ← getOp target
  require (targetOp.author ∈ allowed) (.other "undo only takes back your own ops")
  let current ← log.currentView
  let inverse ← inversesOf current targetOp.effects.reverse
  let args := (argsWithIdem idem ∅).insert "target" (.bytes target.bytes)
  buildOp log signer cap "undo" args inverse time

end Model

section Places

/-- A cell, or whether a scope is paused. -/
inductive Place
  | cell (cell : Cell)
  | scope (name : String)

namespace Place

def shows (v : View) (c : Contents) : Place → Option TrieValue
  | .cell place => c.at place
  | .scope name => if (v.paused.getD []).any (·.scope = name) then some .set else none

def writtenBy : Place → Effect → Option (Option TrieValue)
  | .cell place, e => place.writtenBy e
  | .scope name, .pause s => if s = name then some (some .set) else none
  | .scope name, .resume s => if s = name then some none else none
  | .scope _, _ => none

def lastWrite (p : Place) (effects : List Effect) : Option (Option TrieValue) :=
  effects.foldl (fun w e => (p.writtenBy e).or w) none

end Place

theorem any_pauseScope (owners : List EntityId) (parentOp : Option ObjectId) (s name : String)
    (paused : Option (List PauseState)) :
    ((pauseScope owners parentOp s paused).getD []).any (·.scope = name) =
      (decide (s = name) || (paused.getD []).any (·.scope = name)) := by
  unfold pauseScope
  by_cases h : (paused.getD []).any (·.scope = s) = true
  · rw [if_pos h, Option.getD_some]
    by_cases hs : s = name
    · rw [← hs, h, Bool.or_true]
    · rw [decide_eq_false hs, Bool.false_or]
  · rw [if_neg h, Option.getD_some, List.any_append, List.any_cons, List.any_nil, Bool.or_false,
      Bool.or_comm]

theorem any_resumeScope (s name : String) (paused : Option (List PauseState)) :
    ((resumeScope s paused).getD []).any (·.scope = name) =
      (!decide (s = name) && (paused.getD []).any (·.scope = name)) := by
  cases paused with
  | none => simp [resumeScope]
  | some list =>
      rw [resumeScope, Option.bind_some, keepPaused_getD, Option.getD_some, List.any_filter,
        Bool.eq_iff_iff]
      simp only [List.any_eq_true, Bool.and_eq_true, decide_eq_true_eq, Bool.not_eq_true',
        decide_eq_false_iff_not]
      constructor
      · rintro ⟨p, hp, hne, rfl⟩
        exact ⟨fun heq => hne heq.symm, p, hp, rfl⟩
      · rintro ⟨hne, p, hp, rfl⟩
        exact ⟨p, hp, fun heq => hne heq.symm, rfl⟩

variable [Crypto] {S S' F : Store} {v v' : View} {c : Contents} {e : Effect}

theorem ensures_applyEffect_scope (parentOp : Option ObjectId) (e : Effect) (name : String) :
    (ViewState.applyEffect parentOp v e).Ensures S fun v' _ =>
      (Place.scope name).shows v' c =
        ((Place.scope name).writtenBy e).getD ((Place.scope name).shows v c) := by
  cases e with
  | pause s =>
      refine ensures_pure ?_
      simp only [Place.shows, Place.writtenBy, any_pauseScope]
      by_cases hs : s = name <;> simp [hs]
  | resume s =>
      refine ensures_pure ?_
      simp only [Place.shows, Place.writtenBy, any_resumeScope]
      by_cases hs : s = name <;> simp [hs]
  | head line to_ source seq attests id =>
      simp only [ViewState.applyEffect]
      split
      · exact ensures_pure rfl
      · split
        · exact ensures_throw
        · exact ensures_pure rfl
  | coordinator line to_ =>
      simp only [ViewState.applyEffect]
      split
      · exact ensures_pure rfl
      · exact ensures_pure rfl
  | point | unpoint | propose | unpropose | claim | unclaim | cap | uncap | revoke | tomb =>
      exact ensures_trivial.bind fun _ _ _ _ => ensures_pure rfl
  | _ => exact ensures_pure rfl

/-- After some effects a place shows what the last of them wrote there. -/
theorem ensures_apply_places (effects : List Effect) (parentOp : Option ObjectId) (p : Place) :
    (ViewState.apply v effects parentOp).Ensures S fun v' _ =>
      p.shows v' (c.actAll effects) = (p.lastWrite effects).getD (p.shows v c) := by
  cases p with
  | cell cell => exact ensures_trivial.mono fun _ _ _ _ => Contents.at_actAll effects c cell
  | scope name =>
      have hlast : effects.foldl (fun x e => ((Place.scope name).writtenBy e).getD x)
          ((Place.scope name).shows v c) =
            ((Place.scope name).lastWrite effects).getD ((Place.scope name).shows v c) := by
        refine foldl_last (g := fun x w => w.getD x) (fun _ => rfl) (fun x w w' => ?_) effects _
        cases w' <;> rfl
      rw [← hlast]
      have hstep : ∀ (v : View) (e : Effect) (S : Store),
          (ViewState.applyEffect parentOp v e).Ensures S fun v' _ =>
            (Place.scope name).shows v' c =
              ((Place.scope name).writtenBy e).getD ((Place.scope name).shows v c) :=
        fun v e S => ensures_applyEffect_scope parentOp e name
      exact ensures_apply_part effects parentOp hstep

end Places

section Inverses

/-- The effect that takes an effect back. -/
def taken : Effect → Option Effect
  | .point entity to_ source =>
      match source.bind Pointer.fromValue with
      | some (.id prev) => some (.point entity prev (some (Pointer.id to_).toValue))
      | _ => some (.unpoint entity)
  | .propose rev => some (.unpropose rev)
  | .unpropose rev => some (.propose rev)
  | .claim claim _ => some (.unclaim claim)
  | .cap cap => some (.uncap cap)
  | .uncap cap => some (.cap cap)
  | .pause scope => some (.resume scope)
  | .resume scope => some (.pause scope)
  | _ => none

/-- An effect that has an inverse, or writes nothing in the view. -/
def Undoable : Effect → Prop
  | .put _ | .point .. | .propose _ | .unpropose _ | .claim .. | .cap _ | .uncap _ | .pause _
  | .resume _ => True
  | _ => False

/-- An effect that writes cells and pauses at most. -/
def OnPlaces : Effect → Prop
  | .unpoint _ | .unclaim _ => True
  | e => Undoable e

theorem Undoable.onPlaces {e : Effect} (h : Undoable e) : OnPlaces e := by
  cases e with
  | unpoint | unclaim => trivial
  | _ => exact h

theorem onPlaces_taken {e e' : Effect} (h : taken e = some e') : OnPlaces e' := by
  cases e with
  | point entity to_ source =>
      simp only [taken] at h
      split at h <;> cases h <;> trivial
  | propose | unpropose | claim | cap | uncap | pause | resume =>
      cases h
      trivial
  | _ => cases h

/-- What is left at a place once an effect is taken back. -/
def Place.leftBy (p : Place) (e : Effect) : Option (Option TrieValue) :=
  (taken e).bind p.writtenBy

/-- An effect that was taken back: where it pointed an entity, the entity is still there, and
came from a version or from nothing. -/
def StillAt (c : Contents) (e : Effect) : Prop :=
  ∀ entity to_ source, e = .point entity to_ source → c.at (.entity entity) = some (.id to_) ∧
    ∀ ids, source.bind Pointer.fromValue ≠ some (.conflict ids)

/-- Writing what takes the effects back, last to first, leaves what taking back the first of
them leaves. -/
theorem lastWrite_taken (p : Place) (effects : List Effect) :
    p.lastWrite (effects.reverse.filterMap taken) = effects.findSome? p.leftBy := by
  induction effects with
  | nil => rfl
  | cons e rest ih =>
      rw [Place.lastWrite] at ih
      rw [Place.lastWrite, List.reverse_cons, List.filterMap_append, List.foldl_append, ih,
        List.findSome?_cons, Place.leftBy]
      cases htaken : taken e with
      | none => simp [htaken]
      | some e' => cases hwritten : p.writtenBy e' <;> simp [htaken, hwritten]

theorem isSome_leftBy {e : Effect} (h : Undoable e) (p : Place) :
    (p.leftBy e).isSome = (p.writtenBy e).isSome := by
  cases e with
  | point entity to_ source =>
      have htaken : taken (.point entity to_ source) = some (.unpoint entity) ∨
          ∃ prev, taken (.point entity to_ source) =
            some (.point entity prev (some (Pointer.id to_).toValue)) := by
        simp only [taken]
        split
        · exact .inr ⟨_, rfl⟩
        · exact .inl rfl
      rcases htaken with hnone | ⟨prev, hprev⟩
      · rw [Place.leftBy, hnone]
        rcases p with ⟨_ | _ | _ | _⟩ | _ <;>
          simp only [Option.bind_some, Place.writtenBy, Cell.writtenBy]
        split_ifs
        all_goals rfl
      · rw [Place.leftBy, hprev]
        rcases p with ⟨_ | _ | _ | _⟩ | _ <;>
          simp only [Option.bind_some, Place.writtenBy, Cell.writtenBy]
        split_ifs
        all_goals rfl
  | put => rcases p with ⟨_ | _ | _ | _⟩ | _ <;> rfl
  | propose | unpropose | claim | cap | uncap | pause | resume =>
      rcases p with ⟨_ | _ | _ | _⟩ | _ <;>
        simp only [Place.leftBy, taken, Option.bind_some, Place.writtenBy, Cell.writtenBy]
      split_ifs
      all_goals rfl
  | _ => exact h.elim

variable [Crypto] {S S' F : Store} {v : View} {c : Contents} {e : Effect} {es : List Effect}
  {effects : List Effect}

theorem ran_inverseOf (hsound : Sound S v c) (hfree : CollisionFree S')
    (h : (inverseOf v e).Ran S S' es) :
    es = (taken e).toList ∧ Undoable e ∧ StillAt c e := by
  cases e with
  | point entity to_ source =>
      obtain ⟨now, hnow, h⟩ := h.bind
      obtain ⟨_, hstill, h⟩ := h.bind
      have hat := of_decide_eq_true (ran_require hstill)
      rw [ran_entity hsound hfree hnow] at hat
      have hpoint : c.at (.entity entity) = some (.id to_) := by
        obtain ⟨x, hx, hid⟩ := Option.bind_eq_some_iff.mp hat
        cases x with
        | id i => cases hid; exact hx
        | conflict ids => cases hid
        | set => cases hid
      cases hsource : source.bind Pointer.fromValue with
      | none =>
          rw [hsource] at h
          refine ⟨?_, trivial, ?_⟩
          · rw [taken, hsource]
            exact Ran.eq_of_pure h
          · rintro _ _ _ ⟨⟩
            exact ⟨hpoint, fun ids => by rw [hsource]; simp⟩
      | some from_ =>
          rw [hsource] at h
          cases from_ with
          | id prev =>
              refine ⟨?_, trivial, ?_⟩
              · rw [taken, hsource]
                exact Ran.eq_of_pure h
              · rintro _ _ _ ⟨⟩
                exact ⟨hpoint, fun ids => by rw [hsource]; simp⟩
          | conflict ids => exact (Ran.not_throw h).elim
  | put | propose | unpropose | claim | cap | uncap | pause | resume =>
      exact ⟨Ran.eq_of_pure h, trivial, fun _ _ _ heq => nomatch heq⟩
  | _ => exact (Ran.not_throw h).elim

theorem ran_inversesOf (hsound : Sound S v c) (hfree : CollisionFree S')
    (h : (inversesOf v effects).Ran S S' es) :
    es = effects.filterMap taken ∧ ∀ e ∈ effects, Undoable e ∧ StillAt c e := by
  induction effects generalizing es with
  | nil => exact ⟨Ran.eq_of_pure h, List.forall_mem_nil _⟩
  | cons e rest ih =>
      obtain ⟨first, hfirst, h⟩ := h.bind
      obtain ⟨later, hlater, h⟩ := h.bind
      obtain ⟨rfl, hundoable, hstill⟩ := ran_inverseOf hsound hfree hfirst
      obtain ⟨rfl, hrest⟩ := ih hlater
      refine ⟨?_, List.forall_mem_cons.mpr ⟨⟨hundoable, hstill⟩, hrest⟩⟩
      rw [Ran.eq_of_pure h, List.filterMap_cons]
      cases taken e <;> rfl

end Inverses

section Runs

variable [Crypto] {S S' F : Store} {log : OpLog} {v v' next : View} {c : Contents}
  {signer : Signer} {cap : Option ObjectId} {allowed : List EntityId} {target : ObjectId}
  {idem : Bytes} {time : ℤ} {t u : Op} {effects : List Effect}

/-- An op that takes another one back was built: what was read, and the view that it makes. -/
structure Undoing (S F : Store) (log : OpLog) (allowed : List EntityId) (target : ObjectId)
    (u t : Op) (v next : View) : Prop where
  found : (getOp target).value S = .ok t
  own : t.author ∈ allowed
  current : log.currentView.value S = .ok v
  inverse : (inversesOf v t.effects.reverse).Ran (log.currentView.after S) F u.effects
  applied : (ViewState.apply v u.effects log.heads.head?).Ran (log.currentView.after S) F next
  named : Crypto.objectId (.view next) = u.view
  stored : Object.view next ∈ F

theorem buildOp_ok {kind : String} {args : OrdMap String Value}
    (hv : log.currentView.value S = .ok v) (hsub : S.Sublist S')
    (hu : (buildOp log signer cap kind args effects time).value S' = .ok u)
    (hF : (buildOp log signer cap kind args effects time).after S' ⊆ F)
    (hfree : CollisionFree F) :
    ∃ next, u.effects = effects ∧
      (ViewState.apply v u.effects log.heads.head?).Ran S' F next ∧
      Crypto.objectId (.view next) = u.view ∧ Object.view next ∈ F := by
  unfold buildOp at hu hF
  obtain ⟨v', hv', hu, hafter⟩ := bind_ok hu
  rw [hafter] at hF
  obtain ⟨next, hnext, hu, hafter⟩ := bind_ok hu
  rw [hafter] at hF
  obtain ⟨view, hview, hu, hafter⟩ := bind_ok hu
  rw [hafter] at hF
  have hstored := List.Subset.trans (subset_after _ _) hF
  have happlied := List.Subset.trans (subset_after _ _) hstored
  have hsame : log.currentView.value S' = .ok v := by
    refine (stable_mergedView log.heads).value hsub (hfree.mono ?_) hv
    exact List.Subset.trans (subset_after _ _) happlied
  obtain rfl : v' = v := Except.ok.inj (hv'.symm.trans hsame)
  cases hu
  refine ⟨next, rfl, ⟨_, subset_after _ _, happlied, hnext⟩, ?_, hstored ?_⟩
  · exact Except.ok.inj hview
  · exact List.mem_append_right _ (List.mem_singleton_self _)

theorem undoAs_ok (hu : (undoAs log signer cap allowed target idem time).value S = .ok u)
    (hF : (undoAs log signer cap allowed target idem time).after S ⊆ F)
    (hfree : CollisionFree F) : ∃ t v next, Undoing S F log allowed target u t v next := by
  unfold undoAs at hu hF
  obtain ⟨t, ht, hu, hafter⟩ := bind_ok hu
  rw [hafter] at hF
  have hread : (getOp target).after S = S := (lasting_get Op target).readOnly S
  rw [hread] at hu hF
  obtain ⟨_, hown, hu, hafter⟩ := bind_ok hu
  rw [hafter] at hF
  rw [readOnly_require _ _ S] at hu hF
  obtain ⟨v, hv, hu, hafter⟩ := bind_ok hu
  rw [hafter] at hF
  obtain ⟨inverse, hinverse, hu, hafter⟩ := bind_ok hu
  rw [hafter] at hF
  have hsub : S.Sublist ((inversesOf v t.effects.reverse).after (log.currentView.after S)) :=
    (List.sublist_append_left S _).trans (List.sublist_append_left _ _)
  have hlater := List.Subset.trans (subset_after _ _) hF
  obtain ⟨next, hwrites, happlied, hnamed, hstored⟩ := buildOp_ok hv hsub hu hF hfree
  refine ⟨t, v, next, ?_⟩
  exact
    { found := ht
      own := of_decide_eq_true (ran_require (ran_of_value hown))
      current := hv
      inverse := ⟨_, List.Subset.refl _, hlater, hwrites ▸ hinverse⟩
      applied := happlied.mono (subset_after _ _) (List.Subset.refl F)
      named := hnamed
      stored := hstored }

/-- The parts of a view that are kept in it whole, but for the paused scopes. -/
def wholes (v : View) : OrdMap String LineState × List String × List EntityId ×
    OrdMap EntityId ObjectId :=
  (v.lines, v.roots, v.owners, v.deployed)

/-- What taking back some effects leaves of a view: at each place they touched, what taking back
the first of them there leaves, and elsewhere all as it was. -/
structure Undone (v next : View) (c c' : Contents) (effects : List Effect) : Prop where
  places : ∀ p : Place, p.shows next c' = (effects.findSome? p.leftBy).getD (p.shows v c)
  revoked : c'.revoked = c.revoked
  tombstoned : c'.tombstoned = c.tombstoned
  wholes : wholes next = wholes v

omit [Crypto] in
/-- Effects that only write places neither revoke nor bury anything. -/
theorem actAll_of_places (heffects : ∀ e ∈ effects, OnPlaces e) (c : Contents) :
    (c.actAll effects).revoked = c.revoked ∧ (c.actAll effects).tombstoned = c.tombstoned := by
  induction effects generalizing c with
  | nil => exact ⟨rfl, rfl⟩
  | cons e rest ih =>
      obtain ⟨he, hrest⟩ := List.forall_mem_cons.mp heffects
      have hact : (c.act e).revoked = c.revoked ∧ (c.act e).tombstoned = c.tombstoned := by
        cases e with
        | revoke | tomb => exact he.elim
        | _ => exact ⟨rfl, rfl⟩
      obtain ⟨hrevoked, htombstoned⟩ := ih hrest (c.act e)
      exact ⟨hrevoked.trans hact.1, htombstoned.trans hact.2⟩

theorem ran_applyEffect_of_places {e : Effect} {parentOp : Option ObjectId} (he : OnPlaces e)
    (h : (ViewState.applyEffect parentOp v e).Ran S S' v') : wholes v' = wholes v := by
  cases e with
  | point | unpoint | propose | unpropose | claim | unclaim | cap | uncap =>
      obtain ⟨root, _, h⟩ := h.bind
      rw [Ran.eq_of_pure h]
      rfl
  | put => exact congrArg Oplog.wholes (Ran.eq_of_pure h)
  | pause | resume =>
      rw [Ran.eq_of_pure h]
      rfl
  | _ => exact he.elim

theorem ran_apply_of_places {parentOp : Option ObjectId} (heffects : ∀ e ∈ effects, OnPlaces e)
    (h : (ViewState.apply v effects parentOp).Ran S S' v') : wholes v' = wholes v := by
  have hfold : True ∧ wholes v' = effects.foldl (fun w _ => w) (wholes v) :=
    Ran.foldlM (I := fun _ => True) h trivial
      fun e he v v' _ hran => ⟨trivial, ran_applyEffect_of_places (heffects e he) hran⟩
  rw [hfold.2]
  exact List.foldl_fixed _

theorem Undoing.undone (h : Undoing S F log allowed target u t v next)
    (hsound : Sound (log.currentView.after S) v c) (hfree : CollisionFree F) :
    (∀ e ∈ t.effects, Undoable e ∧ StillAt c e) ∧
      ∃ c', Sound F next c' ∧ Undone v next c c' t.effects := by
  obtain ⟨hwrites, hback⟩ := ran_inversesOf hsound hfree h.inverse
  have happlied := h.applied
  rw [hwrites] at happlied
  refine ⟨fun e he => hback e (List.mem_reverse.mpr he),
    c.actAll (t.effects.reverse.filterMap taken), ?_, ?_⟩
  · obtain ⟨start, hstart, hnext, -⟩ := happlied.ensures hfree fun start hstart =>
      ensures_apply (hsound.mono hstart) _ _
    exact hnext.mono hstart
  · have hplaces : ∀ e ∈ t.effects.reverse.filterMap taken, OnPlaces e := by
      intro e he
      obtain ⟨_, -, htaken⟩ := List.mem_filterMap.mp he
      exact onPlaces_taken htaken
    obtain ⟨hrevoked, htombstoned⟩ := actAll_of_places hplaces c
    refine ⟨fun p => ?_, hrevoked, htombstoned, ran_apply_of_places hplaces happlied⟩
    obtain ⟨_, _, hplace⟩ := happlied.ensures hfree fun start _ =>
      ensures_apply_places (c := c) _ _ p
    rw [hplace, lastWrite_taken]

end Runs

section Pointers

/-- No entity is held as a member of a set. -/
def EntitiesPoint (c : Contents) : Prop := ∀ id, c.at (.entity id) ≠ some .set

theorem union_ne_set (a b : TrieValue) : a.union b ≠ .set := by
  unfold TrieValue.union
  split <;> simp

theorem threeWay_ne_set {base a b : Option TrieValue} (ha : a ≠ some .set)
    (hb : b ≠ some .set) : threeWay .pointers base a b ≠ some .set := by
  unfold threeWay
  split_ifs
  · exact hb
  · exact ha
  · split
    · exact fun h => union_ne_set _ _ (Option.some.inj h)
    · simp
    · simp
    · simp

variable [Crypto] {S F : Store} {log : OpLog}

theorem entitiesPoint_merge : MergeInvariant F fun _ _ => EntitiesPoint where
  empty _ id := by
    intro h
    cases h
  merge _ _ _ ha hb _ id := by
    rw [Contents.at_merge]
    exact threeWay_ne_set (ha id) (hb id)

theorem preserves_entitiesPoint (op : Op) : Preserves (fun _ _ => EntitiesPoint) op := by
  intro S v c parentOp _ hpoint
  refine ensures_trivial.mono fun _ _ _ _ id => ?_
  rw [Contents.at_actAll]
  cases hlast : (Cell.entity id).lastWrite op.effects with
  | none => exact hpoint id
  | some x =>
      obtain ⟨e, -, hx⟩ := Cell.writtenBy_of_lastWrite hlast
      rw [Option.getD_some]
      cases e <;> simp only [Cell.writtenBy, reduceCtorEq] at hx
      all_goals
        split_ifs at hx
        cases hx
        simp

theorem LogReached.entities_point (h : LogReached S log) {ops : List ObjectId}
    (hops : ∀ o ∈ ops, o ∈ log.verified) (hF : (log.mergedView ops).after S ⊆ F)
    (hfree : CollisionFree F) (id : EntityId) : mergedAt S (.entity id) ops ≠ some .set := by
  have hstart := List.Subset.trans (subset_after (log.mergedView ops) S) hF
  have hkept := h.kept entitiesPoint_merge hstart hfree fun op _ => preserves_entitiesPoint op
  obtain ⟨_, _, c, _, hpoint, hat⟩ := hkept.returns_mergedView entitiesPoint_merge hstart hfree
    (List.Subset.refl S) hops (hfree.mono hF)
  rw [← hat]
  exact hpoint id

end Pointers

section Restoring

/-- The effect finds what its inverse leaves: a set or a claim is added where none was, and
taken out where one was. -/
def Finds (x : Option TrieValue) : Effect → Prop
  | .propose _ | .claim .. | .cap _ | .pause _ => x = none
  | .unpropose _ | .uncap _ | .resume _ => x = some .set
  | _ => True

/-- The first of some effects that touches a place. -/
def Place.first (p : Place) (effects : List Effect) : Option Effect :=
  effects.find? fun e => (p.writtenBy e).isSome

theorem findSome?_leftBy {effects : List Effect} (h : ∀ e ∈ effects, Undoable e) (p : Place) :
    effects.findSome? p.leftBy = (p.first effects).bind p.leftBy := by
  induction effects with
  | nil => rfl
  | cons e rest ih =>
      obtain ⟨he, hrest⟩ := List.forall_mem_cons.mp h
      have hsome := isSome_leftBy he p
      rw [List.findSome?_cons, Place.first, List.find?_cons]
      cases hleft : p.leftBy e with
      | none =>
          rw [hleft, Option.isSome_none] at hsome
          rw [← hsome]
          exact ih hrest
      | some x =>
          rw [hleft, Option.isSome_some] at hsome
          rw [← hsome]
          exact hleft.symm

theorem lastWrite_of_first {p : Place} {effects : List Effect} (h : p.first effects = none) :
    p.lastWrite effects = none := by
  have hnone : ∀ e ∈ effects, p.writtenBy e = none := by
    simpa [Place.first] using h
  rw [Place.lastWrite]
  clear h
  induction effects with
  | nil => rfl
  | cons e rest ih =>
      obtain ⟨he, hrest⟩ := List.forall_mem_cons.mp hnone
      rw [List.foldl_cons, he]
      exact ih hrest

/-- Where the effect came from is what its place shows. -/
def CameFrom (x : Option TrieValue) (e : Effect) : Prop :=
  ∀ entity to_ source, e = .point entity to_ source →
    source.bind Pointer.fromValue = x.bind Pointer.fromTrie ∧ x ≠ some .set ∧
      ∀ ids, source.bind Pointer.fromValue ≠ some (.conflict ids)

theorem leftBy_point {x : Option TrieValue} {id entity : EntityId} {to_ : ObjectId}
    {source : Option Value} (hid : entity = id) (h : CameFrom x (.point entity to_ source)) :
    (Place.cell (.entity id)).leftBy (.point entity to_ source) = some x := by
  obtain ⟨hfrom, hset, hconflict⟩ := h _ _ _ rfl
  cases x with
  | none =>
      rw [Option.bind_none] at hfrom
      simp [Place.leftBy, taken, hfrom, Place.writtenBy, Cell.writtenBy, hid]
  | some value =>
      cases value with
      | id i =>
          have hsource : source.bind Pointer.fromValue = some (.id i) := hfrom
          simp [Place.leftBy, taken, hsource, Place.writtenBy, Cell.writtenBy, hid]
      | conflict ids => exact absurd hfrom (hconflict ids)
      | set => exact absurd rfl hset

/-- Taking an effect back leaves at its place what was there, exactly if it finds that. -/
theorem leftBy_eq_iff {p : Place} {e : Effect} {x : Option TrieValue} (he : Undoable e)
    (hp : (p.writtenBy e).isSome) (hfrom : CameFrom x e) : p.leftBy e = some x ↔ Finds x e := by
  cases e with
  | point entity to_ source =>
      refine iff_of_true ?_ trivial
      rcases p with ⟨id | _ | _ | _⟩ | _
      · simp only [Place.writtenBy, Cell.writtenBy] at hp
        split_ifs at hp with hid
        · exact leftBy_point hid hfrom
        · cases hp
      all_goals cases hp
  | put => rcases p with ⟨_ | _ | _ | _⟩ | _ <;> cases hp
  | propose | unpropose | claim | cap | uncap | pause | resume =>
      rcases p with ⟨_ | _ | _ | _⟩ | _
      all_goals
        simp only [Place.writtenBy, Cell.writtenBy, Option.isSome_none, Bool.false_eq_true] at hp
      all_goals
        split_ifs at hp with hkey
        · simp [Place.leftBy, taken, Place.writtenBy, Cell.writtenBy, Finds, hkey, eq_comm]
        · cases hp
  | _ => exact he.elim

variable [Crypto] {S F : Store} {log : OpLog} {signer : Signer} {cap : Option ObjectId}
  {allowed : List EntityId} {target : ObjectId} {idem : Bytes} {time : ℤ} {t u : Op}

/-- Undoing an op of any age leaves at each place the op touched what its first effect there
came from, and all others as they are by now. -/
theorem undo_leaves (h : LogReached S log)
    (hu : (undoAs log signer cap allowed target idem time).value S = .ok u)
    (hfree : CollisionFree ((undoAs log signer cap allowed target idem time).after S)) :
    ∃ t v next c c', Undoing S ((undoAs log signer cap allowed target idem time).after S) log
        allowed target u t v next ∧
      Sound (log.currentView.after S) v c ∧ (∀ cell, c.at cell = mergedAt S cell log.heads) ∧
      Sound ((undoAs log signer cap allowed target idem time).after S) next c' ∧
      (∀ e ∈ t.effects, Undoable e ∧ StillAt c e) ∧ Undone v next c c' t.effects := by
  obtain ⟨t, v, next, hundoing⟩ := undoAs_ok hu (List.Subset.refl _) hfree
  have hF := hundoing.applied.subset
  have hkept := h.keeps (hfree.mono (List.Subset.trans (subset_after _ _) hF))
  obtain ⟨c, hsound, -, hat⟩ := (hkept.returns_mergedView mergeInvariant_any
    (List.Subset.refl S) (hfree.mono (List.Subset.trans (subset_after _ _) hF))
    (List.Subset.refl S) hkept.heads).ensures (hfree.mono hF) v hundoing.current
  obtain ⟨hback, c', hsound', hundone⟩ := hundoing.undone hsound hfree
  exact ⟨t, v, next, c, c', hundoing, hsound, hat, hsound', hback, hundone⟩

omit [Crypto] in
theorem heads_record (hparents : t.parents = log.heads) (id : ObjectId) :
    (log.record id t).heads = [id] := by
  have hnone : log.heads.filter (fun x => decide (x ∉ t.parents)) = [] := by
    rw [List.filter_eq_nil_iff]
    intro x hx
    simpa [hparents] using hx
  rw [OpLog.record, hnone]
  rfl

/-- After an op on all the heads, the view is the one that the op names. -/
theorem currentView_record {v : View} (hparents : t.parents = log.heads)
    (hnamed : Crypto.objectId (.view v) = t.view) (hv : Object.view v ∈ S)
    (hfree : CollisionFree S) (id : ObjectId) :
    (log.record id t).currentView.value S = .ok v ∧
      (log.record id t).currentView.after S = S := by
  have hlookup : (log.record id t).viewIdOf id = pure t.view := by
    simp [viewIdOf, OpLog.record]
  rw [currentView, heads_record hparents, mergedView_singleton]
  refine ⟨?_, readOnly_viewOf id S⟩
  rw [viewOf, hlookup, pure_bind, ← hnamed]
  exact value_get hfree hv

omit [Crypto] in
/-- What undoing the op that was accepted last leaves at a place. -/
theorem restored_iff {v v' next : View} {c c' : Contents} {effects : List Effect} {p : Place}
    (hundone : Undone v' next (c.actAll effects) c' effects)
    (happlied : p.shows v' (c.actAll effects) = (p.lastWrite effects).getD (p.shows v c))
    (heffects : ∀ e ∈ effects, Undoable e ∧ ((p.writtenBy e).isSome → CameFrom (p.shows v c) e)) :
    p.shows next c' = p.shows v c ↔ ∀ e ∈ p.first effects, Finds (p.shows v c) e := by
  have hplace := hundone.places p
  rw [findSome?_leftBy fun e he => (heffects e he).1] at hplace
  cases hfirst : p.first effects with
  | none =>
      rw [hfirst, Option.bind_none, Option.getD_none, happlied, lastWrite_of_first hfirst,
        Option.getD_none] at hplace
      exact iff_of_true hplace fun e he => nomatch he
  | some e =>
      have hmem : e ∈ effects := List.mem_of_find?_eq_some hfirst
      have htouched : (p.writtenBy e).isSome = true := List.find?_some (p := fun e =>
        (p.writtenBy e).isSome) hfirst
      obtain ⟨hundoable, hcame⟩ := heffects e hmem
      rw [hfirst, Option.bind_some] at hplace
      have hleft : ∃ x, p.leftBy e = some x := by
        rw [← Option.isSome_iff_exists, isSome_leftBy hundoable]
        exact htouched
      obtain ⟨x, hx⟩ := hleft
      rw [hx, Option.getD_some] at hplace
      have hiff := leftBy_eq_iff hundoable htouched (hcame htouched)
      rw [hx, Option.some.injEq] at hiff
      rw [hplace, hiff]
      constructor
      · intro hfinds e' he'
        cases he'
        exact hfinds
      · intro hfinds
        exact hfinds e rfl

omit [Crypto] in
theorem cameFrom_of_touched {v : View} {c : Contents} {p : Place} {e : Effect}
    (hp : (p.writtenBy e).isSome)
    (h : ∀ entity to_ source, e = .point entity to_ source →
      CameFrom (c.at (.entity entity)) e) : CameFrom (p.shows v c) e := by
  intro entity to_ source heq
  have hcame := h entity to_ source heq
  subst heq
  rcases p with ⟨id | _ | _ | _⟩ | _
  · simp only [Place.writtenBy, Cell.writtenBy] at hp
    split_ifs at hp with hid
    · rw [Place.shows, ← hid]
      exact hcame entity to_ source rfl
    · cases hp
  all_goals cases hp

/-- Right after an op on all the heads was accepted, undoing it makes the view before it again,
exactly if the op found each set and claim that it touched as its inverse leaves it. -/
theorem undo_restores (h : LogReached S log) (ht : Delivery.Verified ⟨S, log, t⟩)
    (hheads : log.heads ≠ []) (hparents : t.parents = log.heads)
    (hu : (undoAs (log.deliver t S) signer cap allowed (Crypto.objectId (.op t)) idem time).value
      ((log.accept t).after S) = .ok u)
    (hF : (undoAs (log.deliver t S) signer cap allowed (Crypto.objectId (.op t)) idem time).after
      ((log.accept t).after S) ⊆ F) (hfree : CollisionFree F) :
    ∃ v c next c', log.currentView.value S = .ok v ∧ Sound (log.currentView.after S) v c ∧
      Crypto.objectId (.view next) = u.view ∧ Object.view next ∈ F ∧ Sound F next c' ∧
      (c'.revoked = c.revoked ∧ c'.tombstoned = c.tombstoned ∧ wholes next = wholes v) ∧
      ((∀ p : Place, p.shows next c' = p.shows v c) ↔
        ∀ p : Place, ∀ e ∈ p.first t.effects, Finds (p.shows v c) e) := by
  have hlast := List.Subset.trans (subset_after _ _) hF
  have hfree' := hfree.mono hlast
  have hne : t.parents ≠ [] := hparents ▸ hheads
  obtain ⟨hdeliver, hverified⟩ := deliver_verified ht
  obtain ⟨middle, v, _, v', c, _, hvetted⟩ := h.verified hne ht (List.Subset.refl _) hfree'
  rw [hdeliver] at hu hF
  obtain ⟨t', v₁, next, hundoing⟩ := undoAs_ok hu hF hfree
  -- the undo reads the op itself, and the view that it named
  have hop : Object.op t ∈ (log.accept t).after S := by
    obtain ⟨hnew, ⟨id, log'⟩, hvalue⟩ := ht
    obtain ⟨-, -, -, _, -, hafter⟩ := accept_verified hnew hvalue
    simp [hafter]
  obtain rfl : t' = t := Except.ok.inj (hundoing.found.symm.trans (value_get hfree' hop))
  obtain ⟨hcurrent, hafter⟩ := currentView_record hparents hvetted.named hvetted.stored hfree'
    (Crypto.objectId (.op t'))
  obtain rfl : v₁ = v' := Except.ok.inj (hundoing.current.symm.trans hcurrent)
  obtain ⟨start, hstart, hsound, -⟩ := hvetted.applied.ensures hfree' fun start hstart =>
    ensures_apply (hvetted.sound.mono hstart) _ _
  obtain ⟨hback, c', hsound', hundone⟩ :=
    hundoing.undone (hafter ▸ hsound.mono hstart) hfree
  have hwholes := ran_apply_of_places (fun e he => (hback e he).1.onPlaces) hvetted.applied
  obtain ⟨hrevoked, htombstoned⟩ := actAll_of_places (fun e he => (hback e he).1.onPlaces) c
  have hreads := hvetted.parents
  refine ⟨v, c, next, c', ?_, ?_, hundoing.named, hundoing.stored, hsound',
    ⟨hundone.revoked.trans hrevoked, hundone.tombstoned.trans htombstoned,
      hundone.wholes.trans hwholes⟩, ?_⟩
  · rw [currentView, ← hparents]
    exact hreads.value
  · rw [currentView, ← hparents]
    exact hreads.sound
  · refine forall_congr' fun p => restored_iff hundone ?_ fun e he => ⟨(hback e he).1, fun hp => ?_⟩
    · obtain ⟨_, _, hplace⟩ := hvetted.applied.ensures hfree' fun start _ =>
        ensures_apply_places (c := c) _ _ p
      exact hplace
    · refine cameFrom_of_touched hp fun entity to_ source heq => ?_
      subst heq
      rintro _ _ _ ⟨⟩
      obtain ⟨_, -, hfrom, -⟩ := hvetted.point hfree' he
      refine ⟨hfrom, ?_, ((hback _ he).2 _ _ _ rfl).2⟩
      rw [hreads.cells]
      exact h.entities_point hverified (List.Subset.trans hvetted.before hvetted.after) hfree' _

end Restoring

section Samples

/-! The owner takes back that a capability was activated. -/

local instance undoHash : Crypto := .ofTable forkTable

def undoBase : Store × OpLog :=
  acceptAll ([] ++ [.principal ownerPrincipal, .capability sampleCapability]) .new [initOp]

def undoSigner : Signer := ⟨.splat 1, ownerKey, fun _ => ownerSig, fun _ => rfl⟩

def undoIdem : Bytes := List.replicate 16 (Byte.ofNat 9)

def activatedStore : Store := (undoBase.2.accept activateOp).after undoBase.1

def activatedLog : OpLog := undoBase.2.deliver activateOp undoBase.1

def undoOp : Op :=
  { ownerOp "undo" [.splat 8] [.uncap (.splat 5)] (.splat 3) with
    args := (argsWithIdem undoIdem ∅).insert "target" (.bytes (ObjectId.splat 8).bytes) }

theorem undoAs_activated :
    (undoAs activatedLog undoSigner none [.splat 1] (.splat 8) undoIdem 0).value activatedStore =
      .ok undoOp := by
  decide +kernel

private theorem undoBase_reached : LogReached undoBase.1 undoBase.2 :=
  LogReached.new.putAll.acceptAll

private theorem activate_verified : Delivery.Verified ⟨undoBase.1, undoBase.2, activateOp⟩ := by
  have hnew : answer undoBase.2 activateOp = none := by decide +kernel
  have hview : (verifyOp undoBase.2 activateOp).value undoBase.1 =
      .ok { initView with caps := .splat 6 } := by decide +kernel
  exact ⟨hnew, accept_of_verifyOp hnew hview⟩

theorem undo_leaves_activated : ∃ t v next c c',
    Undoing activatedStore ((undoAs activatedLog undoSigner none [.splat 1] (.splat 8) undoIdem
      0).after activatedStore) activatedLog [.splat 1] (.splat 8) undoOp t v next ∧
    Undone v next c c' t.effects := by
  have hreached : LogReached activatedStore activatedLog := by
    obtain ⟨-, ⟨id, log'⟩, hvalue⟩ := activate_verified
    have hlog : activatedLog = log' := deliver_of_ok hvalue
    rw [hlog]
    exact undoBase_reached.accept activateOp hvalue
  obtain ⟨t, v, next, c, c', hundoing, -, -, -, -, hundone⟩ :=
    undo_leaves hreached undoAs_activated (collisionFree_ofTable (by decide) (by decide +kernel))
  exact ⟨t, v, next, c, c', hundoing, hundone⟩

/-- The view before the capability was activated comes back. -/
theorem undo_restores_activated : ∃ v c next c',
    undoBase.2.currentView.value undoBase.1 = .ok v ∧
      Sound (undoBase.2.currentView.after undoBase.1) v c ∧
      Crypto.objectId (.view next) = undoOp.view ∧ wholes next = wholes v ∧
      ∀ p : Place, p.shows next c' = p.shows v c := by
  obtain ⟨v, c, next, c', hv, hsound, hnamed, -, -, ⟨-, -, hwholes⟩, hiff⟩ :=
    undo_restores undoBase_reached activate_verified (by decide +kernel) (by decide +kernel)
      undoAs_activated (List.Subset.refl _) (collisionFree_ofTable (by decide) (by decide +kernel))
  refine ⟨v, c, next, c', hv, hsound, hnamed, hwholes, hiff.mpr fun p e he => ?_⟩
  have hview : undoBase.2.currentView.value undoBase.1 = .ok initView := by decide +kernel
  obtain rfl : v = initView := Except.ok.inj (hv.symm.trans hview)
  have htouched : ((p.writtenBy (.cap (.splat 5))).isSome = true) ∧ e = .cap (.splat 5) := by
    have hmem := List.mem_of_find?_eq_some he
    have hsome := List.find?_some he
    obtain rfl := List.mem_singleton.mp hmem
    exact ⟨hsome, rfl⟩
  obtain ⟨hwritten, rfl⟩ := htouched
  -- the capability was not active
  have hnone : c.at (.cap (.splat 5)) = none := by
    obtain ⟨x, hx, hat, -⟩ := hsound.at (.cap (.splat 5))
      (collisionFree_ofTable (by decide) (by decide +kernel))
    have hread : (Trie.get initView.caps (ObjectId.splat 5).bytes).value
        (undoBase.2.currentView.after undoBase.1) = .ok none := by decide +kernel
    rw [← hat]
    exact Except.ok.inj (hx.symm.trans hread)
  rcases p with ⟨_ | _ | _ | cap⟩ | _
  case cell.cap =>
    simp only [Place.writtenBy, Cell.writtenBy] at hwritten
    split_ifs at hwritten with hcap
    · rw [← hcap]
      exact hnone
    · cases hwritten
  all_goals cases hwritten

end Samples

end Tessra.Oplog
