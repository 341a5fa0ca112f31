import Tessra.Core.Ran
import Tessra.Oplog.Growing

namespace Tessra.Oplog

open Tessra.Core Tessra.Data StoreM OpLog Verify

/-! What an accepted op passed: the checks of its verification, read back. -/

section Checks

variable {S S' : Store} {α : Type}

theorem ran_require {holds : Bool} {e : Error} {u : Unit} (h : (require holds e).Ran S S' u) :
    holds = true := by
  unfold require at h
  split_ifs at h with hholds
  · exact hholds
  · exact (Ran.not_throw h).elim

theorem ran_orThrow {x : Option α} {e : Error} {a : α} (h : (orThrow x e).Ran S S' a) :
    x = some a := by
  cases x with
  | none => exact (Ran.not_throw h).elim
  | some a' => exact congrArg some (Ran.eq_of_pure h).symm

theorem readOnly_require (holds : Bool) (e : Error) : (require holds e).ReadOnly := by
  unfold require
  split_ifs
  · exact readOnly_pure ()
  · exact readOnly_throw e

variable [Crypto] {view : View} {c : Contents}

theorem ran_requireSigned {T : Type} [SignedObject T] {t : T} {key : PublicKey}
    {reject : String → Error} {u : Unit} (h : (requireSigned t key reject).Ran S S' u) :
    verifyWith t key = .ok () := by
  unfold requireSigned at h
  split at h
  · assumption
  · exact (Ran.not_throw h).elim

theorem ran_trieGet (cell : Cell) (h : Sound S view c) (hfree : CollisionFree S')
    {x : Option TrieValue} (hran : (Trie.get (cell.root view) cell.key).Ran S S' x) :
    x = c.at cell := by
  have hspec : ∀ start, S ⊆ start →
      (Trie.get (cell.root view) cell.key).Returns start fun x _ => x = c.at cell :=
    fun start hstart => ((h.mono hstart).at cell).mono fun _ _ _ hx => hx.1
  obtain ⟨_, _, hx⟩ := hran.returns hfree hspec
  exact hx

theorem ran_entity (h : Sound S view c) (hfree : CollisionFree S') {id : EntityId}
    {p : Option Pointer} (hran : (ViewState.entity view id).Ran S S' p) :
    p = (c.at (.entity id)).bind Pointer.fromTrie := by
  obtain ⟨x, hx, hp⟩ := hran.bind
  rw [Ran.eq_of_pure hp, ran_trieGet (.entity id) h hfree hx]

theorem ran_inCaps (h : Sound S view c) (hfree : CollisionFree S') {cap : ObjectId} {b : Bool}
    (hran : (ViewState.inSet view.caps cap).Ran S S' b) : b = (c.at (.cap cap)).isSome := by
  obtain ⟨x, hx, hb⟩ := hran.bind
  rw [Ran.eq_of_pure hb, ran_trieGet (.cap cap) h hfree hx]

theorem ran_principalRevoked (h : Sound S view c) (hfree : CollisionFree S') {id : EntityId}
    {b : Bool} (hran : (ViewState.principalRevoked view id).Ran S S' b) :
    b = (c.revoked id.bytes).isSome := by
  obtain ⟨x, hx, hb⟩ := hran.bind
  have hspec : ∀ start, S ⊆ start →
      (Trie.get view.revoked id.bytes).Returns start fun x _ => x = c.revoked id.bytes :=
    fun start hstart => (Core.returns_get (h.mono hstart).revoked id.length_bytes).mono
      fun _ _ _ hx => hx.1
  obtain ⟨_, _, hget⟩ := hx.returns hfree hspec
  rw [Ran.eq_of_pure hb, hget]

/-- The principal's version that an entity points at. -/
def PointsAt (S : Store) (c : Contents) (id : EntityId) (version : ObjectId) (p : Principal) :
    Prop :=
  c.at (.entity id) = some (.id version) ∧ (get Principal version).value S = .ok p

theorem ran_resolvePrincipal (h : Sound S view c) (hfree : CollisionFree S') {id : EntityId}
    {version : ObjectId} {p : Principal}
    (hran : (resolvePrincipal view id).Ran S S' (some (version, p))) :
    PointsAt S' c id version p := by
  obtain ⟨pointer, hentity, hrest⟩ := hran.bind
  have hpointer := ran_entity h hfree hentity
  cases pointer with
  | none => cases Ran.eq_of_pure hrest
  | some pointer =>
      cases pointer with
      | conflict ids => exact (Ran.not_throw hrest).elim
      | id oid =>
          obtain ⟨q, hq, hresult⟩ := Ran.bind hrest
          cases Ran.eq_of_pure hresult
          refine ⟨?_, hq.value_get hfree⟩
          cases hat : c.at (.entity id) with
          | none => simp [hat] at hpointer
          | some x =>
              rw [hat] at hpointer
              cases x <;> cases hpointer
              rfl

theorem ran_resolvePrincipal_none (h : Sound S view c) (hfree : CollisionFree S')
    {id : EntityId} (hran : (resolvePrincipal view id).Ran S S' none) :
    (c.at (.entity id)).bind Pointer.fromTrie = none := by
  obtain ⟨pointer, hentity, hrest⟩ := hran.bind
  rw [← ran_entity h hfree hentity]
  cases pointer with
  | none => rfl
  | some pointer =>
      cases pointer with
      | conflict ids => exact (Ran.not_throw hrest).elim
      | id oid =>
          obtain ⟨q, _, hresult⟩ := Ran.bind hrest
          cases Ran.eq_of_pure hresult

end Checks

variable [Crypto] {S S' : Store} {log log' : OpLog} {op : Op} {v c v' : View}
  {cv cc : Contents}

theorem ran_checkAuthorAtParents (hv : Sound S v cv) (hfree : CollisionFree S')
    {version : ObjectId} (h : (checkAuthorAtParents v op).Ran S S' version) :
    ∃ p, PointsAt S' cv op.author version p ∧ p.status = "active" ∧ p.key = some op.key := by
  obtain ⟨found, hfound, hrest⟩ := h.bind
  obtain ⟨⟨version', p⟩, hp, hrest⟩ := hrest.bind
  obtain ⟨_, hactive, hrest⟩ := hrest.bind
  obtain ⟨_, hkey, hresult⟩ := hrest.bind
  cases Ran.eq_of_pure hresult
  rw [ran_orThrow hp] at hfound
  exact ⟨p, ran_resolvePrincipal hv hfree hfound, by simpa using ran_require hactive,
    by simpa using ran_require hkey⟩

theorem ran_checkAuthorAtCurrent (hc : Sound S c cc) (hfree : CollisionFree S')
    {atParents : ObjectId} (h : (checkAuthorAtCurrent c op atParents).Ran S S' ()) :
    cc.revoked op.author.bytes = none ∧ ∀ version p, PointsAt S' cc op.author version p →
      (version = atParents ∨ p.key = some op.key) ∧ p.status = "active" := by
  obtain ⟨revoked, hrevoked, hrest⟩ := h.bind
  obtain ⟨_, hnot, hrest⟩ := hrest.bind
  have hnone := ran_principalRevoked hc hfree hrevoked
  have hfalse := ran_require hnot
  rw [hnone] at hfalse
  refine ⟨by simpa using hfalse, fun version p hpoints => ?_⟩
  obtain ⟨found, hfound, hrest⟩ := hrest.bind
  cases found with
  | none =>
      have habsent := ran_resolvePrincipal_none hc hfree hfound
      rw [hpoints.1] at habsent
      cases habsent
  | some found =>
      obtain ⟨version', p'⟩ := found
      have hpoints' := ran_resolvePrincipal hc hfree hfound
      obtain ⟨_, hkey, hactive⟩ := Ran.bind hrest
      have hsame := hpoints.1.symm.trans hpoints'.1
      cases hsame
      have hsame := hpoints.2.symm.trans hpoints'.2
      cases hsame
      exact ⟨by simpa using ran_require hkey, by simpa using ran_require hactive⟩

/-- What step 6 asks of an op that is not an owner's. -/
structure Authorized (S S' : Store) (v c : View) (op : Op) (capId : ObjectId)
    (cap : Capability) : Prop where
  cited : op.cap = some capId
  atParents : (ViewState.inSet v.caps capId).Ran S S' true
  atCurrent : (ViewState.inSet c.caps capId).Ran S S' true
  stored : (get Capability capId).Ran S S' cap
  subject : cap.subject = op.author
  chain : (checkChain v cap capId).Ran S S' ()
  kind : op.kind ∈ ungated ∨ op.kind ∈ cap.verbs
  effects : ∀ e ∈ op.effects, (authorizeEffect v cap e).Ran S S' ()

theorem ran_checkAuthorization (h : (checkAuthorization v c op).Ran S S' ()) :
    ∃ capId cap, Authorized S S' v c op capId cap := by
  obtain ⟨capId, hcapId, h⟩ := h.bind
  obtain ⟨inParents, hparents, h⟩ := h.bind
  obtain ⟨_, hinParents, h⟩ := h.bind
  obtain ⟨inCurrent, hcurrent, h⟩ := h.bind
  obtain ⟨_, hinCurrent, h⟩ := h.bind
  obtain ⟨cap, hcap, h⟩ := h.bind
  obtain ⟨_, hsubject, h⟩ := h.bind
  obtain ⟨_, hchain, h⟩ := h.bind
  obtain ⟨_, hkind, heffects⟩ := h.bind
  refine ⟨capId, cap, ran_orThrow hcapId, ?_, ?_, hcap, by simpa using ran_require hsubject,
    hchain, by simpa using ran_require hkind, heffects.forM⟩
  · exact ran_require hinParents ▸ hparents
  · exact ran_require hinCurrent ▸ hcurrent

/-- What the checks on an op that has parents ask of it. -/
structure Checked (S S' : Store) (log : OpLog) (v c : View) (op : Op) : Prop where
  author : ∃ version, (checkAuthorAtParents v op).Ran S S' version ∧
    (checkAuthorAtCurrent c op version).Ran S S' ()
  signed : verifyWith op op.key = .ok ()
  authorized : op.author ∉ v.owners → ∃ capId cap, Authorized S S' v c op capId cap
  legal : ∃ landed, (landedRevisions v).Ran S S' landed ∧
    ∀ e ∈ op.effects,
      (checkEffect log.records v landed op (decide (op.author ∈ v.owners)) e).Ran S S' ()

theorem Authorized.mono {T : Store} {capId : ObjectId} {cap : Capability}
    (h : Authorized S S' v c op capId cap) (hsub : S' ⊆ T) : Authorized S T v c op capId cap :=
  { h with
    atParents := h.atParents.mono (List.Subset.refl S) hsub
    atCurrent := h.atCurrent.mono (List.Subset.refl S) hsub
    stored := h.stored.mono (List.Subset.refl S) hsub
    chain := h.chain.mono (List.Subset.refl S) hsub
    effects := fun e he => (h.effects e he).mono (List.Subset.refl S) hsub }

theorem Checked.mono {T : Store} (h : Checked S S' log v c op) (hsub : S' ⊆ T) :
    Checked S T log v c op where
  author := by
    obtain ⟨version, hparents, hcurrent⟩ := h.author
    exact ⟨version, hparents.mono (List.Subset.refl S) hsub,
      hcurrent.mono (List.Subset.refl S) hsub⟩
  signed := h.signed
  authorized howner := by
    obtain ⟨capId, cap, hauthorized⟩ := h.authorized howner
    exact ⟨capId, cap, hauthorized.mono hsub⟩
  legal := by
    obtain ⟨landed, hlanded, heffects⟩ := h.legal
    exact ⟨landed, hlanded.mono (List.Subset.refl S) hsub, fun e he =>
      (heffects e he).mono (List.Subset.refl S) hsub⟩

theorem ran_checkOp (h : (checkOp log v c op).Ran S S' ()) : Checked S S' log v c op := by
  obtain ⟨version, hparents, h⟩ := h.bind
  obtain ⟨_, hcurrent, h⟩ := h.bind
  obtain ⟨_, hsigned, h⟩ := h.bind
  have hlegal : (op.author ∉ v.owners → (checkAuthorization v c op).Ran S S' ()) ∧
      (checkLegality log.records v op (decide (op.author ∈ v.owners))).Ran S S' () := by
    by_cases howner : op.author ∈ v.owners
    · simp only [howner, decide_true, if_true] at h ⊢
      exact ⟨fun hnot => absurd trivial hnot, h⟩
    · simp only [howner, decide_false, Bool.false_eq_true, if_false] at h ⊢
      obtain ⟨_, hauthorized, h⟩ := h.bind
      exact ⟨fun _ => hauthorized, h⟩
  obtain ⟨landed, hlanded, heffects⟩ := Ran.bind hlegal.2
  exact ⟨⟨version, hparents, hcurrent⟩, ran_requireSigned hsigned,
    fun howner => ran_checkAuthorization (hlegal.1 howner), landed, hlanded, heffects.forM⟩

theorem ran_checkDeterminism {reason : ObjectId → String}
    (h : (checkDeterminism v op reason).Ran S S' v') :
    (ViewState.apply v op.effects op.parents.head?).Ran S S' v' ∧
      Crypto.objectId (.view v') = op.view ∧ Object.view v' ∈ S' := by
  obtain ⟨produced, happly, h⟩ := h.bind
  obtain ⟨id, hput, h⟩ := h.bind
  obtain ⟨_, hid, hresult⟩ := h.bind
  cases Ran.eq_of_pure hresult
  obtain ⟨start, _, hend, hvalue⟩ := hput
  cases hvalue
  exact ⟨happly, of_decide_eq_true (ran_require hid),
    hend (List.mem_append_right start List.mem_cons_self)⟩

def answer (log : OpLog) (op : Op) : Option ObjectId :=
  (idemKey op).bind fun k => log.idem.lookup k

theorem accept_answered {existing : ObjectId} (h : answer log op = some existing) :
    log.accept op = pure (existing, log) := by
  rw [OpLog.accept]
  unfold answer at h
  rw [h]

omit [Crypto] in
theorem readOnly_forM {α : Type} {f : α → StoreM PUnit} (hf : ∀ x, (f x).ReadOnly)
    (l : List α) : (l.forM f).ReadOnly := by
  induction l with
  | nil => exact readOnly_pure _
  | cons x rest ih => exact (hf x).bind fun _ => ih

omit [Crypto] in
theorem readOnly_parents (ops : List ObjectId) :
    (ops.forM fun p => require (log.isVerified p) (.unknownParent p)).ReadOnly :=
  readOnly_forM (fun _ => readOnly_require _ _) ops

omit [Crypto] in
theorem parents_verified {ops : List ObjectId} {u : PUnit}
    (h : (ops.forM fun p => require (log.isVerified p) (.unknownParent p)).value S = .ok u) :
    ∀ p ∈ ops, p ∈ log.verified := by
  intro p hp
  simpa [isVerified] using ran_require ((ran_of_value h).forM p hp)

omit [Crypto] in
theorem value_parents {ops : List ObjectId} (h : ∀ p ∈ ops, p ∈ log.verified) :
    (ops.forM fun p => require (log.isVerified p) (.unknownParent p)).value S = .ok () := by
  induction ops with
  | nil => rfl
  | cons p rest ih =>
      have hfirst : (require (log.isVerified p) (.unknownParent p)).value S = .ok () := by
        rw [isVerified, decide_eq_true (h p List.mem_cons_self)]
        rfl
      have hrest := ih fun q hq => h q (List.mem_cons_of_mem p hq)
      exact (bind_of_ok hfirst).1.trans (by rw [readOnly_require, hrest])

/-- What an accept that verified its op did. -/
theorem accept_verified (hnew : answer log op = none) {id : ObjectId}
    (h : (log.accept op).value S = .ok (id, log')) :
    id = Crypto.objectId (.op op) ∧ log' = log.record id op ∧
      (∀ p ∈ op.parents, p ∈ log.verified) ∧ ∃ v', (verifyOp log op).value S = .ok v' ∧
        (log.accept op).after S = (verifyOp log op).after S ++ [.op op, .view v'] := by
  unfold answer at hnew
  rw [OpLog.accept, hnew] at h ⊢
  obtain ⟨_, hparents, hrest, hafter⟩ := bind_ok h
  rw [readOnly_parents _ S] at hrest hafter
  obtain ⟨v', hv', hrest, hafter'⟩ := bind_ok hrest
  cases hrest
  exact ⟨rfl, rfl, parents_verified hparents, v', hv', (hafter.trans hafter').trans rfl⟩

theorem verifyOp_parents (h : (verifyOp log op).value S = .ok v') :
    ∀ p ∈ op.parents, p ∈ log.verified := by
  unfold verifyOp at h
  split_ifs at h with hinit
  · simp [List.isEmpty_iff.mp hinit]
  · obtain ⟨_, hparents, _⟩ := bind_ok h
    exact parents_verified hparents

theorem accept_of_verifyOp (hnew : answer log op = none)
    (h : (verifyOp log op).value S = .ok v') : ∃ r, (log.accept op).value S = .ok r := by
  unfold answer at hnew
  rw [OpLog.accept, hnew]
  exact ⟨_, by
    rw [(bind_of_ok (value_parents (verifyOp_parents h))).1, readOnly_parents, (bind_of_ok h).1]
    rfl⟩

/-- The verification of an op with parents, by its steps. -/
theorem verifyOp_steps (hparents : op.parents ≠ [])
    (h : (verifyOp log op).value S = .ok v') :
    ∃ v c S₁ S₂, (log.mergedView op.parents).value S = .ok v ∧
      S₁ = (log.mergedView op.parents).after S ∧ log.currentView.value S₁ = .ok c ∧
      S₂ = log.currentView.after S₁ ∧ S₂ ⊆ (verifyOp log op).after S ∧
      Checked S₂ ((verifyOp log op).after S) log v c op ∧
      (ViewState.apply v op.effects op.parents.head?).Ran S₂ ((verifyOp log op).after S) v' ∧
      Crypto.objectId (.view v') = op.view ∧ Object.view v' ∈ (verifyOp log op).after S := by
  have hnonempty : op.parents.isEmpty = false := by simpa using hparents
  have hunfold : verifyOp log op = (do
      op.parents.forM fun p => require (log.isVerified p) (.unknownParent p)
      let v ← log.mergedView op.parents
      let c ← log.currentView
      checkOp log v c op
      checkDeterminism v op fun produced =>
        s!"effects produce view {produced}, op claims {op.view}") := by
    rw [verifyOp, hnonempty]
    rfl
  rw [hunfold] at h ⊢
  obtain ⟨_, _, h, hafter⟩ := bind_ok h
  rw [readOnly_parents _ S] at h hafter
  obtain ⟨v, hv, h, hafter₁⟩ := bind_ok h
  obtain ⟨c, hc, h, hafter₂⟩ := bind_ok h
  have hrun := ran_of_value h
  rw [hafter, hafter₁, hafter₂]
  obtain ⟨_, hchecks, happly⟩ := hrun.bind
  obtain ⟨happly, hid, hmem⟩ := ran_checkDeterminism happly
  exact ⟨v, c, _, _, hv, rfl, hc, rfl, hrun.subset, ran_checkOp hchecks, happly, hid, hmem⟩

section Revoked

variable {F : Store} {o x : ObjectId} {p : EntityId}

/-- An op of the store that revokes the principal. -/
def RevokesIn (F : Store) (o : ObjectId) (p : EntityId) : Prop :=
  ∃ op, (getOp o).value F = .ok op ∧ .revoke p ∈ op.effects

/-- A merged view revokes whom an op at or below the merged ones revokes. -/
def RevokedAlong (F : Store) (ops : Set ObjectId) (_v : View) (c : Contents) : Prop :=
  ∀ p : EntityId, (c.revoked p.bytes).isSome ↔
    ∃ x ∈ ops, ∃ o, Ancestor F o x ∧ RevokesIn F o p

theorem revokedAlong_merge : MergeInvariant F (RevokedAlong F) := revokedSet.along_merge

theorem LogReached.keptRevoked (h : LogReached S log) (hF : S ⊆ F) (hfree : CollisionFree F) :
    Kept (RevokedAlong F) S log := revokedSet.kept h hF hfree

end Revoked

theorem verifyOp_init (hparents : op.parents = []) (h : (verifyOp log op).value S = .ok v') :
    log.heads = [] := by
  unfold verifyOp at h
  rw [if_pos (by rw [hparents]; rfl)] at h
  obtain ⟨_, _, hrest⟩ := (ran_of_value h).bind
  obtain ⟨_, hheads, _⟩ := hrest.bind
  simpa using ran_require hheads

theorem ran_initEffects {effects : List Effect} {found found' : Bool × Bool}
    (h : (effects.foldlM (initEffect op) found).Ran S S' found') (hfound : found'.1 = true) :
    found.1 = true ∨ .owner op.author ∈ effects := by
  induction effects generalizing found with
  | nil =>
      cases Ran.eq_of_pure h
      exact .inl hfound
  | cons effect rest ih =>
      rw [List.foldlM_cons] at h
      obtain ⟨next, hnext, hrest⟩ := h.bind
      rcases ih hrest with hfirst | hmem
      · cases effect with
        | owner principal =>
            simp only [initEffect] at hnext
            have heq := Ran.eq_of_pure hnext
            split_ifs at heq with hsame
            · exact .inr (hsame ▸ List.mem_cons_self)
            · exact .inl (heq ▸ hfirst)
        | point entity to_ source =>
            simp only [initEffect] at hnext
            split_ifs at hnext
            · obtain ⟨q, _, hnext⟩ := hnext.bind
              split_ifs at hnext
              · obtain ⟨_, _, hnext⟩ := hnext.bind
                cases Ran.eq_of_pure hnext
                exact .inl hfirst
              · cases Ran.eq_of_pure hnext
                exact .inl hfirst
            · cases Ran.eq_of_pure hnext
              exact .inl hfirst
        | _ =>
            cases Ran.eq_of_pure hnext
            exact .inl hfirst
      · exact .inr (List.mem_cons_of_mem _ hmem)

theorem verifyOp_owner (hparents : op.parents = []) (h : (verifyOp log op).value S = .ok v') :
    .owner op.author ∈ op.effects := by
  unfold verifyOp at h
  rw [if_pos (by rw [hparents]; rfl)] at h
  obtain ⟨_, _, hrest⟩ := (ran_of_value h).bind
  obtain ⟨_, _, hrest⟩ := hrest.bind
  obtain ⟨_, _, hrest⟩ := hrest.bind
  obtain ⟨found, hfound, hrest⟩ := hrest.bind
  obtain ⟨_, hboth, _⟩ := hrest.bind
  have hboth := ran_require hboth
  rw [Bool.and_eq_true] at hboth
  exact (ran_initEffects hfound hboth.1).resolve_left (by simp)

/-- An op that was verified applied its effects to a view, and made the one it names. -/
theorem verifyOp_applied (h : (verifyOp log op).value S = .ok v') :
    ∃ v, (ViewState.apply v op.effects op.parents.head?).Ran S ((verifyOp log op).after S) v' ∧
      Crypto.objectId (.view v') = op.view ∧ Object.view v' ∈ (verifyOp log op).after S := by
  by_cases hparents : op.parents = []
  · have hrun := ran_of_value h
    unfold verifyOp at hrun
    rw [if_pos (by rw [hparents]; rfl)] at hrun
    obtain ⟨_, _, hrun⟩ := hrun.bind
    obtain ⟨_, _, hrun⟩ := hrun.bind
    obtain ⟨_, _, hrun⟩ := hrun.bind
    obtain ⟨_, _, hrun⟩ := hrun.bind
    obtain ⟨_, _, hrun⟩ := hrun.bind
    obtain ⟨v, _, hrun⟩ := hrun.bind
    obtain ⟨happlied, hid, hmem⟩ := ran_checkDeterminism hrun
    refine ⟨v, ?_, hid, ?_⟩
    · unfold verifyOp
      rwa [if_pos (by rw [hparents]; rfl)]
    · unfold verifyOp
      rwa [if_pos (by rw [hparents]; rfl)]
  · obtain ⟨v, c, S₁, S₂, _, rfl, _, rfl, hsub, _, happlied, hid, hmem⟩ :=
      verifyOp_steps hparents h
    refine ⟨v, happlied.mono ?_ (List.Subset.refl _), hid, hmem⟩
    exact List.Subset.trans (subset_after (log.mergedView op.parents) S) (subset_after _ _)

end Tessra.Oplog
