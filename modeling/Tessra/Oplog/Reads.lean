import Tessra.Oplog.Heads

namespace Tessra.Oplog

open Tessra.Core Tessra.Data StoreM OpLog Verify

/-! Reading the merged views of ops of a log, before and after an accept. -/

namespace OpLog

variable [Crypto]

def entityIn (log : OpLog) (ops : List ObjectId) (id : EntityId) : StoreM (Option Pointer) := do
  ViewState.entity (← log.mergedView ops) id

def claimIn (log : OpLog) (ops : List ObjectId) (id : EntityId) : StoreM (Option Pointer) := do
  ViewState.claim (← log.mergedView ops) id

def proposedIn (log : OpLog) (ops : List ObjectId) (rev : ObjectId) : StoreM Bool := do
  ViewState.inSet (← log.mergedView ops).proposed rev

def capIn (log : OpLog) (ops : List ObjectId) (cap : ObjectId) : StoreM Bool := do
  ViewState.inSet (← log.mergedView ops).caps cap

def revokedIn (log : OpLog) (ops : List ObjectId) (id : EntityId) : StoreM Bool := do
  ViewState.principalRevoked (← log.mergedView ops) id

def principalIn (log : OpLog) (ops : List ObjectId) (id : EntityId) :
    StoreM (Option (ObjectId × Principal)) := do
  resolvePrincipal (← log.mergedView ops) id

def ownersIn (log : OpLog) (ops : List ObjectId) : StoreM (List EntityId) := do
  return (← log.mergedView ops).owners

end OpLog

variable [Crypto] {F S S' : Store} {log log' : OpLog} {op : Op} {ops : List ObjectId}
  {v : View} {c : Contents}

/-- An op at or below some of these revokes the principal. -/
def RevokedBelow (F : Store) (ops : List ObjectId) (p : EntityId) : Prop :=
  ∃ x ∈ ops, ∃ o, Ancestor F o x ∧ RevokesIn F o p

/-- What reading the merged view of verified ops finds. -/
structure Reads (F S : Store) (log : OpLog) (ops : List ObjectId) (v : View)
    (c : Contents) : Prop where
  value : (log.mergedView ops).value S = .ok v
  sound : Sound ((log.mergedView ops).after S) v c
  cells : ∀ cell, c.at cell = mergedAt S cell ops
  revoked : ∀ p : EntityId, (c.revoked p.bytes).isSome ↔ RevokedBelow F ops p

theorem LogReached.reads (h : LogReached S log) (hops : ∀ o ∈ ops, o ∈ log.verified)
    (hF : (log.mergedView ops).after S ⊆ F) (hfree : CollisionFree F) :
    ∃ v c, Reads F S log ops v c := by
  have hstart := List.Subset.trans (subset_after (log.mergedView ops) S) hF
  have hkept := h.keptRevoked hstart hfree
  obtain ⟨v, hv, c, hsound, hrevoked, hat⟩ := hkept.returns_mergedView revokedAlong_merge hstart
    hfree (List.Subset.refl S) hops (hfree.mono hF)
  exact ⟨v, c, hv, hsound, hat, hrevoked⟩

theorem readOnly_resolvePrincipal (view : View) (id : EntityId) :
    (resolvePrincipal view id).ReadOnly := by
  refine ((readOnly_trieGet _ _).bind fun _ => readOnly_pure _).bind fun p => ?_
  cases p with
  | none => exact readOnly_pure _
  | some p =>
      cases p with
      | conflict ids => exact readOnly_throw _
      | id oid => exact (readOnly_get Principal oid).bind fun _ => readOnly_pure _

section Reads

variable (h : Reads F S log ops v c) (hfree : CollisionFree ((log.mergedView ops).after S))

include h hfree

theorem Reads.at (cell : Cell) :
    (Trie.get (cell.root v) cell.key).value ((log.mergedView ops).after S) =
      .ok (mergedAt S cell ops) := by
  obtain ⟨x, hx, rfl, _⟩ := h.sound.at cell ((readOnly_trieGet _ _ _).symm ▸ hfree)
  rw [hx, h.cells]

theorem Reads.entityIn (id : EntityId) :
    (log.entityIn ops id).value S = .ok ((mergedAt S (.entity id) ops).bind Pointer.fromTrie) := by
  rw [OpLog.entityIn, (bind_of_ok h.value).1, ViewState.entity]
  exact (bind_of_ok (h.at hfree (.entity id))).1

theorem Reads.claimIn (id : EntityId) :
    (log.claimIn ops id).value S = .ok ((mergedAt S (.claim id) ops).bind Pointer.fromTrie) := by
  rw [OpLog.claimIn, (bind_of_ok h.value).1, ViewState.claim]
  exact (bind_of_ok (h.at hfree (.claim id))).1

theorem Reads.proposedIn (rev : ObjectId) :
    (log.proposedIn ops rev).value S = .ok (mergedAt S (.proposed rev) ops).isSome := by
  rw [OpLog.proposedIn, (bind_of_ok h.value).1, ViewState.inSet]
  exact (bind_of_ok (h.at hfree (.proposed rev))).1

theorem Reads.capIn (cap : ObjectId) :
    (log.capIn ops cap).value S = .ok (mergedAt S (.cap cap) ops).isSome := by
  rw [OpLog.capIn, (bind_of_ok h.value).1, ViewState.inSet]
  exact (bind_of_ok (h.at hfree (.cap cap))).1

theorem Reads.revokedIn (id : EntityId) :
    (log.revokedIn ops id).value S = .ok (c.revoked id.bytes).isSome := by
  rw [OpLog.revokedIn, (bind_of_ok h.value).1, ViewState.principalRevoked]
  obtain ⟨x, hx, rfl, _⟩ := Core.returns_get h.sound.revoked id.length_bytes
    ((readOnly_trieGet _ _ _).symm ▸ hfree)
  exact (bind_of_ok hx).1

omit hfree in
theorem Reads.pointsAt {id : EntityId} {version : ObjectId} {p : Principal}
    (hfree : CollisionFree F) (hF : (log.mergedView ops).after S ⊆ F)
    (hp : (log.principalIn ops id).value S = .ok (some (version, p))) :
    PointsAt F c id version p := by
  rw [OpLog.principalIn, (bind_of_ok h.value).1] at hp
  refine ran_resolvePrincipal h.sound hfree ((ran_of_value hp).mono (List.Subset.refl _) ?_)
  rwa [readOnly_resolvePrincipal v id]

omit hfree in
theorem Reads.ownersIn : (log.ownersIn ops).value S = .ok v.owners := by
  rw [OpLog.ownersIn, (bind_of_ok h.value).1]
  rfl

end Reads

/-- What an op with parents was verified against, and what its verification found. -/
structure Vetted (S F middle : Store) (log : OpLog) (op : Op) (v c v' : View)
    (cv cc : Contents) : Prop where
  parents : Reads F S log op.parents v cv
  before : (log.mergedView op.parents).after S ⊆ middle
  after : middle ⊆ F
  currentSound : Sound middle c cc
  currentRevoked : ∀ p : EntityId, (cc.revoked p.bytes).isSome ↔ RevokedBelow F log.heads p
  currentAt : ∀ cell, cc.at cell = mergedAt S cell log.heads
  checked : Checked middle F log v c op
  applied : (ViewState.apply v op.effects op.parents.head?).Ran middle F v'
  named : Crypto.objectId (.view v') = op.view
  stored : Object.view v' ∈ F

theorem LogReached.vetted (h : LogReached S log) (hparents : op.parents ≠ [])
    (hvalue : (verifyOp log op).value S = .ok v') (hF : (verifyOp log op).after S ⊆ F)
    (hfree : CollisionFree F) :
    ∃ middle v c cv cc, Vetted S F middle log op v c v' cv cc := by
  have hstart := List.Subset.trans (subset_after (verifyOp log op) S) hF
  have hkept := h.keptRevoked hstart hfree
  obtain ⟨v, c, S₁, S₂, hv, rfl, hc, rfl, hafter, hchecked, happlied, hnamed, hstored⟩ :=
    verifyOp_steps hparents hvalue
  have hafter := List.Subset.trans hafter hF
  have h₁ := subset_after (log.mergedView op.parents) S
  have h₂ := subset_after log.currentView ((log.mergedView op.parents).after S)
  obtain ⟨cv, hsound, hrevoked, hat⟩ := (hkept.returns_mergedView revokedAlong_merge hstart hfree
    (List.Subset.refl S) (verifyOp_parents hvalue)).ensures
      (hfree.mono (List.Subset.trans h₂ hafter)) v hv
  obtain ⟨cc, hsoundC, hrevokedC, hatC⟩ := (hkept.returns_mergedView revokedAlong_merge hstart
    hfree h₁ hkept.heads).ensures (hfree.mono hafter) c hc
  exact ⟨_, v, c, cv, cc, ⟨hv, hsound, hat, hrevoked⟩, h₂, hafter, hsoundC, hrevokedC, hatC,
    hchecked.mono hF, happlied.mono (List.Subset.refl _) hF, hnamed, hF hstored⟩

theorem Vetted.sound {middle : Store} {cur v' : View} {cc : Contents}
    (h : Vetted S F middle log op v cur v' c cc) : Sound middle v c := h.parents.sound.mono h.before

def NonOwner (S : Store) (log : OpLog) (op : Op) : Prop :=
  op.parents ≠ [] ∧ ∃ owners, (log.ownersIn op.parents).value S = .ok owners ∧ op.author ∉ owners

instance (S : Store) (log : OpLog) (op : Op) : Decidable (NonOwner S log op) :=
  match h : (log.ownersIn op.parents).value S with
  | .ok owners => decidable_of_iff (op.parents ≠ [] ∧ op.author ∉ owners) (by simp [NonOwner, h])
  | .error _ => isFalse (by simp [NonOwner, h])

theorem LogReached.verified (h : LogReached S log) (hparents : op.parents ≠ [])
    (hverified : Delivery.Verified ⟨S, log, op⟩) (hF : (log.accept op).after S ⊆ F)
    (hfree : CollisionFree F) :
    ∃ middle v c v' cv cc, Vetted S F middle log op v c v' cv cc := by
  obtain ⟨hnew, ⟨id, log'⟩, hvalue⟩ := hverified
  obtain ⟨_, _, _, v', hv', hafter⟩ := accept_verified hnew hvalue
  rw [hafter] at hF
  obtain ⟨middle, v, c, cv, cc, hvetted⟩ :=
    h.vetted hparents hv' (List.Subset.trans (List.subset_append_left _ _) hF) hfree
  exact ⟨middle, v, c, v', cv, cc, hvetted⟩

/-- What the view of an accepted op shows at a cell: what the op's effects write
there over its parents' merged view. -/
theorem LogReached.mergedAt_recorded (h : LogReached S log)
    (hreached : LogReached S' (log.record (Crypto.objectId (.op op)) op)) (hsub : S ⊆ S')
    (hfree : CollisionFree S') (hop : Object.op op ∈ S')
    (hparents : ∀ p ∈ op.parents, p ∈ log.verified) (cell : Cell) :
    mergedAt S' cell [Crypto.objectId (.op op)] =
      (cell.lastWrite op.effects).getD (mergedAt S cell op.parents) := by
  have hkept := h.keeps (hfree.mono hsub)
  have hmem : Crypto.objectId (.op op) ∈ (log.record (Crypto.objectId (.op op)) op).verified :=
    mem_record_verified.mpr (.inr rfl)
  obtain ⟨op', _, _, hrecorded, _⟩ := (hreached.keeps hfree).recorded _ hmem
  have hget : (getOp (Crypto.objectId (.op op))).value S' = .ok op := value_get hfree hop
  rw [hrecorded.get_op hfree] at hget
  cases hget
  have hone : mergedAt S' cell [Crypto.objectId (.op op)] =
      shown S' cell (some (Crypto.objectId (.op op))) := by
    rw [mergedAt, sortedDedup_singleton, mergeAll, foldFrom]
  rw [hone, hrecorded.shown_eq (List.Subset.refl S') hfree, hrecorded.shows,
    hkept.mergedAt_mono hsub hfree (hkept.shown_mono hsub hfree) hparents]

end Tessra.Oplog
