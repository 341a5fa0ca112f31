import Tessra.Core.Stable
import Tessra.Oplog.Accepted

namespace Tessra.Oplog

open Tessra.Core Tessra.Data StoreM OpLog Verify

/-! Building ops on the current heads, and what verifying them then comes to. -/

/-- A principal that can sign ops. -/
structure Signer [Crypto] where
  principal : EntityId
  key : PublicKey
  sign : Object → Sig
  verifies : ∀ o, Crypto.verifies key o (sign o) = true

/-- The args with an idempotency key. -/
def argsWithIdem (idem : Bytes) (extra : OrdMap String Value) : OrdMap String Value :=
  extra.insert "idem" (.bytes idem)

section Build

variable [Crypto]

/-- The op of some effects on the current heads, with the view that they make. -/
def unsigned (log : OpLog) (signer : Signer) (cap : Option ObjectId) (kind : String)
    (args : OrdMap String Value) (effects : List Effect) (time : ℤ) (view : ObjectId) : Op where
  parents := log.heads
  author := signer.principal
  key := signer.key
  cap := cap
  kind := kind
  args := args
  effects := effects
  view := view
  time := time
  desc := none
  sig := none

/-- Build a signed op on the current heads from effects. -/
def buildOp (log : OpLog) (signer : Signer) (cap : Option ObjectId) (kind : String)
    (args : OrdMap String Value) (effects : List Effect) (time : ℤ) : StoreM Op := do
  let v ← log.mergedView log.heads
  let next ← ViewState.apply v effects log.heads.head?
  let view ← ViewState.storeView next
  let op := unsigned log signer cap kind args effects time view
  return { op with sig := some (signer.sign (.op op)) }

/-- Point an entity at a new version, from where the current view has it. -/
def pointEffect (log : OpLog) (entity : EntityId) (to_ : ObjectId) : StoreM Effect := do
  let current ← log.currentView
  let source := (← ViewState.entity current entity).map Pointer.toValue
  return .point entity to_ source

end Build

section Stable

variable [Crypto] {log : OpLog}

theorem stable_require (holds : Bool) (e : Error) : (require holds e).Stable := by
  unfold require
  split
  · exact stable_pure _
  · exact stable_throw _

theorem stable_orThrow {α : Type} (x : Option α) (e : Error) : (orThrow x e).Stable := by
  cases x with
  | none => exact stable_throw _
  | some a => exact stable_pure _

theorem stable_requireSigned {T : Type} [SignedObject T] (t : T) (key : PublicKey)
    (reject : String → Error) : (requireSigned t key reject).Stable := by
  unfold requireSigned
  split
  · exact stable_pure _
  · exact stable_throw _

theorem stable_entity (view : View) (id : EntityId) : (ViewState.entity view id).Stable :=
  (Trie.stable_trieGet _ _).bind fun _ => stable_pure _

theorem stable_inSet (root id : ObjectId) : (ViewState.inSet root id).Stable :=
  (Trie.stable_trieGet _ _).bind fun _ => stable_pure _

theorem stable_principalRevoked (view : View) (id : EntityId) :
    (ViewState.principalRevoked view id).Stable :=
  (Trie.stable_trieGet _ _).bind fun _ => stable_pure _

theorem stable_resolvePrincipal (view : View) (id : EntityId) :
    (resolvePrincipal view id).Stable := by
  refine (stable_entity view id).bind fun p => ?_
  split
  · exact stable_pure _
  · exact stable_throw _
  · exact (stable_get Principal _).bind fun _ => stable_pure _

theorem stable_checkChainFrom (view : View) (guard : ℕ) (cap : Capability) (capId : ObjectId) :
    (checkChainFrom view guard cap capId).Stable := by
  induction guard generalizing cap capId with
  | zero => exact stable_throw _
  | succ guard ih =>
      rw [checkChainFrom]
      refine (stable_resolvePrincipal _ _).bind fun _ => (stable_orThrow _ _).bind fun _ => ?_
      refine (stable_principalRevoked _ _).bind fun _ => (stable_require _ _).bind fun _ => ?_
      refine (stable_orThrow _ _).bind fun _ => (stable_requireSigned _ _ _).bind fun _ => ?_
      split
      · exact stable_require _ _
      · refine (stable_inSet _ _).bind fun _ => (stable_require _ _).bind fun _ => ?_
        refine (stable_get Capability _).bind fun _ => (stable_require _ _).bind fun _ => ?_
        exact (stable_require _ _).bind fun _ => (stable_require _ _).bind fun _ => ih _ _

theorem stable_applyEffect (parentOp : Option ObjectId) (v : View) (e : Effect) :
    (ViewState.applyEffect parentOp v e).Stable := by
  cases e with
  | point | propose | claim | cap | revoke | tomb =>
      exact (Trie.stable_insert _ _ _).bind fun _ => stable_pure _
  | unpoint | unpropose | unclaim | uncap =>
      exact (Trie.stable_remove _ _).bind fun _ => stable_pure _
  | head name to_ source seq attests id =>
      simp only [ViewState.applyEffect]
      split
      · exact stable_pure _
      · split
        · exact stable_throw _
        · exact stable_pure _
  | coordinator name to_ =>
      simp only [ViewState.applyEffect]
      split
      · exact stable_pure _
      · exact stable_pure _
  | _ => exact stable_pure _

theorem stable_apply (v : View) (effects : List Effect) (parentOp : Option ObjectId) :
    (ViewState.apply v effects parentOp).Stable :=
  Stable.foldlM (fun v e => stable_applyEffect parentOp v e) effects v

theorem stable_unionSets (roots : List ObjectId) : (ViewState.unionSets roots).Stable := by
  refine (Stable.foldlM (fun _ _ => ?_) _ _).bind fun _ => ?_
  · exact (Trie.stable_entries _).bind fun _ => stable_pure _
  · exact (stable_put _).bind fun _ => Stable.foldlM (fun _ _ => Trie.stable_insert _ _ _) _ _

theorem stable_merge (base a b : View) : (ViewState.merge base a b).Stable := by
  refine (Trie.stable_merge3 _ _ _ _).bind fun _ => (Trie.stable_merge3 _ _ _ _).bind fun _ => ?_
  refine (Trie.stable_merge3 _ _ _ _).bind fun _ => (Trie.stable_merge3 _ _ _ _).bind fun _ => ?_
  exact (stable_unionSets _).bind fun _ => (stable_unionSets _).bind fun _ => stable_pure _

theorem stable_empty : ViewState.empty.Stable := (stable_put _).bind fun _ => stable_pure _

theorem stable_viewOf (op : ObjectId) : (log.viewOf op).Stable := by
  refine Stable.bind ?_ fun _ => stable_get View _
  unfold viewIdOf
  split
  · exact stable_pure _
  · rw [map_eq_pure_bind]
    exact (stable_get Op _).bind fun _ => stable_pure _

theorem stable_foldViews (folded : List ObjectId) (acc : View) (ops : List ObjectId) :
    (log.foldViews folded acc ops).Stable := by
  induction ops generalizing folded acc with
  | nil => exact stable_pure _
  | cons next rest ih =>
      rw [foldViews]
      refine (lasting_lca _).stable.bind fun base => Stable.bind ?_ fun _ =>
        (stable_viewOf _).bind fun _ => (stable_merge _ _ _).bind fun _ => ih _ _
      cases base with
      | none => exact stable_empty
      | some b => exact stable_viewOf b

/-- The merged view of some ops is the same in any larger store. -/
theorem stable_mergedView (ops : List ObjectId) : (log.mergedView ops).Stable := by
  unfold mergedView
  split
  · exact stable_empty
  · exact (stable_viewOf _).bind fun _ => stable_foldViews _ _ _

end Stable

section Building

variable [Crypto] {log : OpLog} {signer : Signer} {cap : Option ObjectId} {kind : String}
  {args : OrdMap String Value} {effects : List Effect} {time : ℤ} {v v' next : View} {op : Op}
  {S T : Store}

/-- An op built on the current heads, whose view the effects make of the current one. -/
structure Built (log : OpLog) (signer : Signer) (cap : Option ObjectId) (kind : String)
    (effects : List Effect) (v next : View) (S : Store) (op : Op) : Prop where
  parents : op.parents = log.heads
  author : op.author = signer.principal
  key : op.key = signer.key
  cap : op.cap = cap
  kind : op.kind = kind
  writes : op.effects = effects
  signed : verifyWith op op.key = .ok ()
  applied : ∃ T, T.Sublist S ∧ (ViewState.apply v effects log.heads.head?).value T = .ok next
  named : op.view = Crypto.objectId (.view next)

theorem returns_buildOp (hv : log.currentView.value T = .ok v) (hT : T.Sublist S)
    (happly : ∀ S', S ⊆ S' →
      (ViewState.apply v effects log.heads.head?).Returns S' fun _ _ => True) :
    (buildOp log signer cap kind args effects time).Returns S fun op S' =>
      (∃ next, Built log signer cap kind effects v next S' op) ∧
        (log.currentView.after T).Sublist S' := by
  refine ((stable_mergedView log.heads).returns hv hT).bind ?_
  rintro _ S₁ hsub₁ ⟨rfl, hT₁⟩
  refine (happly S₁ hsub₁).traced.bind ?_
  rintro next S₂ _ ⟨hsub₂, hnext, -⟩
  have hput : (ViewState.storeView next).Returns S₂ fun id _ =>
      id = Crypto.objectId (.view next) := returns_put fun _ _ _ => rfl
  refine hput.traced.bind ?_
  rintro _ S₃ _ ⟨hsub₃, -, rfl⟩
  have hlater := hsub₂.trans hsub₃
  refine returns_pure ⟨⟨next, ?_⟩, hT₁.trans hlater⟩
  exact
    { parents := rfl
      author := rfl
      key := rfl
      cap := rfl
      kind := rfl
      writes := rfl
      signed := by simp [verifyWith, SignedObject.sig, SignedObject.setSig,
        TessraObject.toObject, unsigned, signer.verifies]
      applied := ⟨S₁, hlater, hnext⟩
      named := rfl }

/-- A built op passes its verification wherever it passes the checks. -/
theorem Built.returns_verifyOp (h : Built log signer cap kind effects v next S op)
    (hheads : log.heads ≠ []) (hverified : ∀ o ∈ log.heads, o ∈ log.verified)
    (hv : log.currentView.value T = .ok v) (hT : T.Sublist S)
    (hchecks : ∀ S', (log.currentView.after T).Sublist S' → S.Sublist S' →
      (checkOp log v v op).Returns S' fun _ _ => True) :
    (verifyOp log op).Returns S fun v' _ => v' = next := by
  have hnonempty : op.parents.isEmpty = false := by simpa [h.parents] using hheads
  rw [verifyOp, hnonempty]
  have hparents : (op.parents.forM fun p => require (log.isVerified p) (.unknownParent p)).Returns S
      fun _ S' => S' = S := by
    intro _
    exact ⟨(), value_parents (h.parents ▸ hverified), readOnly_parents _ S⟩
  refine hparents.bind ?_
  rintro _ _ _ rfl
  rw [h.parents]
  refine ((stable_mergedView log.heads).returns hv hT).traced.bind ?_
  rintro _ S₁ _ ⟨hsub₁, -, rfl, hT₁⟩
  refine ((stable_mergedView log.heads).returns hv (hT.trans hsub₁)).traced.bind ?_
  rintro _ S₂ _ ⟨hsub₂, -, rfl, hT₂⟩
  have hsub₂ := hsub₁.trans hsub₂
  refine (hchecks S₂ hT₂ hsub₂).traced.bind ?_
  rintro _ S₃ _ ⟨hsub₃, -, -⟩
  obtain ⟨T', hT', hnext⟩ := h.applied
  unfold checkDeterminism
  rw [h.writes, h.parents]
  refine ((stable_apply _ _ _).returns hnext (hT'.trans (hsub₂.trans hsub₃))).bind ?_
  rintro produced S₄ _ ⟨rfl, -⟩
  have hput : (ViewState.storeView produced).Returns S₄ fun id _ =>
      id = Crypto.objectId (.view produced) := returns_put fun _ _ _ => rfl
  refine hput.bind ?_
  rintro _ S₅ _ rfl
  rw [h.named]
  simp only [require, decide_true, if_true]
  exact returns_pure rfl

end Building

end Tessra.Oplog
