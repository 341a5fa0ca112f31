import Tessra.Oplog.Effects

namespace Tessra.Oplog

open Tessra.Core Tessra.Data StoreM OpLog Verify

/-! Who owns a repository, and what it never forgets, over whole runs. -/

/-- What an effect makes of a principal's ownership. -/
def ownerWritten (p : EntityId) : Effect → Option Bool
  | .owner q => if q = p then some true else none
  | .unowner q => if q = p then some false else none
  | _ => none

/-- What the last of the effects on a principal's ownership makes of it. -/
def lastOwner (p : EntityId) (effects : List Effect) : Option Bool :=
  effects.foldl (fun w e => (ownerWritten p e).or w) none

namespace OpLog

variable [Crypto]

def tombstonedIn (log : OpLog) (ops : List ObjectId) (id : ObjectId) : StoreM Bool := do
  ViewState.inSet (← log.mergedView ops).tombstoned id

end OpLog

section Founder

variable [Crypto] {F S S' : Store} {log : OpLog} {op : Op} {v : View} {p founder : EntityId}
  {past : List Delivery} {ops : List ObjectId}

theorem ensures_applyEffect_owner (p : EntityId) (parentOp : Option ObjectId) (v : View)
    (e : Effect) (S : Store) :
    (ViewState.applyEffect parentOp v e).Ensures S fun v' _ =>
      decide (p ∈ v'.owners) = (ownerWritten p e).getD (decide (p ∈ v.owners)) := by
  cases e with
  | owner q =>
      refine ensures_pure ?_
      simp only [ownerWritten, mem_pushSorted]
      split_ifs with hq
      · simp [hq]
      · simp [Ne.symm hq]
  | unowner q =>
      refine ensures_pure ?_
      simp only [ownerWritten, List.mem_filter]
      split_ifs with hq
      · simp [hq]
      · simp [Ne.symm hq]
  | head name to_ source seq attests id =>
      simp only [ViewState.applyEffect]
      split
      · exact ensures_pure rfl
      · split
        · exact ensures_throw
        · exact ensures_pure rfl
  | coordinator name to_ =>
      simp only [ViewState.applyEffect]
      split
      · exact ensures_pure rfl
      · exact ensures_pure rfl
  | point | unpoint | propose | unpropose | claim | unclaim | cap | uncap | revoke | tomb =>
      exact ensures_trivial.bind fun _ _ _ _ => ensures_pure rfl
  | _ => exact ensures_pure rfl

theorem ensures_apply_owner (p : EntityId) (effects : List Effect) (parentOp : Option ObjectId) :
    (ViewState.apply v effects parentOp).Ensures S fun v' _ =>
      decide (p ∈ v'.owners) = (lastOwner p effects).getD (decide (p ∈ v.owners)) := by
  have hlast : effects.foldl (fun x e => (ownerWritten p e).getD x) (decide (p ∈ v.owners)) =
      (lastOwner p effects).getD (decide (p ∈ v.owners)) := by
    refine foldl_last (g := fun x w => w.getD x) (fun _ => rfl) (fun x w w' => ?_) effects _
    cases w' <;> rfl
  rw [← hlast]
  exact ensures_apply_part effects parentOp fun v e S => ensures_applyEffect_owner p parentOp v e S

/-- Views of ops have the founder among their owners. -/
def HasOwner (founder : EntityId) (ops : Set ObjectId) (v : View) (_c : Contents) : Prop :=
  ops.Nonempty → founder ∈ v.owners

theorem hasOwner_merge : MergeInvariant F (HasOwner founder) where
  empty := by
    intro v _ hne
    exact absurd hne Set.not_nonempty_empty
  merge := by
    intro A B next base a b v cbase ca cb hA _ _ ha hb hparts _
    rw [hparts.owners, mem_mergeSetVec]
    exact .inl ⟨ha hA, hb (Set.singleton_nonempty next)⟩

theorem preserves_hasOwner (hkeeps : lastOwner founder op.effects ≠ some false)
    (hfirst : op.parents = [] → lastOwner founder op.effects = some true) :
    Preserves (HasOwner founder) op := by
  intro S v c parentOp _ hinv
  refine (ensures_apply_owner founder op.effects parentOp).mono fun v' _ _ howner _ => ?_
  have hyes : (lastOwner founder op.effects).getD (decide (founder ∈ v.owners)) = true := by
    cases hlast : lastOwner founder op.effects with
    | some b =>
        cases b with
        | true => rfl
        | false => exact absurd hlast hkeeps
    | none =>
        cases hparents : op.parents with
        | nil => rw [hfirst hparents] at hlast; cases hlast
        | cons q rest => exact decide_eq_true (hinv ⟨q, by simp [hparents]⟩)
  exact of_decide_eq_true (howner.trans hyes)

/-- The run's init was the founder's. -/
def Founded (past : List Delivery) (founder : EntityId) : Prop :=
  ∃ d ∈ past, d.Verified ∧ d.op.parents = [] ∧ d.op.author = founder

theorem LogRun.heads_ne_nil (hrun : LogRun past S log) (hfree : CollisionFree S) {d : Delivery}
    (hd : d ∈ past) (hverified : d.Verified) : log.heads ≠ [] := by
  obtain ⟨hmem, _⟩ := hrun.took hd hverified
  obtain ⟨x, hx, _⟩ := (hrun.reached.keeps hfree).below _ hmem
  exact List.ne_nil_of_mem hx

/-- A run has one init. -/
theorem LogRun.init_unique (hrun : LogRun past S log) (hfree : CollisionFree S) :
    ∀ d ∈ past, d.Verified → d.op.parents = [] → ∀ d' ∈ past, d'.Verified →
      d'.op.parents = [] → d.op = d'.op := by
  induction hrun with
  | new => simp
  | put o _ ih => exact ih (hfree.mono (List.subset_append_left _ _))
  | note records _ ih => exact ih hfree
  | @deliver past S log op hrun ih =>
      have hstart := hfree.mono (subset_after (log.accept op) S)
      have hlater : ∀ d ∈ past, d.Verified → Delivery.Verified ⟨S, log, op⟩ →
          op.parents ≠ [] := by
        intro d hd hverified hnext hparents
        obtain ⟨hnew, ⟨id, log'⟩, hvalue⟩ := hnext
        obtain ⟨_, _, _, v', hv', _⟩ := accept_verified hnew hvalue
        exact hrun.heads_ne_nil hstart hd hverified (verifyOp_init hparents hv')
      intro d hd hverified hparents d' hd' hverified' hparents'
      rcases List.mem_append.mp hd with hd | hd
      · rcases List.mem_append.mp hd' with hd' | hd'
        · exact ih hstart d hd hverified hparents d' hd' hverified' hparents'
        · cases List.mem_singleton.mp hd'
          exact absurd hparents' (hlater d hd hverified hverified')
      · cases List.mem_singleton.mp hd
        rcases List.mem_append.mp hd' with hd' | hd'
        · exact absurd hparents (hlater d' hd' hverified' hverified)
        · cases List.mem_singleton.mp hd'
          rfl

theorem LogRun.keptOwner (hrun : LogRun past S log) (hF : S ⊆ F) (hfree : CollisionFree F)
    (hfounded : Founded past founder)
    (hkeeps : ∀ d ∈ past, d.Verified → lastOwner founder d.op.effects ≠ some false) :
    Kept (HasOwner founder) S log := by
  have hfreeS := hfree.mono hF
  have hops : ∀ op, Took S log op → lastOwner founder op.effects ≠ some false ∧
      (op.parents = [] → lastOwner founder op.effects = some true) := by
    intro op htook
    obtain ⟨o, ho, hop⟩ := htook
    obtain ⟨d, hd, hverified, rfl⟩ := hrun.delivered o ho
    have hget : (getOp (Crypto.objectId (.op d.op))).value S = .ok d.op :=
      value_get hfreeS (hrun.took hd hverified).2
    rw [hget] at hop
    cases hop
    have hkept := hkeeps d hd hverified
    refine ⟨hkept, fun hparents => ?_⟩
    obtain ⟨d₀, hd₀, hverified₀, hparents₀, rfl⟩ := hfounded
    have hsame := hrun.init_unique hfreeS d hd hverified hparents d₀ hd₀ hverified₀ hparents₀
    obtain ⟨hnew, ⟨id, log'⟩, hvalue⟩ := hverified
    obtain ⟨_, _, _, v', hv', _⟩ := accept_verified hnew hvalue
    have howner := verifyOp_owner hparents hv'
    rw [hsame] at howner hkept ⊢
    cases hlast : lastOwner d₀.op.author d₀.op.effects with
    | none =>
        have hnone := (foldl_or_eq_none hlast).1 _ howner
        simp [ownerWritten] at hnone
    | some b =>
        cases b with
        | true => rfl
        | false => exact absurd hlast hkept
  exact hrun.reached.kept hasOwner_merge hF hfree fun op htook =>
    preserves_hasOwner (hops op htook).1 (hops op htook).2

end Founder

section Governed

variable [Crypto] {S : Store} {log : OpLog} {founder : EntityId} {past : List Delivery}
  {ops : List ObjectId} {o : ObjectId}

/-- Reading a grown set in the merged view of ops finds what an op at or below
one of them added. -/
theorem LogReached.value_growing {α : Type} (G : Growing α) {a : α} {read : View → StoreM Bool}
    (h : LogReached S log) (hread : ∀ {S' v c}, Sound S' v c →
      (read v).Returns S' fun b S'' => S'' = S' ∧ (b = true ↔ G.holds c a))
    (hreadOnly : ∀ v, (read v).ReadOnly) {F : Store}
    (hops : ∀ x ∈ ops, x ∈ log.verified) (hF : (log.mergedView ops).after S ⊆ F)
    (hfree : CollisionFree F) :
    ∃ b, (log.mergedView ops >>= read).value S = .ok b ∧
      (b = true ↔ ∃ x ∈ ops, ∃ o, Ancestor F o x ∧ G.AddsIn F o a) := by
  have hstart := List.Subset.trans (subset_after (log.mergedView ops) S) hF
  obtain ⟨v, hv, c, hsound, halong, _⟩ := (G.kept h hstart hfree).returns_mergedView
    G.along_merge hstart hfree (List.Subset.refl S) hops (hfree.mono hF)
  obtain ⟨b, hb, _, hholds⟩ := hread hsound ((hreadOnly v _).symm ▸ hfree.mono hF)
  exact ⟨b, (bind_of_ok hv).1.trans hb, hholds.trans (halong a)⟩

theorem LogReached.grows {α : Type} (G : Growing α) {a : α} {read : View → StoreM Bool}
    (h : LogReached S log) (hread : ∀ {S' v c}, Sound S' v c →
      (read v).Returns S' fun b S'' => S'' = S' ∧ (b = true ↔ G.holds c a))
    (hreadOnly : ∀ v, (read v).ReadOnly) (hops : ∀ x ∈ ops, x ∈ log.verified)
    (hfree : CollisionFree ((log.mergedView ops).after S))
    (hbelow : ∃ x ∈ ops, Ancestor S o x)
    (hheld : (log.mergedView [o] >>= read).value S = .ok true) :
    (log.mergedView ops >>= read).value S = .ok true := by
  have hstart := subset_after (log.mergedView ops) S
  have hfreeS := hfree.mono hstart
  obtain ⟨x, hx, hox⟩ := hbelow
  have ho : o ∈ log.verified := List.mem_toFinset.mp
    (hox.mem ((h.keeps hfreeS).closed hfreeS) (List.mem_toFinset.mpr (hops x hx)))
  have hone : (log.mergedView [o]).after S ⊆ (log.mergedView ops).after S := by
    rwa [mergedView_singleton, readOnly_viewOf]
  obtain ⟨b, hb, hbelow⟩ := h.value_growing G hread hreadOnly
    (List.forall_mem_singleton.mpr ho) hone hfree
  rw [hheld] at hb
  cases hb
  obtain ⟨y, hy, o', ho', hadds⟩ := hbelow.mp rfl
  cases List.mem_singleton.mp hy
  obtain ⟨b, hb, hall⟩ := h.value_growing G hread hreadOnly hops (List.Subset.refl _) hfree
  rw [hb, hall.mpr ⟨x, hx, o', ho'.trans (hox.mono hstart hfree), hadds⟩]

/-- What the merged view of ops always has: its owners, the founder among them,
and all that was revoked or tombstoned below. -/
structure Governed (S : Store) (log : OpLog) (founder : EntityId) (ops : List ObjectId) :
    Prop where
  owners : ∃ owners, (log.ownersIn ops).value S = .ok owners ∧ owners.Pairwise (· < ·) ∧
    owners ≠ [] ∧ founder ∈ owners
  revoked : ∀ o p, (∃ x ∈ ops, Ancestor S o x) → (log.revokedIn [o] p).value S = .ok true →
    (log.revokedIn ops p).value S = .ok true
  tombstoned : ∀ o i, (∃ x ∈ ops, Ancestor S o x) →
    (log.tombstonedIn [o] i).value S = .ok true → (log.tombstonedIn ops i).value S = .ok true

theorem returns_principalRevoked {S' : Store} {v : View} {c : Contents} (p : EntityId)
    (hv : Sound S' v c) : (ViewState.principalRevoked v p).Returns S' fun b S'' =>
      S'' = S' ∧ (b = true ↔ revokedSet.holds c p) := by
  refine (Core.returns_get hv.revoked p.length_bytes).bind fun x _ _ hx => ?_
  obtain ⟨rfl, rfl⟩ := hx
  exact returns_pure ⟨rfl, Iff.rfl⟩

theorem returns_inSet_tombstoned {S' : Store} {v : View} {c : Contents} (i : ObjectId)
    (hv : Sound S' v c) : (ViewState.inSet v.tombstoned i).Returns S' fun b S'' =>
      S'' = S' ∧ (b = true ↔ tombstonedSet.holds c i) := by
  refine (Core.returns_get hv.tombstoned i.length_bytes).bind fun x _ _ hx => ?_
  obtain ⟨rfl, rfl⟩ := hx
  exact returns_pure ⟨rfl, Iff.rfl⟩

theorem LogRun.governed (hrun : LogRun past S log) (hfounded : Founded past founder)
    (hkeeps : ∀ d ∈ past, d.Verified → lastOwner founder d.op.effects ≠ some false)
    (hne : ops ≠ []) (hops : ∀ x ∈ ops, x ∈ log.verified)
    (hfree : CollisionFree ((log.mergedView ops).after S)) : Governed S log founder ops := by
  have hstart := subset_after (log.mergedView ops) S
  have hkept := hrun.keptOwner hstart hfree hfounded hkeeps
  obtain ⟨v, hv, c, hsound, howner, _⟩ := hkept.returns_mergedView hasOwner_merge hstart hfree
    (List.Subset.refl S) hops hfree
  have hmem : founder ∈ v.owners := howner (List.exists_mem_of_ne_nil ops hne)
  constructor
  · exact ⟨v.owners, (bind_of_ok hv).1, hsound.owners, List.ne_nil_of_mem hmem, hmem⟩
  · intro o p hbelow hrevoked
    exact hrun.reached.grows revokedSet (returns_principalRevoked p)
      (fun v => (readOnly_trieGet _ _).bind fun _ => readOnly_pure _) hops hfree hbelow hrevoked
  · intro o i hbelow htombstoned
    exact hrun.reached.grows tombstonedSet (returns_inSet_tombstoned i)
      (fun v => (readOnly_trieGet _ _).bind fun _ => readOnly_pure _) hops hfree hbelow htombstoned

/-- The view of a verified op is what its effects make of some view. -/
theorem LogRun.viewOf_applied (hrun : LogRun past S log) (hfree : CollisionFree S) {d : Delivery}
    (hd : d ∈ past) (hverified : d.Verified) {post : View → View → Prop}
    (happly : ∀ (v₀ : View) (S' : Store), (ViewState.apply v₀ d.op.effects
      d.op.parents.head?).Ensures S' fun v _ => post v₀ v) :
    ∃ v₀ v, (log.viewOf (Crypto.objectId (.op d.op))).value S = .ok v ∧ post v₀ v := by
  obtain ⟨hmem, hop⟩ := hrun.took hd hverified
  obtain ⟨_, hsub, _⟩ := hrun.before d hd
  obtain ⟨op, v, c, hrecorded, _, hview⟩ := (hrun.reached.keeps hfree).value_viewOf hfree hmem
  have hget : (getOp (Crypto.objectId (.op d.op))).value S = .ok d.op := value_get hfree hop
  rw [hrecorded.get_op hfree] at hget
  cases hget
  obtain ⟨hnew, ⟨id, log'⟩, hvalue⟩ := hverified
  obtain ⟨_, _, _, v', hv', hafter⟩ := accept_verified hnew hvalue
  obtain ⟨v₀, happlied, hid, hstored⟩ := verifyOp_applied hv'
  have hverify : (verifyOp d.log d.op).after d.store ⊆ S := by
    rw [hafter] at hsub
    exact List.Subset.trans (List.subset_append_left _ _) hsub
  have hsame := hfree _ (hverify hstored) _ hrecorded.view_mem (hid.trans hrecorded.view_id.symm)
  cases hsame
  obtain ⟨_, _, hpost⟩ := happlied.ensures (hfree.mono hverify) fun start _ => happly v₀ start
  exact ⟨v₀, _, hview, hpost⟩

/-- The view of a verified op has as owners whom the op's effects leave as owners. -/
theorem LogRun.owners_of_last (hrun : LogRun past S log) (hfree : CollisionFree S) {d : Delivery}
    (hd : d ∈ past) (hverified : d.Verified) {p : EntityId} {b : Bool}
    (hlast : lastOwner p d.op.effects = some b) {owners : List EntityId}
    (howners : (log.ownersIn [Crypto.objectId (.op d.op)]).value S = .ok owners) :
    decide (p ∈ owners) = b := by
  obtain ⟨v₀, v, hview, howner⟩ := hrun.viewOf_applied hfree hd hverified fun _ _ =>
    ensures_apply_owner p d.op.effects d.op.parents.head?
  rw [ownersIn, mergedView_singleton, (bind_of_ok hview).1] at howners
  cases howners
  rw [howner, hlast]
  rfl

/-- In every run, every view of accepted ops has the founder as an owner and all
that was revoked or tombstoned before, exactly if no accepted op leaves the
founder out. -/
theorem governed_iff (hrun : LogRun past S log) (hfree : CollisionFree S)
    (hfounded : Founded past founder) :
    (∀ ops, ops ≠ [] → (∀ o ∈ ops, o ∈ log.verified) →
        CollisionFree ((log.mergedView ops).after S) → Governed S log founder ops) ↔
      ∀ d ∈ past, d.Verified → lastOwner founder d.op.effects ≠ some false := by
  constructor
  · intro h d hd hverified hlast
    have hops := List.forall_mem_singleton.mpr (hrun.took hd hverified).1
    have hone : (log.mergedView [Crypto.objectId (.op d.op)]).after S = S := by
      rw [mergedView_singleton, readOnly_viewOf]
    obtain ⟨owners, howners, _, _, hfounder⟩ :=
      (h _ (List.cons_ne_nil _ _) hops (hone.symm ▸ hfree)).owners
    have hleft := hrun.owners_of_last hfree hd hverified hlast howners
    exact of_decide_eq_false hleft hfounder
  · intro hkeeps ops hne hops hfreeOps
    exact hrun.governed hfounded hkeeps hne hops hfreeOps

end Governed

section Samples

/-! A founder that gives up its ownership. -/

def resignOp : Op := ownerOp "status" [.splat 4] [.unowner (.splat 1)] (.splat 5)

local instance resignHash : Crypto := .ofTable [
  .trie .empty,
  .principal ownerPrincipal,
  .trie ⟨1#16, [.leaf (EntityId.splat 1).bytes (.id (.splat 1))]⟩,
  .view initView,
  .op initOp,
  .view { initView with owners := [] },
  .op resignOp]

def resigned : Store × OpLog := deliverAll [.principal ownerPrincipal] .new [initOp, resignOp]

/-- The op is accepted, and nobody owns the repository. -/
theorem founder_resigns :
    LogRun (deliveries [.principal ownerPrincipal] .new [initOp, resignOp]) resigned.1
      resigned.2 ∧
    CollisionFree resigned.1 ∧
    Founded (deliveries [.principal ownerPrincipal] .new [initOp, resignOp]) (.splat 1) ∧
    resigned.2.heads = [Crypto.objectId (.op resignOp)] ∧
    (resigned.2.ownersIn [Crypto.objectId (.op resignOp)]).value resigned.1 = .ok [] :=
  ⟨logRun_deliverAll _ _, collisionFree_ofTable (by decide) (by decide +kernel),
    ⟨⟨[.principal ownerPrincipal], .new, initOp⟩, List.mem_cons_self, by decide +kernel, rfl, rfl⟩,
    by decide +kernel, by decide +kernel⟩

theorem governed_iff_resigned :
    (∀ ops, ops ≠ [] → (∀ o ∈ ops, o ∈ resigned.2.verified) →
        CollisionFree ((resigned.2.mergedView ops).after resigned.1) →
          Governed resigned.1 resigned.2 (.splat 1) ops) ↔
      ∀ d ∈ deliveries [.principal ownerPrincipal] .new [initOp, resignOp], d.Verified →
        lastOwner (.splat 1) d.op.effects ≠ some false :=
  governed_iff (logRun_deliverAll _ _) (collisionFree_ofTable (by decide) (by decide +kernel))
    ⟨⟨[.principal ownerPrincipal], .new, initOp⟩, List.mem_cons_self, by decide +kernel, rfl, rfl⟩

end Samples

end Tessra.Oplog
