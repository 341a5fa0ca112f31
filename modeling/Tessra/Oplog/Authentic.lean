import Tessra.Oplog.Effects
import Tessra.Oplog.Revocation

namespace Tessra.Oplog

open Tessra.Core Tessra.Data StoreM OpLog Verify

/-! Who admitted the versions of principals that a view points at. -/

theorem TrieValue.mem_union_ids {x y : TrieValue} {i : ObjectId} (h : i ∈ (x.union y).ids) :
    i ∈ x.ids ∨ i ∈ y.ids := by
  have hmem : i ∈ sortedDedup (x.ids ++ y.ids) → i ∈ x.ids ∨ i ∈ y.ids := by
    rw [mem_sortedDedup, List.mem_append]
    exact fun h => h
  unfold TrieValue.union at h
  split at h
  · rename_i j hj
    exact hmem (hj ▸ h)
  · exact hmem h

theorem ids_threeWay {policy : MergePolicy} {base a b : Option TrieValue} {x : TrieValue}
    {i : ObjectId} (hx : threeWay policy base a b = some x) (hi : i ∈ x.ids) :
    (∃ y, a = some y ∧ i ∈ y.ids) ∨ ∃ y, b = some y ∧ i ∈ y.ids := by
  unfold threeWay at hx
  split_ifs at hx
  · exact .inr ⟨x, hx, hi⟩
  · exact .inl ⟨x, hx, hi⟩
  · cases a with
    | none =>
        cases b with
        | none => cases hx
        | some y =>
            cases policy with
            | pointers => cases hx
            | set => exact .inr ⟨x, hx, hi⟩
    | some y =>
        cases b with
        | none =>
            cases policy with
            | pointers => cases hx
            | set => exact .inl ⟨x, hx, hi⟩
        | some z =>
            cases hx
            rcases TrieValue.mem_union_ids hi with hi | hi
            · exact .inl ⟨y, rfl, hi⟩
            · exact .inr ⟨z, rfl, hi⟩

section Pointers

variable [Crypto] {F S : Store} {log : OpLog} {op : Op} {N : EntityId → ObjectId → Prop}

/-- A view points each entity only at what `N` has for it. -/
def PointsOnly (N : EntityId → ObjectId → Prop) (_ops : Set ObjectId) (_v : View)
    (c : Contents) : Prop :=
  ∀ e x, c.at (.entity e) = some x → ∀ i ∈ x.ids, N e i

theorem pointsOnly_merge : MergeInvariant F (PointsOnly N) where
  empty := nofun
  merge := by
    intro A B next base a b v cbase ca cb _ _ _ ha hb _ e x hx i hi
    rw [Contents.at_merge] at hx
    rcases ids_threeWay hx hi with ⟨y, hy, hi⟩ | ⟨y, hy, hi⟩
    · exact ha e y hy i hi
    · exact hb e y hy i hi

/-- The op points the entity at the object in the end. -/
def PointsLast (op : Op) (e : EntityId) (i : ObjectId) : Prop :=
  (Cell.entity e).lastWrite op.effects = some (some (.id i))

theorem preserves_pointsOnly (h : ∀ e i, PointsLast op e i → N e i) :
    Preserves (PointsOnly N) op := by
  intro S v c parentOp _ honly
  refine ensures_trivial.mono fun _ _ _ _ e x hx i hi => ?_
  rw [Contents.at_actAll] at hx
  cases hlast : (Cell.entity e).lastWrite op.effects with
  | none =>
      rw [hlast] at hx
      exact honly e x hx i hi
  | some w =>
      rw [hlast] at hx
      cases hx
      rcases lastWrite_entity hlast with hnone | ⟨to_, source, hto, _⟩
      · cases hnone
      · cases hto
        cases List.mem_singleton.mp hi
        exact h e i hlast

/-- Every object that a merged view points an entity at, an op of the log pointed
it at. -/
theorem LogReached.pointed (h : LogReached S log) {ops : List ObjectId}
    (hops : ∀ o ∈ ops, o ∈ log.verified) (hfree : CollisionFree ((log.mergedView ops).after S))
    {e : EntityId} {i : ObjectId} (hi : (log.entityIn ops e).value S = .ok (some (.id i))) :
    ∃ op, Took S log op ∧ PointsLast op e i := by
  have hsub := subset_after (log.mergedView ops) S
  have hkept := h.kept (I := PointsOnly fun e i => ∃ op, Took S log op ∧ PointsLast op e i)
    pointsOnly_merge hsub hfree fun op htook =>
      preserves_pointsOnly fun e i hlast => ⟨op, htook, hlast⟩
  obtain ⟨v, hv, c, _, honly, hcells⟩ :=
    hkept.returns_mergedView pointsOnly_merge hsub hfree (List.Subset.refl S) hops hfree
  obtain ⟨v', c', hreads⟩ := h.reads hops (List.Subset.refl _) hfree
  rw [hreads.entityIn hfree, ← hcells, Except.ok.injEq] at hi
  exact honly e (.id i) (bind_fromTrie_id hi) i (List.mem_singleton_self i)

end Pointers

section Admissions

variable [Crypto] {F S S' middle : Store} {log : OpLog} {op : Op} {v c v' : View}
  {cv cc : Contents} {e : EntityId} {i : ObjectId} {p : Principal} {d : Delivery}
  {past : List Delivery}

def Delivery.Knows (S : Store) (d : Delivery) (id : EntityId) (version : ObjectId)
    (p : Principal) : Prop :=
  (d.log.entityIn d.op.parents id).value d.store = .ok (some (.id version)) ∧
    (get Principal version).value S = .ok p

def Delivery.ByOwner (d : Delivery) : Prop :=
  ∃ owners, (d.log.ownersIn d.op.parents).value d.store = .ok owners ∧ d.op.author ∈ owners

def Delivery.MayRevoke (d : Delivery) (id : EntityId) : Prop :=
  d.ByOwner ∨ (d.log.revokedIn d.op.parents id).value d.store = .ok true

/-- The grounds on which a delivered op admits a version of a principal. -/
inductive Admits (S : Store) (d : Delivery) (e : EntityId) (p : Principal) : Prop
  | selfSigned : d.op.parents = [] → e = d.op.author → p.key = some d.op.key →
      verifyWith p d.op.key = .ok () → Admits S d e p
  | initial : d.op.parents = [] → .owner d.op.author ∈ d.op.effects → p.kind ≠ "session" →
      verifyWith p d.op.key = .ok () → Admits S d e p
  | created {version : ObjectId} {owner : Principal} {key : PublicKey} :
      (d.log.entityIn d.op.parents e).value d.store = .ok none → p.kind ≠ "session" →
      d.ByOwner → d.Knows S d.op.author version owner → owner.key = some key →
      verifyWith p key = .ok () → Admits S d e p
  | session {parent : EntityId} {version : ObjectId} {agent : Principal} {key : PublicKey} :
      (d.log.entityIn d.op.parents e).value d.store = .ok none → p.kind = "session" →
      p.parent = some parent → d.Knows S parent version agent → agent.kind = "agent" →
      agent.key = some key → verifyWith p key = .ok () → Admits S d e p
  | revoked : p.status = "revoked" → d.MayRevoke e → Admits S d e p
  | rotated {pointer : Pointer} {cur : ObjectId} {old : Principal} {key : PublicKey} :
      (d.log.entityIn d.op.parents e).value d.store = .ok (some pointer) → cur ∈ pointer.ids →
      (get Principal cur).value S = .ok old → old.key = some key → verifyWith p key = .ok () →
      Admits S d e p

/-- What no check asks for: that init signs the principals that it creates, none
but its author's a session, and that a version which ends a conflict is signed by
one that is in it, or revokes the principal for those who may. -/
structure Delivery.Signs (S : Store) (d : Delivery) : Prop where
  initial : d.op.parents = [] → ∀ e i p, PointsLast d.op e i →
    (get Principal i).value S = .ok p → verifyWith p d.op.key = .ok () ∧
      (p.kind = "session" → e = d.op.author ∧ p.key = some d.op.key)
  conflict : d.op.parents ≠ [] → ∀ e i p ids, PointsLast d.op e i →
    (get Principal i).value S = .ok p →
    (d.log.entityIn d.op.parents e).value d.store = .ok (some (.conflict ids)) →
      (p.status = "revoked" ∧ d.MayRevoke e) ∨
      ∃ cur ∈ ids, ∃ old key, (get Principal cur).value S = .ok old ∧ old.key = some key ∧
        verifyWith p key = .ok ()

/-- What a verified op with parents asked of a version of a principal is grounds to
accept it. -/
theorem Vetted.admits (h : Vetted d.store F middle d.log d.op v c v' cv cc) (hF : F ⊆ S)
    (hfree : CollisionFree S) {current : Option Pointer} (hid : p.id = e)
    (hcurrent : (d.log.entityIn d.op.parents e).value d.store = .ok current)
    (hmove : PrincipalMove F cv d.op (decide (d.op.author ∈ v.owners)) current p)
    (hconflict : ∀ ids, current = some (.conflict ids) → Admits S d e p) : Admits S d e p := by
  have hbefore := (hfree.mono hF).mono (List.Subset.trans h.before h.after)
  have hknows : ∀ {id version p}, PointsAt F cv id version p → d.Knows S id version p := by
    intro id version p hp
    refine ⟨?_, (lasting_get Principal version).lasts hF hfree hp.2⟩
    rw [h.parents.entityIn hbefore, ← h.parents.cells]
    exact congrArg (fun x => Except.ok (x.bind Pointer.fromTrie)) hp.1
  have howner : decide (d.op.author ∈ v.owners) = true → d.ByOwner := fun h' =>
    ⟨v.owners, h.parents.ownersIn, of_decide_eq_true h'⟩
  cases hmove with
  | session hkind hparent hagent hisAgent hkey hsigned =>
      exact .session hcurrent hkind hparent (hknows hagent) hisAgent hkey hsigned
  | created hkind hbyOwner hsigned =>
      obtain ⟨version, hatParents, _⟩ := h.checked.author
      obtain ⟨owner, hat, _, hkey⟩ :=
        ran_checkAuthorAtParents h.sound (hfree.mono hF) hatParents
      exact .created hcurrent hkind (howner hbyOwner) (hknows hat) hkey hsigned
  | revoked hold hprev hstatus hallowed =>
      refine .revoked hstatus (hallowed.imp howner fun hrevoked => ?_)
      rw [h.parents.revokedIn hbefore, ← hid, hrevoked]
  | @rotated _ old cur key hold hprev hstatus hkey hsigned =>
      exact .rotated hcurrent (List.mem_singleton_self cur)
        ((lasting_get Principal cur).lasts hF hfree hold) hkey hsigned
  | conflict => exact hconflict _ rfl

theorem Delivery.admits (hreached : LogReached d.store d.log) (hverified : d.Verified)
    (hF : (d.log.accept d.op).after d.store ⊆ S) (hfree : CollisionFree S) (hsigns : d.Signs S)
    (hlast : PointsLast d.op e i) (hp : (get Principal i).value S = .ok p) : Admits S d e p := by
  by_cases hparents : d.op.parents = []
  · obtain ⟨hnew, ⟨id, log'⟩, hvalue⟩ := hverified
    obtain ⟨_, _, _, v', hv', _⟩ := accept_verified hnew hvalue
    obtain ⟨hsigned, hsession⟩ := hsigns.initial hparents e i p hlast hp
    by_cases hkind : p.kind = "session"
    · obtain ⟨hself, hkey⟩ := hsession hkind
      exact .selfSigned hparents hself hkey hsigned
    · exact .initial hparents (verifyOp_owner hparents hv') hkind hsigned
  · obtain ⟨middle, v, c, v', cv, cc, hvetted⟩ :=
      hreached.verified hparents hverified (List.Subset.refl _) (hfree.mono hF)
    obtain ⟨hmem, hid⟩ := get_ok hp
    have hbefore := (hfree.mono hF).mono (List.Subset.trans hvetted.before hvetted.after)
    have hcurrent := hvetted.parents.entityIn hbefore e
    rw [← hvetted.parents.cells] at hcurrent
    rcases lastWrite_entity hlast with hnone | ⟨to_, source, hto, he⟩
    · cases hnone
    · cases hto
      obtain ⟨landed, _, _, o, ho, hoid, hlegal⟩ := hvetted.point (hfree.mono hF) he
      have hsame := hfree o (hF ho) _ hmem (hoid.trans hid.symm)
      subst hsame
      refine hvetted.admits hF hfree hlegal.1 hcurrent hlegal.2 fun ids hids => ?_
      rw [hids] at hcurrent
      rcases hsigns.conflict hparents e _ p ids hlast hp hcurrent with hrevoked | hrotated
      · exact .revoked hrevoked.1 hrevoked.2
      · obtain ⟨cur, hcur, old, key, hold, hkey, hsigned⟩ := hrotated
        exact .rotated hcurrent hcur hold hkey hsigned

/-- In every run whose ops sign what no check asks for, some op admitted every
version of a principal that a view of accepted ops points at. -/
theorem principals_admitted (hrun : LogRun past S log)
    (hsigns : ∀ d ∈ past, d.Verified → d.Signs S) {ops : List ObjectId}
    (hops : ∀ o ∈ ops, o ∈ log.verified) (hfree : CollisionFree ((log.mergedView ops).after S)) :
    ∀ e i p, (log.entityIn ops e).value S = .ok (some (.id i)) →
      (get Principal i).value S = .ok p → ∃ d ∈ past, d.Verified ∧ Admits S d e p := by
  intro e i p hi hp
  have hfreeS := hfree.mono (subset_after (log.mergedView ops) S)
  obtain ⟨op, ⟨o, ho, hop⟩, hlast⟩ := hrun.reached.pointed hops hfree hi
  obtain ⟨d, hd, hverified, rfl⟩ := hrun.delivered o ho
  have hget : (getOp (Crypto.objectId (.op d.op))).value S = .ok d.op :=
    value_get hfreeS (hrun.took hd hverified).2
  rw [hget] at hop
  cases hop
  obtain ⟨⟨earlier, hearlier⟩, hF, _⟩ := hrun.before d hd
  exact ⟨d, hd, hverified, Delivery.admits hearlier.reached hverified hF hfreeS
    (hsigns d hd hverified) hlast hp⟩

end Admissions

section Samples

/-! A planner without any verb that takes over a worker whose versions are in
conflict. -/

def workerVersion (name : String) : Principal :=
  { workerPrincipal with prev := some (.splat 3), name := name }

def forgedWorker : Principal := { workerPrincipal with name := "planner", sig := none }

def rotateWorker (version view : ObjectId) : Op :=
  ownerOp "rotate" [.splat 17]
    [.point (.splat 48) version (some (Pointer.id (.splat 3)).toValue)] view

def takeOver : Op :=
  { plannerOp "status" [.point (.splat 48) (.splat 20)
      (some (Pointer.conflict [.splat 18, .splat 19]).toValue)] (.splat 29) with
    parents := [.splat 23, .splat 26] }

def workerAt (worker : TrieValue) : Object :=
  .trie ⟨29#16, [.leaf (EntityId.splat 1).bytes (.id (.splat 1)),
    .leaf (EntityId.splat 32).bytes (.id (.splat 2)), .leaf (EntityId.splat 48).bytes worker,
    .leaf (EntityId.splat 64).bytes (.id (.splat 4))]⟩

def takeOverBase : List Object := delegateBase ++ [
  .principal (workerVersion "worker a"),
  .principal (workerVersion "worker b"),
  .principal forgedWorker]

local instance takeOverHash : Crypto := .ofTable (delegateTable ++ takeOverBase.drop 6 ++ [
  workerAt (.id (.splat 18)),
  .view { delegateView with entities := .splat 21 },
  .op (rotateWorker (.splat 18) (.splat 22)),
  workerAt (.id (.splat 19)),
  .view { delegateView with entities := .splat 24 },
  .op (rotateWorker (.splat 19) (.splat 25)),
  workerAt (.conflict [.splat 18, .splat 19]),
  workerAt (.id (.splat 20)),
  .view { delegateView with entities := .splat 28 },
  .op takeOver])

def takeOverOps : List Op := [delegateInit, delegateGrant, rotateWorker (.splat 18) (.splat 22),
  rotateWorker (.splat 19) (.splat 25), takeOver]

def takenOver : Store × OpLog := deliverAll takeOverBase .new takeOverOps

theorem not_admits_forged (S : Store) (d : Delivery) (e : EntityId) :
    ¬ Admits S d e forgedWorker := by
  intro h
  cases h with
  | selfSigned _ _ _ hsigned => cases hsigned
  | initial _ _ _ hsigned => cases hsigned
  | created _ _ _ _ _ hsigned => cases hsigned
  | session _ _ _ _ _ _ hsigned => cases hsigned
  | revoked hstatus => exact absurd hstatus (by decide)
  | rotated _ _ _ _ hsigned => cases hsigned

/-- The planner's op is accepted, and points the worker at a version that nobody
signed. -/
theorem forged_worker_accepted :
    LogRun (deliveries takeOverBase .new takeOverOps) takenOver.1 takenOver.2 ∧
    CollisionFree ((takenOver.2.mergedView [.splat 30]).after takenOver.1) ∧
    .splat 30 ∈ takenOver.2.verified ∧
    (takenOver.2.entityIn [.splat 30] (.splat 48)).value takenOver.1 =
      .ok (some (.id (.splat 20))) ∧
    (get Principal (.splat 20)).value takenOver.1 = .ok forgedWorker ∧
    ¬ ∃ d ∈ deliveries takeOverBase .new takeOverOps, d.Verified ∧
      Admits takenOver.1 d (.splat 48) forgedWorker := by
  refine ⟨logRun_deliverAll _ _, collisionFree_ofTable (by decide) (by decide +kernel),
    by decide +kernel, by decide +kernel, by decide +kernel, fun hadmitted => ?_⟩
  obtain ⟨d, _, _, hadmits⟩ := hadmitted
  exact not_admits_forged _ d _ hadmits

def granted : Store × OpLog := deliverAll delegateBase .new [delegateInit, delegateGrant]

private theorem mem_granted {e : EntityId} {to_ : ObjectId} {source : Option Value}
    (h : .point e to_ source ∈ delegateGrant.effects) :
    e ∈ [EntityId.splat 32, .splat 48, .splat 64] := by
  simp only [delegateGrant, ownerOp, List.mem_cons, reduceCtorEq, Effect.point.injEq,
    List.not_mem_nil, or_false] at h ⊢
  tauto

private theorem granted_signs :
    ∀ d ∈ deliveries delegateBase .new [delegateInit, delegateGrant], d.Verified →
      d.Signs granted.1 := by
  have hinit : (get Principal (.splat 1)).value granted.1 = .ok ownerPrincipal := by
    decide +kernel
  intro d hd _
  simp only [deliveries, List.mem_cons, List.not_mem_nil, or_false] at hd
  rcases hd with rfl | rfl
  · refine ⟨fun _ e i p hlast hp => ?_, fun hparents => absurd rfl hparents⟩
    rcases lastWrite_entity hlast with hnone | ⟨to_, source, hto, he⟩
    · cases hnone
    · cases hto
      simp only [delegateInit, ownerOp, List.mem_cons, reduceCtorEq, Effect.point.injEq,
        List.not_mem_nil, or_false, false_or] at he
      obtain ⟨rfl, rfl, rfl⟩ := he
      rw [hinit] at hp
      cases hp
      exact ⟨rfl, fun _ => ⟨rfl, rfl⟩⟩
  · refine ⟨fun hparents => absurd hparents (List.cons_ne_nil _ _),
      fun _ e i p ids hlast _ hconflict => ?_⟩
    have hnew : ∀ e ∈ [EntityId.splat 32, .splat 48, .splat 64],
        ((OpLog.new.deliver delegateInit delegateBase).entityIn delegateGrant.parents e).value
          ((OpLog.new.accept delegateInit).after delegateBase) = .ok none := by
      decide +kernel
    rcases lastWrite_entity hlast with hnone | ⟨to_, source, _, he⟩
    · cases hnone
    · have hsame := (hnew e (mem_granted he)).symm.trans hconflict
      cases hsame

theorem principals_admitted_granted :
    ∃ d ∈ deliveries delegateBase .new [delegateInit, delegateGrant], d.Verified ∧
      Admits granted.1 d (.splat 32) plannerPrincipal :=
  have hheads : ∀ o ∈ granted.2.heads, o ∈ granted.2.verified := by decide +kernel
  principals_admitted (logRun_deliverAll delegateBase [delegateInit, delegateGrant]) granted_signs
    hheads (collisionFree_ofTable (by decide) (by decide +kernel)) (.splat 32) (.splat 2)
    plannerPrincipal (by decide +kernel) (by decide +kernel)

end Samples

end Tessra.Oplog
