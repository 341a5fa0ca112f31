import Tessra.Oplog.Accepted
import Tessra.Oplog.LastWrite

namespace Tessra.Oplog

open Tessra.Core Tessra.Data StoreM OpLog

/-! Sequences of accept calls, and which ops are the heads after them. -/

section Runs

variable [Crypto] {S S' : Store} {log log' : OpLog} {op : Op}

/-- The log once an op was delivered to it: an op that is refused leaves the log
as it is. -/
def OpLog.deliver (log : OpLog) (op : Op) (S : Store) : OpLog :=
  match (log.accept op).value S with
  | .ok (_, log') => log'
  | .error _ => log

/-- An accept call, with the store and the log it was made on. -/
structure Delivery where
  store : Store
  log : OpLog
  op : Op

/-- The stores and logs of runs, with the accept calls that made them, between
which any objects may be put and the store's metadata may change. -/
inductive LogRun : List Delivery → Store → OpLog → Prop
  | new : LogRun [] [] .new
  | put {past : List Delivery} {S : Store} {log : OpLog} (o : Object) :
      LogRun past S log → LogRun past (S ++ [o]) log
  | note {past : List Delivery} {S : Store} {log : OpLog} (records : List (String × Bytes)) :
      LogRun past S log → LogRun past S { log with records }
  | deliver {past : List Delivery} {S : Store} {log : OpLog} (op : Op) :
      LogRun past S log →
      LogRun (past ++ [⟨S, log, op⟩]) ((log.accept op).after S) (log.deliver op S)

/-- The op of a delivery was not answered from the idempotency index, and passed
its verification. -/
def Delivery.Verified (d : Delivery) : Prop :=
  answer d.log d.op = none ∧ ∃ r, (d.log.accept d.op).value d.store = .ok r

theorem deliver_of_ok {id : ObjectId} (h : (log.accept op).value S = .ok (id, log')) :
    log.deliver op S = log' := by
  rw [deliver, h]

theorem deliver_of_error {e : Error} (h : (log.accept op).value S = .error e) :
    log.deliver op S = log := by
  rw [deliver, h]

theorem deliver_answered {existing : ObjectId} (h : answer log op = some existing) :
    log.deliver op S = log ∧ (log.accept op).after S = S := by
  have hpure := accept_answered h
  exact ⟨deliver_of_ok (by rw [hpure]; rfl), by rw [hpure, after_pure]⟩

theorem deliver_verified (h : Delivery.Verified ⟨S, log, op⟩) :
    log.deliver op S = log.record (Crypto.objectId (.op op)) op ∧
      ∀ p ∈ op.parents, p ∈ log.verified := by
  obtain ⟨hnew, ⟨id, log'⟩, hvalue⟩ := h
  obtain ⟨rfl, rfl, hparents, _⟩ := accept_verified hnew hvalue
  exact ⟨deliver_of_ok hvalue, hparents⟩

theorem deliver_cases (S : Store) (log : OpLog) (op : Op) :
    log.deliver op S = log ∨ Delivery.Verified ⟨S, log, op⟩ := by
  cases hanswer : answer log op with
  | some existing => exact .inl (deliver_answered hanswer).1
  | none =>
      cases hvalue : (log.accept op).value S with
      | error e => exact .inl (deliver_of_error hvalue)
      | ok r => exact .inr ⟨hanswer, r, hvalue⟩

theorem LogRun.reached {past : List Delivery} (h : LogRun past S log) : LogReached S log := by
  induction h with
  | new => exact .new
  | put o _ ih => exact ih.put o
  | note records _ ih => exact ih.note records
  | @deliver _ S log op _ ih =>
      cases hvalue : (log.accept op).value S with
      | ok r => exact deliver_of_ok hvalue ▸ ih.accept op hvalue
      | error e =>
          rw [deliver_of_error hvalue]
          exact ih.putAll

theorem deliver_subset {x : ObjectId} (hx : x ∈ log.verified) (op : Op) (S : Store) :
    x ∈ (log.deliver op S).verified := by
  rcases deliver_cases S log op with hsame | hverified
  · rwa [hsame]
  · rw [(deliver_verified hverified).1]
    exact mem_record_verified.mpr (.inl hx)

/-- A delivery of a run was made at the end of a shorter run. -/
theorem LogRun.before {past : List Delivery} (h : LogRun past S log) :
    ∀ d ∈ past, (∃ earlier, LogRun earlier d.store d.log) ∧
      (d.log.accept d.op).after d.store ⊆ S ∧
      ∀ x ∈ (d.log.deliver d.op d.store).verified, x ∈ log.verified := by
  induction h with
  | new => simp
  | put o _ ih =>
      intro d hd
      obtain ⟨hrun, hsub, hverified⟩ := ih d hd
      exact ⟨hrun, List.Subset.trans hsub (List.subset_append_left _ _), hverified⟩
  | note records _ ih => exact ih
  | @deliver past S log op hrun ih =>
      intro d hd
      rcases List.mem_append.mp hd with hd | hd
      · obtain ⟨hrun, hsub, hverified⟩ := ih d hd
        exact ⟨hrun, List.Subset.trans hsub (subset_after _ S),
          fun x hx => deliver_subset (hverified x hx) op S⟩
      · cases List.mem_singleton.mp hd
        exact ⟨⟨past, hrun⟩, List.Subset.refl _, fun _ hx => hx⟩

theorem LogRun.took (h : LogRun past S log) {d : Delivery} (hd : d ∈ past) (hv : d.Verified) :
    Crypto.objectId (.op d.op) ∈ log.verified ∧ Object.op d.op ∈ S := by
  obtain ⟨_, hsub, hverified⟩ := h.before d hd
  have hdeliver := (deliver_verified hv).1
  obtain ⟨hnew, ⟨id, log'⟩, hvalue⟩ := hv
  obtain ⟨_, _, _, v, _, hafter⟩ := accept_verified hnew hvalue
  refine ⟨hverified _ ?_, hsub ?_⟩
  · rw [hdeliver]
    exact mem_record_verified.mpr (.inr rfl)
  · simp [hafter]

theorem LogRun.delivered {past : List Delivery} (h : LogRun past S log) :
    ∀ o ∈ log.verified, ∃ d ∈ past, d.Verified ∧ Crypto.objectId (.op d.op) = o := by
  induction h with
  | new => simp [OpLog.new]
  | put o _ ih => exact ih
  | note records _ ih => exact ih
  | @deliver past S log op _ ih =>
      have hold : ∀ o ∈ log.verified, ∃ d ∈ past ++ [⟨S, log, op⟩], d.Verified ∧
          Crypto.objectId (.op d.op) = o := by
        intro o ho
        obtain ⟨d, hd, hrest⟩ := ih o ho
        exact ⟨d, List.mem_append_left _ hd, hrest⟩
      intro o ho
      rcases deliver_cases S log op with hsame | hverified
      · exact hold o (hsame ▸ ho)
      · rw [(deliver_verified hverified).1] at ho
        rcases mem_record_verified.mp ho with ho | rfl
        · exact hold o ho
        · exact ⟨_, List.mem_append_right _ List.mem_cons_self, hverified, rfl⟩

/-- The accept calls that deliver ops one after the other. -/
def deliveries (S : Store) (log : OpLog) : List Op → List Delivery
  | [] => []
  | op :: rest => ⟨S, log, op⟩ :: deliveries ((log.accept op).after S) (log.deliver op S) rest

/-- Deliver ops one after the other. -/
def deliverAll (S : Store) (log : OpLog) : List Op → Store × OpLog
  | [] => (S, log)
  | op :: rest => deliverAll ((log.accept op).after S) (log.deliver op S) rest

theorem LogRun.deliverAll {past : List Delivery} {ops : List Op} (h : LogRun past S log) :
    LogRun (past ++ deliveries S log ops) (deliverAll S log ops).1
      (deliverAll S log ops).2 := by
  induction ops generalizing past S log with
  | nil => rwa [deliveries, List.append_nil]
  | cons op rest ih =>
      rw [deliveries, List.append_cons]
      exact ih (h.deliver op)

theorem LogRun.putAll {past : List Delivery} {objects : List Object} (h : LogRun past S log) :
    LogRun past (S ++ objects) log := by
  induction objects generalizing S with
  | nil => rwa [List.append_nil]
  | cons o rest ih =>
      rw [List.append_cons]
      exact ih (h.put o)

theorem logRun_deliverAll (objects : Store) (ops : List Op) :
    LogRun (deliveries objects .new ops) (deliverAll objects .new ops).1
      (deliverAll objects .new ops).2 := by
  have hbase : LogRun [] ([] ++ objects) .new := LogRun.new.putAll
  exact hbase.deliverAll

section Heads

variable {o p x : ObjectId}

/-- `p` is one of the parents of the op `o`. -/
def ParentIn (S : Store) (p o : ObjectId) : Prop :=
  ∃ op, (getOp o).value S = .ok op ∧ p ∈ op.parents

theorem parentIn_iff : ParentIn S p o ↔ StepsTo (parentsIn S) o p := by
  unfold ParentIn StepsTo parentsIn
  cases (getOp o).value S with
  | ok op => simp [Except.map]
  | error e => simp [Except.map]

/-- The heads are the verified ops that no verified op has as a parent. -/
structure HeadsExact (S : Store) (log : OpLog) : Prop where
  mem_heads : ∀ o, o ∈ log.heads ↔ o ∈ log.verified ∧ ∀ c ∈ log.verified, ¬ ParentIn S o c
  parents : ∀ o ∈ log.verified, ∀ p, ParentIn S p o → p ∈ log.verified
  antichain : ∀ o ∈ log.heads, ∀ x ∈ log.heads, Ancestor S x o → x = o
  below : ∀ o ∈ log.verified, ∃ x ∈ log.heads, Ancestor S o x

/-- A delivery of an op that is already verified and has a verified child, not
answered from the idempotency index, and that passes its verification. -/
def Delivery.Resurfaces (d : Delivery) : Prop :=
  answer d.log d.op = none ∧ (∃ v, (Verify.verifyOp d.log d.op).value d.store = .ok v) ∧
    ∃ c ∈ d.log.verified, ParentIn d.store (Crypto.objectId (.op d.op)) c

theorem Kept.parentIn {I : Set ObjectId → View → Contents → Prop} (h : Kept I S log)
    (hfree : CollisionFree S) (ho : o ∈ log.verified) (hp : ParentIn S p o) :
    p ∈ log.verified := by
  obtain ⟨op, _, _, hrecorded, _, _, hparents⟩ := h.recorded o ho
  obtain ⟨op', hop', hp⟩ := hp
  rw [hrecorded.get_op hfree] at hop'
  cases hop'
  exact (hparents p hp).1

theorem Kept.parentIn_mono {I : Set ObjectId → View → Contents → Prop} (h : Kept I S log)
    (hsub : S ⊆ S') (hfree : CollisionFree S') (ho : o ∈ log.verified) :
    ParentIn S' p o ↔ ParentIn S p o := by
  obtain ⟨op, _, _, hrecorded, _⟩ := h.recorded o ho
  have hop := hrecorded.get_op (hfree.mono hsub)
  have hop' : (getOp o).value S' = .ok op := (lasting_get Op o).lasts hsub hfree hop
  rw [ParentIn, hop', ParentIn, hop]

theorem Kept.headsExact {I : Set ObjectId → View → Contents → Prop} (h : Kept I S log)
    (hfree : CollisionFree S)
    (hheads : ∀ o ∈ log.heads, ∀ c ∈ log.verified, ¬ ParentIn S o c) : HeadsExact S log := by
  have hantichain : ∀ o ∈ log.heads, ∀ x ∈ log.heads, Ancestor S x o → x = o := by
    intro o ho x hx hxo
    rcases Relation.ReflTransGen.cases_head hxo with heq | ⟨c, hstep, hco⟩
    · exact heq
    · have hbelow : Ancestor S c o := hco
      have hc := List.mem_toFinset.mp
        (hbelow.mem (h.closed hfree) (List.mem_toFinset.mpr (h.heads o ho)))
      exact absurd (parentIn_iff.mpr hstep) (hheads x hx c hc)
  refine ⟨fun o => ⟨fun ho => ⟨h.heads o ho, hheads o ho⟩, fun ho => ?_⟩,
    fun o ho p hp => h.parentIn hfree ho hp, hantichain, h.below⟩
  obtain ⟨x, hx, hox⟩ := h.below o ho.1
  rcases Relation.ReflTransGen.cases_head hox with rfl | ⟨c, hstep, hcx⟩
  · exact hx
  · have hbelow : Ancestor S c x := hcx
    have hc := List.mem_toFinset.mp
      (hbelow.mem (h.closed hfree) (List.mem_toFinset.mpr (h.heads x hx)))
    exact absurd (parentIn_iff.mpr hstep) (ho.2 c hc)

theorem HeadsExact.mono {I : Set ObjectId → View → Contents → Prop} (h : HeadsExact S log)
    (hkept : Kept I S log) (hsub : S ⊆ S') (hfree : CollisionFree S') : HeadsExact S' log := by
  refine (hkept.mono hsub hfree).headsExact hfree fun o ho c hc => ?_
  rw [hkept.parentIn_mono hsub hfree hc]
  exact ((h.mem_heads o).mp ho).2 c hc

/-- Recording an op that no verified op has as a parent keeps the heads exact. -/
theorem HeadsExact.record {I : Set ObjectId → View → Contents → Prop}
    (h : HeadsExact S log) (hkept : Kept I S (log.record (Crypto.objectId (.op op)) op))
    (hfree : CollisionFree S) (hop : Object.op op ∈ S)
    (hchildless : ∀ c ∈ log.verified, ¬ ParentIn S (Crypto.objectId (.op op)) c)
    (hparents : ∀ p ∈ op.parents, p ∈ log.verified) :
    HeadsExact S (log.record (Crypto.objectId (.op op)) op) := by
  have hget : (getOp (Crypto.objectId (.op op))).value S = .ok op := value_get hfree hop
  have hself : ∀ x, ParentIn S x (Crypto.objectId (.op op)) ↔ x ∈ op.parents := by
    intro x
    rw [ParentIn, hget]
    simp
  refine hkept.headsExact hfree fun o ho c hc hchild => ?_
  rcases mem_pushSorted.mp ho with rfl | ho
  · rcases mem_record_verified.mp hc with hc | rfl
    · exact hchildless c hc hchild
    · exact hchildless _ (hparents _ ((hself _).mp hchild)) hchild
  · obtain ⟨ho, hnot⟩ := List.mem_filter.mp ho
    rcases mem_record_verified.mp hc with hc | rfl
    · exact ((h.mem_heads o).mp ho).2 c hc hchild
    · simp [(hself o).mp hchild] at hnot

theorem Delivery.resurfaces_of_verified {d : Delivery} (h : d.Verified)
    (hchild : ∃ c ∈ d.log.verified, ParentIn d.store (Crypto.objectId (.op d.op)) c) :
    d.Resurfaces := by
  obtain ⟨hnew, ⟨id, log'⟩, hvalue⟩ := h
  obtain ⟨_, _, _, v, hv, _⟩ := accept_verified hnew hvalue
  exact ⟨hnew, ⟨v, hv⟩, hchild⟩

theorem Delivery.Resurfaces.verified {d : Delivery} (h : d.Resurfaces) : d.Verified := by
  obtain ⟨hnew, ⟨v, hv⟩, _⟩ := h
  exact ⟨hnew, accept_of_verifyOp hnew hv⟩

/-- A delivery keeps the heads exact, exactly if it does not resurface an op. -/
theorem headsExact_deliver (hrun : LogReached S log) (h : HeadsExact S log)
    (hfree : CollisionFree ((log.accept op).after S)) :
    HeadsExact ((log.accept op).after S) (log.deliver op S) ↔
      ¬ Delivery.Resurfaces ⟨S, log, op⟩ := by
  have hsub := subset_after (log.accept op) S
  have hkept := hrun.keeps (hfree.mono hsub)
  constructor
  · intro hexact hresurfaces
    obtain ⟨hdeliver, _⟩ := deliver_verified hresurfaces.verified
    obtain ⟨c, hc, hchild⟩ := hresurfaces.2.2
    rw [hdeliver] at hexact
    have hhead : Crypto.objectId (.op op) ∈
        (log.record (Crypto.objectId (.op op)) op).heads := mem_pushSorted.mpr (.inl rfl)
    refine ((hexact.mem_heads (Crypto.objectId (.op op))).mp hhead).2 c
      (mem_record_verified.mpr (.inl hc)) ?_
    exact (hkept.parentIn_mono hsub hfree hc).mpr hchild
  · intro hnot
    rcases deliver_cases S log op with hsame | hverified
    · rw [hsame]
      exact h.mono hkept hsub hfree
    · obtain ⟨hdeliver, hparents⟩ := deliver_verified hverified
      obtain ⟨hnew, ⟨id, log'⟩, hvalue⟩ := hverified
      have hkept' := (hrun.accept op hvalue).keeps hfree
      obtain ⟨rfl, rfl, _, v, _, hafter⟩ := accept_verified hnew hvalue
      have hop : Object.op op ∈ (log.accept op).after S := by simp [hafter]
      rw [hdeliver]
      refine (h.mono hkept hsub hfree).record hkept' hfree hop (fun c hc hchild => ?_) hparents
      refine hnot (Delivery.resurfaces_of_verified (d := ⟨S, log, op⟩) ⟨hnew, _, hvalue⟩
        ⟨c, hc, ?_⟩)
      exact (hkept.parentIn_mono hsub hfree hc).mp hchild

/-- In every run whose accept calls resurface no op, the heads are exact; they
stay so exactly as long as no call resurfaces one.  An accept that fails leaves
the log as it is. -/
theorem headsExact_run {past : List Delivery} (hrun : LogRun past S log)
    (hfree : CollisionFree S) (hnone : ∀ d ∈ past, ¬ d.Resurfaces) :
    HeadsExact S log ∧
      (∀ op, CollisionFree ((log.accept op).after S) →
        (HeadsExact ((log.accept op).after S) (log.deliver op S) ↔
          ¬ Delivery.Resurfaces ⟨S, log, op⟩)) ∧
      ∀ op e, (log.accept op).value S = .error e → log.deliver op S = log := by
  have hexact : HeadsExact S log := by
    induction hrun with
    | new =>
        have hkept := LogReached.new.keeps hfree
        exact hkept.headsExact hfree (by simp [OpLog.new])
    | @put past S log o hrun ih =>
        have hsub := List.subset_append_left S [o]
        exact (ih (hfree.mono hsub) hnone).mono (hrun.reached.keeps (hfree.mono hsub)) hsub hfree
    | note records _ ih =>
        have h := ih hfree hnone
        exact ⟨h.mem_heads, h.parents, h.antichain, h.below⟩
    | @deliver past S log op hrun ih =>
        have h := ih (hfree.mono (subset_after _ S)) fun d hd =>
          hnone d (List.mem_append_left _ hd)
        refine (headsExact_deliver hrun.reached h hfree).mpr ?_
        exact hnone _ (List.mem_append_right _ List.mem_cons_self)
  exact ⟨hexact, fun op => headsExact_deliver hrun.reached hexact,
    fun op e => deliver_of_error⟩

omit [Crypto] in
theorem isOk_iff {α : Type} {x : Except Error α} : x.isOk = true ↔ ∃ a, x = .ok a := by
  cases x with
  | ok a => simp [Except.isOk, Except.toBool]
  | error e => simp [Except.isOk, Except.toBool]

instance (d : Delivery) : Decidable d.Verified :=
  decidable_of_iff _ (and_congr_right fun _ => isOk_iff)

instance (S : Store) (p o : ObjectId) : Decidable (ParentIn S p o) :=
  match h : (getOp o).value S with
  | .ok op =>
      if hp : p ∈ op.parents then isTrue ⟨op, h, hp⟩
      else isFalse fun ⟨op', hop', hp'⟩ => by
        rw [h] at hop'
        cases hop'
        exact hp hp'
  | .error e => isFalse fun ⟨op', hop', _⟩ => by
      rw [h] at hop'
      cases hop'

end Heads

end Runs

section Samples

/-! An op delivered again after another one was built on it. -/

local instance redeliverHash : Crypto := .ofTable forkTable

def redeliverBase : Store := [.principal ownerPrincipal, .capability sampleCapability]

def redelivered : Store × OpLog :=
  deliverAll redeliverBase .new [initOp, activateOp, retireOp, activateOp]

/-- Both ops are heads, although the second has the first as its parent. -/
theorem redelivered_op_resurfaces :
    LogRun (deliveries redeliverBase .new [initOp, activateOp, retireOp, activateOp])
      redelivered.1 redelivered.2 ∧
    CollisionFree redelivered.1 ∧ redelivered.2.heads = [.splat 8, .splat 9] ∧
    ParentIn redelivered.1 (.splat 8) (.splat 9) ∧ ¬ HeadsExact redelivered.1 redelivered.2 := by
  have hheads : redelivered.2.heads = [.splat 8, .splat 9] := by decide +kernel
  have hparent : ParentIn redelivered.1 (.splat 8) (.splat 9) := by decide +kernel
  refine ⟨logRun_deliverAll _ _, collisionFree_ofTable (by decide) (by decide +kernel),
    hheads, hparent, fun hexact => ?_⟩
  have hmem : ObjectId.splat 8 ∈ redelivered.2.heads := by
    rw [hheads]
    exact List.mem_cons_self
  exact ((hexact.mem_heads _).mp hmem).2 (.splat 9) (by decide +kernel) hparent

/-- The run up to there keeps its heads exact. -/
theorem headsExact_delivered :
    HeadsExact (deliverAll redeliverBase .new [initOp, activateOp, retireOp]).1
      (deliverAll redeliverBase .new [initOp, activateOp, retireOp]).2 := by
  have hchildless : ∀ d ∈ deliveries redeliverBase .new [initOp, activateOp, retireOp],
      ∀ c ∈ d.log.verified, ¬ ParentIn d.store (Crypto.objectId (.op d.op)) c := by
    decide +kernel
  refine (headsExact_run (logRun_deliverAll _ _) (collisionFree_ofTable (by decide) (by decide +kernel)) ?_).1
  intro d hd hresurfaces
  obtain ⟨c, hc, hchild⟩ := hresurfaces.2.2
  exact hchildless d hd c hc hchild

end Samples

end Tessra.Oplog
