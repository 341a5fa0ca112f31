import Tessra.Oplog.Heads

namespace Tessra.Oplog

open Tessra.Core Tessra.Data StoreM OpLog Verify

/-! Opening a log from its heads, against the log that accepted the ops. -/

section Model

variable [Crypto]

def OpLog.index (log : OpLog) (id : ObjectId) (op : Op) : OpLog :=
  { log with
    verified := id :: log.verified
    views := (id, op.view) :: log.views
    idem := (idemKey op).toList.map (fun k => (k, id)) ++ log.idem }

/-- Walk the ops back from a queue, first in first out. -/
def OpLog.openFrom : ℕ → OpLog → List ObjectId → StoreM OpLog
  | _, log, [] => pure log
  | 0, _, _ :: _ => throw .outOfFuel
  | fuel + 1, log, id :: queue =>
      if id ∈ log.verified then openFrom fuel log queue
      else do
        let op ← getOp id
        openFrom fuel (log.index id op) (queue ++ op.parents)

/-- Open a log whose heads are known and whose ops were verified when stored.
No op is queued more often than the heads and ops name it. -/
def OpLog.«open» (records : List (String × Bytes)) (heads : List ObjectId) : StoreM OpLog :=
  fun S => (do
    let log ← openFrom (heads.length + (S.map parentCount).sum) { OpLog.new with records } heads
    return { log with heads := sortedDedup heads }) S

end Model

section Indexes

variable [Crypto] {S S' : Store} {log log' : OpLog} {op : Op} {x : ObjectId}

/-- The indexes of a log say of its verified ops what the ops say. -/
structure Indexed (S : Store) (log : OpLog) : Prop where
  views : ∀ x w, log.views.lookup x = some w ↔
    x ∈ log.verified ∧ ∃ op, (getOp x).value S = .ok op ∧ op.view = w
  idem : ∀ k x, log.idem.lookup k = some x ↔
    x ∈ log.verified ∧ ∃ op, (getOp x).value S = .ok op ∧ idemKey op = some k

/-- Indexing an op, unless its key is another op's. -/
theorem Indexed.add (h : Indexed S log) (hop : (getOp x).value S = .ok op)
    (hverified : ∀ y, y ∈ log'.verified ↔ y ∈ log.verified ∨ y = x)
    (hviews : log'.views = (x, op.view) :: log.views)
    (hidem : log'.idem = (idemKey op).toList.map (fun k => (k, x)) ++ log.idem)
    (hkey : ∀ k, idemKey op = some k → ∀ y, log.idem.lookup k = some y → y = x) :
    Indexed S log' := by
  constructor
  · intro y w
    rw [hviews, List.lookup_cons, hverified]
    by_cases hy : y = x
    · subst hy
      simp only [beq_self_eq_true, Option.some.injEq, or_true, true_and, hop,
        Except.ok.injEq, exists_eq_left']
    · simp only [beq_eq_false_iff_ne.mpr hy, hy, or_false]
      exact h.views y w
  · intro k y
    rw [hidem, hverified]
    cases hown : idemKey op with
    | none =>
        simp only [Option.toList_none, List.map_nil, List.nil_append]
        rw [h.idem k y]
        constructor
        · intro hy
          exact ⟨.inl hy.1, hy.2⟩
        · intro hy
          obtain ⟨hmem, op', hop', hk⟩ := hy
          rcases hmem with hmem | rfl
          · exact ⟨hmem, op', hop', hk⟩
          · rw [hop] at hop'
            cases hop'
            rw [hown] at hk
            cases hk
    | some own =>
        simp only [Option.toList_some, List.map_cons, List.map_nil, List.singleton_append,
          List.lookup_cons]
        by_cases hk : k = own
        · subst hk
          simp only [beq_self_eq_true, Option.some.injEq]
          constructor
          · intro hy
            exact ⟨.inr hy.symm, op, hy ▸ hop, hown⟩
          · intro hy
            obtain ⟨hmem, op', hop', hk⟩ := hy
            rcases hmem with hmem | rfl
            · exact (hkey k hown y ((h.idem k y).mpr ⟨hmem, op', hop', hk⟩)).symm
            · rfl
        · simp only [beq_eq_false_iff_ne.mpr hk]
          rw [h.idem k y]
          constructor
          · intro hy
            exact ⟨.inl hy.1, hy.2⟩
          · intro hy
            obtain ⟨hmem, op', hop', hk'⟩ := hy
            rcases hmem with hmem | rfl
            · exact ⟨hmem, op', hop', hk'⟩
            · rw [hop] at hop'
              cases hop'
              rw [hown] at hk'
              exact absurd (Option.some.inj hk').symm hk

theorem Kept.getOp_mono {I : Set ObjectId → View → Contents → Prop} (h : Kept I S log)
    (hsub : S ⊆ S') (hfree : CollisionFree S') (hx : x ∈ log.verified) :
    (getOp x).value S' = (getOp x).value S := by
  obtain ⟨op, _, _, hrecorded, _⟩ := h.recorded x hx
  have hop := hrecorded.get_op (hfree.mono hsub)
  rw [hop]
  exact (lasting_get Op x).lasts hsub hfree hop

theorem Indexed.mono {I : Set ObjectId → View → Contents → Prop} (h : Indexed S log)
    (hkept : Kept I S log) (hsub : S ⊆ S') (hfree : CollisionFree S') : Indexed S' log := by
  constructor
  · intro x w
    rw [h.views x w]
    refine and_congr_right fun hx => ?_
    rw [hkept.getOp_mono hsub hfree hx]
  · intro k x
    rw [h.idem k x]
    refine and_congr_right fun hx => ?_
    rw [hkept.getOp_mono hsub hfree hx]

theorem LogReached.indexed (h : LogReached S log) (hfree : CollisionFree S) :
    Indexed S log := by
  induction h with
  | new => exact ⟨by simp [OpLog.new], by simp [OpLog.new]⟩
  | @put S log o h ih =>
      have hsub := List.subset_append_left S [o]
      exact (ih (hfree.mono hsub)).mono (h.keeps (hfree.mono hsub)) hsub hfree
  | note records _ ih =>
      have hindexed := ih hfree
      exact ⟨hindexed.views, hindexed.idem⟩
  | @accept S log log' id op h hvalue ih =>
      have hsub := subset_after (log.accept op) S
      have hstart := hfree.mono hsub
      cases hanswer : answer log op with
      | some existing =>
          rw [accept_answered hanswer] at hvalue ⊢
          cases hvalue
          rw [after_pure]
          exact ih hstart
      | none =>
          obtain ⟨rfl, rfl, _, v, _, hafter⟩ := accept_verified hanswer hvalue
          have hop : Object.op op ∈ (log.accept op).after S := by simp [hafter]
          refine ((ih hstart).mono (h.keeps hstart) hsub hfree).add (value_get hfree hop)
            (fun y => mem_record_verified) rfl rfl fun k hk y hy => ?_
          rw [answer, hk] at hanswer
          rw [Option.bind_some, hy] at hanswer
          cases hanswer

omit [Crypto] in
theorem record_heads_pairwise (h : log.heads.Pairwise (· < ·)) (id : ObjectId) (op : Op) :
    (log.record id op).heads.Pairwise (· < ·) :=
  pushSorted_pairwise (h.filter _) id

theorem LogReached.heads_pairwise (h : LogReached S log) : log.heads.Pairwise (· < ·) := by
  induction h with
  | new => exact List.Pairwise.nil
  | put o _ ih => exact ih
  | note records _ ih => exact ih
  | @accept S log log' id op _ hvalue ih =>
      cases hanswer : answer log op with
      | some existing =>
          rw [accept_answered hanswer] at hvalue
          cases hvalue
          exact ih
      | none =>
          obtain ⟨rfl, rfl, _⟩ := accept_verified hanswer hvalue
          exact record_heads_pairwise ih _ op

/-- What the walk makes of a log whose ops are those of a given one. -/
theorem openFrom_spec {target : OpLog} (htarget : Indexed S target)
    (hclosed : ∀ x ∈ target.verified, ∀ p, ParentIn S p x → p ∈ target.verified)
    {fuel : ℕ} {seen queue result : List ObjectId}
    (hwalk : worklist (parentsIn S) Error.outOfFuel fuel seen queue = .ok result) :
    ∀ {log : OpLog}, log.verified = seen → Indexed S log →
      (∀ x ∈ seen, x ∈ target.verified) → (∀ x ∈ queue, x ∈ target.verified) →
      ∃ log', (openFrom fuel log queue).value S = .ok log' ∧ log'.verified = result ∧
        log'.records = log.records ∧ Indexed S log' := by
  fun_induction worklist (parentsIn S) Error.outOfFuel fuel seen queue with
  | case1 fuel seen =>
      intro log hseen hindexed _ _
      cases hwalk
      exact ⟨log, by rw [openFrom]; rfl, hseen, rfl, hindexed⟩
  | case2 => cases hwalk
  | case3 fuel seen x queue hx ih =>
      intro log hseen hindexed hsub hqueue
      rw [openFrom, if_pos (hseen ▸ hx)]
      exact ih hwalk hseen hindexed hsub fun y hy => hqueue y (List.mem_cons_of_mem x hy)
  | case4 => cases hwalk
  | case5 fuel seen x queue hx out hout ih =>
      intro log hseen hindexed hsub hqueue
      have hxmem := hqueue x List.mem_cons_self
      obtain ⟨op, hop, rfl⟩ : ∃ op, (getOp x).value S = .ok op ∧ op.parents = out := by
        unfold parentsIn at hout
        cases hop : (getOp x).value S with
        | error e => rw [hop] at hout; cases hout
        | ok op =>
            rw [hop] at hout
            cases hout
            exact ⟨op, rfl, rfl⟩
      have hadd : Indexed S (log.index x op) := by
        refine hindexed.add hop (fun y => ?_) rfl rfl fun k hk y hy => ?_
        · rw [OpLog.index, List.mem_cons, or_comm]
        · have hymem := ((hindexed.idem k y).mp hy)
          have hx' := (htarget.idem k x).mpr ⟨hxmem, op, hop, hk⟩
          have hy' := (htarget.idem k y).mpr ⟨hsub y (hseen ▸ hymem.1), hymem.2⟩
          rw [hx'] at hy'
          exact (Option.some.inj hy').symm
      have hseen' : ∀ y ∈ x :: seen, y ∈ target.verified :=
        List.forall_mem_cons.mpr ⟨hxmem, hsub⟩
      have hqueue' : ∀ y ∈ queue ++ op.parents, y ∈ target.verified := by
        intro y hy
        rcases List.mem_append.mp hy with hy | hy
        · exact hqueue y (List.mem_cons_of_mem x hy)
        · exact hclosed x hxmem y ⟨op, hop, hy⟩
      obtain ⟨log', hvalue, hrest⟩ :=
        ih hwalk (by rw [OpLog.index, hseen]) hadd hseen' hqueue'
      refine ⟨log', ?_, hrest⟩
      rw [openFrom, if_neg (hseen ▸ hx), (bind_of_ok hop).1]
      exact (readOnly_get Op x S).symm ▸ hvalue

/-- Two logs that say the same of every op and key. -/
structure SameLog (log log' : OpLog) : Prop where
  heads : log.heads = log'.heads
  verified : ∀ x, x ∈ log.verified ↔ x ∈ log'.verified
  views : ∀ x, log.views.lookup x = log'.views.lookup x
  idem : ∀ k, log.idem.lookup k = log'.idem.lookup k
  records : log.records = log'.records

theorem SameLog.of_indexed (h : Indexed S log) (h' : Indexed S log')
    (hheads : log.heads = log'.heads) (hverified : ∀ x, x ∈ log.verified ↔ x ∈ log'.verified)
    (hrecords : log.records = log'.records) : SameLog log log' where
  heads := hheads
  verified := hverified
  views x := by
    ext w
    rw [h.views, h'.views, hverified]
  idem k := by
    ext x
    rw [h.idem, h'.idem, hverified]
  records := hrecords

theorem LogReached.openAt (h : LogReached S log) (hfree : CollisionFree S) :
    ∃ log', (OpLog.«open» log.records log.heads).value S = .ok log' ∧ SameLog log log' := by
  have hkept := h.keeps hfree
  have hdom := hkept.closed hfree
  have hheads : ∀ x ∈ log.heads, x ∈ log.verified.toFinset := fun x hx =>
    List.mem_toFinset.mpr (hkept.heads x hx)
  have hfuel : log.heads.length + ∑ x ∈ log.verified.toFinset \ ([] : List ObjectId).toFinset,
      outDegree (parentsIn S) x ≤ log.heads.length + (S.map parentCount).sum := by
    have hsum := sum_parents_le hdom
    simp only [List.toFinset_nil, Finset.sdiff_empty]
    omega
  obtain ⟨result, hwalk⟩ : ∃ result, worklist (parentsIn S) Error.outOfFuel
      (log.heads.length + (S.map parentCount).sum) [] log.heads = .ok result :=
    worklist_ok _ hdom hheads hfuel
  have hstart : Indexed S { OpLog.new with records := log.records } :=
    ⟨by simp [OpLog.new], by simp [OpLog.new]⟩
  obtain ⟨log', hvalue, hresult, hrecords, hindexed⟩ := openFrom_spec (h.indexed hfree)
    (fun x hx p hp => hkept.parentIn hfree hx hp) hwalk rfl hstart (by simp) hkept.heads
  have hmem : ∀ x, x ∈ log.verified ↔ x ∈ log'.verified := by
    intro x
    have hpending : Pending (parentsIn S) [] log.heads := by
      intro y hy
      cases hy
    rw [hresult, mem_worklist hpending hwalk]
    constructor
    · intro hx
      obtain ⟨y, hy, hxy⟩ := hkept.below x hx
      exact .inr ⟨y, hy, ancestor_iff.mp hxy⟩
    · intro hx
      rcases hx with hx | ⟨y, hy, hyx⟩
      · cases hx
      · exact List.mem_toFinset.mp ((ancestor_iff.mpr hyx).mem hdom (hheads y hy))
  refine ⟨{ log' with heads := sortedDedup log.heads }, (bind_of_ok hvalue).1, ?_⟩
  exact .of_indexed (h.indexed hfree) ⟨hindexed.views, hindexed.idem⟩
    (sortedDedup_eq_self h.heads_pairwise).symm hmem hrecords.symm

theorem SameLog.mergedView (h : SameLog log log') (ops : List ObjectId) :
    log.mergedView ops = log'.mergedView ops := by
  have hview : log.viewOf = log'.viewOf := by
    funext x
    rw [viewOf, viewIdOf, h.views, viewOf, viewIdOf]
  have hbase : log.baseView = log'.baseView := by
    funext b
    cases b with
    | none => rfl
    | some b => exact congrFun hview b
  have hfold : ∀ (rest folded : List ObjectId) (acc : View),
      log.foldViews folded acc rest = log'.foldViews folded acc rest := by
    intro rest
    induction rest with
    | nil => exact fun _ _ => rfl
    | cons next rest ih =>
        intro folded acc
        simp only [foldViews, hbase, hview, ih]
  unfold OpLog.mergedView
  cases sortedDedup ops with
  | nil => rfl
  | cons x rest => simp only [hview, hfold]

theorem SameLog.currentView (h : SameLog log log') : log.currentView = log'.currentView := by
  rw [OpLog.currentView, h.mergedView, h.heads, OpLog.currentView]

omit [Crypto] in
theorem SameLog.isVerified (h : SameLog log log') : log.isVerified = log'.isVerified := by
  funext x
  simp only [OpLog.isVerified, h.verified]

theorem SameLog.verifyOp (h : SameLog log log') (op : Op) :
    verifyOp log op = verifyOp log' op := by
  unfold Verify.verifyOp verifyInit checkOp
  simp only [h.isVerified, h.mergedView, h.currentView, h.heads, h.records]

/-- The part of an accept that does not touch the log. -/
def OpLog.acceptNew (log : OpLog) (op : Op) : StoreM ObjectId := do
  op.parents.forM fun p => require (log.isVerified p) (.unknownParent p)
  let view ← Verify.verifyOp log op
  let id ← put op
  let _ ← put view
  return id

theorem accept_eq_acceptNew (hnew : answer log op = none) :
    log.accept op = (fun id => (id, log.record id op)) <$> log.acceptNew op := by
  unfold answer at hnew
  rw [OpLog.accept, hnew, OpLog.acceptNew]
  simp only [map_eq_pure_bind, bind_assoc, pure_bind]

omit [Crypto] in
theorem SameLog.record (h : SameLog log log') (id : ObjectId) (op : Op) :
    SameLog (log.record id op) (log'.record id op) where
  heads := by simp only [OpLog.record, h.heads]
  verified x := by rw [mem_record_verified, mem_record_verified, h.verified]
  views x := by simp only [OpLog.record, List.lookup_cons, h.views]
  idem k := by
    cases hkey : idemKey op with
    | none => simpa [OpLog.record, hkey] using h.idem k
    | some own => simp [OpLog.record, hkey, List.lookup_cons, h.idem]
  records := h.records

/-- Logs that say the same answer a delivery alike, and go on saying the same. -/
theorem SameLog.deliver (h : SameLog log log') (op : Op) (S : Store) :
    ((log.accept op).value S).map Prod.fst = ((log'.accept op).value S).map Prod.fst ∧
      (log.accept op).after S = (log'.accept op).after S ∧
      SameLog (log.deliver op S) (log'.deliver op S) := by
  have hanswer : answer log op = answer log' op := by
    simp only [answer, h.idem]
  cases hnew : answer log op with
  | some existing =>
      rw [(deliver_answered hnew).1, (deliver_answered (hanswer ▸ hnew)).1,
        accept_answered hnew, accept_answered (hanswer ▸ hnew)]
      exact ⟨rfl, rfl, h⟩
  | none =>
      have hsameNew : log'.acceptNew op = log.acceptNew op := by
        rw [OpLog.acceptNew, OpLog.acceptNew, h.isVerified, h.verifyOp]
      have haccept := accept_eq_acceptNew hnew
      have haccept' := accept_eq_acceptNew (hanswer ▸ hnew)
      rw [hsameNew] at haccept'
      rw [OpLog.deliver, OpLog.deliver, haccept, haccept', map_eq_pure_bind, map_eq_pure_bind]
      cases hvalue : (log.acceptNew op).value S with
      | error e =>
          simp only [(bind_of_error hvalue).1, (bind_of_error hvalue).2]
          exact ⟨trivial, trivial, h⟩
      | ok id =>
          simp only [(bind_of_ok hvalue).1, (bind_of_ok hvalue).2]
          exact ⟨rfl, rfl, h.record id op⟩

/-- What happens to a log and its store. -/
inductive LogEvent
  | put (o : Object)
  | note (records : List (String × Bytes))
  | deliver (op : Op)

def replies (S : Store) (log : OpLog) : List LogEvent → List (Except Error ObjectId)
  | [] => []
  | .put o :: rest => replies (S ++ [o]) log rest
  | .note records :: rest => replies S { log with records } rest
  | .deliver op :: rest =>
      ((log.accept op).value S).map Prod.fst ::
        replies ((log.accept op).after S) (log.deliver op S) rest

theorem SameLog.replies (h : SameLog log log') (S : Store) (events : List LogEvent) :
    replies S log events = replies S log' events := by
  induction events generalizing log log' S with
  | nil => rfl
  | cons event rest ih =>
      cases event with
      | put o => exact ih h (S ++ [o])
      | note records =>
          have hnext : SameLog { log with records } { log' with records } :=
            ⟨h.heads, h.verified, h.views, h.idem, rfl⟩
          exact ih hnext S
      | deliver op =>
          obtain ⟨hreply, hafter, hnext⟩ := h.deliver op S
          rw [Oplog.replies, Oplog.replies, hreply, hafter, ih hnext]

end Indexes

section Samples

local instance reopenHash : Crypto := .ofTable forkTable

private theorem forked_reached_again : LogReached forked.1 forked.2 :=
  LogReached.new.putAll.acceptAll

end Samples

end Tessra.Oplog
