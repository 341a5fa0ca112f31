import Tessra.Daemon.StandardStatus
import Tessra.Oplog.Conflicts
import Tessra.Oplog.Heads

namespace Tessra.Daemon.Verifiers

open Tessra.Core Tessra.Data Tessra.Oplog Tessra.Oplog.Standard OpLog StoreM

/-! The standard's status is remembered for each revision, until the heads of the log change. -/

section Model

variable [Crypto]

abbrev Status := ℕ × List Unmet × List ObjectId

/-- What the status of each revision was at some heads. -/
structure StandardMemo where
  heads : List ObjectId
  byRev : OrdMap ObjectId Status
deriving DecidableEq

def StandardMemo.new : StandardMemo := ⟨[], ∅⟩

def trunkStandard (log : OpLog) : StoreM EntityId := do
  let view ← log.currentView
  match view.lines.get? "trunk" with
  | none => throw (.verb "LINE" "no trunk line")
  | some ls =>
      match ← ViewState.entity view ls.id with
      | none => throw (.verb "LINE" "trunk entity missing")
      | some p => do
          let id ← StoreM.ofExcept p.single
          let line ← get Line id
          return line.standard

/-- The index of a snapshot, which is computed and kept where there is none. -/
abbrev Indexer := ObjectId → Metadata → StoreM (NodeIndex × Metadata)

/-- The trunk standard against a revision with every attestation that could apply to it: met
count, unmet clauses, and the attestations considered. -/
def freshStatus (indexFor : Indexer) (m : Metadata) (log : OpLog) (revId : ObjectId)
    (rev : Revision) : StoreM (Status × Metadata) := do
  let view ← log.currentView
  let standard ← trunkStandard log
  let (bodies, m) ← match rev.snapshots.get? "" with
    | some s => do
        let (index, m) ← indexFor s m
        pure (index.nodes.map Node.body, m)
    | none => pure ([], m)
  -- the parent's index too, so that an older one is refreshed before it is read
  let m ← match rev.parents.head? with
    | some p => do
        let parent ← get Revision p
        match parent.snapshots.get? "" with
        | some s => Prod.snd <$> indexFor s m
        | none => pure m
    | none => pure m
  let attests := collectFor m revId rev bodies
  let unmet ← evaluate (records m) view standard revId rev attests
  let chain ← Standard.chain view standard
  let total := (chain.map fun s => s.clauses.length).sum
  return ((total - unmet.length, unmet, attests), m)

/-- The status of a revision, from the memo where that is of the same heads. -/
def standardStatus (indexFor : Indexer) (memo : StandardMemo) (m : Metadata) (log : OpLog)
    (revId : ObjectId) (rev : Revision) : StoreM (Status × Metadata × StandardMemo) :=
  match (if memo.heads = log.heads then memo.byRev.get? revId else none) with
  | some answer => pure (answer, m, memo)
  | none => do
      let (answer, m) ← freshStatus indexFor m log revId rev
      let memo := if memo.heads = log.heads then memo else ⟨log.heads, ∅⟩
      return (answer, m, { memo with byRev := memo.byRev.insert revId answer })

end Model

section Newest

variable [Crypto] {S : Store} {log later : OpLog} {op : Op}

/-- The op that was verified last is a head, whatever was delivered again since. -/
structure NewestHead (log : OpLog) : Prop where
  nodup : log.verified.Nodup
  head : ∀ n ∈ log.verified.getLast?, n ∈ log.heads

omit [Crypto] in
theorem NewestHead.new : NewestHead .new := by
  constructor
  · exact List.nodup_nil
  · intro n hn
    cases hn

omit [Crypto] in
/-- Nothing in a list comes after its last member. -/
theorem idxOf_le_getLast {l : List ObjectId} (h : l.Nodup) {n x : ObjectId}
    (hn : n ∈ l.getLast?) (hx : x ∈ l) : l.idxOf x ≤ l.idxOf n := by
  obtain ⟨init, rfl⟩ := List.getLast?_eq_some_iff.mp hn
  have hnot : n ∉ init := by
    intro hin
    exact (List.nodup_append.mp h).2.2 n hin n (List.mem_singleton_self n) rfl
  have hlast : (init ++ [n]).idxOf n = init.length := by
    rw [List.idxOf_append_of_notMem hnot, List.idxOf_cons_self, Nat.add_zero]
  have hlt := List.idxOf_lt_length_of_mem hx
  rw [List.length_append, List.length_singleton] at hlt
  omega

theorem NewestHead.deliver (h : NewestHead log) (hreached : LogReached S log)
    (hfree : CollisionFree ((log.accept op).after S)) : NewestHead (log.deliver op S) := by
  rcases deliver_cases S log op with hsame | hverified
  · rwa [hsame]
  · obtain ⟨hdeliver, -⟩ := deliver_verified hverified
    rw [hdeliver]
    by_cases hold : Crypto.objectId (.op op) ∈ log.verified
    · -- delivered again: its parents were verified before it, so the newest op is not among them
      have hkeep : (log.record (Crypto.objectId (.op op)) op).verified = log.verified :=
        if_pos hold
      refine ⟨hkeep ▸ h.nodup, fun n hn => ?_⟩
      rw [hkeep] at hn
      have hhead := h.head n hn
      refine mem_pushSorted.mpr (.inr (List.mem_filter.mpr ⟨hhead, decide_eq_true ?_⟩))
      intro hparent
      have hkept := hreached.keeps (hfree.mono (subset_after _ S))
      obtain ⟨op', _, _, hrecorded, -, -, hbefore⟩ := hkept.recorded _ hold
      obtain ⟨hnew, ⟨id, log'⟩, hvalue⟩ := hverified
      obtain ⟨-, -, -, _, -, hafter⟩ := accept_verified hnew hvalue
      have hop : Object.op op ∈ (log.accept op).after S := by simp [hafter]
      have heq : Object.op op' = Object.op op :=
        hfree _ (subset_after _ S hrecorded.op_mem) _ hop hrecorded.op_id
      cases heq
      have hlt := (hbefore n hparent).2
      have hle := idxOf_le_getLast h.nodup hn hold
      omega
    · have happend : (log.record (Crypto.objectId (.op op)) op).verified =
          log.verified ++ [Crypto.objectId (.op op)] := if_neg hold
      constructor
      · rw [happend, List.nodup_append]
        refine ⟨h.nodup, List.nodup_singleton _, fun x hx y hy heq => ?_⟩
        exact hold (List.mem_singleton.mp hy ▸ heq ▸ hx)
      · intro n hn
        rw [happend, List.getLast?_concat] at hn
        cases hn
        exact mem_pushSorted.mpr (.inl rfl)

theorem verified_deliver (log : OpLog) (op : Op) (S : Store) :
    log.verified <+: (log.deliver op S).verified := by
  rcases deliver_cases S log op with hsame | hverified
  · rw [hsame]
  · rw [(deliver_verified hverified).1, OpLog.record]
    dsimp only
    split_ifs
    · exact List.prefix_refl _
    · exact List.prefix_append _ _

omit [Crypto] in
/-- With the heads that it had before, a log has verified nothing new. -/
theorem NewestHead.verified_eq (h : NewestHead later) (hgrown : log.verified <+: later.verified)
    (hheads : ∀ x ∈ log.heads, x ∈ log.verified) (hsame : later.heads = log.heads) :
    later.verified = log.verified := by
  obtain ⟨added, hadded⟩ := hgrown
  cases hlast : added.getLast? with
  | none =>
      rw [List.getLast?_eq_none_iff] at hlast
      rw [← hadded, hlast, List.append_nil]
  | some n =>
      have hn : n ∈ later.verified.getLast? := by
        rw [← hadded, List.getLast?_append, hlast]
        rfl
      have hold : n ∈ log.verified := hheads n (hsame ▸ h.head n hn)
      have hnodup := h.nodup
      rw [← hadded, List.nodup_append] at hnodup
      exact absurd rfl (hnodup.2.2 n hold n (List.mem_of_getLast? hlast))

end Newest

section Runs

variable [Crypto] {indexFor : Indexer} {S S' : Store} {m m' : Metadata} {log : OpLog}
  {memo memo' : StandardMemo} {revId : ObjectId} {rev : Revision} {answer : Status}

/-- A status that was asked for, with what was there then. -/
structure Query where
  store : Store
  metadata : Metadata
  log : OpLog
  revId : ObjectId
  rev : Revision
  answer : Status

/-- The answer is what an evaluation gives then. -/
def Query.Fresh (indexFor : Indexer) (q : Query) : Prop :=
  ∃ m', (freshStatus indexFor q.metadata q.log q.revId q.rev).value q.store = .ok (q.answer, m')

/-- The runs of a daemon, with the statuses that were asked for. Objects are put and the
metadata change between ops as well. -/
inductive MemoRun (indexFor : Indexer) :
    List Query → Store → Metadata → OpLog → StandardMemo → Prop
  | new : MemoRun indexFor [] [] ∅ .new .new
  | put {past : List Query} {S : Store} {m : Metadata} {log : OpLog} {memo : StandardMemo}
      (o : Object) : MemoRun indexFor past S m log memo →
      MemoRun indexFor past (S ++ [o]) m log memo
  | note {past : List Query} {S : Store} {m : Metadata} {log : OpLog} {memo : StandardMemo}
      (m' : Metadata) (kept : List (String × Bytes)) : MemoRun indexFor past S m log memo →
      MemoRun indexFor past S m' { log with records := kept } memo
  | deliver {past : List Query} {S : Store} {m : Metadata} {log : OpLog} {memo : StandardMemo}
      (op : Op) : MemoRun indexFor past S m log memo →
      MemoRun indexFor past ((log.accept op).after S) m (log.deliver op S) memo
  | ask {past : List Query} {S : Store} {m m' : Metadata} {log : OpLog}
      {memo memo' : StandardMemo} {revId : ObjectId} {rev : Revision} {answer : Status} :
      MemoRun indexFor past S m log memo → (get Revision revId).value S = .ok rev →
      (standardStatus indexFor memo m log revId rev).value S = .ok (answer, m', memo') →
      MemoRun indexFor (past ++ [⟨S, m, log, revId, rev, answer⟩])
        ((standardStatus indexFor memo m log revId rev).after S) m' log memo'
  | restart {past : List Query} {S : Store} {m : Metadata} {log : OpLog} {memo : StandardMemo} :
      MemoRun indexFor past S m log memo → MemoRun indexFor past S m log .new

theorem MemoRun.putAll {past : List Query} (h : MemoRun indexFor past S m log memo)
    (objects : List Object) : MemoRun indexFor past (S ++ objects) m log memo := by
  induction objects generalizing S with
  | nil => rwa [List.append_nil]
  | cons o rest ih =>
      rw [List.append_cons]
      exact ih (h.put o)

/-- An evaluation gave the answer, on the same heads. -/
structure Query.From (indexFor : Indexer) (q q₀ : Query) : Prop where
  fresh : q₀.Fresh indexFor
  revId : q₀.revId = q.revId
  answer : q₀.answer = q.answer
  heads : q₀.log.heads = q.log.heads

/-- What the memo holds was evaluated, on its heads. -/
def StandardMemo.Evaluated (indexFor : Indexer) (memo : StandardMemo) (past : List Query) : Prop :=
  ∀ id a, memo.byRev.get? id = some a →
    ∃ q ∈ past, q.Fresh indexFor ∧ q.revId = id ∧ q.answer = a ∧ q.log.heads = memo.heads

theorem StandardMemo.evaluated_new (past : List Query) :
    StandardMemo.new.Evaluated indexFor past := by
  intro id a h
  rw [StandardMemo.new, OrdMap.get?_empty] at h
  cases h

theorem StandardMemo.Evaluated.mono {past later : List Query} (h : memo.Evaluated indexFor past) :
    memo.Evaluated indexFor (past ++ later) := by
  intro id a hid
  obtain ⟨q, hq, hrest⟩ := h id a hid
  exact ⟨q, List.mem_append_left _ hq, hrest⟩

/-- An answer is evaluated, or was on the same heads. -/
theorem standardStatus_ok {past : List Query} (h : memo.Evaluated indexFor past)
    (hvalue : (standardStatus indexFor memo m log revId rev).value S = .ok (answer, m', memo')) :
    memo'.Evaluated indexFor (past ++ [⟨S, m, log, revId, rev, answer⟩]) ∧
      ∃ q₀ ∈ past ++ [⟨S, m, log, revId, rev, answer⟩],
        Query.From indexFor ⟨S, m, log, revId, rev, answer⟩ q₀ := by
  unfold standardStatus at hvalue
  split at hvalue
  · rename_i known hknown
    split_ifs at hknown with hheads
    cases hvalue
    obtain ⟨q, hq, hfresh, hid, hanswer, hsame⟩ := h revId answer hknown
    exact ⟨h.mono, q, List.mem_append_left _ hq, hfresh, hid, hanswer, hsame.trans hheads⟩
  · obtain ⟨⟨fresh, m₁⟩, hfresh, hvalue, -⟩ := bind_ok hvalue
    cases hvalue
    have hself : (⟨S, m, log, revId, rev, answer⟩ : Query) ∈
        past ++ [⟨S, m, log, revId, rev, answer⟩] :=
      List.mem_append_right _ (List.mem_singleton_self _)
    have hnow : Query.Fresh indexFor ⟨S, m, log, revId, rev, answer⟩ := ⟨m', hfresh⟩
    refine ⟨fun id a hid => ?_, _, hself, hnow, rfl, rfl, rfl⟩
    by_cases hheads : memo.heads = log.heads
    · simp only [if_pos hheads] at hid ⊢
      rw [OrdMap.get?_insert] at hid
      split_ifs at hid with hkey
      · cases hid
        exact ⟨_, hself, hnow, hkey, rfl, hheads.symm⟩
      · exact h.mono id a hid
    · simp only [if_neg hheads] at hid ⊢
      rw [OrdMap.get?_insert] at hid
      split_ifs at hid with hkey
      · cases hid
        exact ⟨_, hself, hnow, hkey, rfl, rfl⟩
      · rw [OrdMap.get?_empty] at hid
        cases hid

/-- A query saw what is still there. -/
structure Query.Before (q : Query) (S : Store) (log : OpLog) : Prop where
  store : q.store ⊆ S
  verified : q.log.verified <+: log.verified
  heads : ∀ x ∈ q.log.heads, x ∈ q.log.verified
  stored : (get Revision q.revId).value q.store = .ok q.rev

/-- What a run keeps: of every query, what it saw; of the memo, that it was evaluated. -/
structure Remembers (indexFor : Indexer) (past : List Query) (S : Store) (log : OpLog)
    (memo : StandardMemo) : Prop where
  reached : LogReached S log
  newest : NewestHead log
  before : ∀ q ∈ past, q.Before S log
  evaluated : memo.Evaluated indexFor past

theorem MemoRun.remembers {past : List Query} (h : MemoRun indexFor past S m log memo)
    (hfree : CollisionFree S) : Remembers indexFor past S log memo := by
  induction h with
  | new => exact ⟨.new, .new, List.forall_mem_nil _, StandardMemo.evaluated_new _⟩
  | @put past S m log memo o _ ih =>
      have hsub := List.subset_append_left S [o]
      obtain ⟨hreached, hnewest, hbefore, heval⟩ := ih (hfree.mono hsub)
      exact ⟨hreached.put o, hnewest, fun q hq =>
        { hbefore q hq with store := List.Subset.trans (hbefore q hq).store hsub }, heval⟩
  | note m' kept _ ih =>
      obtain ⟨hreached, hnewest, hbefore, heval⟩ := ih hfree
      exact ⟨hreached.note kept, ⟨hnewest.nodup, hnewest.head⟩, fun q hq =>
        { hbefore q hq with verified := (hbefore q hq).verified }, heval⟩
  | @deliver past S m log memo op _ ih =>
      have hsub := subset_after (log.accept op) S
      obtain ⟨hreached, hnewest, hbefore, heval⟩ := ih (hfree.mono hsub)
      refine ⟨?_, hnewest.deliver hreached hfree, fun q hq => { hbefore q hq with
        store := List.Subset.trans (hbefore q hq).store hsub
        verified := (hbefore q hq).verified.trans (verified_deliver log op S) }, heval⟩
      cases hvalue : (log.accept op).value S with
      | ok r => exact deliver_of_ok hvalue ▸ hreached.accept op hvalue
      | error e =>
          rw [deliver_of_error hvalue]
          exact hreached.putAll
  | @ask past S m m' log memo memo' revId rev answer _ hget hvalue ih =>
      have hsub := subset_after (standardStatus indexFor memo m log revId rev) S
      obtain ⟨hreached, hnewest, hbefore, heval⟩ := ih (hfree.mono hsub)
      have hheads := (hreached.keeps (hfree.mono hsub)).heads
      refine ⟨hreached.putAll, hnewest, fun q hq => ?_, (standardStatus_ok heval hvalue).1⟩
      rcases List.mem_append.mp hq with hq | hq
      · exact { hbefore q hq with store := List.Subset.trans (hbefore q hq).store hsub }
      · obtain rfl := List.mem_singleton.mp hq
        exact ⟨hsub, List.prefix_refl _, hheads, hget⟩
  | restart _ ih =>
      obtain ⟨hreached, hnewest, hbefore, -⟩ := ih hfree
      exact ⟨hreached, hnewest, hbefore, StandardMemo.evaluated_new _⟩

/-- Every status that a run answers is what an evaluation of the same revision gave at that query
or an earlier one, between which no op was verified. -/
theorem standard_memo_coherent {past : List Query} (h : MemoRun indexFor past S m log memo)
    (hfree : CollisionFree S) {earlier : List Query} {q : Query} (hq : earlier ++ [q] <+: past) :
    ∃ q₀ ∈ earlier ++ [q], q₀.Fresh indexFor ∧ q₀.revId = q.revId ∧ q₀.rev = q.rev ∧
      q₀.answer = q.answer ∧ q₀.log.heads = q.log.heads ∧ q₀.log.verified = q.log.verified := by
  induction h with
  | new =>
      obtain ⟨rest, hrest⟩ := hq
      simp at hrest
  | put o _ ih => exact ih (hfree.mono (List.subset_append_left _ _)) hq
  | note m' kept _ ih => exact ih hfree hq
  | deliver op _ ih => exact ih (hfree.mono (subset_after _ _)) hq
  | restart _ ih => exact ih hfree hq
  | @ask past S m m' log memo memo' revId rev answer hrun hget hvalue ih =>
      have hfree' := hfree.mono (subset_after _ S)
      rcases List.prefix_concat_iff.mp hq with heq | hprefix
      · obtain ⟨rfl, hlast⟩ := List.append_inj' heq rfl
        obtain rfl := List.singleton_inj.mp hlast
        obtain ⟨-, hnewest, hbefore, heval⟩ := hrun.remembers hfree'
        obtain ⟨q₀, hq₀, hfrom⟩ := (standardStatus_ok heval hvalue).2
        refine ⟨q₀, hq₀, hfrom.fresh, hfrom.revId, ?_, hfrom.answer, hfrom.heads, ?_⟩
        · rcases List.mem_append.mp hq₀ with hold | hself
          · have hstored := (lasting_get Revision q₀.revId).lasts (hbefore q₀ hold).store hfree'
              (hbefore q₀ hold).stored
            rw [hfrom.revId, hget] at hstored
            exact (Except.ok.inj hstored).symm
          · rw [List.mem_singleton.mp hself]
        · rcases List.mem_append.mp hq₀ with hold | hself
          · have hseen := hbefore q₀ hold
            exact (hnewest.verified_eq hseen.verified hseen.heads hfrom.heads.symm).symm
          · rw [List.mem_singleton.mp hself]
      · exact ih hfree' hprefix

end Runs

section Samples

/-! The status of the first revision is asked for twice. -/

local instance memoHash : Crypto := .ofTable conflictTable

def memoIndexer : Indexer := fun _ m => pure (emptyIndex, m)

def memoStore : Store := (OpLog.new.accept landInit).after ([] ++ conflictBase)

def memoLog : OpLog := OpLog.new.deliver landInit ([] ++ conflictBase)

def baseRevision : Revision := sampleRevision (.splat 64) "base" (.splat 5) []

def filledMemo : StandardMemo :=
  ⟨memoLog.heads, (∅ : OrdMap ObjectId Status).insert (.splat 6) (0, [], [])⟩

def baseAsked : Query := ⟨memoStore, ∅, memoLog, .splat 6, baseRevision, (0, [], [])⟩

theorem base_evaluated :
    (standardStatus memoIndexer .new ∅ memoLog (.splat 6) baseRevision).value memoStore =
      .ok ((0, [], []), ∅, filledMemo) := by
  decide +kernel

def askedStore : Store :=
  (standardStatus memoIndexer .new ∅ memoLog (.splat 6) baseRevision).after memoStore

def againAsked : Query := { baseAsked with store := askedStore }

theorem base_remembered :
    (standardStatus memoIndexer filledMemo ∅ memoLog (.splat 6) baseRevision).value askedStore =
      .ok ((0, [], []), ∅, filledMemo) := by
  decide

theorem again_run : MemoRun memoIndexer ([baseAsked] ++ [againAsked])
    ((standardStatus memoIndexer filledMemo ∅ memoLog (.splat 6) baseRevision).after askedStore) ∅
      memoLog filledMemo := by
  have hinit : MemoRun memoIndexer [] memoStore ∅ memoLog .new :=
    (MemoRun.new.putAll conflictBase).deliver landInit
  have hasked : MemoRun memoIndexer ([] ++ [baseAsked]) askedStore ∅ memoLog filledMemo :=
    hinit.ask (by decide) base_evaluated
  exact hasked.ask (by decide) base_remembered

theorem standard_memo_coherent_again : ∃ q₀ ∈ [baseAsked] ++ [againAsked],
    q₀.Fresh memoIndexer ∧ q₀.revId = .splat 6 ∧ q₀.rev = baseRevision ∧
      q₀.answer = (0, [], []) ∧ q₀.log.heads = memoLog.heads ∧
      q₀.log.verified = memoLog.verified :=
  standard_memo_coherent again_run (collisionFree_ofTable (by decide) (by decide +kernel))
    (List.prefix_refl _)

end Samples

end Tessra.Daemon.Verifiers
