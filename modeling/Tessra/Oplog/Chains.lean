import Tessra.Oplog.Landed
import Tessra.Oplog.Lane

namespace Tessra.Oplog

open Tessra.Core Tessra.Data StoreM OpLog Verify

/-! Ops that move one entity, claim or line more than once. -/

/-- The sequence number that the last of the effects gives a line. -/
def lastSeq (line : String) (effects : List Effect) : Option ℕ :=
  effects.foldl (fun w e => (seqWritten line e).or w) none

/-- Where effects leave a pointer that was at `before`. -/
def leftAt (cell : Cell) (before : Option Pointer) (effects : List Effect) : Option Pointer :=
  ((cell.lastWrite effects).map fun w => w.bind Pointer.fromTrie).getD before

def headLeft (line : String) (before : Option LineState) (effects : List Effect) :
    Option Pointer :=
  ((lastHead line effects).map Pointer.id).or (before.bind lineHead)

def seqLeft (line : String) (before : Option LineState) (effects : List Effect) : Option ℕ :=
  (lastSeq line effects).or (before.map LineState.seq)

/-- Each move of the effects starts where the effects before it left what it moves,
and no value that one of them wrote is written over by a later one that does not
name it. -/
structure Chain (entity : EntityId → Option Pointer) (line : String → Option LineState)
    (effects : List Effect) : Prop where
  points : ∀ pre e to_ source, pre ++ [.point e to_ source] <+: effects →
    source.bind Pointer.fromValue = leftAt (.entity e) (entity e) pre
  heads : ∀ pre name to_ source seq attests id,
    pre ++ [.head name to_ source seq attests id] <+: effects →
      source.bind Pointer.fromValue = headLeft name (line name) pre ∧
        ∀ n ∈ seqLeft name (line name) pre, seq = n + 1
  kept : ∀ pre e (cell : Cell) i, pre ++ [e] <+: effects → cell.lastWrite pre = some (some (.id i)) →
    (cell.writtenBy e).isSome →
      ∃ entity to_ source, e = .point entity to_ source ∧
        source.bind Pointer.fromValue = some (.id i)

/-- No effect moves what an earlier one moved, but for pointing an entity that the
earlier ones left where it was. -/
structure MovesOnce (entity : EntityId → Option Pointer) (effects : List Effect) : Prop where
  points : ∀ pre e to_ source, pre ++ [.point e to_ source] <+: effects →
    leftAt (.entity e) (entity e) pre = entity e
  heads : ∀ pre name to_ source seq attests id,
    pre ++ [.head name to_ source seq attests id] <+: effects → lastHead name pre = none
  kept : ∀ pre e (cell : Cell) i, pre ++ [e] <+: effects → cell.lastWrite pre = some (some (.id i)) →
    (cell.writtenBy e).isSome → ∃ entity to_ source, e = .point entity to_ source

section Effects

variable {entity : EntityId → Option Pointer} {line : String → Option LineState}
  {effects pre : List Effect} {e : Effect}

theorem mem_of_pre (h : pre ++ [e] <+: effects) : e ∈ effects :=
  h.subset (List.mem_append_right pre List.mem_cons_self)

theorem subset_of_prefix (h : pre ++ [e] <+: effects) : pre ⊆ effects :=
  List.Subset.trans (List.subset_append_left pre [e]) h.subset

theorem lastHead_eq_none_iff {name : String} :
    lastHead name effects = none ↔ lastSeq name effects = none := by
  have hsame : ∀ e, headWritten name e = none ↔ seqWritten name e = none := by
    intro e
    cases e <;> simp [headWritten, seqWritten]
  have hnone : ∀ {β : Type} {f : Effect → Option β},
      effects.foldl (fun w e => (f e).or w) none = none ↔ ∀ e ∈ effects, f e = none := by
    intro β f
    refine ⟨fun h => (foldl_or_eq_none h).1, fun h => ?_⟩
    cases hw : effects.foldl (fun w e => (f e).or w) none with
    | none => rfl
    | some x =>
        obtain ⟨e, he, hx⟩ := (foldl_or_eq_some hw).resolve_right (by simp)
        rw [h e he] at hx
        cases hx
  rw [lastHead, lastSeq, hnone, hnone]
  exact forall₂_congr fun e _ => hsame e

theorem head_of_lastSeq {name : String} {n : ℕ} (h : lastSeq name effects = some n) :
    ∃ to_ source attests id, .head name to_ source n attests id ∈ effects := by
  obtain ⟨e, he, hn⟩ := (foldl_or_eq_some h).resolve_right (by simp)
  cases e with
  | head name' to_ source seq attests id =>
      simp only [seqWritten] at hn
      split_ifs at hn with hname
      cases hn
      exact ⟨to_, source, attests, id, hname ▸ he⟩
  | _ => cases hn

theorem leftAt_of_write {cell : Cell} {before : Option Pointer} {i : ObjectId}
    (h : cell.lastWrite effects = some (some (.id i))) :
    leftAt cell before effects = some (.id i) := by
  rw [leftAt, h]
  rfl

/-- Effects whose every `from` and `seq` was compared with the same view form a
chain just when they move nothing twice. -/
theorem chain_iff_movesOnce
    (hpoint : ∀ e to_ source, .point e to_ source ∈ effects →
      source.bind Pointer.fromValue = entity e)
    (hline : ∀ name to_ source seq attests id, .head name to_ source seq attests id ∈ effects →
      ∀ ls ∈ line name, lineHead ls = source.bind Pointer.fromValue ∧ seq = ls.seq + 1)
    (hnew : ∀ name to_ source seq attests id, .head name to_ source seq attests id ∈ effects →
      line name = none → source = none ∧ seq = 0) :
    Chain entity line effects ↔ MovesOnce entity effects := by
  constructor
  · intro h
    constructor
    · intro pre e to_ source hpre
      rw [← h.points pre e to_ source hpre, hpoint e to_ source (mem_of_pre hpre)]
    · intro pre name to_ source seq attests id hpre
      rw [lastHead_eq_none_iff]
      by_contra hsome
      obtain ⟨n, hn⟩ := Option.ne_none_iff_exists'.mp hsome
      obtain ⟨to', source', attests', id', hearlier⟩ := head_of_lastSeq hn
      have hnext := (h.heads pre name to_ source seq attests id hpre).2 n
        (by rw [seqLeft, hn]; rfl)
      have hearlier := subset_of_prefix hpre hearlier
      cases hls : line name with
      | none =>
          have hzero := (hnew name to_ source seq attests id (mem_of_pre hpre) hls).2
          omega
      | some ls =>
          have hseq := (hline name to_ source seq attests id (mem_of_pre hpre) ls hls).2
          have hseq' := (hline name to' source' n attests' id' hearlier ls hls).2
          omega
    · intro pre e cell i hpre hwrite hsome
      obtain ⟨entity', to_, source, he, _⟩ := h.kept pre e cell i hpre hwrite hsome
      exact ⟨entity', to_, source, he⟩
  · intro h
    constructor
    · intro pre e to_ source hpre
      rw [h.points pre e to_ source hpre, hpoint e to_ source (mem_of_pre hpre)]
    · intro pre name to_ source seq attests id hpre
      have hnone := h.heads pre name to_ source seq attests id hpre
      rw [headLeft, seqLeft, hnone, lastHead_eq_none_iff.mp hnone]
      cases hls : line name with
      | none =>
          obtain ⟨rfl, rfl⟩ := hnew name to_ source seq attests id (mem_of_pre hpre) hls
          exact ⟨rfl, by simp⟩
      | some ls =>
          obtain ⟨hhead, hseq⟩ := hline name to_ source seq attests id (mem_of_pre hpre) ls hls
          refine ⟨hhead.symm, fun n hn => ?_⟩
          cases hn
          exact hseq
    · intro pre e cell i hpre hwrite hsome
      obtain ⟨entity', to_, source, rfl⟩ := h.kept pre e cell i hpre hwrite hsome
      refine ⟨entity', to_, source, rfl, ?_⟩
      cases cell with
      | entity id =>
          simp only [Cell.writtenBy] at hsome
          split_ifs at hsome with hid
          · subst hid
            rw [hpoint _ to_ source (mem_of_pre hpre),
              ← h.points pre entity' to_ source hpre, leftAt_of_write hwrite]
          · cases hsome
      | _ => cases hsome

end Effects

section Runs

variable [Crypto] {S F middle : Store} {log : OpLog} {op : Op} {v c v' : View}
  {cv cc : Contents} {past : List Delivery}

/-- The pointer of an entity in the merged view of ops. -/
def entityAt (S : Store) (log : OpLog) (ops : List ObjectId) (e : EntityId) : Option Pointer :=
  match (log.entityIn ops e).value S with
  | .ok p => p
  | .error _ => none

/-- The state of a line in the merged view of ops. -/
def lineAt (S : Store) (log : OpLog) (ops : List ObjectId) (line : String) : Option LineState :=
  match (log.mergedView ops).value S with
  | .ok v => v.lines.get? line
  | .error _ => none

theorem entityAt_of_value {ops : List ObjectId} {e : EntityId} {p : Option Pointer}
    (h : (log.entityIn ops e).value S = .ok p) : entityAt S log ops e = p := by
  rw [entityAt, h]

theorem lineAt_of_value {ops : List ObjectId} (h : (log.mergedView ops).value S = .ok v)
    (line : String) : lineAt S log ops line = v.lines.get? line := by
  rw [lineAt, h]

theorem lines_of_empty (h : (log.mergedView []).value S = .ok v) : v.lines = ∅ := by
  have hrun : ViewState.empty.Ran S (ViewState.empty.after S) v := ran_of_value h
  obtain ⟨root, _, hview⟩ := hrun.bind
  rw [Ran.eq_of_pure hview]

/-- Without parents there is nothing to move. -/
theorem LogReached.at_init (h : LogReached S log) (hfree : CollisionFree ((log.accept op).after S))
    (hverified : Delivery.Verified ⟨S, log, op⟩) (hparents : op.parents = []) :
    entityAt S log op.parents = (fun _ => none) ∧ lineAt S log op.parents = fun _ => none := by
  obtain ⟨hsub, v, c, hreads, _⟩ := h.parentsRead hfree hverified
  constructor
  · funext e
    rw [entityAt_of_value (hreads.entityIn (hfree.mono hsub) e), hparents]
    rfl
  · funext line
    have hvalue := hreads.value
    rw [hparents] at hvalue
    rw [lineAt_of_value hreads.value, lines_of_empty hvalue]
    rfl

theorem Vetted.chained (h : Vetted S F middle log op v c v' cv cc) (hfree : CollisionFree F) :
    Chain (entityAt S log op.parents) (lineAt S log op.parents) op.effects ↔
      MovesOnce (entityAt S log op.parents) op.effects := by
  have hbefore := hfree.mono (List.Subset.trans h.before h.after)
  obtain ⟨landed, _, hlegal⟩ := h.checked.legal
  apply chain_iff_movesOnce
  · intro e to_ source he
    obtain ⟨_, _, hfrom, _⟩ := h.point hfree he
    rw [entityAt_of_value (h.parents.entityIn hbefore e), hfrom, h.parents.cells]
  · intro name to_ source seq attests id he ls hls
    rw [lineAt_of_value h.parents.value] at hls
    exact (ran_checkHead hls (hlegal _ he)).2
  · intro name to_ source seq attests id he hnone
    rw [lineAt_of_value h.parents.value] at hnone
    exact (ran_checkHead_new hnone (hlegal _ he)).2

end Runs

section Samples

/-! An op that points a new change at two revisions, one after the other. -/

def firstDraft : Revision := sampleRevision (.splat 64) "first" (.splat 0) []

def secondDraft : Revision := sampleRevision (.splat 64) "second" (.splat 0) []

def draftBase : List Object := [.principal ownerPrincipal, .revision firstDraft, .revision secondDraft]

def draftInit : Op := { initOp with view := .splat 5 }

def draftTwice : Op :=
  ownerOp "snapshot" [.splat 6] [.point (.splat 64) (.splat 2) none,
    .point (.splat 64) (.splat 3) none] (.splat 9)

def draftLeaves (draft : ℕ) : List Slot :=
  [.leaf (EntityId.splat 1).bytes (.id (.splat 1)),
    .leaf (EntityId.splat 64).bytes (.id (.splat draft))]

local instance draftHash : Crypto := .ofTable ([.trie .empty] ++ draftBase ++ [
  .trie ⟨1#16, [.leaf (EntityId.splat 1).bytes (.id (.splat 1))]⟩,
  .view { initView with entities := .splat 4 },
  .op draftInit,
  .trie ⟨17#16, draftLeaves 2⟩,
  .trie ⟨17#16, draftLeaves 3⟩,
  .view { initView with entities := .splat 8 },
  .op draftTwice])

def beforeDrafts : Store × OpLog := deliverAll draftBase .new [draftInit]

end Samples

end Tessra.Oplog
