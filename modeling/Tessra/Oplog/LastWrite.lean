import Tessra.Oplog.LogRuns

namespace Tessra.Oplog

open Tessra.Core Tessra.Data StoreM OpLog Relation

/-! When the merged view of the heads shows the causally last write. -/

inductive Shown
  | pointer (p : Option Pointer)
  | member (present : Bool)
deriving DecidableEq

def Cell.display : Cell → Option TrieValue → Shown
  | .entity _, x | .claim _, x => .pointer (x.bind Pointer.fromTrie)
  | .proposed _, x | .cap _, x => .member x.isSome

section Based

variable [Crypto] {S : Store} {log : OpLog} {v : View} {c : Contents}
  {I : Set ObjectId → View → Contents → Prop}

def Cell.read (v : View) : Cell → StoreM Shown
  | .entity id => .pointer <$> ViewState.entity v id
  | .claim id => .pointer <$> ViewState.claim v id
  | .proposed rev => .member <$> ViewState.inSet v.proposed rev
  | .cap i => .member <$> ViewState.inSet v.caps i

theorem Cell.read_eq (cell : Cell) (v : View) :
    cell.read v = cell.display <$> Trie.get (cell.root v) cell.key := by
  cases cell <;> simp only [Cell.read, ViewState.entity, ViewState.claim, ViewState.inSet,
    map_eq_pure_bind, bind_assoc, pure_bind] <;> rfl

theorem Sound.read (h : Sound S v c) (hfree : CollisionFree S) (cell : Cell) :
    (cell.read v).value S = .ok (cell.display (c.at cell)) := by
  obtain ⟨x, hx, rfl, _⟩ := h.at cell ((readOnly_trieGet _ _ S).symm ▸ hfree)
  rw [Cell.read_eq, map_eq_pure_bind, (bind_of_ok hx).1]
  rfl

def Touched (S : Store) (cell : Cell) (t : ObjectId) : Prop :=
  ∃ op, (getOp t).value S = .ok op ∧ (cell.lastWrite op.effects).isSome

/-- The base of a merge step has seen every op on the cell that both one of
the ops merged before and the next one have seen. -/
def BaseSees (S : Store) (cell : Cell) (folded : List ObjectId) (next : ObjectId) : Prop :=
  ∀ t, Touched S cell t → (∃ f ∈ folded, Ancestor S t f) → Ancestor S t next →
    ∃ b, (lca (folded ++ [next])).value S = .ok (some b) ∧ Ancestor S t b

/-- The base of every step of the merge of ops sees enough of the cell. -/
def MergeSees (S : Store) (cell : Cell) (ops : List ObjectId) : Prop :=
  ∀ folded next rest, sortedDedup ops = folded ++ next :: rest → folded ≠ [] →
    BaseSees S cell folded next

/-- Every merge that made the log, and that of its heads, sees enough of the cell. -/
def LogSees (S : Store) (log : OpLog) (cell : Cell) : Prop :=
  MergeSees S cell log.heads ∧
    ∀ o ∈ log.verified, ∀ op, (getOp o).value S = .ok op → MergeSees S cell op.parents

def parentsOf (S : Store) (o : ObjectId) : List ObjectId :=
  match parentsIn S o with
  | .ok parents => sortedDedup parents
  | .error _ => []

theorem mem_parentsOf {p o : ObjectId} :
    p ∈ parentsOf S o ↔ StepsTo (parentsIn S) o p := by
  unfold parentsOf StepsTo
  cases parentsIn S o <;> simp

theorem ancestor_eq : (fun p c => p ∈ parentsOf S c) = fun p c => StepsTo (parentsIn S) c p := by
  funext p c
  exact propext mem_parentsOf

def Kept.history (h : Kept I S log) (hfree : CollisionFree S) : History ObjectId where
  live := {o | o ∈ log.verified}
  parents := parentsOf S
  base := baseIn S
  rank := log.verified.idxOf
  live_parents := by
    intro o p ho hp
    obtain ⟨op, _, _, hrecorded, _, _, hparents⟩ := h.recorded o ho
    obtain ⟨parents, hstep, hp⟩ := mem_parentsOf.mp hp
    rw [hrecorded.parentsIn hfree] at hstep
    cases hstep
    exact (hparents p hp).1
  rank_lt := by
    intro o p ho hp
    obtain ⟨op, _, _, hrecorded, _, _, hparents⟩ := h.recorded o ho
    obtain ⟨parents, hstep, hp⟩ := mem_parentsOf.mp hp
    rw [hrecorded.parentsIn hfree] at hstep
    cases hstep
    exact (hparents p hp).2
  base_below := by
    intro folded next b _ hfolded hnext hb x hx
    rw [ancestor_eq]
    exact (h.lca_at (List.Subset.refl S) hfree hfolded hnext).2 b hb x hx

theorem Kept.history_below (h : Kept I S log) (hfree : CollisionFree S) {x o : ObjectId} :
    (h.history hfree).Below x o ↔ Ancestor S x o := by
  unfold History.Below Ancestor
  rw [← ancestor_eq]
  rfl

theorem Kept.basedStep (h : Kept I S log) (hfree : CollisionFree S) {cell : Cell}
    {folded : List ObjectId} {next : ObjectId} (hsees : BaseSees S cell folded next) :
    (h.history hfree).BasedStep (Touched S cell) folded next := by
  intro t ht hfolded hnext
  obtain ⟨f, hf, htf⟩ := hfolded
  obtain ⟨b, hb, htb⟩ := hsees t ht ⟨f, hf, (h.history_below hfree).mp htf⟩
    ((h.history_below hfree).mp hnext)
  exact ⟨b, by simp [Kept.history, baseIn, hb], (h.history_below hfree).mpr htb⟩

theorem Kept.based (h : Kept I S log) (hfree : CollisionFree S) {cell : Cell}
    {ops : List ObjectId} (hsees : MergeSees S cell ops) :
    (h.history hfree).Based (Touched S cell) (sortedDedup ops) := by
  have hfrom : ∀ rest folded, folded ≠ [] → sortedDedup ops = folded ++ rest →
      (h.history hfree).BasedFrom (Touched S cell) folded rest := by
    intro rest
    induction rest with
    | nil => exact fun _ _ _ => trivial
    | cons next rest ih =>
        intro folded hne hsplit
        refine ⟨h.basedStep hfree (hsees folded next rest hsplit hne), ih _ (by simp) ?_⟩
        rw [hsplit, List.append_assoc, List.singleton_append]
  cases hsorted : sortedDedup ops with
  | nil => trivial
  | cons x rest => exact hfrom rest [x] (by simp) (by rw [hsorted]; rfl)

theorem Kept.merges (h : Kept I S log) (hfree : CollisionFree S) (cell : Cell) :
    (h.history hfree).Merges (Touched S cell) (threeWay cell.policy) (shown S cell) where
  threeWay := threeWay_lawful cell.policy
  untouched := by
    intro o ho huntouched
    obtain ⟨op, v, c, hrecorded, _⟩ := h.recorded o ho
    have hnone : cell.lastWrite op.effects = none := by
      by_contra hsome
      exact huntouched ⟨op, hrecorded.get_op hfree, Option.isSome_iff_ne_none.mpr hsome⟩
    have hparents : (h.history hfree).parents o = sortedDedup op.parents := by
      change parentsOf S o = _
      rw [parentsOf, hrecorded.parentsIn hfree]
    rw [hrecorded.shown_eq (List.Subset.refl S) hfree, hrecorded.shows, hnone, hparents]
    rfl

instance (t : ObjectId) (cell : Cell) : Decidable (Touched S cell t) :=
  match h : (getOp t).value S with
  | .ok op =>
      if hsome : (cell.lastWrite op.effects).isSome then isTrue ⟨op, h, hsome⟩
      else isFalse fun ⟨op', hop', hsome'⟩ => by
        rw [h] at hop'
        cases hop'
        exact hsome hsome'
  | .error e => isFalse fun ⟨op', hop', _⟩ => by
      rw [h] at hop'
      cases hop'

theorem Ancestor.of_parent {p o : ObjectId} {parents : List ObjectId}
    (h : parentsIn S o = .ok parents) (hp : p ∈ parents) : Ancestor S p o :=
  .single ⟨parents, h, hp⟩

theorem mergeSees_of_length_le {cell : Cell} {ops : List ObjectId}
    (h : (sortedDedup ops).length ≤ 1) : MergeSees S cell ops := by
  intro folded next rest hsplit hne
  have hpos := List.length_pos_of_ne_nil hne
  rw [hsplit, List.length_append, List.length_cons] at h
  omega

end Based

section Samples

/-! A capability that one head retires, that another still has, and a third
head that never saw it. -/

def ownerKey : PublicKey := ⟨List.replicate 32 (Byte.ofNat 5), List.length_replicate⟩

def ownerSig : Sig := ⟨List.replicate 64 (Byte.ofNat 6), List.length_replicate⟩

def ownerPrincipal : Principal where
  id := .splat 1
  prev := none
  key := some ownerKey
  kind := "human"
  name := "owner"
  parent := none
  model := none
  runtime := none
  bindings := none
  status := "active"
  expires := none
  time := 0
  sig := some ownerSig

def sampleCapability : Capability where
  issuer := .splat 1
  subject := .splat 1
  verbs := []
  write := ⟨none, none, none, none, none, none, none⟩
  read := ⟨none, none, none⟩
  hard := none
  advisory := none
  delegable := false
  parent := none
  nonce := .splat 3
  time := 0
  sig := some ownerSig

def ownerOp (kind : String) (parents : List ObjectId) (effects : List Effect)
    (view : ObjectId) : Op where
  parents := parents
  author := .splat 1
  key := ownerKey
  cap := none
  kind := kind
  args := ∅
  effects := effects
  view := view
  time := 0
  desc := none
  sig := some ownerSig

def initView : View where
  entities := .splat 2
  proposed := .splat 0
  claims := .splat 0
  caps := .splat 0
  revoked := .splat 0
  tombstoned := .splat 0
  lines := ∅
  roots := []
  owners := [.splat 1]
  deployed := ∅
  paused := none

def initOp : Op :=
  ownerOp "init" [] [.owner (.splat 1), .point (.splat 1) (.splat 1) none] (.splat 3)

def activateOp : Op := ownerOp "grant" [.splat 4] [.cap (.splat 5)] (.splat 7)

def retireOp : Op := ownerOp "grant" [.splat 8] [.uncap (.splat 5)] (.splat 3)

def pauseOp : Op := ownerOp "pause" [.splat 4] [.pause "docs"] (.splat 10)

def resumeOp : Op := ownerOp "pause" [.splat 8] [.resume "docs"] (.splat 7)

def forkTable : List Object := [
  .trie .empty,
  .principal ownerPrincipal,
  .trie ⟨1#16, [.leaf (EntityId.splat 1).bytes (.id (.splat 1))]⟩,
  .view initView,
  .op initOp,
  .capability sampleCapability,
  .trie ⟨1#16, [.leaf (ObjectId.splat 5).bytes .set]⟩,
  .view { initView with caps := .splat 6 },
  .op activateOp,
  .op retireOp,
  .view { initView with paused := some [⟨"docs", .splat 1, .splat 4⟩] },
  .op pauseOp,
  .op resumeOp]

local instance forkHash : Crypto := .ofTable forkTable

def forked : Store × OpLog :=
  acceptAll ([] ++ [.principal ownerPrincipal, .capability sampleCapability]) .new
    [initOp, activateOp, retireOp, pauseOp, resumeOp]

private theorem forked_reached : LogReached forked.1 forked.2 :=
  LogReached.new.putAll.acceptAll

private theorem forked_free : CollisionFree (forked.2.currentView.after forked.1) :=
  collisionFree_ofTable (by decide) (by decide +kernel)

private theorem forked_heads : sortedDedup forked.2.heads = [.splat 9, .splat 11, .splat 12] := by
  decide +kernel

private theorem owner_touched {t : ObjectId} (ht : t ∈ forked.2.verified)
    (htouched : Touched forked.1 (.entity (.splat 1)) t) : t = .splat 4 := by
  have h : ∀ o ∈ forked.2.verified, Touched forked.1 (.entity (.splat 1)) o → o = .splat 4 := by
    decide +kernel
  exact h t ht htouched

private theorem forked_baseSees {folded : List ObjectId} {next : ObjectId}
    (hnext : next ∈ forked.2.verified)
    (hlca : (lca (folded ++ [next])).value forked.1 = .ok (some (.splat 4))) :
    BaseSees forked.1 (.entity (.splat 1)) folded next := by
  intro t ht _ hbelow
  have hstart := forked_free.mono (subset_after _ _)
  have hclosed := (forked_reached.keeps hstart).closed hstart
  have hmem := List.mem_toFinset.mp (hbelow.mem hclosed (List.mem_toFinset.mpr hnext))
  rw [owner_touched hmem ht]
  exact ⟨_, hlca, .refl⟩

private theorem forked_sees : LogSees forked.1 forked.2 (.entity (.splat 1)) := by
  constructor
  · intro folded next rest hsplit hne
    rw [forked_heads] at hsplit
    match folded with
    | [] => exact absurd rfl hne
    | [_] =>
        cases hsplit
        exact forked_baseSees (by decide +kernel) (by decide +kernel)
    | [_, _] =>
        cases hsplit
        exact forked_baseSees (by decide +kernel) (by decide +kernel)
    | _ :: _ :: _ :: _ => simp at hsplit
  · intro o ho op hop
    have hone : ∀ o ∈ forked.2.verified, ((getOp o).value forked.1).toOption.all fun op =>
        (sortedDedup op.parents).length ≤ 1 := by decide +kernel
    have hlen := hone o ho
    rw [hop] at hlen
    exact mergeSees_of_length_le (by simpa [Except.toOption] using hlen)

end Samples

end Tessra.Oplog
