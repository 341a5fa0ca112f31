import Tessra.Oplog.LastWrite

namespace Tessra.Oplog

open Tessra.Core Tessra.Data StoreM OpLog

/-! Which revisions the views of a run name as heads and as proposed, and when
none of them holds a conflict. -/

theorem Pointer.mem_union_ids {p q : Pointer} {i : ObjectId} :
    i ∈ (p.union q).ids ↔ i ∈ p.ids ∨ i ∈ q.ids := by
  have hmem : i ∈ sortedDedup (p.ids ++ q.ids) ↔ i ∈ p.ids ∨ i ∈ q.ids := by
    rw [mem_sortedDedup, List.mem_append]
  rw [← hmem, Pointer.union]
  split
  · rename_i j hj
    rw [hj]
    rfl
  · rfl

def namedAt (v : View) (line : String) : List ObjectId :=
  (((headAt v line).bind Pointer.fromValue).map Pointer.ids).getD []

theorem mem_headRevisions {v : View} {i : ObjectId} :
    i ∈ Verify.headRevisions v ↔ ∃ line, i ∈ namedAt v line := by
  simp only [Verify.headRevisions, List.mem_flatMap, OrdMap.mem_values, namedAt, headAt]
  constructor
  · intro h
    obtain ⟨ls, ⟨line, hline⟩, hi⟩ := h
    exact ⟨line, by rw [hline]; exact hi⟩
  · intro h
    obtain ⟨line, hi⟩ := h
    cases hline : v.lines.get? line with
    | none => simp [hline] at hi
    | some ls =>
        rw [hline] at hi
        exact ⟨ls, ⟨line, hline⟩, hi⟩

theorem namedAt_of_head {v v' : View} {line : String} (h : headAt v' line = headAt v line) :
    namedAt v' line = namedAt v line := by
  rw [namedAt, h, namedAt]

theorem namedAt_of_id {v : View} {line : String} {i : ObjectId}
    (h : headAt v line = some (Pointer.id i).toValue) : namedAt v line = [i] := by
  simp [namedAt, h, Pointer.ids]

theorem mem_ids_mergeLine {bs x y : LineState} {i : ObjectId} {p : Pointer}
    (hp : lineHead (mergeLine bs x y) = some p) (hi : i ∈ p.ids) :
    (∃ q, lineHead x = some q ∧ i ∈ q.ids) ∨ ∃ q, lineHead y = some q ∧ i ∈ q.ids := by
  simp only [lineHead, mergeLine] at hp ⊢
  split_ifs at hp
  · exact .inr ⟨p, hp, hi⟩
  · exact .inl ⟨p, hp, hi⟩
  · split at hp
    · rename_i q r hq hr
      rw [Pointer.fromValue_toValue] at hp
      cases hp
      rcases Pointer.mem_union_ids.mp hi with hi | hi
      · exact .inl ⟨q, hq, hi⟩
      · exact .inr ⟨r, hr, hi⟩
    · exact .inl ⟨p, hp, hi⟩

theorem mem_namedAt {v : View} {line : String} {i : ObjectId} :
    i ∈ namedAt v line ↔ ∃ ls, v.lines.get? line = some ls ∧
      ∃ p, lineHead ls = some p ∧ i ∈ p.ids := by
  rw [namedAt, headAt]
  cases hls : v.lines.get? line with
  | none => simp
  | some ls =>
      cases hp : Pointer.fromValue ls.head <;> simp [lineHead, hp]

theorem namedAt_merge {base a b v : View} (h : MergedParts base a b v) {line : String}
    {i : ObjectId} (hi : i ∈ namedAt v line) : i ∈ namedAt a line ∨ i ∈ namedAt b line := by
  simp only [mem_namedAt] at hi ⊢
  obtain ⟨ls, hls, p, hp, hi⟩ := hi
  rw [h.lines, get?_mergeLines] at hls
  rcases mergeLineAt_cases hls with ha | hb | hboth
  · exact .inl ⟨ls, ha, p, hp, hi⟩
  · exact .inr ⟨ls, hb, p, hp, hi⟩
  · obtain ⟨bs, x, y, hx, hy, rfl⟩ := hboth
    rcases mem_ids_mergeLine hp hi with hq | hq
    · exact .inl ⟨x, hx, hq⟩
    · exact .inr ⟨y, hy, hq⟩

theorem isSome_threeWay {policy : MergePolicy} {base a b : Option TrieValue}
    (h : (threeWay policy base a b).isSome) : a.isSome ∨ b.isSome := by
  unfold threeWay at h
  split_ifs at h
  · exact .inr h
  · exact .inl h
  · cases a with
    | some x => exact .inl rfl
    | none =>
        cases b with
        | some y => exact .inr rfl
        | none => cases h

section Runs

variable [Crypto] {F S : Store} {log : OpLog} {op : Op} {N : ObjectId → Prop}

/-- Every head and every proposed revision of a view is one of `N`. -/
structure NamesOnly (N : ObjectId → Prop) (_ops : Set ObjectId) (v : View) (c : Contents) :
    Prop where
  heads : ∀ line, ∀ i ∈ namedAt v line, N i
  proposed : ∀ rev, (c.at (.proposed rev)).isSome → N rev

theorem namesOnly_merge : MergeInvariant F (NamesOnly N) where
  empty := by
    intro v hlines
    constructor
    · intro line i hi
      obtain ⟨ls, hls, _⟩ := mem_namedAt.mp hi
      rw [hlines.1] at hls
      cases hls
    · intro rev hrev
      cases hrev
  merge := by
    intro A B next base a b v cbase ca cb _ _ _ ha hb hparts
    constructor
    · intro line i hi
      rcases namedAt_merge hparts hi with hi | hi
      · exact ha.heads line i hi
      · exact hb.heads line i hi
    · intro rev hrev
      rw [Contents.at_merge] at hrev
      rcases isSome_threeWay hrev with hrev | hrev
      · exact ha.proposed rev hrev
      · exact hb.proposed rev hrev

/-- The revisions that an op makes a head, or proposes, in the end. -/
def Names (op : Op) (rev : ObjectId) : Prop :=
  (∃ line, lastHead line op.effects = some rev) ∨
    (Cell.proposed rev).lastWrite op.effects = some (some .set)

omit [Crypto] in
theorem lastWrite_proposed {rev : ObjectId} {effects : List Effect} {x : TrieValue}
    (h : (Cell.proposed rev).lastWrite effects = some (some x)) : x = .set := by
  obtain ⟨e, _, he⟩ := Cell.writtenBy_of_lastWrite h
  cases e with
  | propose r =>
      simp only [Cell.writtenBy] at he
      split_ifs at he
      cases he
      rfl
  | unpropose r =>
      simp only [Cell.writtenBy] at he
      split_ifs at he
      cases he
  | _ => cases he

theorem preserves_namesOnly (h : ∀ rev, Names op rev → N rev) :
    Preserves (NamesOnly N) op := by
  intro S v c parentOp _ hnames
  have hheads : (ViewState.apply v op.effects parentOp).Ensures S fun v' _ =>
      ∀ line, headAt v' line = headOver (headAt v line) (lastHead line op.effects) :=
    .forall fun line => ensures_apply_head op.effects parentOp line
  refine hheads.mono fun v' _ _ hv' => ⟨fun line i hi => ?_, fun rev hrev => ?_⟩
  · cases hlast : lastHead line op.effects with
    | none =>
        have hsame : headAt v' line = headAt v line := by rw [hv', hlast]; rfl
        exact hnames.heads line i (namedAt_of_head hsame ▸ hi)
    | some to_ =>
        have hto : headAt v' line = some (Pointer.id to_).toValue := by rw [hv', hlast]; rfl
        rw [namedAt_of_id hto, List.mem_singleton] at hi
        exact h i (.inl ⟨line, hi ▸ hlast⟩)
  · rw [Contents.at_actAll] at hrev
    cases hlast : (Cell.proposed rev).lastWrite op.effects with
    | none =>
        rw [hlast] at hrev
        exact hnames.proposed rev hrev
    | some w =>
        rw [hlast] at hrev
        obtain ⟨x, rfl⟩ := Option.isSome_iff_exists.mp hrev
        exact h rev (.inr (by rw [hlast, lastWrite_proposed hlast]))

theorem Sound.inSet_proposed {v : View} {c : Contents} (h : Sound S v c)
    (hfree : CollisionFree S) (rev : ObjectId) :
    (ViewState.inSet v.proposed rev).value S = .ok (c.at (.proposed rev)).isSome := by
  obtain ⟨x, hx, rfl, _⟩ := h.at (.proposed rev) ((readOnly_trieGet _ _ S).symm ▸ hfree)
  rw [ViewState.inSet]
  exact (bind_of_ok hx).1

/-- A tree with a conflict entry at any depth. -/
inductive HasConflict (S : Store) : ObjectId → Prop
  | entry {id : ObjectId} {t : Tree} {entries : List TreeEntry} {e : TreeEntry} :
      (get Tree id).value S = .ok t → t.entries = some entries → e ∈ entries →
      e.kind = .conflict → HasConflict S id
  | dir {id sub : ObjectId} {t : Tree} {entries : List TreeEntry} {e : TreeEntry} :
      (get Tree id).value S = .ok t → t.entries = some entries → e ∈ entries →
      e.kind = .dir → e.ref = some sub → HasConflict S sub → HasConflict S id
  | shard {id sub : ObjectId} {t : Tree} {shards : List (Option ObjectId)} :
      (get Tree id).value S = .ok t → t.shards = some shards → some sub ∈ shards →
      HasConflict S sub → HasConflict S id

def Conflicted (S : Store) (rev : ObjectId) : Prop :=
  ∃ r, (get Revision rev).value S = .ok r ∧ ∃ s ∈ r.snapshots.values,
    ∃ snap, (get Snapshot s).value S = .ok snap ∧ HasConflict S snap.root

/-- No head and no proposed revision of a view, read in `S'`, is conflicted. -/
def Unconflicted (S S' : Store) (v : View) : Prop :=
  (∀ i ∈ Verify.headRevisions v, ¬ Conflicted S i) ∧
    ∀ rev, (ViewState.inSet v.proposed rev).value S' = .ok true → ¬ Conflicted S rev

/-- The views of all ops of the log, and the current one, are unconflicted. -/
def LogUnconflicted (S : Store) (log : OpLog) : Prop :=
  (∀ o ∈ log.verified, ∃ v, (log.viewOf o).value S = .ok v ∧ Unconflicted S S v) ∧
    ∃ v, log.currentView.value S = .ok v ∧ Unconflicted S (log.currentView.after S) v

theorem NamesOnly.unconflicted {S' : Store} {ops : Set ObjectId} {v : View} {c : Contents}
    (h : NamesOnly (fun i => ¬ Conflicted S i) ops v c) (hv : Sound S' v c)
    (hfree : CollisionFree S') : Unconflicted S S' v := by
  constructor
  · intro i hi
    obtain ⟨line, hi⟩ := mem_headRevisions.mp hi
    exact h.heads line i hi
  · intro rev hrev
    rw [hv.inSet_proposed hfree] at hrev
    exact h.proposed rev (Except.ok.inj hrev)

/-- In every run, no view names a conflicted revision exactly if no op does. -/
theorem logUnconflicted_iff (h : LogReached S log)
    (hfree : CollisionFree (log.currentView.after S)) :
    LogUnconflicted S log ↔ ∀ op, Took S log op → ∀ rev, Names op rev → ¬ Conflicted S rev := by
  have hstart := hfree.mono (subset_after _ S)
  constructor
  · intro hclean op htook rev hnames
    obtain ⟨o, ho, hop⟩ := htook
    obtain ⟨v, hv, hheads, hproposed⟩ := hclean.1 o ho
    obtain ⟨op', v', c, hrecorded, _, hv'⟩ := (h.keeps hstart).value_viewOf hstart ho
    rw [hv] at hv'
    cases hv'
    rw [hrecorded.get_op hstart] at hop
    cases hop
    rcases hnames with ⟨line, hline⟩ | hset
    · refine hheads rev (mem_headRevisions.mpr ⟨line, ?_⟩)
      rw [namedAt_of_id (hrecorded.leads line rev hline)]
      exact List.mem_singleton_self rev
    · refine hproposed rev ?_
      rw [hrecorded.sound.inSet_proposed hstart, hrecorded.shows, hset]
      rfl
  · intro hops
    have hkept := h.kept namesOnly_merge (List.Subset.refl S) hstart fun op htook =>
      preserves_namesOnly (hops op htook)
    constructor
    · intro o ho
      obtain ⟨_, v, c, hrecorded, hnames, hv⟩ := hkept.value_viewOf hstart ho
      exact ⟨v, hv, hnames.unconflicted hrecorded.sound hstart⟩
    · obtain ⟨v, hv, c, hsound, hnames, _⟩ := hkept.returns_mergedView namesOnly_merge
        (List.Subset.refl S) hstart (List.Subset.refl S) hkept.heads hfree
      exact ⟨v, hv, hnames.unconflicted hsound hfree⟩

end Runs

section Samples

/-! A coordinator that lands a revision with a conflict. -/

def emptyStandard : Standard where
  id := .splat 48
  prev := none
  name := "trunk"
  «extends» := none
  clauses := []
  scopes := none
  when := none
  auditPermille := none

def trunkLine : Line where
  id := .splat 32
  prev := none
  name := "trunk"
  standard := .splat 48
  roots := [""]
  shared := true
  created := 0

def sampleSnapshot (root : ObjectId) : Snapshot := ⟨root, .splat 0, none, none⟩

def sampleRevision (id : EntityId) (title : String) (snapshot : ObjectId)
    (parents : List ObjectId) : Revision where
  id := id
  prev := none
  snapshots := (∅ : OrdMap String ObjectId).insert "" snapshot
  parents := parents
  intent := none
  title := title
  body := none
  author := .splat 1
  time := 0
  ops := none
  flags := none

def conflictBase : List Object := [
  .principal ownerPrincipal,
  .standard emptyStandard,
  .line trunkLine,
  .tree ⟨some [], none⟩,
  .snapshot (sampleSnapshot (.splat 4)),
  .revision (sampleRevision (.splat 64) "base" (.splat 5) []),
  .tree ⟨some [⟨"a", .conflict, none, none, some []⟩], none⟩,
  .snapshot (sampleSnapshot (.splat 7)),
  .revision (sampleRevision (.splat 80) "merge" (.splat 8) [.splat 6])]

def landTrunk (head : ObjectId) (seq : ℕ) : OrdMap String LineState :=
  (∅ : OrdMap String LineState).insert "trunk" ⟨.splat 32, (Pointer.id head).toValue, seq, .splat 1⟩

def landView : View where
  entities := .splat 12
  proposed := .splat 0
  claims := .splat 0
  caps := .splat 0
  revoked := .splat 0
  tombstoned := .splat 0
  lines := landTrunk (.splat 6) 0
  roots := []
  owners := [.splat 1]
  deployed := ∅
  paused := none

def landInit : Op :=
  ownerOp "init" [] [.owner (.splat 1), .point (.splat 1) (.splat 1) none,
    .point (.splat 48) (.splat 2) none, .point (.splat 32) (.splat 3) none,
    .head "trunk" (.splat 6) none 0 [] (some (.splat 32))] (.splat 13)

def conflictLand : Op :=
  ownerOp "land" [.splat 14] [.propose (.splat 9),
    .head "trunk" (.splat 9) (some (Pointer.id (.splat 6)).toValue) 1 [] none] (.splat 16)

def conflictTable : List Object := [.trie .empty] ++ conflictBase ++ [
  .trie ⟨1#16, [.leaf (EntityId.splat 1).bytes (.id (.splat 1))]⟩,
  .trie ⟨9#16, [.leaf (EntityId.splat 1).bytes (.id (.splat 1)),
    .leaf (EntityId.splat 48).bytes (.id (.splat 2))]⟩,
  .trie ⟨13#16, [.leaf (EntityId.splat 1).bytes (.id (.splat 1)),
    .leaf (EntityId.splat 32).bytes (.id (.splat 3)),
    .leaf (EntityId.splat 48).bytes (.id (.splat 2))]⟩,
  .view landView,
  .op landInit,
  .trie ⟨1#16, [.leaf (ObjectId.splat 9).bytes .set]⟩,
  .view { landView with proposed := .splat 15, lines := landTrunk (.splat 9) 1 },
  .op conflictLand]

local instance conflictHash : Crypto := .ofTable conflictTable

def conflictLanded : Store × OpLog :=
  acceptAll ([] ++ conflictBase) .new [landInit, conflictLand]

private theorem conflictLanded_reached : LogReached conflictLanded.1 conflictLanded.2 :=
  LogReached.new.putAll.acceptAll

private theorem conflictLanded_free :
    CollisionFree (conflictLanded.2.currentView.after conflictLanded.1) :=
  collisionFree_ofTable (by decide) (by decide +kernel)

private theorem conflicted_merge : Conflicted conflictLanded.1 (.splat 9) := by
  refine ⟨sampleRevision (.splat 80) "merge" (.splat 8) [.splat 6], by decide +kernel, .splat 8,
    by decide, sampleSnapshot (.splat 7), by decide +kernel, ?_⟩
  have htree : (get Tree (.splat 7)).value conflictLanded.1 =
      .ok ⟨some [⟨"a", .conflict, none, none, some []⟩], none⟩ := by decide +kernel
  exact .entry htree rfl List.mem_cons_self rfl

/-- No op of the run imports history, and yet trunk's head and a proposed
revision hold a conflict. -/
theorem conflicted_revision_lands :
    LogReached conflictLanded.1 conflictLanded.2 ∧
    CollisionFree (conflictLanded.2.currentView.after conflictLanded.1) ∧
    (∀ o ∈ conflictLanded.2.verified,
      ((getOp o).value conflictLanded.1).toOption.all fun op => op.kind ≠ "import") ∧
    ¬ LogUnconflicted conflictLanded.1 conflictLanded.2 ∧
    ∃ v, conflictLanded.2.currentView.value conflictLanded.1 = .ok v ∧
      .splat 9 ∈ Verify.headRevisions v ∧
      (ViewState.inSet v.proposed (.splat 9)).value
        (conflictLanded.2.currentView.after conflictLanded.1) = .ok true ∧
      Conflicted conflictLanded.1 (.splat 9) := by
  have hview : conflictLanded.2.currentView.value conflictLanded.1 =
      .ok { landView with proposed := .splat 15, lines := landTrunk (.splat 9) 1 } := by
    decide +kernel
  refine ⟨conflictLanded_reached, conflictLanded_free, by decide +kernel, fun hclean => ?_,
    _, hview, by decide +kernel, by decide +kernel, conflicted_merge⟩
  obtain ⟨_, v, hv, hheads, _⟩ := hclean
  rw [hview] at hv
  cases hv
  exact hheads (.splat 9) (by decide +kernel) conflicted_merge

theorem logUnconflicted_iff_landed :
    LogUnconflicted conflictLanded.1 conflictLanded.2 ↔
      ∀ op, Took conflictLanded.1 conflictLanded.2 op → ∀ rev, Names op rev →
        ¬ Conflicted conflictLanded.1 rev :=
  logUnconflicted_iff conflictLanded_reached conflictLanded_free

end Samples

end Tessra.Oplog
