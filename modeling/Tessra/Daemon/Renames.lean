import Tessra.Daemon.Revisions

namespace Tessra.Daemon

open Tessra.Core Tessra.Data Tessra.Oplog Verify StoreM Relation

/-! Which recorded renames reach the merges of concurrent changes. -/

section Recorded

variable [Crypto] {S S' : Store} {x y id : ObjectId} {r : Rename}

/-- The revision, and what it says its change was before. -/
def PrevOf (S : Store) (x y : ObjectId) : Prop :=
  ∃ rev, (get Revision x).value S = .ok rev ∧ rev.prev = some y

/-- The renames recorded on one revision. -/
def recordedOn (S : Store) (id : ObjectId) : List Rename :=
  match (get Revision id).value S with
  | .ok rev => recordedRenames (rev.ops.getD [])
  | .error _ => []

/-- A rename recorded on a revision, or on an earlier one of its change. -/
def Recorded (S : Store) (rev : ObjectId) (r : Rename) : Prop :=
  ∃ z, ReflTransGen (PrevOf S) rev z ∧ r ∈ recordedOn S z

/-- A step to the revision before, from one without the rename. -/
def LacksTo (S : Store) (r : Rename) (x y : ObjectId) : Prop :=
  r ∉ recordedOn S x ∧ PrevOf S x y

/-- A landing on trunk, and what it landed. -/
def LandedOnTrunk (S : Store) (head land rev : ObjectId) : Prop :=
  ReflTransGen (fun x y => ∃ r, (get Revision x).value S = .ok r ∧ r.parents.head? = some y)
      head land ∧
    ∃ r, (get Revision land).value S = .ok r ∧ r.parents[1]? = some rev

end Recorded

section Law

variable [Crypto]

/-- A change that recorded the rename landed after a revision forked from trunk: neither
its landing nor what landed is in the revision's history. -/
def LandedSince (s : Repo) (rev : ObjectId) (r : Rename) : Prop :=
  ∃ land other, LandedOnTrunk s.store s.head land other ∧ ¬ Reaches s.store rev land ∧
    ¬ Reaches s.store rev other ∧ Recorded s.store other r

/-- A conflict revision replaced a revision with the rename, and the change has not
recorded it again. -/
def Dropped (s : Repo) (rev : ObjectId) (r : Rename) : Prop :=
  ∃ conflict ∈ s.conflicts, ∃ replaced, ReflTransGen (LacksTo s.store r) rev conflict ∧
    LacksTo s.store r conflict replaced ∧ r ∈ recordedOn s.store replaced

/-- A merge is given the renames that landed meanwhile, and those of its own change. -/
structure Given (s : Repo) (m : Merge) : Prop where
  landed : ∀ r, LandedSince s m.revision r → r ∈ m.opsA
  own : ∀ r, Recorded s.store m.revision r → r ∈ m.opsB

end Law

section Runs

variable [Crypto] {S S' : Store} {id : ObjectId} {r : Rename} {s s' : Repo}
  {conflicts : List ObjectId} {merges : List Merge} {m : Merge} {w : Workspace}
  {rev x landed : Revision}

/-- Everything along the first parents is in the store, and none of it carries ops. -/
inductive Bare (S : Store) : ObjectId → Prop
  | mk {id : ObjectId} {rev : Revision} (hget : (get Revision id).value S = .ok rev)
      (hops : rev.ops = none) (hparent : ∀ p, rev.parents.head? = some p → Bare S p) : Bare S id

/-- Every earlier revision of the change is in the store, and only a conflict revision
has less recorded than what it replaces. -/
inductive Traced (S : Store) (conflicts : List ObjectId) : ObjectId → Prop
  | first {id : ObjectId} {rev : Revision} (hget : (get Revision id).value S = .ok rev)
      (hprev : rev.prev = none) : Traced S conflicts id
  | next {id p : ObjectId} {rev : Revision} (hget : (get Revision id).value S = .ok rev)
      (hprev : rev.prev = some p) (htraced : Traced S conflicts p)
      (hkept : id ∈ conflicts ∨ recordedOn S p ⊆ recordedOn S id) : Traced S conflicts id

/-- A repository in which no change has lost a rename yet, and no trunk revision carries
any, as before the first is recorded. -/
structure Start (s : Repo) : Prop where
  trunk : Bare s.store s.head
  held : ∀ w ∈ s.workspaces, Traced s.store [] w.revision
  conflicts : s.conflicts = []

/-- A repository reached from such a start. -/
def Reached (s : Repo) : Prop :=
  ∃ start, Start start ∧ ReflTransGen (fun s s' => ∃ merges, Step s merges s') start s

/-- A revision that is landed, or has lost renames to conflict revisions only. -/
def Holds (s : Repo) (id : ObjectId) : Prop :=
  Reaches s.store s.head id ∨ Traced s.store s.conflicts id

/-- What every step preserves. -/
structure Sound (s : Repo) : Prop where
  trunk : Bare s.store s.head
  held : ∀ w ∈ s.workspaces, Holds s w.revision

theorem Bare.mono (h : Bare S id) (hsub : S ⊆ S') (hfree : CollisionFree S') : Bare S' id := by
  induction h with
  | mk hget hops _ ih => exact .mk ((lasting_get Revision _).lasts hsub hfree hget) hops ih

theorem recordedOn_of_get {rev : Revision} (h : (get Revision id).value S = .ok rev) :
    recordedOn S id = recordedRenames (rev.ops.getD []) := by
  rw [recordedOn, h]

theorem Traced.stored (h : Traced S conflicts id) :
    ∃ rev, (get Revision id).value S = .ok rev := by
  cases h with
  | first hget _ => exact ⟨_, hget⟩
  | next hget _ _ _ => exact ⟨_, hget⟩

theorem Traced.mono {conflicts' : List ObjectId} (h : Traced S conflicts id) (hsub : S ⊆ S')
    (hfree : CollisionFree S') (hconflicts : conflicts ⊆ conflicts') :
    Traced S' conflicts' id := by
  induction h with
  | first hget hprev => exact .first ((lasting_get Revision _).lasts hsub hfree hget) hprev
  | @next id p rev hget hprev htraced hkept ih =>
      have hget' := (lasting_get Revision id).lasts hsub hfree hget
      refine .next hget' hprev ih (hkept.imp (fun h => hconflicts h) fun hkept => ?_)
      obtain ⟨before, hbefore⟩ := htraced.stored
      rw [recordedOn_of_get hget, recordedOn_of_get hbefore] at hkept
      rwa [recordedOn_of_get hget',
        recordedOn_of_get ((lasting_get Revision p).lasts hsub hfree hbefore)]

/-- A walk along a bare trunk collects nothing. -/
theorem Bare.renamesSince (h : Bare S id) (base : Option ObjectId) (steps : ℕ) :
    (renamesSince base steps (some id)).value S = .ok [] := by
  induction steps generalizing id with
  | zero => rfl
  | succ steps ih =>
      cases h with
      | @mk _ rev hget hops hparent =>
          rw [Daemon.renamesSince]
          split
          · rfl
          · have hrest : (Daemon.renamesSince base steps rev.parents.head?).value S = .ok [] := by
              cases hfirst : rev.parents.head? with
              | none => cases steps <;> rfl
              | some p => exact ih (hparent p hfirst)
            rw [(bind_of_ok hget).1, readOnly_get, (bind_of_ok hrest).1, hops]
            rfl

/-- What a merge is given, on a sound repository. -/
structure Merged (s : Repo) (m : Merge) : Prop where
  opsA : m.opsA = []
  opsB : m.opsB = recordedOn s.store m.revision
  traced : Traced s.store s.conflicts m.revision

theorem Sound.traced (h : Sound s) {w : Workspace} (hmem : w ∈ s.workspaces)
    (hunlanded : ¬ Reaches s.store s.head w.revision) :
    Traced s.store s.conflicts w.revision :=
  (h.held w hmem).resolve_left hunlanded

/-- The merge of a landing is given nothing from trunk, and what its own revision has. -/
theorem Lands.merged_of_mem (h : Lands s w rev merges) (hsound : Sound s) (hm : m ∈ merges) :
    Merged s m := by
  have hvalue := h.merged
  rw [landMerges] at hvalue
  split at hvalue
  · cases hvalue
    cases hm
  · obtain ⟨base, _, hrest, _⟩ := bind_ok hvalue
    rw [readOnly_revisionLca, (bind_of_ok (hsound.trunk.renamesSince base 1001)).1] at hrest
    cases hrest
    cases List.mem_singleton.mp hm
    exact {
      opsA := rfl
      opsB := (recordedOn_of_get h.held).symm
      traced := hsound.traced h.mem h.unlanded }

theorem Stacked.traced (h : Stacked s w id x landed) (hsound : Sound s) :
    Traced s.store s.conflicts id := by
  have hrevision : w.revision = id := by rw [Workspace.revision, h.current, Option.getD_some]
  have hunlanded := h.unlanded
  rw [← hrevision] at hunlanded ⊢
  exact hsound.traced h.mem hunlanded

/-- The merge of a restack likewise. -/
theorem Stacked.merged (h : Stacked s w id x landed) (hsound : Sound s) :
    Merged s (restackMerge landed id x) := by
  obtain ⟨hget, hops, _⟩ := hsound.trunk
  rw [h.head] at hget
  cases hget
  exact {
    opsA := by simp [restackMerge, hops, recordedRenames]
    opsB := (recordedOn_of_get h.held).symm
    traced := h.traced hsound }

theorem Step.merged (h : Step s merges s') (hsound : Sound s) (hm : m ∈ merges) :
    Merged s m := by
  cases h with
  | edit => cases hm
  | snapshot => cases hm
  | land _ _ _ _ hlands => exact hlands.merged_of_mem hsound hm
  | conflict _ _ _ _ hlands => exact hlands.merged_of_mem hsound hm
  | refuse _ _ hlands => exact hlands.merged_of_mem hsound hm
  | restack _ _ _ _ _ _ hstacked =>
      cases List.mem_singleton.mp hm
      exact hstacked.merged hsound
  | leave _ _ _ _ hstacked =>
      cases List.mem_singleton.mp hm
      exact hstacked.merged hsound

section Kept

/-! What workspaces hold, over one step. -/

theorem Puts.stored {r : Revision} (h : Puts s s' r) :
    (get Revision (revisionId r)).value s'.store = .ok r :=
  value_get s'.free h.mem

theorem Puts.reaches_parent {r : Revision} (h : Puts s s' r) {p : ObjectId} {rest : List ObjectId}
    (hparents : r.parents = p :: rest) : Reaches s'.store (revisionId r) p := by
  refine .single ?_
  rw [revisionId, landedNext_of_mem s'.free h.mem, hparents]
  exact List.mem_cons_self

/-- A new revision that follows a traced one is traced. -/
theorem Traced.put {r : Revision} (htraced : Traced s.store s.conflicts id)
    (hputs : Puts s s' r) (hprev : r.prev = some id) (hconflicts : s.conflicts ⊆ s'.conflicts)
    (hget : (get Revision id).value s.store = .ok x)
    (hkept : revisionId r ∈ s'.conflicts ∨
      recordedRenames (x.ops.getD []) ⊆ recordedRenames (r.ops.getD [])) :
    Traced s'.store s'.conflicts (revisionId r) := by
  refine .next hputs.stored hprev (htraced.mono hputs.sub s'.free hconflicts)
    (hkept.imp_right fun hkept => ?_)
  rwa [recordedOn_of_get hputs.stored,
    recordedOn_of_get ((lasting_get Revision id).lasts hputs.sub s'.free hget)]

theorem Sound.after (h : Sound s) (hsub : s.store ⊆ s'.store)
    (hhead : Reaches s'.store s'.head s.head) (hconflicts : s.conflicts ⊆ s'.conflicts)
    (htrunk : Bare s'.store s'.head) {f : Workspace → Workspace}
    (hworkspaces : s'.workspaces = s.workspaces.map f)
    (hf : ∀ w, Holds s' (f w).revision ∨ (f w).revision = w.revision) : Sound s' := by
  refine ⟨htrunk, fun w' hw' => ?_⟩
  rw [hworkspaces] at hw'
  obtain ⟨w, hw, rfl⟩ := List.mem_map.mp hw'
  rcases hf w with hnew | hsame
  · exact hnew
  · rw [hsame]
    exact (h.held w hw).imp (fun hlanded => hhead.trans (hlanded.mono hsub s'.free))
      fun htraced => htraced.mono hsub s'.free hconflicts

/-- A step that leaves the head where it is. -/
theorem Sound.after_same (h : Sound s) (hsub : s.store ⊆ s'.store) (hhead : s'.head = s.head)
    (hconflicts : s.conflicts ⊆ s'.conflicts) {f : Workspace → Workspace}
    (hworkspaces : s'.workspaces = s.workspaces.map f)
    (hf : ∀ w, Holds s' (f w).revision ∨ (f w).revision = w.revision) : Sound s' :=
  h.after hsub (hhead ▸ .refl) hconflicts (hhead ▸ h.trunk.mono hsub s'.free) hworkspaces hf

theorem Sound.snapshot {landed : Bool} {found : Found} (h : Sound s) (hmem : w ∈ s.workspaces)
    (hcur : (get Revision w.revision).value s.store = .ok rev)
    (hlanded : landed = true ↔ Reaches s.store s.head w.revision)
    (hputs : Puts s s' (snapshotted landed w.revision rev w.pending found))
    (hconflicts : s'.conflicts = s.conflicts) :
    Traced s'.store s'.conflicts
      (revisionId (snapshotted landed w.revision rev w.pending found)) := by
  cases landed with
  | true => exact .first hputs.stored rfl
  | false =>
      have hunlanded : ¬ Reaches s.store s.head w.revision := by simpa using hlanded
      refine (h.traced hmem hunlanded).put hputs rfl (by rw [hconflicts]; exact List.Subset.refl _)
        hcur (.inr ?_)
      rw [show (snapshotted false w.revision rev w.pending found).ops =
        opsWith rev.ops w.pending from rfl, recordedRenames_opsWith]
      exact List.subset_append_left _ _

end Kept

theorem Step.sound (h : Step s merges s') (hsound : Sound s) : Sound s' := by
  cases h with
  | edit id rename =>
      exact hsound.after_same (List.Subset.refl _) rfl (List.Subset.refl _) rfl
        fun w => .inr (w.revision_push id _)
  | snapshot _ _ _ _ hmem hcur hlanded hputs hworkspaces hhead hconflicts =>
      refine hsound.after_same hputs.sub hhead (hconflicts ▸ List.Subset.refl _) hworkspaces
        fun w => (w.revision_take _ _).imp_left fun hnew => ?_
      rw [hnew]
      exact .inr (hsound.snapshot hmem hcur hlanded hputs hconflicts)
  | land _ _ _ _ hlands hputs hworkspaces hhead hconflicts =>
      have hsub : s.conflicts ⊆ s'.conflicts := hconflicts ▸ List.Subset.refl _
      refine hsound.after hputs.sub (hhead ▸ hputs.reaches_parent rfl) hsub ?_ hworkspaces
        fun w => (w.revision_settle _ _).imp_left fun hnew => ?_
      · rw [hhead]
        refine .mk hputs.stored rfl fun p hp => ?_
        cases hp
        exact hsound.trunk.mono hputs.sub s'.free
      · rw [hnew]
        exact .inl (hhead ▸ .refl)
  | conflict _ _ _ _ hlands hputs hworkspaces hhead hconflicts =>
      have hsub : s.conflicts ⊆ s'.conflicts := hconflicts ▸ List.subset_cons_self _ _
      refine hsound.after_same hputs.sub hhead hsub hworkspaces
        fun w => (w.revision_clash _ _).imp_left fun hnew => ?_
      rw [hnew]
      exact .inr ((hsound.traced hlands.mem hlands.unlanded).put hputs rfl hsub hlands.held
        (.inl (hconflicts ▸ List.mem_cons_self)))
  | refuse _ _ _ hsub hworkspaces hhead hconflicts =>
      exact hsound.after_same hsub hhead (hconflicts ▸ List.Subset.refl _)
        (hworkspaces.trans (List.map_id _).symm) fun _ => .inr rfl
  | restack _ _ _ _ _ _ hstacked hputs hworkspaces hhead hconflicts =>
      have hsub : s.conflicts ⊆ s'.conflicts := hconflicts ▸ List.Subset.refl _
      refine hsound.after_same hputs.sub hhead hsub hworkspaces
        fun w => (w.revision_restack _ _ _).imp_left fun hnew => ?_
      rw [hnew]
      exact .inr ((hstacked.traced hsound).put hputs rfl hsub hstacked.held
        (.inr (List.Subset.refl _)))
  | leave _ _ _ _ _ hsub hworkspaces hhead hconflicts =>
      exact hsound.after_same hsub hhead (hconflicts ▸ List.Subset.refl _)
        (hworkspaces.trans (List.map_id _).symm) fun _ => .inr rfl

theorem Start.sound (h : Start s) : Sound s :=
  ⟨h.trunk, fun w hw => .inr (h.conflicts ▸ h.held w hw)⟩

theorem Reached.step (h : Reached s) (hstep : Step s merges s') : Reached s' := by
  obtain ⟨start, hstart, hrun⟩ := h
  exact ⟨start, hstart, hrun.tail ⟨_, hstep⟩⟩

theorem Reached.sound (h : Reached s) : Sound s := by
  obtain ⟨start, hstart, hrun⟩ := h
  induction hrun with
  | refl => exact hstart.sound
  | tail _ hstep ih =>
      obtain ⟨_, hstep⟩ := hstep
      exact hstep.sound ih

section Drops

/-! Where a recorded rename got lost. -/

theorem Traced.dropped (h : Traced s.store s.conflicts id) (hrecorded : Recorded s.store id r)
    (hlacks : r ∉ recordedOn s.store id) : Dropped s id r := by
  induction h with
  | first hget hprev =>
      obtain ⟨z, hpath, hz⟩ := hrecorded
      rcases hpath.cases_head with rfl | ⟨y, ⟨rev, hrev, hy⟩, _⟩
      · exact absurd hz hlacks
      · rw [hget] at hrev
        cases hrev
        rw [hprev] at hy
        cases hy
  | @next id p rev hget hprev _ hkept ih =>
      have hstep : LacksTo s.store r id p := ⟨hlacks, rev, hget, hprev⟩
      by_cases hp : r ∈ recordedOn s.store p
      · have hconflict := hkept.resolve_right fun hsub => hlacks (hsub hp)
        exact ⟨id, hconflict, p, .refl, hstep, hp⟩
      · have hbefore : Recorded s.store p r := by
          obtain ⟨z, hpath, hz⟩ := hrecorded
          rcases hpath.cases_head with rfl | ⟨y, ⟨rev', hrev', hy⟩, hrest⟩
          · exact absurd hz hlacks
          · rw [hget] at hrev'
            cases hrev'
            rw [hprev] at hy
            cases hy
            exact ⟨z, hrest, hz⟩
        obtain ⟨c, hc, replaced, hpath, hreplaces⟩ := ih hbefore hp
        exact ⟨c, hc, replaced, .head hstep hpath, hreplaces⟩

theorem Dropped.recorded (h : Dropped s id r) :
    Recorded s.store id r ∧ r ∉ recordedOn s.store id := by
  obtain ⟨c, _, replaced, hpath, hstep, hreplaced⟩ := h
  refine ⟨⟨replaced, (hpath.tail hstep).lift (fun x => x) fun _ _ h => h.2, hreplaced⟩, ?_⟩
  rcases hpath.cases_head with rfl | ⟨y, hy, _⟩
  · exact hstep.1
  · exact hy.1

end Drops

/-- In every run, a merge is given the renames exactly if no change that recorded one has
landed meanwhile, and no conflict revision has dropped one of its own. -/
theorem given_iff (h : Reached s) (hstep : Step s merges s') (hm : m ∈ merges) :
    Given s m ↔ (∀ r, ¬ LandedSince s m.revision r) ∧ ∀ r, ¬ Dropped s m.revision r := by
  obtain ⟨hopsA, hopsB, htraced⟩ := hstep.merged h.sound hm
  constructor
  · intro hgiven
    constructor
    · intro r hlanded
      have hnone := hgiven.landed r hlanded
      rw [hopsA] at hnone
      cases hnone
    · intro r hdropped
      obtain ⟨hrecorded, hlacks⟩ := hdropped.recorded
      exact hlacks (hopsB ▸ hgiven.own r hrecorded)
  · rintro ⟨hlanded, hkept⟩
    constructor
    · intro r hr
      exact absurd hr (hlanded r)
    · intro r hr
      by_contra hlacks
      exact hkept r (htraced.dropped hr (hopsB ▸ hlacks))

end Runs

section Samples

/-! Two changes of the first revision, of which one records a rename. -/

def sampleRename : Rename := ⟨"parse", "read", none⟩

def firstRevision : Revision := sampleRevision (.splat 32) "first" (.splat 200) []

def foundAt (change : ℕ) : Found := ⟨.splat change, .splat 200, none, .splat 1, 0, none⟩

def renamer : Revision :=
  snapshotted true (.splat 0) firstRevision [renameOp sampleRename] (foundAt 33)

def other : Revision := snapshotted true (.splat 0) firstRevision [] (foundAt 34)

def renamerLanded : Revision := landing renamer (.splat 1) (.splat 0) (.splat 200) 0

def otherAfter : Revision := landing other (.splat 2) (.splat 3) (.splat 200) 0

def otherLanded : Revision := landing other (.splat 2) (.splat 0) (.splat 200) 0

def clashed : Revision := conflicted renamer (.splat 1) (.splat 5) (.splat 200) 0

def resolved : Revision := snapshotted false (.splat 6) clashed [] (foundAt 33)

def third : Revision := snapshotted true (.splat 5) otherLanded [] (foundAt 35)

def thirdLanded : Revision := landing third (.splat 8) (.splat 5) (.splat 200) 0

def resolvedLanded : Revision := landing resolved (.splat 7) (.splat 9) (.splat 200) 0

def renameTable : List Object :=
  [firstRevision, renamer, other, renamerLanded, otherAfter, otherLanded, clashed, resolved,
    third, thirdLanded, resolvedLanded].map .revision

local instance renameHash : Crypto := .ofTable renameTable

/-- A workspace of each change, in a repository of some of these revisions. -/
def renameRepo (ids : List ℕ) (head : ℕ) (a b : Workspace) (conflicts : List ℕ) : Repo where
  store := ids.filterMap fun n => renameTable[n]?
  free := collisionFree_ofTable (by decide) fun o ho => by
    obtain ⟨n, _, hn⟩ := List.mem_filterMap.mp ho
    exact List.mem_of_getElem? hn
  head := .splat head
  workspaces := [a, b]
  conflicts := conflicts.map .splat

def holding (id base : ℕ) (current : Option ℕ) (pending : List SemOp) : Workspace :=
  ⟨.splat id, .splat base, current.map .splat, pending⟩

theorem renameRepo_puts {ids ids' : List ℕ} {head head' : ℕ} {a b a' b' : Workspace}
    {conflicts conflicts' : List ℕ} {r : Revision} {n : ℕ} (hsub : ids ⊆ ids') (hn : n ∈ ids')
    (hr : renameTable[n]? = some (.revision r)) :
    Puts (renameRepo ids head a b conflicts) (renameRepo ids' head' a' b' conflicts') r where
  sub o ho := by
    obtain ⟨k, hk, ho⟩ := List.mem_filterMap.mp ho
    exact List.mem_filterMap.mpr ⟨k, hsub hk, ho⟩
  mem := List.mem_filterMap.mpr ⟨n, hn, hr⟩

def bothDrafts : Repo :=
  renameRepo [0, 1, 2] 0 (holding 1 0 (some 1) []) (holding 2 0 (some 2) []) []

theorem reached_bothDrafts : Reached bothDrafts := by
  let start := renameRepo [0] 0 (holding 1 0 none []) (holding 2 0 none []) []
  let edited :=
    renameRepo [0] 0 (holding 1 0 none [renameOp sampleRename]) (holding 2 0 none []) []
  let drafted := renameRepo [0, 1] 0 (holding 1 0 (some 1) []) (holding 2 0 none []) []
  have hfirst : (get Revision (.splat 0)).value start.store = .ok firstRevision := by
    decide +kernel
  have hstart : Start start := {
    trunk := .mk hfirst rfl fun p hp => by cases hp
    held := by
      intro w hw
      have hheld : w.revision = .splat 0 := by
        revert w
        decide +kernel
      exact hheld ▸ .first hfirst rfl
    conflicts := rfl }
  have hedit : Step start [] edited := .edit (.splat 1) sampleRename
  have hdraft : Step edited [] drafted :=
    .snapshot (holding 1 0 none [renameOp sampleRename]) firstRevision true (foundAt 33)
      List.mem_cons_self hfirst (by decide +kernel)
      (renameRepo_puts (n := 1) (by decide) (by decide) rfl) (by decide +kernel) rfl rfl
  have hboth : Step drafted [] bothDrafts :=
    .snapshot (holding 2 0 none []) firstRevision true (foundAt 34)
      (List.mem_cons_of_mem _ List.mem_cons_self) (by decide +kernel) (by decide +kernel)
      (renameRepo_puts (n := 2) (by decide) (by decide) rfl)
      (by decide +kernel) rfl rfl
  exact ⟨start, hstart, .tail (.tail (.single ⟨_, hedit⟩) ⟨_, hdraft⟩) ⟨_, hboth⟩⟩

def renamerLandedRepo : Repo :=
  renameRepo [0, 1, 2, 3] 3 (holding 1 3 (some 3) []) (holding 2 0 (some 2) []) []

def otherAfterRepo : Repo :=
  renameRepo [0, 1, 2, 3, 4] 4 (holding 1 3 (some 3) []) (holding 2 4 (some 4) []) []

/-- The change with the rename lands first, and the merge of the other is not given it. -/
theorem landed_rename_lost :
    Reached renamerLandedRepo ∧
    Step renamerLandedRepo [⟨.splat 2, [], []⟩] otherAfterRepo ∧
    LandedSince renamerLandedRepo (.splat 2) sampleRename ∧
    ¬ Given renamerLandedRepo ⟨.splat 2, [], []⟩ := by
  have hrenamer : Step bothDrafts [] renamerLandedRepo :=
    .land (holding 1 0 (some 1) []) renamer (.splat 200) 0
      ⟨List.mem_cons_self, by decide +kernel, by decide +kernel, by decide +kernel⟩
      (renameRepo_puts (n := 3) (by decide) (by decide) rfl) (by decide +kernel)
      (by decide +kernel) rfl
  have hother : Step renamerLandedRepo [⟨.splat 2, [], []⟩] otherAfterRepo :=
    .land (holding 2 0 (some 2) []) other (.splat 200) 0
      ⟨List.mem_cons_of_mem _ List.mem_cons_self, by decide +kernel, by decide +kernel,
        by decide +kernel⟩
      (renameRepo_puts (n := 4) (by decide) (by decide) rfl) (by decide +kernel)
      (by decide +kernel) rfl
  have hlanded : LandedSince renamerLandedRepo (.splat 2) sampleRename :=
    ⟨.splat 3, .splat 1, ⟨.refl, renamerLanded, by decide +kernel, rfl⟩, by decide +kernel,
      by decide +kernel, .splat 1, .refl, by decide +kernel⟩
  refine ⟨reached_bothDrafts.step hrenamer, hother, hlanded, fun hgiven => ?_⟩
  have hnone := hgiven.landed sampleRename hlanded
  cases hnone

def resolvedRepo : Repo :=
  renameRepo [0, 1, 2, 5, 6, 7] 5 (holding 1 0 (some 7) []) (holding 2 5 (some 5) []) [6]

/-- The other change lands first, and the change with the rename conflicts with it. -/
theorem reached_resolvedRepo : Reached resolvedRepo := by
  let landed := renameRepo [0, 1, 2, 5] 5 (holding 1 0 (some 1) []) (holding 2 5 (some 5) []) []
  let clash :=
    renameRepo [0, 1, 2, 5, 6] 5 (holding 1 0 (some 6) []) (holding 2 5 (some 5) []) [6]
  have hlanded : Step bothDrafts [] landed :=
    .land (holding 2 0 (some 2) []) other (.splat 200) 0
      ⟨List.mem_cons_of_mem _ List.mem_cons_self, by decide +kernel, by decide +kernel,
        by decide +kernel⟩
      (renameRepo_puts (n := 5) (by decide) (by decide) rfl) (by decide +kernel)
      (by decide +kernel) rfl
  have hclash : Step landed [⟨.splat 1, [], [sampleRename]⟩] clash :=
    .conflict (holding 1 0 (some 1) []) renamer (.splat 200) 0
      ⟨List.mem_cons_self, by decide +kernel, by decide +kernel, by decide +kernel⟩
      (renameRepo_puts (n := 6) (by decide) (by decide) rfl) (by decide +kernel) rfl
      (by decide +kernel)
  have hresolved : Step clash [] resolvedRepo :=
    .snapshot (holding 1 0 (some 6) []) clashed false (foundAt 33)
      List.mem_cons_self (by decide +kernel) (by decide +kernel)
      (renameRepo_puts (n := 7) (by decide) (by decide) rfl) (by decide +kernel) rfl rfl
  exact ((reached_bothDrafts.step hlanded).step hclash).step hresolved

def thirdLandedRepo : Repo :=
  renameRepo [0, 1, 2, 5, 6, 7, 8, 9] 9 (holding 1 0 (some 7) []) (holding 2 9 (some 9) []) [6]

def resolvedLandedRepo : Repo :=
  renameRepo [0, 1, 2, 5, 6, 7, 8, 9, 10] 10 (holding 1 10 (some 10) [])
    (holding 2 9 (some 9) []) [6]

/-- A third change lands before the resolved one, whose own merge is not given the rename. -/
theorem clashed_rename_lost :
    Reached thirdLandedRepo ∧
    Step thirdLandedRepo [⟨.splat 7, [], []⟩] resolvedLandedRepo ∧
    Dropped thirdLandedRepo (.splat 7) sampleRename ∧
    ¬ Given thirdLandedRepo ⟨.splat 7, [], []⟩ := by
  let drafted :=
    renameRepo [0, 1, 2, 5, 6, 7, 8] 5 (holding 1 0 (some 7) []) (holding 2 5 (some 8) []) [6]
  have hdrafted : Step resolvedRepo [] drafted :=
    .snapshot (holding 2 5 (some 5) []) otherLanded true (foundAt 35)
      (List.mem_cons_of_mem _ List.mem_cons_self) (by decide +kernel) (by decide +kernel)
      (renameRepo_puts (n := 8) (by decide) (by decide) rfl)
      (by decide +kernel) rfl rfl
  have hthird : Step drafted [] thirdLandedRepo :=
    .land (holding 2 5 (some 8) []) third (.splat 200) 0
      ⟨List.mem_cons_of_mem _ List.mem_cons_self, by decide +kernel, by decide +kernel,
        by decide +kernel⟩
      (renameRepo_puts (n := 9) (by decide) (by decide) rfl) (by decide +kernel)
      (by decide +kernel) rfl
  have hresolved : Step thirdLandedRepo [⟨.splat 7, [], []⟩] resolvedLandedRepo :=
    .land (holding 1 0 (some 7) []) resolved (.splat 200) 0
      ⟨List.mem_cons_self, by decide +kernel, by decide +kernel, by decide +kernel⟩
      (renameRepo_puts (n := 10) (by decide) (by decide) rfl) (by decide +kernel)
      (by decide +kernel) rfl
  have hreached := (reached_resolvedRepo.step hdrafted).step hthird
  have hdropped : Dropped thirdLandedRepo (.splat 7) sampleRename :=
    ⟨.splat 6, List.mem_cons_self, .splat 1,
      .single ⟨by decide +kernel, resolved, by decide +kernel, rfl⟩,
      ⟨by decide +kernel, clashed, by decide +kernel, rfl⟩, by decide +kernel⟩
  refine ⟨hreached, hresolved, hdropped, fun hgiven => ?_⟩
  exact ((given_iff hreached hresolved List.mem_cons_self).mp hgiven).2 sampleRename hdropped

end Samples

end Tessra.Daemon
