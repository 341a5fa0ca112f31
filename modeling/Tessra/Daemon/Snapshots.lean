import Tessra.Oplog.Clauses
import Tessra.Oplog.Glob

namespace Tessra.Daemon

open Tessra.Core Tessra.Data Tessra.Oplog

/-! Snapshots of a workspace, and the flags that they leave on its change.  The
model keeps the flat map of a tree for the tree. -/

/-- An entry keyed by its root-relative path. -/
structure Leaf where
  kind : EntryKind
  mode : Option Byte
  ref : Option ObjectId
  terms : Option (List ConflictTerm)
deriving DecidableEq

def Leaf.file (id : ObjectId) (executable : Bool) : Leaf :=
  ⟨.file, some (if executable then 1 else 0), some id, none⟩

abbrev Flat := OrdMap String Leaf

/-- What the walk over a directory found, where the scanner hits the patterns of
`scan` in what an entry holds. -/
structure Walk (scan : Leaf → List String) where
  flat : Flat
  secrets : List SecretMatch
  collisions : List (List String)
  unportableNames : List String
  mem_secrets : ∀ s, s ∈ secrets ↔ ∃ leaf, flat.get? s.path = some leaf ∧ s.pattern ∈ scan leaf

/-- A path that a write scope does not cover. -/
def Outside (scope : Option (List String)) (path : String) : Prop :=
  ∃ patterns, scope = some patterns ∧ Glob.anyMatch patterns path = false

/-- The paths outside the scope that the tree changed against `base`. -/
def outOfScope (patterns : List String) (flat base : Flat) : List String :=
  ((flat.keys.filter fun p => base.get? p ≠ flat.get? p && !Glob.anyMatch patterns p) ++
    base.keys.filter fun p => p ∉ flat.keys && !Glob.anyMatch patterns p).insertionSort (· ≤ ·)

/-- A list, unless it is empty. -/
def nonempty {α : Type} (l : List α) : Option (List α) := if l.isEmpty then none else some l

section Snapshot

variable {scan : Leaf → List String}

def snapshotDir (walk : Walk scan) (scope : Option (List String)) (base : Flat) : Flags where
  outOfScope := scope.bind fun patterns => nonempty (outOfScope patterns walk.flat base)
  secrets := nonempty walk.secrets
  caseCollisions := nonempty walk.collisions
  unportableNames := nonempty walk.unportableNames
  generatedDrift := none

/-- Keep only the secret matches on files the tree changed against `base`. -/
def scopeSecretsToChanges (flags : Flags) (flat base : Flat) : Flags :=
  let secrets := flags.secrets.bind fun secrets =>
    nonempty (secrets.filter fun s => base.get? s.path ≠ flat.get? s.path)
  { flags with secrets }

def Flags.isEmpty (flags : Flags) : Bool :=
  flags.outOfScope.isNone && flags.secrets.isNone && flags.caseCollisions.isNone &&
    flags.unportableNames.isNone && flags.generatedDrift.isNone

/-- A revision, as far as a snapshot reads it. -/
structure Flagged where
  tree : Flat
  flags : Option Flags
deriving DecidableEq

/-- A workspace since it forked: the revision that it forked from, and the current
revision of the change, once a snapshot has begun one. -/
structure Checkout where
  base : Flagged
  change : Option Flagged
deriving DecidableEq

/-- The current revision. -/
def Checkout.current (c : Checkout) : Flagged := c.change.getD c.base

/-- The flags of a snapshot: out of scope is what changed since the current
revision, and secrets are those of files that changed since the base. -/
def flagsOf (scope : Option (List String)) (c : Checkout) (walk : Walk scan) : Option Flags :=
  let flags := scopeSecretsToChanges (snapshotDir walk scope c.current.tree) walk.flat c.base.tree
  if Flags.isEmpty flags then none else some flags

def snapshot (scope : Option (List String)) (c : Checkout) (walk : Walk scan) : Checkout :=
  let flags := flagsOf scope c walk
  if walk.flat = c.current.tree ∧ flags = c.current.flags then c
  else { c with change := some ⟨walk.flat, flags⟩ }

/-- The workspace after some snapshots. -/
def snapshots (scope : Option (List String)) (base : Flagged) (walks : List (Walk scan)) :
    Checkout :=
  walks.foldl (snapshot scope) ⟨base, none⟩

end Snapshot

def Flagged.outOfScope (r : Flagged) : List String := (r.flags.bind Flags.outOfScope).getD []

def Flagged.secrets (r : Flagged) : List SecretMatch := (r.flags.bind Flags.secrets).getD []

/-- The flags of the change are those of the whole change: all paths outside the
scope that differ from the base, and all the scanner's hits on files that do. -/
structure Whole (scan : Leaf → List String) (scope : Option (List String)) (base : Flagged)
    (r : Flagged) : Prop where
  outOfScope : ∀ p, p ∈ r.outOfScope ↔
    base.tree.get? p ≠ r.tree.get? p ∧ Outside scope p
  secrets : ∀ s, s ∈ r.secrets ↔ base.tree.get? s.path ≠ r.tree.get? s.path ∧
    ∃ leaf, r.tree.get? s.path = some leaf ∧ s.pattern ∈ scan leaf

/-- The walk found every path outside the scope that the change had changed before
to be changed again, and not back. -/
def Renewed {scan : Leaf → List String} (scope : Option (List String)) (c : Checkout)
    (walk : Walk scan) : Prop :=
  ∀ p, Outside scope p → c.current.tree.get? p ≠ c.base.tree.get? p →
    walk.flat.get? p ≠ c.current.tree.get? p ∧ walk.flat.get? p ≠ c.base.tree.get? p

section Flags

variable {scan : Leaf → List String} {scope : Option (List String)} {base : Flagged}
  {c : Checkout} {walk : Walk scan} {walks : List (Walk scan)}

theorem mem_nonempty {α : Type} {l : List α} {x : α} : x ∈ (nonempty l).getD [] ↔ x ∈ l := by
  unfold nonempty
  cases l <;> simp

theorem mem_outOfScope {patterns : List String} {flat base : Flat} {p : String} :
    p ∈ outOfScope patterns flat base ↔
      base.get? p ≠ flat.get? p ∧ Glob.anyMatch patterns p = false := by
  simp only [outOfScope, List.mem_insertionSort, List.mem_append, List.mem_filter, Bool.and_eq_true,
    decide_eq_true_eq, Bool.not_eq_true', OrdMap.mem_keys]
  constructor
  · intro h
    rcases h with ⟨_, hne, hout⟩ | ⟨⟨leaf, hleaf⟩, hnone, hout⟩
    · exact ⟨hne, hout⟩
    · refine ⟨fun hsame => hnone ⟨leaf, ?_⟩, hout⟩
      rw [← hsame, hleaf]
  · intro h
    obtain ⟨hne, hout⟩ := h
    cases hflat : flat.get? p with
    | some leaf => exact .inl ⟨⟨leaf, rfl⟩, hflat ▸ hne, hout⟩
    | none =>
        rw [hflat] at hne
        exact .inr ⟨Option.ne_none_iff_exists'.mp hne, by simp, hout⟩

/-- A part of the flags of a snapshot is that of the flags before they are dropped
for being empty. -/
theorem part_flagsOf {α : Type} {part : Flags → Option (List α)}
    (hpart : ∀ flags, Flags.isEmpty flags = true → part flags = none) :
    (flagsOf scope c walk).bind part =
      part (scopeSecretsToChanges (snapshotDir walk scope c.current.tree) walk.flat
        c.base.tree) := by
  simp only [flagsOf]
  split_ifs with hempty
  · exact (hpart _ hempty).symm
  · rfl

theorem outOfScope_flagsOf (p : String) :
    p ∈ ((flagsOf scope c walk).bind Flags.outOfScope).getD [] ↔
      c.current.tree.get? p ≠ walk.flat.get? p ∧ Outside scope p := by
  rw [part_flagsOf fun flags hempty => by
    simp only [Flags.isEmpty, Bool.and_eq_true, Option.isNone_iff_eq_none] at hempty
    exact hempty.1.1.1.1]
  cases scope with
  | none => simp [scopeSecretsToChanges, snapshotDir, Outside]
  | some patterns =>
      simp [scopeSecretsToChanges, snapshotDir, Outside, mem_nonempty, mem_outOfScope]

theorem secrets_flagsOf (s : SecretMatch) :
    s ∈ ((flagsOf scope c walk).bind Flags.secrets).getD [] ↔
      c.base.tree.get? s.path ≠ walk.flat.get? s.path ∧
        ∃ leaf, walk.flat.get? s.path = some leaf ∧ s.pattern ∈ scan leaf := by
  have hscoped : ((nonempty walk.secrets).bind fun secrets => nonempty (secrets.filter fun s =>
      c.base.tree.get? s.path ≠ walk.flat.get? s.path)) = nonempty (walk.secrets.filter fun s =>
        c.base.tree.get? s.path ≠ walk.flat.get? s.path) := by
    cases walk.secrets <;> rfl
  rw [part_flagsOf fun flags hempty => by
    simp only [Flags.isEmpty, Bool.and_eq_true, Option.isNone_iff_eq_none] at hempty
    exact hempty.1.1.1.2]
  simp only [scopeSecretsToChanges, snapshotDir, hscoped, mem_nonempty, List.mem_filter,
    walk.mem_secrets, decide_eq_true_eq]
  exact and_comm

/-- After a snapshot the current revision has the tree and the flags that the
snapshot found, whether or not it made a revision. -/
theorem current_snapshot : (snapshot scope c walk).current =
    ⟨walk.flat, flagsOf scope c walk⟩ := by
  simp only [snapshot]
  split_ifs with hsame
  · rw [hsame.1, hsame.2]
  · rfl

theorem base_snapshot : (snapshot scope c walk).base = c.base := by
  simp only [snapshot]
  split_ifs <;> rfl

/-- After a snapshot the flags are those of the whole change exactly if the walk
renewed what the change had changed outside the scope. -/
theorem whole_snapshot_iff :
    Whole scan scope c.base (snapshot scope c walk).current ↔ Renewed scope c walk := by
  rw [current_snapshot]
  constructor
  · intro h p hout hchanged
    have hflag := h.outOfScope p
    simp only [Flagged.outOfScope, outOfScope_flagsOf, and_congr_left_iff] at hflag
    have hsame := hflag hout
    constructor
    · intro heq
      have hback : c.base.tree.get? p = walk.flat.get? p := by
        by_contra hne
        exact hsame.mpr hne heq.symm
      exact hchanged (heq.symm.trans hback.symm)
    · intro heq
      have hkept : c.current.tree.get? p = walk.flat.get? p := by
        by_contra hne
        exact hsame.mp hne heq.symm
      exact hchanged (hkept.trans heq)
  · intro h
    refine ⟨fun p => ?_, secrets_flagsOf⟩
    simp only [Flagged.outOfScope, outOfScope_flagsOf, and_congr_left_iff]
    intro hout
    by_cases hchanged : c.current.tree.get? p = c.base.tree.get? p
    · rw [hchanged]
    · obtain ⟨hcurrent, hbase⟩ := h p hout hchanged
      exact iff_of_true hcurrent.symm hbase.symm

/-- Once a change has begun, its flags are those of the whole change. -/
def Checkout.Exact (scan : Leaf → List String) (scope : Option (List String)) (c : Checkout) :
    Prop :=
  ∀ r, c.change = some r → Whole scan scope c.base r

theorem exact_snapshot_iff :
    (snapshot scope c walk).Exact scan scope ↔ Renewed scope c walk := by
  cases hchange : (snapshot scope c walk).change with
  | none =>
      have hnone : c.change = none := by
        simp only [snapshot] at hchange
        split_ifs at hchange
        exact hchange
      refine iff_of_true (fun r hr => ?_) fun p _ hchanged => ?_
      · rw [hchange] at hr
        cases hr
      · rw [Checkout.current, hnone] at hchanged
        exact absurd rfl hchanged
  | some r =>
      have hcurrent : (snapshot scope c walk).current = r := by rw [Checkout.current, hchange]; rfl
      have hbase : (snapshot scope c walk).base = c.base := base_snapshot
      rw [← whole_snapshot_iff, hcurrent, ← hbase]
      constructor
      · intro h
        exact h r hchange
      · intro h r' hr'
        rw [hchange] at hr'
        cases hr'
        exact h

theorem snapshots_concat (earlier : List (Walk scan)) :
    snapshots scope base (earlier ++ [walk]) = snapshot scope (snapshots scope base earlier) walk := by
  rw [snapshots, List.foldl_append]
  rfl

/-- In every sequence of snapshots since the fork, the flags are those of the whole
change after each of them, exactly if each renews what the change had changed
outside the scope before it. -/
theorem flags_whole_iff (scope : Option (List String)) (base : Flagged)
    (walks : List (Walk scan)) :
    (∀ earlier later, walks = earlier ++ later →
        (snapshots scope base earlier).Exact scan scope) ↔
      ∀ earlier walk later, walks = earlier ++ walk :: later →
        Renewed scope (snapshots scope base earlier) walk := by
  constructor
  · intro h earlier walk later hsplit
    rw [← exact_snapshot_iff, ← snapshots_concat]
    exact h _ later (by rw [hsplit, List.append_cons])
  · intro h earlier later hsplit
    rcases List.eq_nil_or_concat earlier with rfl | ⟨first, walk, rfl⟩
    · intro r hr
      cases hr
    · rw [List.concat_eq_append] at hsplit ⊢
      rw [snapshots_concat, exact_snapshot_iff]
      refine h first walk later ?_
      rw [hsplit, List.append_assoc]
      rfl

end Flags

section Samples

/-! A file outside the write scope that two snapshots see. -/

def noSecrets (_ : Leaf) : List String := []

def docsOnly : Option (List String) := some ["docs/**"]

/-- A walk over a directory with one file. -/
def walkOf (flat : Flat) : Walk noSecrets where
  flat := flat
  secrets := []
  collisions := []
  unportableNames := []
  mem_secrets := by simp [noSecrets]

def forked : Flagged := ⟨∅, none⟩

def strayed : Walk noSecrets := walkOf ((∅ : Flat).insert "src/main.rs" (.file (.splat 1) false))

/-- The first snapshot flags the file, the second clears the flag and leaves the
file; a promotion then meets no flags. -/
theorem flag_cleared :
    (snapshots docsOnly forked [strayed]).current.flags =
      some ⟨some ["src/main.rs"], none, none, none, none⟩ ∧
    (snapshots docsOnly forked [strayed, strayed]).current = ⟨strayed.flat, none⟩ ∧
    ¬ (snapshots docsOnly forked [strayed, strayed]).Exact noSecrets docsOnly := by
  have htwice : (snapshots docsOnly forked [strayed, strayed]).change =
      some ⟨strayed.flat, none⟩ := by decide +kernel
  refine ⟨by decide +kernel, by rw [Checkout.current, htwice]; rfl, fun h => ?_⟩
  have hlisted : ("src/main.rs" : String) ∈ (Flagged.mk strayed.flat none).outOfScope :=
    ((h _ htwice).outOfScope _).mpr ⟨by decide +kernel, _, rfl, by decide +kernel⟩
  cases hlisted

end Samples

end Tessra.Daemon
