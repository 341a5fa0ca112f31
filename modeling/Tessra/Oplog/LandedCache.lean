import Tessra.Oplog.Landed

namespace Tessra.Oplog

open Tessra.Core Tessra.Data Verify

/-! The landed sets a process keeps: keyed by line heads alone, over whatever stores it opens,
while objects still arrive. -/

/-- The landed sets last computed, by the line heads they were computed from. -/
abbrev LandedEntry := List ObjectId × List ObjectId

def landedKept : ℕ := 16

/-- Keep one more entry, the oldest leaving first. -/
def keepEntry {α : Type*} (x : α) (kept : List α) : List α :=
  (if landedKept ≤ kept.length then kept.drop 1 else kept) ++ [x]

def landedKey (view : View) : List ObjectId := (headRevisions view).insertionSort (· ≤ ·)

section Process

variable [Crypto]

/-- The walk from the heads, in the store as it is. -/
def landedWalk (S : Store) (key : List ObjectId) : Except Error (List ObjectId) :=
  worklist (landedStep S) .outOfFuel (key.length + (S.map landedCount).sum) [] key

/-- A call that looked its heads up in vain: the lock is free while it walks. -/
def landedMissed (S : Store) (view : View) (cache : List LandedEntry) :
    Except Error (List ObjectId) × List LandedEntry :=
  match landedWalk S (landedKey view) with
  | .error e => (.error e, cache)
  | .ok seen => (.ok seen, keepEntry (landedKey view, seen) cache)

def landedCached (S : Store) (view : View) (cache : List LandedEntry) :
    Except Error (List ObjectId) × List LandedEntry :=
  match cache.find? fun e => e.1 = landedKey view with
  | some e => (.ok e.2, cache)
  | none => landedMissed S view cache

/-- What happens in a process: an object is put in a store, a view of a store is asked for its
landed revisions, or such a call walks on after its look-up found nothing. -/
inductive LandedEvent (ι : Type*)
  | put (store : ι) (o : Object)
  | call (store : ι) (view : View)
  | missed (store : ι) (view : View)

structure LandedProcess (ι : Type*) where
  stores : ι → Store
  cache : List LandedEntry

variable {ι : Type*} [DecidableEq ι]

def LandedProcess.step (p : LandedProcess ι) : LandedEvent ι → LandedProcess ι
  | .put i o => { p with stores := Function.update p.stores i (p.stores i ++ [o]) }
  | .call i view => { p with cache := (landedCached (p.stores i) view p.cache).2 }
  | .missed i view => { p with cache := (landedMissed (p.stores i) view p.cache).2 }

/-- A process that started with nothing kept, after some events. -/
def landedProcess (stores : ι → Store) (events : List (LandedEvent ι)) : LandedProcess ι :=
  events.foldl LandedProcess.step ⟨stores, []⟩

/-- The walks the cache holds, each with the store it went over as that was then. -/
abbrev Walks := List (List ObjectId × Store)

def Walks.last (walks : Walks) (view : View) : Option Store :=
  (walks.find? fun w => w.1 = landedKey view).map Prod.snd

/-- The stores and the walks kept, after one more event. -/
def walkStep : (ι → Store) × Walks → LandedEvent ι → (ι → Store) × Walks
  | (stores, walks), .put i o => (Function.update stores i (stores i ++ [o]), walks)
  | (stores, walks), .call i view =>
      match walks.last view with
      | some _ => (stores, walks)
      | none => (stores, keepEntry (landedKey view, stores i) walks)
  | (stores, walks), .missed i view => (stores, keepEntry (landedKey view, stores i) walks)

def walkRun (stores : ι → Store) (events : List (LandedEvent ι)) : (ι → Store) × Walks :=
  events.foldl walkStep (stores, [])

/-- The answer is every id reachable from the heads, and no other. -/
def ExactAnswer (S : Store) (view : View) (answer : Except Error (List ObjectId)) : Prop :=
  ∃ seen, answer = .ok seen ∧ ∀ rev, rev ∈ seen ↔ Landed S view rev

/-- Where a walk from the same heads is kept, the store it went over led from them to the same
revisions as this store does. -/
def WalkHolds (S : Store) (view : View) (walks : Walks) : Prop :=
  ∀ S', walks.last view = some S' → ∀ rev, Landed S' view rev ↔ Landed S view rev

end Process

section Cache

variable [Crypto] {ι : Type*} [DecidableEq ι] {S : Store} {view : View} {cache : List LandedEntry}
  {walks : Walks} {answer : Except Error (List ObjectId)}

omit [Crypto] in
theorem mem_landedKey {rev : ObjectId} : rev ∈ landedKey view ↔ rev ∈ headRevisions view :=
  List.mem_insertionSort _

theorem exact_landedWalk (S : Store) (view : View) :
    ExactAnswer S view (landedWalk S (landedKey view)) := by
  obtain ⟨seen, hseen⟩ := exists_walk S (landedKey view)
  refine ⟨seen, hseen, fun rev => ?_⟩
  have hpending : Pending (landedStep S) [] (landedKey view) := by
    intro y hy
    cases hy
  have hmem := mem_worklist hpending hseen rev
  simp only [List.not_mem_nil, false_or, reaches_iff, mem_landedKey] at hmem
  exact hmem

theorem ExactAnswer.iff {S' : Store} (h : ExactAnswer S' view answer) :
    ExactAnswer S view answer ↔ ∀ rev, Landed S' view rev ↔ Landed S view rev := by
  obtain ⟨seen, rfl, hseen⟩ := h
  constructor
  · rintro ⟨seen', heq, hseen'⟩ rev
    obtain rfl := Except.ok.inj heq
    rw [← hseen, hseen']
  · exact fun hsame => ⟨seen, rfl, fun rev => (hseen rev).trans (hsame rev)⟩

/-- The cache holds what the walks found. -/
def Cached (cache : List LandedEntry) (walks : Walks) : Prop :=
  List.Forall₂ (fun e w => e.1 = w.1 ∧ landedWalk w.2 w.1 = .ok e.2) cache walks

theorem Cached.keepEntry (h : Cached cache walks) {seen : List ObjectId}
    (hseen : landedWalk S (landedKey view) = .ok seen) :
    Cached (keepEntry (landedKey view, seen) cache) (keepEntry (landedKey view, S) walks) := by
  unfold Cached Oplog.keepEntry
  refine List.rel_append ?_ (List.Forall₂.cons ⟨rfl, hseen⟩ List.Forall₂.nil)
  rw [h.length_eq]
  split
  · exact List.forall₂_drop 1 h
  · exact h

theorem Cached.find? (h : Cached cache walks) (view : View) :
    (cache.find? (fun e => e.1 = landedKey view) = none ∧ walks.last view = none) ∨
      ∃ e S', cache.find? (fun e => e.1 = landedKey view) = some e ∧
        walks.last view = some S' ∧ landedWalk S' (landedKey view) = .ok e.2 := by
  induction h with
  | nil => exact Or.inl ⟨rfl, rfl⟩
  | @cons e w cache walks hew hrest ih =>
      by_cases hkey : w.1 = landedKey view
      · refine Or.inr ⟨e, w.2, ?_, ?_, ?_⟩
        · simp only [List.find?_cons, hew.1, hkey, decide_true]
        · simp only [Walks.last, List.find?_cons, hkey, decide_true, Option.map_some]
        · rw [← hkey]
          exact hew.2
      · simpa only [Walks.last, List.find?_cons, hew.1, hkey, decide_false] using ih

theorem Cached.missed (h : Cached cache walks) (S : Store) (view : View) :
    Cached (landedMissed S view cache).2 (Oplog.keepEntry (landedKey view, S) walks) := by
  obtain ⟨seen, hseen, -⟩ := exact_landedWalk S view
  rw [landedMissed, hseen]
  exact h.keepEntry hseen

theorem exact_landedMissed (S : Store) (view : View) (cache : List LandedEntry) :
    ExactAnswer S view (landedMissed S view cache).1 := by
  obtain ⟨seen, hseen, hexact⟩ := exact_landedWalk S view
  refine ⟨seen, ?_, hexact⟩
  rw [landedMissed, hseen]

/-- A call answers for the store that the kept walk went over. -/
theorem Cached.exact_iff (h : Cached cache walks) :
    ExactAnswer S view (landedCached S view cache).1 ↔ WalkHolds S view walks := by
  rcases h.find? view with ⟨hcache, hwalks⟩ | ⟨e, S', hcache, hwalks, hwalk⟩
  · rw [landedCached, hcache]
    refine iff_of_true (exact_landedMissed S view cache) fun S' hlast => ?_
    rw [hwalks] at hlast
    cases hlast
  · have hexact := exact_landedWalk S' view
    rw [hwalk] at hexact
    rw [landedCached, hcache]
    refine hexact.iff.trans ⟨fun hsame S'' hlast => ?_, fun hholds => hholds S' hwalks⟩
    obtain rfl := Option.some.inj (hwalks.symm.trans hlast)
    exact hsame

/-- The process and its walks agree. -/
structure LandedProcess.Follows (p : LandedProcess ι) (s : (ι → Store) × Walks) : Prop where
  stores : p.stores = s.1
  cached : Cached p.cache s.2

theorem LandedProcess.Follows.step {p : LandedProcess ι} {s : (ι → Store) × Walks}
    (h : p.Follows s) (e : LandedEvent ι) : (p.step e).Follows (walkStep s e) := by
  obtain ⟨stores, cache⟩ := p
  obtain ⟨stores', walks⟩ := s
  obtain ⟨rfl, hcached⟩ := h
  cases e with
  | put i o => exact ⟨rfl, hcached⟩
  | missed i view => exact ⟨rfl, hcached.missed (stores i) view⟩
  | call i view =>
      rcases hcached.find? view with ⟨hcache, hwalks⟩ | ⟨e, S', hcache, hwalks, -⟩
      · rw [walkStep, hwalks, LandedProcess.step, landedCached, hcache]
        exact ⟨rfl, hcached.missed (stores i) view⟩
      · rw [walkStep, hwalks, LandedProcess.step, landedCached, hcache]
        exact ⟨rfl, hcached⟩

theorem follows_run (stores : ι → Store) (events : List (LandedEvent ι)) :
    (landedProcess stores events).Follows (walkRun stores events) := by
  have hrun : ∀ (events : List (LandedEvent ι)) {p : LandedProcess ι} {s : (ι → Store) × Walks},
      p.Follows s → (events.foldl LandedProcess.step p).Follows (events.foldl walkStep s) := by
    intro events
    induction events with
    | nil => exact fun h => h
    | cons e events ih => exact fun h => ih (h.step e)
  exact hrun events ⟨rfl, List.Forall₂.nil⟩

end Cache

/-- The answer to a call, in the process as it is. -/
def LandedProcess.answer [Crypto] {ι : Type*} (p : LandedProcess ι) (i : ι) (view : View) :
    Except Error (List ObjectId) :=
  (landedCached (p.stores i) view p.cache).1

/-- The answer of a call that walks on after its look-up found nothing. -/
def LandedProcess.lateAnswer [Crypto] {ι : Type*} (p : LandedProcess ι) (i : ι) (view : View) :
    Except Error (List ObjectId) :=
  (landedMissed (p.stores i) view p.cache).1

/-- Whatever arrived and whatever was asked before, a call answers with the landed revisions of
its store exactly if the walk kept for its heads, where one is, went over a store that led to
them; a call that walks always does. -/
theorem landed_exact_iff [Crypto] {ι : Type*} [DecidableEq ι] (stores : ι → Store)
    (events : List (LandedEvent ι)) (i : ι) (view : View) :
    (ExactAnswer ((landedProcess stores events).stores i) view
        ((landedProcess stores events).answer i view) ↔
      WalkHolds ((landedProcess stores events).stores i) view (walkRun stores events).2) ∧
    ExactAnswer ((landedProcess stores events).stores i) view
      ((landedProcess stores events).lateAnswer i view) :=
  ⟨(follows_run stores events).cached.exact_iff, exact_landedMissed _ view _⟩

section Fetched

def fetchedChild : Revision := sampleRevision (.splat 64) "child" (.splat 9) [.splat 1]

def fetchedParent : Revision := sampleRevision (.splat 65) "parent" (.splat 9) [.splat 7]

local instance fetchedHash : Crypto := .ofTable [.revision fetchedChild, .revision fetchedParent]

def fetchedView : View := { landView with lines := landTrunk (.splat 0) 0 }

/-- The head's parent arrives after the first call. -/
def fetchedLate : List (LandedEvent Bool) :=
  [.put false (.revision fetchedChild), .call false fetchedView,
    .put false (.revision fetchedParent)]

theorem fetched_late_missed :
    ¬ ExactAnswer ((landedProcess (fun _ => []) fetchedLate).stores false) fetchedView
      ((landedProcess (fun _ => []) fetchedLate).answer false fetchedView) := by
  have hstore : (landedProcess (fun _ => []) fetchedLate).stores false =
      [.revision fetchedChild, .revision fetchedParent] := rfl
  have hanswer : (landedProcess (fun _ => []) fetchedLate).answer false fetchedView =
      .ok [.splat 1, .splat 0] := by
    decide +kernel
  rintro ⟨seen, hseen, hexact⟩
  rw [hanswer] at hseen
  obtain rfl := Except.ok.inj hseen
  have hparent : Reaches [.revision fetchedChild, .revision fetchedParent]
      (.splat 0) (.splat 1) := Relation.ReflTransGen.single (by decide +kernel)
  have hlanded : Landed [.revision fetchedChild, .revision fetchedParent] fetchedView
      (.splat 7) :=
    ⟨.splat 0, by decide +kernel, hparent.tail (by decide +kernel)⟩
  rw [hstore] at hexact
  exact absurd ((hexact _).mpr hlanded) (by decide +kernel)

end Fetched

end Tessra.Oplog
