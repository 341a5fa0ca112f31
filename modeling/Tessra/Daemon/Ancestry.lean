import Tessra.Data.Distance
import Tessra.Oplog.Landed

namespace Tessra.Daemon

open Tessra.Core Tessra.Data Tessra.Oplog Verify Relation

/-! The revision over which two others are merged. -/

section Bases

variable [Crypto]

/-- How far every ancestor of a revision is from it. -/
def depths (start : ObjectId) : StoreM (List (ObjectId × ℕ)) := fun S =>
  ⟨distances (landedNext S) .outOfFuel (1 + (S.map landedCount).sum) [] [(start, 0)], []⟩

omit [Crypto] in
def closer (best : Option (ℕ × ObjectId)) (found : ℕ × ObjectId) : Option (ℕ × ObjectId) :=
  match best with
  | none => some found
  | some b =>
      if found.1 < b.1 ∨ (found.1 = b.1 ∧ found.2 < b.2) then some found else some b

/-- Latest common ancestor of two revisions through `parents`, by minimal combined depth. -/
def revisionLca (a b : ObjectId) : StoreM (Option ObjectId) := do
  let da ← depths a
  let db ← depths b
  let scores := da.filterMap fun (id, x) => (db.lookup id).map fun y => (x + y, id)
  return (scores.foldl closer none).map Prod.snd

theorem readOnly_depths (start : ObjectId) : (depths start).ReadOnly := fun S =>
  List.append_nil S

theorem readOnly_revisionLca (a b : ObjectId) : (revisionLca a b).ReadOnly :=
  (readOnly_depths a).bind fun _ => (readOnly_depths b).bind fun _ => StoreM.readOnly_pure _

/-- A revision that both reach through parents, or are. -/
def Common (S : Store) (a b c : ObjectId) : Prop := Reaches S a c ∧ Reaches S b c

/-- The revision is a proper ancestor of another common ancestor. -/
def Superseded (S : Store) (a b c : ObjectId) : Prop :=
  ∃ n, Common S a b n ∧ n ≠ c ∧ Reaches S n c

/-- The search finds no base exactly if there is none, and else one that nothing common
comes after. -/
def FindsLatest (S : Store) (a b : ObjectId) : Prop :=
  ∃ found, (revisionLca a b).value S = .ok found ∧
    (found = none ↔ ∀ c, ¬ Common S a b c) ∧
    ∀ c, found = some c → Common S a b c ∧ ¬ Superseded S a b c

/-- How many steps both together are away from a common ancestor. -/
def Score (S : Store) (a b c : ObjectId) (n : ℕ) : Prop :=
  ∃ x y, Shortest (landedNext S) a x c ∧ Shortest (landedNext S) b y c ∧ n = x + y

/-- One common ancestor is nearer than another, or as near and of a smaller id. -/
def Nearer (S : Store) (a b m c : ObjectId) : Prop :=
  ∃ k n, Score S a b m k ∧ Score S a b c n ∧ (k < n ∨ (k = n ∧ m < c))

/-- Whatever is superseded, another common ancestor is nearer. -/
def LatestNearest (S : Store) (a b : ObjectId) : Prop :=
  ∀ c, Common S a b c → Superseded S a b c → ∃ m, Common S a b m ∧ Nearer S a b m c

section Closest

/-! The smallest of some scores. -/

omit [Crypto]

/-- The found revision is before the best one. -/
def Before (found best : ℕ × ObjectId) : Prop :=
  found.1 < best.1 ∨ (found.1 = best.1 ∧ found.2 < best.2)

theorem Before.trans {e f g : ℕ × ObjectId} (h : Before e f) (h' : Before f g) : Before e g := by
  rcases h with h | ⟨h₁, h₂⟩
  · rcases h' with h' | ⟨h₁', _⟩
    · exact .inl (h.trans h')
    · exact .inl (h₁' ▸ h)
  · rcases h' with h' | ⟨h₁', h₂'⟩
    · exact .inl (h₁ ▸ h')
    · exact .inr ⟨h₁.trans h₁', h₂.trans h₂'⟩

theorem Before.asymm {e f : ℕ × ObjectId} (h : Before e f) : ¬ Before f e := by
  rintro (h' | ⟨h₁', h₂'⟩) <;> rcases h with h | ⟨h₁, h₂⟩
  · omega
  · omega
  · omega
  · exact lt_asymm h₂ h₂'

variable {scores : List (ℕ × ObjectId)} {best : ℕ × ObjectId}

theorem closest_concat (scores : List (ℕ × ObjectId)) (found : ℕ × ObjectId) :
    (scores ++ [found]).foldl closer none = closer (scores.foldl closer none) found := by
  rw [List.foldl_append]
  rfl

theorem closer_cases (b found : ℕ × ObjectId) :
    (closer (some b) found = some found ∧ Before found b) ∨
      (closer (some b) found = some b ∧ ¬ Before found b) := by
  by_cases h : Before found b
  · exact .inl ⟨if_pos h, h⟩
  · exact .inr ⟨if_neg h, h⟩

theorem closest_eq_none : scores.foldl closer none = none ↔ scores = [] := by
  induction scores using List.reverseRecOn with
  | nil => simp
  | append_singleton scores found _ =>
      rw [closest_concat]
      refine iff_of_false (fun h => ?_) (by simp)
      cases hbest : scores.foldl closer none with
      | none =>
          rw [hbest] at h
          cases h
      | some b =>
          rw [hbest] at h
          rcases closer_cases b found with ⟨heq, _⟩ | ⟨heq, _⟩ <;> rw [heq] at h <;> cases h

theorem closest_least (h : scores.foldl closer none = some best) :
    best ∈ scores ∧ ∀ e ∈ scores, ¬ Before e best := by
  induction scores using List.reverseRecOn generalizing best with
  | nil => cases h
  | append_singleton scores found ih =>
      rw [closest_concat] at h
      have hirrefl : ¬ Before found found := fun hself => hself.asymm hself
      cases hbest : scores.foldl closer none with
      | none =>
          rw [hbest] at h
          cases h
          rw [closest_eq_none.mp hbest]
          simpa using hirrefl
      | some b =>
          obtain ⟨hb, hleast⟩ := ih hbest
          rw [hbest] at h
          rcases closer_cases b found with ⟨heq, hbefore⟩ | ⟨heq, hbefore⟩
          · rw [heq] at h
            cases h
            refine ⟨by simp, fun e he => ?_⟩
            rcases List.mem_append.mp he with he | he
            · exact fun hless => hleast e he (hless.trans hbefore)
            · rwa [List.mem_singleton.mp he]
          · rw [heq] at h
            cases h
            refine ⟨List.mem_append_left _ hb, fun e he => ?_⟩
            rcases List.mem_append.mp he with he | he
            · exact hleast e he
            · rwa [List.mem_singleton.mp he]

end Closest

section Search

variable {S : Store} {a b c start : ObjectId}

/-- The depths of a revision are the shortest distances to its ancestors. -/
theorem value_depths (S : Store) (start : ObjectId) :
    ∃ d, (depths start).value S = .ok d ∧ (d.map Prod.fst).Nodup ∧
      ∀ x n, (x, n) ∈ d ↔ Shortest (landedNext S) start n x := by
  obtain ⟨walked, hwalked⟩ := exists_walk S [start]
  obtain ⟨d, hd⟩ : ∃ d, distances (landedNext S) Error.outOfFuel
      (1 + (S.map landedCount).sum) [] [(start, 0)] = .ok d :=
    distances_ok (by simp) hwalked
  have hsearch := search_distances (search_start (landedNext S) start) hd
  exact ⟨d, hd, hsearch.nodup, fun x n => hsearch.mem_iff⟩

theorem reaches_iff_shortest : Reaches S a c ↔ ∃ n, Shortest (landedNext S) a n c := by
  constructor
  · exact exists_shortest
  · rintro ⟨n, hshortest⟩
    exact exists_path_iff.mp ⟨n, hshortest.path⟩

/-- The ancestors that the depths of a revision are of, and the revision itself. -/
def ancestors (S : Store) (start : ObjectId) : List ObjectId :=
  match (depths start).value S with
  | .ok d => d.map Prod.fst
  | .error _ => []

theorem reaches_iff_mem : Reaches S start c ↔ c ∈ ancestors S start := by
  obtain ⟨d, hd, _, hmem⟩ := value_depths S start
  simp [reaches_iff_shortest, ancestors, hd, hmem]

instance : Decidable (Reaches S start c) := decidable_of_iff' _ reaches_iff_mem

theorem common_iff_score : Common S a b c ↔ ∃ n, Score S a b c n := by
  rw [Common, reaches_iff_shortest, reaches_iff_shortest]
  constructor
  · rintro ⟨⟨x, hx⟩, y, hy⟩
    exact ⟨x + y, x, y, hx, hy, rfl⟩
  · rintro ⟨_, x, y, hx, hy, _⟩
    exact ⟨⟨x, hx⟩, y, hy⟩

theorem Score.unique {m n : ℕ} (h : Score S a b c m) (h' : Score S a b c n) : m = n := by
  obtain ⟨x, y, hx, hy, rfl⟩ := h
  obtain ⟨x', y', hx', hy', rfl⟩ := h'
  rw [hx.unique hx', hy.unique hy']

omit [Crypto] in
theorem lookup_eq_some_iff_mem {d : List (ObjectId × ℕ)} (hnodup : (d.map Prod.fst).Nodup)
    {x : ObjectId} {n : ℕ} : d.lookup x = some n ↔ (x, n) ∈ d := by
  induction d with
  | nil => simp
  | cons e d ih =>
      obtain ⟨y, k⟩ := e
      rw [List.map_cons, List.nodup_cons] at hnodup
      rw [List.lookup_cons, List.mem_cons, Prod.mk.injEq]
      by_cases hxy : x = y
      · subst hxy
        have hnew : (x, n) ∉ d := fun hmem => hnodup.1 (List.mem_map.mpr ⟨_, hmem, rfl⟩)
        simp [hnew, eq_comm]
      · have hbeq : (x == y) = false := by simpa using hxy
        simp [hxy, hbeq, ih hnodup.2]

/-- The search returns the nearest of the common ancestors. -/
theorem value_revisionLca (S : Store) (a b : ObjectId) :
    ∃ found, (revisionLca a b).value S = .ok found ∧
      (found = none ↔ ∀ c, ¬ Common S a b c) ∧
      ∀ c, found = some c → Common S a b c ∧ ∀ m, ¬ Nearer S a b m c := by
  obtain ⟨da, hda, _, hmemA⟩ := value_depths S a
  obtain ⟨db, hdb, hnodupB, hmemB⟩ := value_depths S b
  let scores := da.filterMap fun (id, x) => (db.lookup id).map fun y => (x + y, id)
  have hvalue : (revisionLca a b).value S =
      .ok ((scores.foldl closer none).map Prod.snd) := by
    rw [revisionLca, (StoreM.bind_of_ok hda).1, readOnly_depths, (StoreM.bind_of_ok hdb).1]
    rfl
  have hscores : ∀ n c, (n, c) ∈ scores ↔ Score S a b c n := by
    intro n c
    simp only [scores, List.mem_filterMap, Option.map_eq_some_iff, lookup_eq_some_iff_mem hnodupB,
      Prod.exists, Prod.mk.injEq, hmemA, hmemB, Score]
    constructor
    · rintro ⟨_, x, hx, y, hy, rfl, rfl⟩
      exact ⟨x, y, hx, hy, rfl⟩
    · rintro ⟨x, y, hx, hy, rfl⟩
      exact ⟨c, x, hx, y, hy, rfl, rfl⟩
  refine ⟨_, hvalue, ?_, fun c hc => ?_⟩
  · rw [Option.map_eq_none_iff, closest_eq_none, List.eq_nil_iff_forall_not_mem]
    simp only [common_iff_score, ← hscores, Prod.forall, not_exists]
    exact forall_comm
  · obtain ⟨⟨n, c⟩, hbest, rfl⟩ := Option.map_eq_some_iff.mp hc
    obtain ⟨hmem, hleast⟩ := closest_least hbest
    refine ⟨common_iff_score.mpr ⟨n, (hscores n c).mp hmem⟩, ?_⟩
    rintro m ⟨k, n', hk, hn', hless⟩
    rw [hn'.unique ((hscores n c).mp hmem)] at hless
    exact hleast _ ((hscores k m).mpr hk) hless

/-- The base that the search finds is never superseded, exactly if another common
ancestor is nearer than each that is. -/
theorem findsLatest_iff (S : Store) (a b : ObjectId) :
    FindsLatest S a b ↔ LatestNearest S a b := by
  obtain ⟨found, hvalue, hnone, hnearest⟩ := value_revisionLca S a b
  constructor
  · rintro ⟨found', hvalue', _, hlatest⟩ c hc hsuperseded
    rw [hvalue] at hvalue'
    cases hvalue'
    cases hfound : found with
    | none => exact absurd hc (hnone.mp hfound c)
    | some m =>
        obtain ⟨hm, hleast⟩ := hnearest m hfound
        have hne : m ≠ c := by
          rintro rfl
          exact (hlatest m hfound).2 hsuperseded
        obtain ⟨k, hk⟩ := common_iff_score.mp hm
        obtain ⟨n, hn⟩ := common_iff_score.mp hc
        refine ⟨m, hm, k, n, hk, hn, ?_⟩
        by_contra hfar
        rw [not_or, not_and, not_lt, not_lt] at hfar
        refine hleast c ⟨n, k, hn, hk, hfar.1.lt_or_eq.imp id fun heq => ⟨heq, ?_⟩⟩
        exact (hfar.2 heq.symm).lt_of_ne hne.symm
  · intro h
    refine ⟨found, hvalue, hnone, fun c hfound => ?_⟩
    obtain ⟨hc, hleast⟩ := hnearest c hfound
    refine ⟨hc, fun hsuperseded => ?_⟩
    obtain ⟨m, _, hnearer⟩ := h c hc hsuperseded
    exact hleast m hnearer

end Search

end Bases

section Samples

/-! A change that forked early and lands late. -/

def ancestryRevision (n : ℕ) (parents : List ℕ) : Revision :=
  sampleRevision (.splat n) "draft" (.splat 255) (parents.map ObjectId.splat)

/-- Four landings on the first revision; then a change of the first revision lands, while
another waits that was made on the first landing. -/
def ancestry : List (ℕ × List ℕ) :=
  [(0, []), (1, [0]), (2, [1]), (3, [2]), (4, [3]), (5, [0]), (6, [4, 5]), (7, [1])]

def ancestryTable : List Object := ancestry.map fun e => .revision (ancestryRevision e.1 e.2)

local instance ancestryHash : Crypto := .ofTable ancestryTable

theorem ancestry_acyclic (x : ObjectId) :
    ¬ TransGen (fun x y => y ∈ landedNext ancestryTable x) x x := by
  have hlower : ∀ o ∈ ancestryTable, ∀ y ∈ landedNext ancestryTable (Crypto.objectId o),
      y < Crypto.objectId o := by decide +kernel
  have hdown : ∀ x y, TransGen (fun x y => y ∈ landedNext ancestryTable x) x y → y < x := by
    intro x y h
    induction h with
    | single hstep =>
        obtain ⟨r, hr, rfl, _⟩ := landedNext_ok hstep
        exact hlower _ hr _ hstep
    | tail _ hstep ih =>
        obtain ⟨r, hr, rfl, _⟩ := landedNext_ok hstep
        exact (hlower _ hr _ hstep).trans ih
  exact fun h => lt_irrefl x (hdown x x h)

/-- The base is the first revision, although both sides contain the first landing. -/
theorem old_base :
    (∀ x, ¬ TransGen (fun x y => y ∈ landedNext ancestryTable x) x x) ∧
    (revisionLca (.splat 6) (.splat 7)).value ancestryTable = .ok (some (.splat 0)) ∧
    ¬ FindsLatest ancestryTable (.splat 6) (.splat 7) := by
  have hvalue : (revisionLca (.splat 6) (.splat 7)).value ancestryTable =
      .ok (some (.splat 0)) := by decide +kernel
  refine ⟨ancestry_acyclic, hvalue, ?_⟩
  rintro ⟨found, hfound, _, hlatest⟩
  rw [hvalue] at hfound
  cases hfound
  have hcommon : Common ancestryTable (.splat 6) (.splat 7) (.splat 1) :=
    ⟨by decide +kernel, by decide +kernel⟩
  exact (hlatest (.splat 0) rfl).2 ⟨.splat 1, hcommon, by decide, by decide +kernel⟩

end Samples

end Tessra.Daemon
