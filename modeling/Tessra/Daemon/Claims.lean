import Tessra.Daemon.Memories
import Tessra.Oplog.Glob

namespace Tessra.Daemon.Claims

open Tessra.Core Tessra.Data Tessra.Oplog Memories

/-! Claims on paths, and what whoever claims some is told of those that others hold. -/

section Model

/-- The claims of the current view. -/
abbrev Book := OrdMap EntityId Claim

def claimPaths (c : Claim) : List String := c.targets.filterMap fun t => t.ref.asText

def hits (p q : String) : Bool :=
  Glob.contained p q || Glob.contained q p || Glob.«matches» q p || Glob.«matches» p q

structure Overlap where
  principal : EntityId
  who : String
  paths : List String
  overlap : List String
  exclusive : Bool
  note : Option String
  expires : ℤ
deriving DecidableEq

def overlapOf (principalName : EntityId → Option String) (mine : EntityId) (now : ℤ)
    (paths : List String) (c : Claim) : Option Overlap :=
  if c.principal = mine ∨ c.expires ≤ now then none
  else
    let theirs := claimPaths c
    let hit := paths.filter fun p => theirs.any fun q => hits p q
    if hit.isEmpty then none
    else some {
      principal := c.principal
      who := (principalName c.principal).getD c.principal.toLetters
      paths := theirs
      overlap := hit
      exclusive := c.exclusive
      note := c.note
      expires := c.expires }

/-- Active claims held by other principals that overlap these paths. -/
def overlappingClaims (principalName : EntityId → Option String) (b : Book) (mine : EntityId)
    (now : ℤ) (paths : List String) : List Overlap :=
  b.values.filterMap (overlapOf principalName mine now paths)

structure Request where
  paths : List String
  expiresS : Option ℤ
  exclusive : Option Bool
  note : Option String
deriving DecidableEq

structure Claimed where
  claim : EntityId
  paths : List String
  expires : ℤ
  overlaps : List Overlap
  warning : Option String
deriving DecidableEq

def claimOf (id principal : EntityId) (r : Request) (now : ℤ) : Claim where
  id := id
  prev := none
  principal := principal
  targets := r.paths.map fun p => ⟨"path", .text p⟩
  intent := none
  exclusive := r.exclusive.getD false
  expires := now + r.expiresS.getD 3600 * 1000000000
  note := r.note

/-- Claim paths. The clock is read when the claim is made, and again for what overlaps it. -/
def claim (principalName : EntityId → Option String) (b : Book) (actor id : EntityId)
    (r : Request) (made told : ℤ) : Except Error (Book × Claimed) :=
  if r.paths.isEmpty then .error (.verb "ARGS" "claim needs paths")
  else
    let c := claimOf id actor r made
    let b := b.insert id c
    let overlaps := overlappingClaims principalName b actor told r.paths
    let warning := if overlaps.isEmpty then none
      else some (s!"{overlaps.length} other claim(s) overlap these paths; a merge is coming, " ++
        "keep your edit inside your own units")
    .ok (b, ⟨id, r.paths, c.expires, overlaps, warning⟩)

def actorClaims (b : Book) (actor : EntityId) (now : ℤ) : List (EntityId × Claim) :=
  (b.entries.map fun e => (e.1, e.2)).filter fun e => e.2.principal = actor ∧ now < e.2.expires

/-- Release the actor's claims, or those whose id starts with a text. -/
def release (b : Book) (actor : EntityId) (now : ℤ) (target : Option String) :
    Book × List EntityId :=
  let released := ((actorClaims b actor now).map Prod.fst).filter fun id =>
    target.all (matchesPrefix id)
  (released.foldl OrdMap.erase b, released)

end Model

section Runs

variable {principalName : EntityId → Option String} {b b' : Book} {actor mine id i j : EntityId}
  {now made told time : ℤ} {r : Request} {result : Claimed} {c ci cj : Claim} {p q : String}

/-- A claim that was made, and what its maker was told. -/
structure Made where
  actor : EntityId
  request : Request
  told : ℤ
  result : Claimed

/-- The runs of the daemon, as far as claims go. -/
inductive Run (principalName : EntityId → Option String) : List Made → ℤ → Book → Prop
  | new (start : ℤ) : Run principalName [] start ∅
  | claim {past : List Made} {now made told : ℤ} {b b' : Book} {actor id : EntityId} {r : Request}
      {result : Claimed} : Run principalName past now b → now ≤ made → made ≤ told →
      claim principalName b actor id r made told = .ok (b', result) →
      Run principalName (past ++ [⟨actor, r, told, result⟩]) told b'
  | release {past : List Made} {now time : ℤ} {b : Book} (actor : EntityId)
      (target : Option String) : Run principalName past now b → now ≤ time →
      Run principalName past time (release b actor time target).1
  -- an op that made claims is undone
  | undo {past : List Made} {now : ℤ} {b : Book} (id : EntityId) :
      Run principalName past now b → Run principalName past now (b.erase id)

/-- Whoever made a claim was told of another one, on a path of its own. -/
def Told (past : List Made) (id : EntityId) (c : Claim) (p : String) : Prop :=
  ∃ m ∈ past, m.result.claim = id ∧ ∃ o ∈ m.result.overlaps, o.principal = c.principal ∧
    o.paths = claimPaths c ∧ o.exclusive = c.exclusive ∧ o.expires = c.expires ∧ p ∈ o.overlap

/-- A report names claims of others that are live, with the paths that they hit. -/
def Made.Honest (m : Made) : Prop :=
  ∀ o ∈ m.result.overlaps, o.principal ≠ m.actor ∧ m.told < o.expires ∧ o.overlap ≠ [] ∧
    ∀ p ∈ o.overlap, p ∈ m.request.paths ∧ ∃ q ∈ o.paths, hits p q = true

/-- No two live claims of different principals hit each other without the later one's maker
having been told. -/
def NoSilence (past : List Made) (now : ℤ) (b : Book) : Prop :=
  ∀ i j ci cj, b.get? i = some ci → b.get? j = some cj → ci.principal ≠ cj.principal →
    now < ci.expires → now < cj.expires → ∀ p ∈ claimPaths ci, ∀ q ∈ claimPaths cj,
      hits p q = true → Told past i cj p ∨ Told past j ci q

theorem hits_comm (p q : String) : hits p q = hits q p := by
  unfold hits
  rw [Bool.or_comm (Glob.contained p q), Bool.or_assoc _ (Glob.«matches» q p),
    Bool.or_comm (Glob.«matches» q p), ← Bool.or_assoc]

@[simp] theorem claimPaths_claimOf (id principal : EntityId) (r : Request) (now : ℤ) :
    claimPaths (claimOf id principal r now) = r.paths := by
  have hpath : ((fun t : ClaimTarget => t.ref.asText) ∘ fun p : String => ⟨"path", .text p⟩) =
      some := by
    funext p
    rfl
  rw [claimPaths, claimOf, List.filterMap_map, hpath, List.filterMap_some]

theorem get?_of_erase (h : (b.erase id).get? i = some c) : b.get? i = some c := by
  rw [← OrdMap.mem_entries] at h ⊢
  exact List.mem_of_mem_filter h

theorem get?_of_erases {ids : List EntityId} (h : (ids.foldl OrdMap.erase b).get? i = some c) :
    b.get? i = some c := by
  induction ids generalizing b with
  | nil => exact h
  | cons id rest ih => exact get?_of_erase (ih h)

theorem Told.mono {past later : List Made} (h : Told past i c p) : Told (past ++ later) i c p := by
  obtain ⟨m, hm, htold⟩ := h
  exact ⟨m, List.mem_append_left _ hm, htold⟩

/-- What stays of the claims stays told. -/
theorem NoSilence.mono {past : List Made} (h : NoSilence past now b) (hlater : now ≤ time)
    (hsub : ∀ i c, b'.get? i = some c → b.get? i = some c) : NoSilence past time b' := by
  intro i j ci cj hi hj hne hlive hlive' p hp q hq hhits
  exact h i j ci cj (hsub i ci hi) (hsub j cj hj) hne (hlater.trans_lt hlive)
    (hlater.trans_lt hlive') p hp q hq hhits

/-- Making a claim tells of each live one that it hits. -/
theorem told_of_claim {past : List Made}
    (h : claim principalName b actor id r made told = .ok (b', result))
    (hj : b'.get? j = some cj) (hne : actor ≠ cj.principal) (hlive : told < cj.expires)
    (hp : p ∈ r.paths) (hq : q ∈ claimPaths cj) (hhits : hits p q = true) :
    Told (past ++ [⟨actor, r, told, result⟩]) id cj p := by
  unfold claim at h
  split_ifs at h
  cases h
  refine ⟨_, List.mem_append_right _ (List.mem_singleton_self _), rfl, ?_⟩
  have hhit : p ∈ r.paths.filter fun p => (claimPaths cj).any fun q => hits p q :=
    List.mem_filter.mpr ⟨hp, List.any_eq_true.mpr ⟨q, hq, hhits⟩⟩
  have hoverlap : ∃ o, overlapOf principalName actor told r.paths cj = some o ∧
      o.principal = cj.principal ∧ o.paths = claimPaths cj ∧ o.exclusive = cj.exclusive ∧
      o.expires = cj.expires ∧ p ∈ o.overlap := by
    have hother : ¬ (cj.principal = actor ∨ cj.expires ≤ told) := by
      rintro (heq | hexpired)
      · exact hne heq.symm
      · omega
    rw [overlapOf, if_neg hother]
    simp only [List.isEmpty_iff, if_neg (List.ne_nil_of_mem hhit)]
    exact ⟨_, rfl, rfl, rfl, rfl, rfl, hhit⟩
  obtain ⟨o, ho, hnamed⟩ := hoverlap
  exact ⟨o, List.mem_filterMap.mpr ⟨cj, OrdMap.mem_values.mpr ⟨j, hj⟩, ho⟩, hnamed⟩

theorem book_of_claim (h : claim principalName b actor id r made told = .ok (b', result)) :
    b' = b.insert id (claimOf id actor r made) := by
  unfold claim at h
  split_ifs at h
  cases h
  rfl

theorem NoSilence.claim {past : List Made} (h : NoSilence past now b) (hmade : now ≤ made)
    (htold : made ≤ told) (hclaim : claim principalName b actor id r made told = .ok (b', result)) :
    NoSilence (past ++ [⟨actor, r, told, result⟩]) told b' := by
  intro i j ci cj hi hj hne hlive hlive' p hp q hq hhits
  have hbook := book_of_claim hclaim
  have hi' := hi
  have hj' := hj
  rw [hbook, OrdMap.get?_insert] at hi' hj'
  split_ifs at hi' with hid
  · cases hi'
    rw [claimPaths_claimOf] at hp
    exact .inl (hid ▸ told_of_claim hclaim hj hne hlive' hp hq hhits)
  · split_ifs at hj' with hjd
    · cases hj'
      rw [claimPaths_claimOf] at hq
      rw [hits_comm] at hhits
      exact .inr (hjd ▸ told_of_claim hclaim hi hne.symm hlive hq hp hhits)
    · have hnow : now ≤ told := hmade.trans htold
      exact (h i j ci cj hi' hj' hne (hnow.trans_lt hlive) (hnow.trans_lt hlive') p hp q hq
        hhits).imp Told.mono Told.mono

theorem honest_of_claim (h : claim principalName b actor id r made told = .ok (b', result)) :
    Made.Honest ⟨actor, r, told, result⟩ := by
  unfold claim at h
  split_ifs at h
  cases h
  intro o ho
  obtain ⟨c, -, hc⟩ := List.mem_filterMap.mp ho
  simp only [overlapOf, List.isEmpty_iff] at hc
  split_ifs at hc with hother hempty
  cases hc
  rw [not_or, not_le] at hother
  refine ⟨hother.1, hother.2, hempty, fun p hp => ?_⟩
  obtain ⟨hmem, hany⟩ := List.mem_filter.mp hp
  exact ⟨hmem, List.any_eq_true.mp hany⟩

end Runs

section Samples

/-! A session claims a file below what another one holds. -/

def wideRequest : Request := ⟨["src/**"], none, some true, none⟩

def fileRequest : Request := ⟨["src/main.rs", "docs/a.md"], some 60, none, none⟩

def wideClaim : Claim := claimOf (.splat 21) (.splat 1) wideRequest 0

def fileClaim : Claim := claimOf (.splat 22) (.splat 2) fileRequest 5

def wideOverlap : Overlap where
  principal := .splat 1
  who := "one"
  paths := ["src/**"]
  overlap := ["src/main.rs"]
  exclusive := true
  note := none
  expires := 3600000000000

def wideMade : Made := ⟨.splat 1, wideRequest, 0, ⟨.splat 21, ["src/**"], 3600000000000, [], none⟩⟩

def fileMade : Made where
  actor := .splat 2
  request := fileRequest
  told := 6
  result := ⟨.splat 22, ["src/main.rs", "docs/a.md"], 60000000005, [wideOverlap],
    some ("1 other claim(s) overlap these paths; a merge is coming, " ++
      "keep your edit inside your own units")⟩

def sampleBook : Book :=
  ((∅ : Book).insert (.splat 21) wideClaim).insert (.splat 22) fileClaim

theorem samples_run : Run (fun _ => some "one") ([wideMade] ++ [fileMade]) 6 sampleBook := by
  have hwide : claim (fun _ => some "one") ∅ (.splat 1) (.splat 21) wideRequest 0 0 =
      .ok ((∅ : Book).insert (.splat 21) wideClaim, wideMade.result) := by decide
  have hfile : claim (fun _ => some "one") ((∅ : Book).insert (.splat 21) wideClaim) (.splat 2)
      (.splat 22) fileRequest 5 6 = .ok (sampleBook, fileMade.result) := by decide
  have hfirst : Run (fun _ => some "one") ([] ++ [wideMade]) 0
      ((∅ : Book).insert (.splat 21) wideClaim) :=
    (Run.new 0).claim (le_refl 0) (le_refl 0) hwide
  exact hfirst.claim (by decide) (by decide) hfile

end Samples

end Tessra.Daemon.Claims
