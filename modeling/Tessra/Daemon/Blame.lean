import Tessra.Core.Store
import Tessra.Data.Lists

namespace Tessra.Daemon.Blame

open Tessra.Core Tessra.Data

/-! Where the units of a file come from. -/

section Model

variable [Crypto] (S : Store) (indexForRevision : Revision → Except Error NodeIndex)
  (path : String)

/-- Nodes of one path from an index, in document order. -/
def nodesForPath (idx : NodeIndex) (path : String) : List Node :=
  idx.nodes.filter fun n => n.path = path

def revOf (id : ObjectId) : Except Error Revision := (get Revision id).value S

/-- A revision's nodes for the path, and the identifiers that its index merged away, each
with the one that survived. -/
def nodesOf (id : ObjectId) : Except Error (List Node × (EntityId → Option EntityId)) := do
  let rev ← revOf S id
  match rev.snapshots.get? "" with
  | some _ =>
      let idx ← indexForRevision rev
      return (nodesForPath idx path, fun nid => idx.aliases.bind fun a => a.get? nid.bytes)
  | none => return ([], fun _ => none)

/-- The unit among a parent's nodes: the one of the identifier that is tracked, or else the
only one of the kind and name, if its body is the same. -/
def foundIn (n : Node) (aliases : EntityId → Option EntityId) (track : EntityId)
    (pn : List Node) : Option EntityId :=
  let tracked := pn.find? fun q => q.nid = track || aliases q.nid = some track
  let alike := match pn.filter fun q => q.kind = n.kind && q.name = n.name with
    | [q] => some q
    | _ => none
  ((tracked.or alike).filter fun q => q.body = n.body).map Node.nid

/-- The first parent that carries the unit, and its identifier there. -/
def carriedBy (n : Node) (aliases : EntityId → Option EntityId) (track : EntityId) :
    List ObjectId → Except Error (Option (ObjectId × EntityId))
  | [] => return none
  | p :: rest => do
      let (pn, _) ← nodesOf S indexForRevision path p
      match foundIn n aliases track pn with
      | some id => return some (p, id)
      | none => carriedBy n aliases track rest

/-- The walk to the oldest revision in which the unit has the same body, following whichever
parent carries it. -/
def walk (n : Node) : ℕ → ObjectId × EntityId → Except Error ObjectId
  | 0, at_ => return at_.1
  | depth + 1, at_ => do
      let r ← revOf S at_.1
      let (_, aliases) ← nodesOf S indexForRevision path at_.1
      match ← carriedBy S indexForRevision path n aliases at_.2 r.parents with
      | some next => walk n depth next
      | none => return at_.1

structure BlameEntry where
  nid : EntityId
  kind : String
  name : String
  span : ℕ × ℕ
  revision : ObjectId
  author : EntityId
  title : String
  intent : Option EntityId
  time : ℤ
deriving DecidableEq

def blameUnit (revId : ObjectId) (n : Node) : Except Error BlameEntry := do
  let cur ← walk S indexForRevision path n 1000 (revId, n.nid)
  let r ← revOf S cur
  return {
    nid := n.nid
    kind := n.kind
    name := n.name
    span := n.span
    revision := cur
    author := r.author
    title := r.title
    intent := r.intent
    time := r.time }

def blame (revId : ObjectId) : Except Error (List BlameEntry) := do
  let (start, _) ← nodesOf S indexForRevision path revId
  let out ← start.mapM (blameUnit S indexForRevision path revId)
  return out.mergeSort fun a b => a.span.1 ≤ b.span.1

end Model

section Lines

variable {n : Node} {aliases : EntityId → Option EntityId} {track : EntityId} {pn : List Node}

/-- The unit among the nodes of a parent: the first of the identifier that is tracked or was
merged into it, and where there is none, the only node of the kind and name. -/
inductive IsUnit (n : Node) (aliases : EntityId → Option EntityId) (track : EntityId)
    (pn : List Node) (q : Node) : Prop
  | tracked (first : pn.find? (fun q => q.nid = track || aliases q.nid = some track) = some q)
  | alike (untracked : pn.find? (fun q => q.nid = track || aliases q.nid = some track) = none)
      (only : pn.filter (fun q => q.kind = n.kind && q.name = n.name) = [q])

theorem foundIn_eq_some {id : EntityId} :
    foundIn n aliases track pn = some id ↔
      ∃ q, IsUnit n aliases track pn q ∧ q.body = n.body ∧ q.nid = id := by
  rw [foundIn, Option.map_eq_some_iff]
  simp only [Option.filter_eq_some_iff, decide_eq_true_eq, and_assoc]
  refine exists_congr fun q => and_congr_left fun _ => ?_
  cases hfirst : pn.find? fun q => q.nid = track || aliases q.nid = some track with
  | some first =>
      rw [Option.some_or]
      constructor
      · exact fun h => .tracked (hfirst.trans h)
      · rintro (h | ⟨h, _⟩)
        · exact hfirst.symm.trans h
        · cases hfirst.symm.trans h
  | none =>
      rw [Option.none_or]
      constructor
      · intro h
        split at h
        · next only honly => exact .alike hfirst (honly.trans (by rw [Option.some.inj h]))
        · cases h
      · rintro (h | ⟨_, h⟩)
        · cases hfirst.symm.trans h
        · rw [h]

theorem IsUnit.mem {q : Node} (h : IsUnit n aliases track pn q) : q ∈ pn := by
  rcases h with h | ⟨_, h⟩
  · exact List.mem_of_find?_eq_some h
  · have hmem := List.mem_singleton_self q
    rw [← h] at hmem
    exact List.mem_of_mem_filter hmem

variable [Crypto] {S : Store} {indexForRevision : Revision → Except Error NodeIndex}
  {path : String} {at_ next : ObjectId × EntityId}

/-- A parent of the revision has the unit, with the same body. -/
def Carried (S : Store) (indexForRevision : Revision → Except Error NodeIndex) (path : String)
    (n : Node) (at_ next : ObjectId × EntityId) : Prop :=
  ∃ r own aliases, revOf S at_.1 = .ok r ∧
    nodesOf S indexForRevision path at_.1 = .ok (own, aliases) ∧ next.1 ∈ r.parents ∧
    ∃ pn more, nodesOf S indexForRevision path next.1 = .ok (pn, more) ∧
      ∃ q, IsUnit n aliases at_.2 pn q ∧ q.body = n.body ∧ q.nid = next.2

theorem carriedBy_some {parents : List ObjectId}
    (h : carriedBy S indexForRevision path n aliases track parents = .ok (some next)) :
    next.1 ∈ parents ∧ ∃ pn more, nodesOf S indexForRevision path next.1 = .ok (pn, more) ∧
      ∃ q, IsUnit n aliases track pn q ∧ q.body = n.body ∧ q.nid = next.2 := by
  induction parents with
  | nil => cases h
  | cons p rest ih =>
      rw [carriedBy] at h
      obtain ⟨⟨pn, more⟩, hpn, h⟩ := bind_eq_ok.mp h
      cases hfound : foundIn n aliases track pn with
      | some id =>
          simp only [hfound] at h
          cases h
          exact ⟨List.mem_cons_self, pn, more, hpn, foundIn_eq_some.mp hfound⟩
      | none =>
          simp only [hfound] at h
          obtain ⟨hmem, hunit⟩ := ih h
          exact ⟨List.mem_cons_of_mem p hmem, hunit⟩

theorem carriedBy_none {parents : List ObjectId}
    (h : carriedBy S indexForRevision path n aliases track parents = .ok none)
    {p : ObjectId} (hp : p ∈ parents) {pn : List Node} {more : EntityId → Option EntityId}
    (hpn : nodesOf S indexForRevision path p = .ok (pn, more)) {q : Node}
    (hq : IsUnit n aliases track pn q) : q.body ≠ n.body := by
  intro hbody
  induction parents with
  | nil => cases hp
  | cons p' rest ih =>
      rw [carriedBy] at h
      obtain ⟨⟨pn', more'⟩, hpn', h⟩ := bind_eq_ok.mp h
      cases hfound : foundIn n aliases track pn' with
      | some id =>
          simp only [hfound] at h
          cases h
      | none =>
          simp only [hfound] at h
          rcases List.mem_cons.mp hp with rfl | hp
          · cases hpn.symm.trans hpn'
            rw [foundIn_eq_some.mpr ⟨q, hq, hbody, rfl⟩] at hfound
            cases hfound
          · exact ih h hp

/-- The unit was carried over so many parents. -/
inductive Line (S : Store) (indexForRevision : Revision → Except Error NodeIndex)
    (path : String) (n : Node) : ℕ → ObjectId × EntityId → ObjectId × EntityId → Prop
  | here (at_ : ObjectId × EntityId) : Line S indexForRevision path n 0 at_ at_
  | back {k : ℕ} {at_ next last : ObjectId × EntityId}
      (first : Carried S indexForRevision path n at_ next)
      (rest : Line S indexForRevision path n k next last) :
      Line S indexForRevision path n (k + 1) at_ last

/-- The walk ends where no parent carries the unit, or after as many parents as it may go. -/
theorem walk_line {depth : ℕ} {cur : ObjectId}
    (h : walk S indexForRevision path n depth at_ = .ok cur) :
    ∃ k track, k ≤ depth ∧ Line S indexForRevision path n k at_ (cur, track) ∧
      (k < depth → ∀ next, ¬ Carried S indexForRevision path n (cur, track) next) := by
  induction depth generalizing at_ with
  | zero =>
      cases h
      exact ⟨0, at_.2, le_rfl, .here at_, fun hlt => absurd hlt (Nat.lt_irrefl 0)⟩
  | succ depth ih =>
      rw [walk] at h
      obtain ⟨r, hr, h⟩ := bind_eq_ok.mp h
      obtain ⟨⟨own, aliases⟩, hown, h⟩ := bind_eq_ok.mp h
      obtain ⟨carried, hcarried, h⟩ := bind_eq_ok.mp h
      cases carried with
      | some next =>
          obtain ⟨hmem, hunit⟩ := carriedBy_some hcarried
          obtain ⟨k, track, hk, hline, hlast⟩ := ih h
          refine ⟨k + 1, track, Nat.succ_le_succ hk, .back ?_ hline, fun hlt => ?_⟩
          · exact ⟨r, own, aliases, hr, hown, hmem, hunit⟩
          · exact hlast (Nat.lt_of_succ_lt_succ hlt)
      | none =>
          cases h
          refine ⟨0, at_.2, Nat.zero_le _, .here at_, fun _ next hnext => ?_⟩
          obtain ⟨r', own', aliases', hr', hown', hmem, pn, more, hpn, q, hq, hbody, _⟩ := hnext
          cases hr.symm.trans hr'
          cases hown.symm.trans hown'
          exact carriedBy_none hcarried hmem hpn hq hbody

/-- An entry is a unit's, with the revision that its body comes from. -/
structure Describes (S : Store) (indexForRevision : Revision → Except Error NodeIndex)
    (path : String) (revId : ObjectId) (n : Node) (e : BlameEntry) : Prop where
  unit : e.nid = n.nid ∧ e.kind = n.kind ∧ e.name = n.name ∧ e.span = n.span
  origin : ∃ k track, k ≤ 1000 ∧
    Line S indexForRevision path n k (revId, n.nid) (e.revision, track) ∧
    (k < 1000 → ∀ next, ¬ Carried S indexForRevision path n (e.revision, track) next)
  revision : ∃ r, revOf S e.revision = .ok r ∧ e.author = r.author ∧ e.title = r.title ∧
    e.intent = r.intent ∧ e.time = r.time

theorem describes_of_blameUnit {revId : ObjectId} {e : BlameEntry}
    (h : blameUnit S indexForRevision path revId n = .ok e) :
    Describes S indexForRevision path revId n e := by
  rw [blameUnit] at h
  obtain ⟨cur, hcur, h⟩ := bind_eq_ok.mp h
  obtain ⟨r, hr, h⟩ := bind_eq_ok.mp h
  cases h
  exact ⟨⟨rfl, rfl, rfl, rfl⟩, walk_line hcur, r, hr, rfl, rfl, rfl, rfl⟩

/-- Each unit of the file is blamed once, in the order of the file, on the revision that its
body comes from. -/
theorem blame_origins {revId : ObjectId} {out : List BlameEntry}
    (h : blame S indexForRevision path revId = .ok out) :
    ∃ start aliases entries, nodesOf S indexForRevision path revId = .ok (start, aliases) ∧
      List.Forall₂ (Describes S indexForRevision path revId) start entries ∧
      out.Perm entries ∧ out.Pairwise fun a b => a.span.1 ≤ b.span.1 := by
  rw [blame] at h
  obtain ⟨⟨start, aliases⟩, hstart, h⟩ := bind_eq_ok.mp h
  obtain ⟨entries, hentries, h⟩ := bind_eq_ok.mp h
  cases h
  refine ⟨start, aliases, entries, hstart, ?_, List.mergeSort_perm _ _, ?_⟩
  · exact (mapM_eq_ok.mp hentries).imp fun _ _ he => describes_of_blameUnit he
  · exact List.pairwise_mergeSort' (Order.Preimage (fun e => e.span.1) (· ≤ ·)) entries

end Lines

section Samples

/-! A unit that a child revision left as its parent wrote it. -/

def blamedUnit : Node where
  nid := .splat 20
  path := "a.rs"
  kind := "function"
  name := "f"
  span := (0, 9)
  body := .splat 30
  parent := none
  deps := none
  setlike := none

def blamedIndex : NodeIndex where
  root := .splat 31
  grammars := ""
  parents := []
  nodes := [blamedUnit]
  aliases := none

def wrote (title : String) (parents : List ObjectId) : Revision where
  id := .splat 21
  prev := none
  snapshots := OrdMap.insert ∅ "" (.splat 32)
  parents := parents
  intent := none
  title := title
  body := none
  author := .splat 22
  time := 0
  ops := none
  flags := none

def blamedTable : List Object := [.revision (wrote "first" []), .revision (wrote "then" [.splat 0])]

local instance blamedHash : Crypto := .ofTable blamedTable

def blamedEntry : BlameEntry where
  nid := .splat 20
  kind := "function"
  name := "f"
  span := (0, 9)
  revision := .splat 0
  author := .splat 22
  title := "first"
  intent := none
  time := 0

theorem blame_origins_first : ∃ start aliases entries,
    nodesOf blamedTable (fun _ => .ok blamedIndex) "a.rs" (.splat 1) = .ok (start, aliases) ∧
      List.Forall₂ (Describes blamedTable (fun _ => .ok blamedIndex) "a.rs" (.splat 1))
        start entries ∧
      [blamedEntry].Perm entries ∧
      [blamedEntry].Pairwise fun a b => a.span.1 ≤ b.span.1 :=
  blame_origins (by decide +kernel)

end Samples

end Tessra.Daemon.Blame
