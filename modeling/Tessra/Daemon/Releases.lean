import Tessra.Daemon.AttestationIndex
import Tessra.Data.Lists

namespace Tessra.Daemon.Releases

open Tessra.Core Tessra.Data Verifiers

/-! Releases of the trunk head, and what their changelogs tell of it. -/

section Model

structure Release where
  name : String
  line : EntityId
  revision : ObjectId
  since : Option ObjectId
  /-- The text of the changelog's blob. -/
  changelog : String
  attestations : Option (List ObjectId)
  signer : EntityId
  time : ℤ
deriving DecidableEq

/-- A store with its metadata; its releases are kept apart from its other objects. -/
structure Ledger where
  objects : Store
  metadata : Metadata
  released : List (ObjectId × Release)
deriving DecidableEq

/-- Releases, newest first. -/
def releases (l : Ledger) : List (ObjectId × Release) :=
  ((idsAt l.metadata "releases").filterMap fun id => (l.released.lookup id).map (id, ·)).mergeSort
    fun a b => decide (b.2.time ≤ a.2.time)

variable [Crypto]

/-- The revisions from one back to the previous release's, at most so many. -/
def linesFrom (S : Store) (since : Option ObjectId) :
    ℕ → Option ObjectId → Except Error (List (ObjectId × Revision))
  | 0, _ | _, none => return []
  | steps + 1, some id =>
      if some id = since then return []
      else do
        let r ← (get Revision id).value S
        let rest ← linesFrom S since steps r.parents.head?
        return (id, r) :: rest

/-- A line for each revision, with the author's name where there is one. -/
def changelogText (name : String) (principalName : EntityId → Option String)
    (told : List (ObjectId × Revision)) : String :=
  let lines := "\n".intercalate (told.map fun e =>
    let author := (principalName e.2.author).getD ""
    s!"- {e.2.title} ({author})")
  s!"{name}\n\n{lines}\n"

/-- What the caller and the state around the ledger give to a release. -/
structure Cut where
  name : String
  /-- The trunk line. -/
  line : EntityId
  signer : EntityId
  time : ℤ
  principalName : EntityId → Option String
  /-- The bodies of the head's index. -/
  bodies : List ObjectId
  /-- Does a principal whom standards trust sign it? -/
  trustedSigner : Attestation → Bool
  /-- The hash of the release object. -/
  id : ObjectId

/-- Cut a release of the trunk head. -/
def cutRelease (l : Ledger) (head : ObjectId) (c : Cut) : Except Error Ledger := do
  let rev ← (get Revision head).value l.objects
  let since := (releases l).head?.map fun e => e.2.revision
  let told ← linesFrom l.objects since 501 (some head)
  let attestations := (collectFor l.metadata head rev c.bodies).filter fun id =>
    match (get Attestation id).value l.objects with
    | .ok att => c.trustedSigner att
    | .error _ => false
  let release : Release := {
    name := c.name
    line := c.line
    revision := head
    since
    changelog := changelogText c.name c.principalName told
    attestations := if attestations.isEmpty then none else some attestations
    signer := c.signer
    time := c.time }
  let list := (l.metadata.get? "releases").getD []
  return { l with
    metadata := l.metadata.insert "releases" (list ++ c.id.bytes)
    released := l.released ++ [(c.id, release)] }

end Model

section Trunk

variable [Crypto] {S : Store} {head : ObjectId} {chain : List (ObjectId × Revision)}

/-- The revisions along first parents from a head back to the first one. -/
inductive Trunk (S : Store) : ObjectId → List (ObjectId × Revision) → Prop
  | root {id : ObjectId} {r : Revision} (read : (get Revision id).value S = .ok r)
      (parents : r.parents = []) : Trunk S id [(id, r)]
  | next {id p : ObjectId} {r : Revision} {rest : List (ObjectId × Revision)}
      (read : (get Revision id).value S = .ok r) (parent : r.parents.head? = some p)
      (line : Trunk S p rest) : Trunk S id ((id, r) :: rest)

theorem Trunk.unique (h : Trunk S head chain) {chain' : List (ObjectId × Revision)}
    (h' : Trunk S head chain') : chain = chain' := by
  induction h generalizing chain' with
  | root hread hparents =>
      cases h' with
      | root hread' => rw [Except.ok.inj (hread.symm.trans hread')]
      | next hread' hparent' =>
          rw [← Except.ok.inj (hread.symm.trans hread'), hparents] at hparent'
          cases hparent'
  | next hread hparent _ ih =>
      cases h' with
      | root hread' hparents' =>
          rw [Except.ok.inj (hread.symm.trans hread'), hparents'] at hparent
          cases hparent
      | next hread' hparent' hline' =>
          cases Except.ok.inj (hread.symm.trans hread')
          cases Option.some.inj (hparent.symm.trans hparent')
          rw [ih hline']

/-- From any revision on, a trunk is that revision's. -/
theorem Trunk.suffix (h : Trunk S head chain) {id : ObjectId}
    (hid : id ∈ chain.map Prod.fst) : ∃ newer older, chain = newer ++ older ∧ Trunk S id older := by
  induction h with
  | root hread hparents =>
      obtain rfl : id = _ := List.mem_singleton.mp hid
      exact ⟨[], _, rfl, .root hread hparents⟩
  | @next id' p r rest hread hparent hline ih =>
      rw [List.map_cons, List.mem_cons] at hid
      rcases hid with rfl | hid
      · exact ⟨[], _, rfl, .next hread hparent hline⟩
      · obtain ⟨newer, older, rfl, holder⟩ := ih hid
        exact ⟨(id', r) :: newer, older, rfl, holder⟩

/-- No revision is on a trunk twice. -/
theorem Trunk.nodup (h : Trunk S head chain) : (chain.map Prod.fst).Nodup := by
  induction h with
  | root => exact List.nodup_singleton _
  | @next id p r rest hread hparent hline ih =>
      refine List.nodup_cons.mpr ⟨fun hid => ?_, ih⟩
      obtain ⟨newer, older, hrest, holder⟩ := hline.suffix hid
      have hlength := congrArg List.length (holder.unique (.next hread hparent hline))
      rw [hrest, List.length_cons, List.length_append] at hlength
      omega

theorem get_append {T : Type} [TessraObject T] {id : ObjectId} {t : T}
    (h : (get T id).value S = .ok t) (S' : Store) : (get T id).value (S ++ S') = .ok t := by
  obtain ⟨o, ho, hrest, _⟩ := StoreM.bind_ok h
  have hfind : S.find? (fun o => Crypto.objectId o = id) = o := Except.ok.inj ho
  cases o with
  | none => cases hrest
  | some o =>
      have hfind' : (S ++ S').find? (fun o => Crypto.objectId o = id) = some o := by
        rw [List.find?_append, hfind, Option.some_or]
      have hread : (getBytes id).value (S ++ S') = .ok (some o) := congrArg Except.ok hfind'
      change (getBytes id >>= _).value (S ++ S') = _
      rw [(StoreM.bind_of_ok hread).1]
      cases hof : TessraObject.ofObject (T := T) o with
      | none =>
          simp only [hof] at hrest
          cases hrest
      | some t' =>
          simp only [hof] at hrest ⊢
          exact hrest

theorem Trunk.append (h : Trunk S head chain) (S' : Store) : Trunk (S ++ S') head chain := by
  induction h with
  | root hread hparents => exact .root (get_append hread S') hparents
  | next hread hparent _ ih => exact .next (get_append hread S') hparent ih

theorem Trunk.head_fst (h : Trunk S head chain) : chain.head?.map Prod.fst = some head := by
  cases h <;> rfl

theorem Trunk.first {id : ObjectId} {r : Revision} {rest : List (ObjectId × Revision)}
    (h : Trunk S head ((id, r) :: rest)) :
    (get Revision id).value S = .ok r ∧ ((rest = [] ∧ r.parents = []) ∨
      ∃ p, r.parents.head? = some p ∧ Trunk S p rest) := by
  cases h with
  | root hread hparents => exact ⟨hread, .inl ⟨rfl, hparents⟩⟩
  | next hread hparent hline => exact ⟨hread, .inr ⟨_, hparent, hline⟩⟩

theorem linesFrom_none (since : Option ObjectId) (steps : ℕ) :
    linesFrom S since steps none = .ok [] := by
  cases steps <;> rfl

/-- The lines of a release are the newest of the trunk after the previous release. -/
theorem linesFrom_trunk {newer : List (ObjectId × Revision)} (older : List (ObjectId × Revision))
    {since : Option ObjectId}
    (hsince : ∀ id ∈ since, Trunk S id older) (hnone : since = none → older = [])
    (h : Trunk S head (newer ++ older)) (steps : ℕ) :
    linesFrom S since steps (some head) = .ok (newer.take steps) := by
  induction newer generalizing head steps with
  | nil =>
      cases steps with
      | zero => rfl
      | succ steps =>
          cases hs : since with
          | none =>
              have hhead := h.head_fst
              rw [hnone hs] at hhead
              cases hhead
          | some id =>
              have hhead := (hsince id hs).head_fst
              rw [List.nil_append] at h
              rw [h.head_fst, Option.some.injEq] at hhead
              rw [linesFrom, if_pos (congrArg some hhead)]
              rfl
  | cons e newer ih =>
      obtain ⟨id, r⟩ := e
      obtain rfl : id = head := Option.some.inj h.head_fst
      cases steps with
      | zero => rfl
      | succ steps =>
          have hne : some id ≠ since := by
            intro heq
            have hhead := (hsince id heq.symm).head_fst
            obtain ⟨first, hfirst, hid⟩ := Option.map_eq_some_iff.mp hhead
            have hmem : id ∈ (newer ++ older).map Prod.fst :=
              List.mem_map.mpr ⟨first, List.mem_append_right _ (List.mem_of_mem_head? hfirst), hid⟩
            exact (List.nodup_cons.mp h.nodup).1 hmem
          have hrest : (get Revision id).value S = .ok r ∧
              linesFrom S since steps r.parents.head? = .ok (newer.take steps) := by
            obtain ⟨hread, ⟨hempty, hparents⟩ | ⟨p, hparent, hline⟩⟩ := h.first
            · refine ⟨hread, ?_⟩
              rw [hparents, List.head?_nil, linesFrom_none, (List.append_eq_nil_iff.mp hempty).1,
                List.take_nil]
            · rw [hparent]
              exact ⟨hread, ih hline steps⟩
          rw [linesFrom, if_neg hne, hrest.1]
          change (linesFrom S since steps r.parents.head? >>= _) = _
          rw [hrest.2]
          rfl

end Trunk

section Runs

variable [Crypto] {l : Ledger} {head : ObjectId} {chain : List (ObjectId × Revision)}
  {hist : List (ObjectId × Release)}

/-- Runs of a repository: its ledger, the trunk head with the trunk behind it, and the
releases that were cut, newest first. -/
inductive Run : Ledger → ObjectId → List (ObjectId × Revision) → List (ObjectId × Release) → Prop
  | init {l : Ledger} {head : ObjectId} {chain : List (ObjectId × Revision)}
      (hnew : l.metadata.get? "releases" = none) (htrunk : Trunk l.objects head chain) :
      Run l head chain []
  | put {l : Ledger} {head : ObjectId} {chain : List (ObjectId × Revision)}
      {hist : List (ObjectId × Release)} (h : Run l head chain hist) (o : Object) :
      Run { l with objects := l.objects ++ [o] } head chain hist
  | note {l : Ledger} {head : ObjectId} {chain : List (ObjectId × Revision)}
      {hist : List (ObjectId × Release)} (h : Run l head chain hist) {key : String}
      (hkey : key ≠ "releases") (value : Bytes) :
      Run { l with metadata := l.metadata.insert key value } head chain hist
  /-- Trunk moves to a revision that has its head among its first parents. -/
  | land {l : Ledger} {head new : ObjectId} {chain landed : List (ObjectId × Revision)}
      {hist : List (ObjectId × Release)} (h : Run l head chain hist)
      (htrunk : Trunk l.objects new (landed ++ chain)) : Run l new (landed ++ chain) hist
  /-- A release later than those before it, under a hash of its own. -/
  | cut {l l' : Ledger} {head : ObjectId} {chain : List (ObjectId × Revision)}
      {hist : List (ObjectId × Release)} (h : Run l head chain hist) {c : Cut}
      (hid : l.released.lookup c.id = none) (htime : ∀ e ∈ hist, e.2.time < c.time)
      (hcut : cutRelease l head c = .ok l') {r : Release}
      (hr : l'.released = l.released ++ [(c.id, r)]) : Run l' head chain ((c.id, r) :: hist)

/-- The releases' gaps: each tells the newest of its own. -/
def Tells (e : ObjectId × Release) (gap : List (ObjectId × Revision)) : Prop :=
  ∃ principalName, e.2.changelog = changelogText e.2.name principalName (gap.take 501)

/-- What holds of the ledger over a run. -/
structure Kept (l : Ledger) (head : ObjectId) (chain : List (ObjectId × Revision))
    (hist : List (ObjectId × Release)) : Prop where
  trunk : Trunk l.objects head chain
  index : (l.metadata.get? "releases").getD [] = (hist.map Prod.fst).reverse.flatMap ObjectId.bytes
  stored : ∀ e ∈ hist, l.released.lookup e.1 = some e.2
  times : hist.Pairwise fun newer older => older.2.time < newer.2.time
  gaps : ∃ gaps fresh, List.Forall₂ Tells hist gaps ∧ chain = fresh ++ gaps.flatten ∧
    ∀ last ∈ hist.head?, Trunk l.objects last.2.revision gaps.flatten

omit [Crypto] in
theorem releases_perm (hindex : (l.metadata.get? "releases").getD [] =
      (hist.map Prod.fst).reverse.flatMap ObjectId.bytes)
    (hstored : ∀ e ∈ hist, l.released.lookup e.1 = some e.2) : (releases l).Perm hist := by
  refine (List.mergeSort_perm _ _).trans ?_
  have hids : idsAt l.metadata "releases" = (hist.map Prod.fst).reverse := by
    rw [idsAt, hindex, chunks_flatMap, List.filterMap_map]
    exact (List.filterMap_congr fun id _ => ObjectId.fromSlice_bytes id).trans
      List.filterMap_some
  rw [hids, ← List.map_reverse, List.filterMap_map]
  have hall : ∀ e ∈ hist.reverse,
      ((fun id => (l.released.lookup id).map (id, ·)) ∘ Prod.fst) e = some e := by
    intro e he
    simp [hstored e (List.mem_reverse.mp he)]
  rw [List.filterMap_congr hall, List.filterMap_some]
  exact hist.reverse_perm

theorem Kept.releases_eq (h : Kept l head chain hist) : releases l = hist := by
  have hsorted : (releases l).Pairwise fun a b => b.2.time ≤ a.2.time :=
    List.pairwise_mergeSort'
      (Order.Preimage (fun e : ObjectId × Release => e.2.time) (· ≥ ·)) _
  refine List.Perm.eq_of_pairwise ?_ hsorted (h.times.imp le_of_lt)
    (releases_perm h.index h.stored)
  · intro a b ha hb hab hba
    have hnodup : (hist.map fun e => e.2.time).Nodup :=
      List.pairwise_map.mpr (h.times.imp ne_of_gt)
    exact List.inj_on_of_nodup_map hnodup ((releases_perm h.index h.stored).subset ha) hb
      (le_antisymm hba hab)

theorem Kept.cut {l' : Ledger} (h : Kept l head chain hist) {c : Cut}
    (hid : l.released.lookup c.id = none) (htime : ∀ e ∈ hist, e.2.time < c.time)
    (hcut : cutRelease l head c = .ok l') {r : Release}
    (hr : l'.released = l.released ++ [(c.id, r)]) : Kept l' head chain ((c.id, r) :: hist) := by
  obtain ⟨gaps, fresh, htells, hchain, hlast⟩ := h.gaps
  have htrunk := h.trunk
  rw [hchain] at htrunk
  have hlines : linesFrom l.objects ((releases l).head?.map fun e => e.2.revision) 501
      (some head) = .ok (fresh.take 501) := by
    refine linesFrom_trunk gaps.flatten ?_ ?_ htrunk 501
    · rw [h.releases_eq]
      intro id hid
      obtain ⟨last, hmem, rfl⟩ := Option.map_eq_some_iff.mp hid
      exact hlast last hmem
    · rw [h.releases_eq]
      intro hnone
      rw [Option.map_eq_none_iff, List.head?_eq_none_iff] at hnone
      rw [hnone] at htells
      cases htells
      rfl
  rw [cutRelease] at hcut
  obtain ⟨rev, hrev, hcut⟩ := bind_eq_ok.mp hcut
  obtain ⟨told, htold, hcut⟩ := bind_eq_ok.mp hcut
  cases htold.symm.trans hlines
  cases hcut
  have hsame := (List.append_right_injective l.released hr).symm
  rw [List.singleton_inj, Prod.mk.injEq] at hsame
  obtain ⟨_, hsame⟩ := hsame
  subst hsame
  refine ⟨h.trunk, ?_, ?_, ?_, ?_⟩
  · change ((l.metadata.insert "releases" _).get? "releases").getD [] = _
    rw [OrdMap.get?_insert, if_pos rfl, Option.getD_some, h.index, List.map_cons,
      List.reverse_cons, List.flatMap_append, List.flatMap_singleton]
  · intro e he
    change (l.released ++ [(c.id, _)]).lookup e.1 = some e.2
    rw [List.lookup_append]
    rcases List.mem_cons.mp he with rfl | he
    · rw [hid, Option.none_or]
      simp
    · rw [h.stored e he, Option.some_or]
  · exact List.pairwise_cons.mpr ⟨htime, h.times⟩
  · refine ⟨fresh :: gaps, [], .cons ⟨c.principalName, rfl⟩ htells, ?_, ?_⟩
    · rw [List.nil_append, List.flatten_cons, hchain]
    · intro last hmem
      obtain rfl := Option.some.inj hmem
      exact htrunk

theorem Run.kept (h : Run l head chain hist) : Kept l head chain hist := by
  induction h with
  | @init l head chain hnew htrunk =>
      refine ⟨htrunk, by rw [hnew]; rfl, by simp, .nil, [], chain, .nil, ?_, by simp⟩
      rw [List.flatten_nil, List.append_nil]
  | put _ o ih =>
      obtain ⟨gaps, fresh, htells, hchain, hlast⟩ := ih.gaps
      exact ⟨ih.trunk.append [o], ih.index, ih.stored, ih.times, gaps, fresh, htells, hchain,
        fun last hmem => (hlast last hmem).append [o]⟩
  | @note l _ _ _ _ key hkey value ih =>
      refine ⟨ih.trunk, ?_, ih.stored, ih.times, ih.gaps⟩
      change ((l.metadata.insert key value).get? "releases").getD [] = _
      rw [OrdMap.get?_insert, if_neg hkey, ih.index]
  | @land _ _ _ _ landed _ _ htrunk ih =>
      obtain ⟨gaps, fresh, htells, hchain, hlast⟩ := ih.gaps
      refine ⟨htrunk, ih.index, ih.stored, ih.times, gaps, landed ++ fresh, htells, ?_, hlast⟩
      rw [List.append_assoc, ← hchain]
  | cut _ hid htime hcut hr ih => exact ih.cut hid htime hcut hr

/-- Whatever lands between them, the releases divide the trunk up to the last of them among
themselves: each tells of its own revisions, and no revision is one release's twice. -/
theorem releases_divide_trunk (h : Run l head chain hist) :
    releases l = hist ∧ (chain.map Prod.fst).Nodup ∧
      ∃ gaps fresh, List.Forall₂ Tells hist gaps ∧ chain = fresh ++ gaps.flatten ∧
        ∀ last ∈ hist.head?, Trunk l.objects last.2.revision gaps.flatten := by
  have hkept := h.kept
  exact ⟨hkept.releases_eq, hkept.trunk.nodup, hkept.gaps⟩

end Runs

section Samples

/-! A first release, of the only revision there is. -/

def onlyRevision : Revision where
  id := .splat 2
  prev := none
  snapshots := ∅
  parents := []
  intent := none
  title := "start"
  body := none
  author := .splat 1
  time := 0
  ops := none
  flags := none

local instance onlyHash : Crypto := .ofTable [.revision onlyRevision]

def beforeCut : Ledger := ⟨[.revision onlyRevision], ∅, []⟩

def firstCut : Cut where
  name := "1.0"
  line := .splat 3
  signer := .splat 1
  time := 5
  principalName _ := some "ann"
  bodies := []
  trustedSigner _ := true
  id := .splat 40

def firstRelease : Release where
  name := "1.0"
  line := .splat 3
  revision := .splat 0
  since := none
  changelog := "1.0\n\n- start (ann)\n"
  attestations := none
  signer := .splat 1
  time := 5

def afterCut : Ledger :=
  ⟨[.revision onlyRevision], OrdMap.insert ∅ "releases" (ObjectId.splat 40).bytes,
    [(.splat 40, firstRelease)]⟩

theorem onlyTrunk : Trunk beforeCut.objects (.splat 0) [(.splat 0, onlyRevision)] :=
  .root (by decide) rfl

theorem releases_divide_trunk_first :
    releases afterCut = [(.splat 40, firstRelease)] ∧
      ([(ObjectId.splat 0, onlyRevision)].map Prod.fst).Nodup ∧
      ∃ gaps fresh, List.Forall₂ Tells [(.splat 40, firstRelease)] gaps ∧
        [(ObjectId.splat 0, onlyRevision)] = fresh ++ gaps.flatten ∧
        ∀ last ∈ [(ObjectId.splat 40, firstRelease)].head?,
          Trunk afterCut.objects last.2.revision gaps.flatten :=
  releases_divide_trunk
    (.cut (.init rfl onlyTrunk) (c := firstCut) rfl (by simp) (by decide +kernel) rfl)

end Samples

end Tessra.Daemon.Releases
