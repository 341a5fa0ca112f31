import Tessra.Core.Store
import Tessra.Data.Firsts

namespace Tessra.Daemon.Verifiers

open Tessra.Core Tessra.Data

/-! The index of attestations that the store's metadata keep, by subject and by body. -/

section Rows

/-- The rows of 32 bytes of a value, the last one as long as is left. -/
def chunksWithin : ℕ → Bytes → List Bytes
  | 0, _ | _, [] => []
  | fuel + 1, v => v.take 32 :: chunksWithin fuel (v.drop 32)

def chunks (v : Bytes) : List Bytes := chunksWithin v.length v

theorem length_flatMap_bytes (ids : List ObjectId) :
    (ids.flatMap ObjectId.bytes).length = 32 * ids.length := by
  induction ids with
  | nil => rfl
  | cons id rest ih =>
      rw [List.flatMap_cons, List.length_append, id.length_bytes, ih, List.length_cons]
      omega

theorem chunksWithin_succ (fuel : ℕ) {v : Bytes} (h : v ≠ []) :
    chunksWithin (fuel + 1) v = v.take 32 :: chunksWithin fuel (v.drop 32) := by
  cases v with
  | nil => exact absurd rfl h
  | cons b rest => rfl

theorem chunksWithin_flatMap (ids : List ObjectId) {fuel : ℕ} (h : ids.length ≤ fuel) :
    chunksWithin fuel (ids.flatMap ObjectId.bytes) = ids.map ObjectId.bytes := by
  induction ids generalizing fuel with
  | nil => cases fuel <;> rfl
  | cons id rest ih =>
      obtain ⟨fuel, rfl⟩ : ∃ n, fuel = n + 1 := ⟨fuel - 1, by rw [List.length_cons] at h; omega⟩
      have hrest : rest.length ≤ fuel := by simpa using h
      have hne : id.bytes ++ rest.flatMap ObjectId.bytes ≠ [] := by
        intro hnil
        have hlen := id.length_bytes
        rw [(List.append_eq_nil_iff.mp hnil).1] at hlen
        cases hlen
      rw [List.flatMap_cons, chunksWithin_succ fuel hne, List.take_left' id.length_bytes,
        List.drop_left' id.length_bytes, ih hrest, List.map_cons]

/-- Identifiers written one after the other are read back row by row. -/
theorem chunks_flatMap (ids : List ObjectId) :
    chunks (ids.flatMap ObjectId.bytes) = ids.map ObjectId.bytes :=
  chunksWithin_flatMap ids (by rw [length_flatMap_bytes]; omega)

end Rows

section Keys

def hexEncode (bytes : Bytes) : String :=
  spell (fun n => "0123456789abcdef".toList.getD n '0') bytes

def attSubjectKey (subject : Bytes) : String := "att:s:" ++ hexEncode subject

def attBodyKey (body : ObjectId) : String := "att:b:" ++ body.toHex

theorem flatMap_nibbles_injective :
    Function.Injective fun bytes : Bytes => bytes.flatMap Byte.nibbles := by
  intro bytes
  induction bytes with
  | nil =>
      intro bytes' h
      cases bytes' with
      | nil => rfl
      | cons b rest => simp [Byte.nibbles] at h
  | cons b rest ih =>
      intro bytes' h
      cases bytes' with
      | nil => simp [Byte.nibbles] at h
      | cons b' rest' =>
          simp only [List.flatMap_cons] at h
          obtain ⟨hb, hrest⟩ := List.append_inj h rfl
          rw [Byte.nibbles_injective hb, ih hrest]

theorem hexEncode_injective : Function.Injective hexEncode := by
  intro bytes bytes' h
  have halphabet : Function.Injective
      fun n : Fin 16 => "0123456789abcdef".toList.getD n '0' := by decide
  have hlist := congrArg String.toList h
  simp only [hexEncode, spell, String.toList_ofList] at hlist
  exact flatMap_nibbles_injective (List.map_injective_iff.mpr halphabet hlist)

theorem attSubjectKey_injective : Function.Injective attSubjectKey := by
  intro s s' h
  have hlist := congrArg String.toList h
  simp only [attSubjectKey, String.toList_append] at hlist
  exact hexEncode_injective (String.toList_inj.mp (List.append_cancel_left hlist))

theorem attBodyKey_injective : Function.Injective attBodyKey := by
  intro b b' h
  have hlist := congrArg String.toList h
  simp only [attBodyKey, String.toList_append] at hlist
  exact ObjectId.bytes_injective (hexEncode_injective
    (String.toList_inj.mp (List.append_cancel_left hlist)))

theorem attSubjectKey_ne_attBodyKey (s : Bytes) (b : ObjectId) :
    attSubjectKey s ≠ attBodyKey b := by
  intro h
  have hlist := congrArg (fun key => key.toList[4]?) h
  simp [attSubjectKey, attBodyKey] at hlist

/-- The index writes under no other keys. -/
def IsIndexKey (key : String) : Prop :=
  (∃ s, key = attSubjectKey s) ∨ ∃ b, key = attBodyKey b

theorem IsIndexKey.prefixed {key : String} (h : IsIndexKey key) :
    "att:".toList <+: key.toList := by
  rcases h with ⟨s, rfl⟩ | ⟨b, rfl⟩
  · exact ⟨"s:".toList ++ (hexEncode s).toList, by simp [attSubjectKey]⟩
  · exact ⟨"b:".toList ++ b.toHex.toList, by simp [attBodyKey]⟩

theorem IsIndexKey.ne_indexed {key : String} (h : IsIndexKey key) : key ≠ "att:indexed" := by
  rintro rfl
  rcases h with ⟨s, h⟩ | ⟨b, h⟩
  · have hlist := congrArg (fun key => key.toList[4]?) h
    simp [attSubjectKey] at hlist
  · have hlist := congrArg (fun key => key.toList[4]?) h
    simp [attBodyKey] at hlist

end Keys

section Index

abbrev Metadata := OrdMap String Bytes

def appendId (m : Metadata) (key : String) (id : ObjectId) : Metadata :=
  let cur := (m.get? key).getD []
  if (chunks cur).any fun c => c = id.bytes then m else m.insert key (cur ++ id.bytes)

def idsAt (m : Metadata) (key : String) : List ObjectId :=
  (chunks ((m.get? key).getD [])).filterMap ObjectId.fromSlice

/-- Index one stored attestation by its subject and bodies. -/
def indexAttestation (m : Metadata) (id : ObjectId) (att : Attestation) : Metadata :=
  let m := match att.subject with
    | some s => appendId m (attSubjectKey s) id
    | none => m
  match att.bodies with
  | some bodies => bodies.foldl (fun m b => appendId m (attBodyKey b) id) m
  | none => m

variable [Crypto] (readsAs : Bytes → Option Attestation)

/-- The attestation that an object's bytes decode to.  A blob is any bytes, those of an
attestation too, and `readsAs` is what they decode to. -/
def attestationIn : Object → Option Attestation
  | .attestation att => some att
  | .blob content => readsAs content
  | _ => none

def attestationAt (S : Store) (id : ObjectId) : Option Attestation :=
  (S.find? fun o => Crypto.objectId o = id).bind (attestationIn readsAs)

/-- Index whatever attestations an op puts. -/
def indexOpAttestations (S : Store) (m : Metadata) (effects : List Effect) : Metadata :=
  effects.foldl (fun m e =>
    match e with
    | .put id =>
        match attestationAt readsAs S id with
        | some att => indexAttestation m id att
        | none => m
    | _ => m) m

/-- The identifiers in the store, in order. -/
def ids (S : Store) : List ObjectId := sortedDedup (S.map Crypto.objectId)

/-- Build the index once for a store that predates it. -/
def ensureIndex (S : Store) (m : Metadata) : Metadata :=
  if (m.get? "att:indexed").isSome then m
  else
    let m := (ids S).foldl (fun m id =>
      match attestationAt readsAs S id with
      | some att => indexAttestation m id att
      | none => m) m
    m.insert "att:indexed" [Byte.ofNat 1]

/-- What attestations that apply to a revision can be on: it, its previous one, its
snapshots. -/
def subjectsOf (revId : ObjectId) (rev : Revision) : List Bytes :=
  revId.bytes :: (rev.prev.toList.map ObjectId.bytes ++ rev.snapshots.values.map ObjectId.bytes)

/-- Every attestation that could apply to a revision, by subject and by the bodies of its
index, in the order in which their set gives them. -/
def collectFor (m : Metadata) (revId : ObjectId) (rev : Revision) (bodies : List ObjectId) :
    List ObjectId :=
  firsts (fun id => id) (((subjectsOf revId rev).map attSubjectKey ++
    bodies.map attBodyKey).flatMap (idsAt m))

/-- Every attestation on a subject, any kind. -/
def attestationsOn (m : Metadata) (subject : Bytes) : StoreM (List (ObjectId × Attestation)) :=
  (idsAt m (attSubjectKey subject)).mapM fun id => do
    return (id, ← get Attestation id)

end Index

section Entries

/-- The keys that an attestation is listed under, with its identifier. -/
def entriesOf (o : ObjectId × Attestation) : List (String × ObjectId) :=
  (o.2.subject.toList.map attSubjectKey ++ (o.2.bodies.getD []).map attBodyKey).map (·, o.1)

def appendAll (m : Metadata) (entries : List (String × ObjectId)) : Metadata :=
  entries.foldl (fun m e => appendId m e.1 e.2) m

theorem appendAll_append (m : Metadata) (entries entries' : List (String × ObjectId)) :
    appendAll m (entries ++ entries') = appendAll (appendAll m entries) entries' :=
  List.foldl_append

theorem indexAttestation_eq (m : Metadata) (id : ObjectId) (att : Attestation) :
    indexAttestation m id att = appendAll m (entriesOf (id, att)) := by
  cases hs : att.subject <;> cases hb : att.bodies <;>
    simp [indexAttestation, entriesOf, appendAll, hs, hb, List.foldl_map]

theorem indexAll_eq (m : Metadata) (offered : List (ObjectId × Attestation)) :
    offered.foldl (fun m o => indexAttestation m o.1 o.2) m =
      appendAll m (offered.flatMap entriesOf) := by
  induction offered generalizing m with
  | nil => rfl
  | cons o rest ih =>
      rw [List.foldl_cons, ih, indexAttestation_eq, List.flatMap_cons, appendAll_append]

/-- The identifiers that the entries list under a key. -/
def listed (entries : List (String × ObjectId)) (key : String) : List ObjectId :=
  firsts (fun id => id) ((entries.filter fun e => e.1 = key).map Prod.snd)

/-- The index holds what the entries list, each identifier once under a key. -/
def Lists (m : Metadata) (entries : List (String × ObjectId)) : Prop :=
  ∀ key, IsIndexKey key → (m.get? key).getD [] = (listed entries key).flatMap ObjectId.bytes

variable {m : Metadata} {entries entries' : List (String × ObjectId)}

theorem Lists.idsAt (h : Lists m entries) {key : String} (hkey : IsIndexKey key) :
    idsAt m key = listed entries key := by
  rw [Verifiers.idsAt, h key hkey, chunks_flatMap, List.filterMap_map]
  exact (List.filterMap_congr fun id _ => ObjectId.fromSlice_bytes id).trans List.filterMap_some

theorem Lists.appendId (h : Lists m entries) (key : String) (id : ObjectId) :
    Lists (appendId m key id) (entries ++ [(key, id)]) := by
  intro key' hkey'
  by_cases hsame : key = key'
  · subst hsame
    have hlisted : listed (entries ++ [(key, id)]) key =
        if (listed entries key).any (· = id) then listed entries key
        else listed entries key ++ [id] := by
      rw [listed, List.filter_append, List.map_append, List.filter_singleton]
      simp only [decide_true, cond_true, List.map_singleton]
      exact firsts_concat _ id
    have hany : ((listed entries key).map ObjectId.bytes).any (fun c => c = id.bytes) =
        (listed entries key).any (· = id) := by
      rw [List.any_map]
      refine congrArg (List.any _) (funext fun x => ?_)
      exact decide_eq_decide.mpr ObjectId.bytes_injective.eq_iff
    rw [Verifiers.appendId, h key hkey', chunks_flatMap, hany, hlisted]
    split_ifs with hin
    · exact h key hkey'
    · rw [OrdMap.get?_insert, if_pos rfl, Option.getD_some, List.flatMap_append,
        List.flatMap_singleton]
  · have hlisted : listed (entries ++ [(key, id)]) key' = listed entries key' := by
      rw [listed, List.filter_append, List.filter_singleton, decide_eq_false hsame, cond_false,
        List.append_nil, listed]
    rw [hlisted, ← h key' hkey', Verifiers.appendId]
    split_ifs
    · rfl
    · rw [OrdMap.get?_insert, if_neg hsame]

theorem Lists.appendAll (h : Lists m entries) (entries' : List (String × ObjectId)) :
    Lists (appendAll m entries') (entries ++ entries') := by
  induction entries' generalizing m entries with
  | nil => rwa [List.append_nil]
  | cons e rest ih =>
      have hrest := ih (h.appendId e.1 e.2)
      rwa [List.append_assoc] at hrest

/-- Other keys of the metadata do not matter. -/
theorem Lists.insert (h : Lists m entries) {key : String} (hkey : ¬ IsIndexKey key)
    (value : Bytes) : Lists (m.insert key value) entries := by
  intro key' hkey'
  have hne : key ≠ key' := fun heq => hkey (heq ▸ hkey')
  rw [OrdMap.get?_insert, if_neg hne, h key' hkey']

theorem lists_empty : Lists ∅ [] := fun _ _ => rfl

theorem mem_firsts_id {l : List ObjectId} {id : ObjectId} :
    id ∈ firsts (fun id => id) l ↔ id ∈ l := by
  have h : id ∈ (firsts (fun id => id) l).map (fun id => id) ↔ id ∈ l.map fun id => id :=
    mem_keys_firsts
  simpa using h

theorem nodup_firsts_id (l : List ObjectId) : (firsts (fun id => id) l).Nodup := by
  have h := nodup_keys_firsts (fun id : ObjectId => id) l
  simpa using h

theorem mem_listed {key : String} {id : ObjectId} :
    id ∈ listed entries key ↔ (key, id) ∈ entries := by
  simp [listed, mem_firsts_id]

theorem subjectKey_mem_entriesOf {o : ObjectId × Attestation} {s : Bytes} {id : ObjectId} :
    (attSubjectKey s, id) ∈ entriesOf o ↔ o.1 = id ∧ o.2.subject = some s := by
  simp only [entriesOf, List.mem_map, List.mem_append, Prod.mk.injEq, Option.mem_toList]
  constructor
  · rintro ⟨key, ⟨s', hs', rfl⟩ | ⟨b, _, rfl⟩, hkey, rfl⟩
    · exact ⟨rfl, attSubjectKey_injective hkey ▸ hs'⟩
    · exact absurd hkey.symm (attSubjectKey_ne_attBodyKey s b)
  · rintro ⟨rfl, hs⟩
    exact ⟨_, .inl ⟨s, hs, rfl⟩, rfl, rfl⟩

theorem bodyKey_mem_entriesOf {o : ObjectId × Attestation} {b id : ObjectId} :
    (attBodyKey b, id) ∈ entriesOf o ↔ o.1 = id ∧ b ∈ o.2.bodies.getD [] := by
  simp only [entriesOf, List.mem_map, List.mem_append, Prod.mk.injEq, Option.mem_toList]
  constructor
  · rintro ⟨key, ⟨s', _, rfl⟩ | ⟨b', hb', rfl⟩, hkey, rfl⟩
    · exact absurd hkey (attSubjectKey_ne_attBodyKey s' b)
    · exact ⟨rfl, attBodyKey_injective hkey ▸ hb'⟩
  · rintro ⟨rfl, hb⟩
    exact ⟨_, .inr ⟨b, hb, rfl⟩, rfl, rfl⟩

end Entries

section Runs

variable [Crypto] (readsAs : Bytes → Option Attestation)

/-- What there is to index among identifiers. -/
def offers (S : Store) (ids : List ObjectId) : List (ObjectId × Attestation) :=
  ids.filterMap fun id => (attestationAt readsAs S id).map (id, ·)

def putIds (effects : List Effect) : List ObjectId :=
  effects.filterMap fun
    | .put id => some id
    | _ => none

/-- Runs of a repository's store and metadata, with the attestations there were to index:
those that committed ops put and, at the first opening, all that the store held. -/
inductive Run : Store → Metadata → List (ObjectId × Attestation) → Prop
  | init (S : Store) (repoId : Bytes) : Run S (OrdMap.insert ∅ "repo_id" repoId) []
  | put {S : Store} {m : Metadata} {found : List (ObjectId × Attestation)}
      (h : Run S m found) (o : Object) : Run (S ++ [o]) m found
  /-- The rest of the metadata, under keys of their own. -/
  | note {S : Store} {m : Metadata} {found : List (ObjectId × Attestation)}
      (h : Run S m found) {key : String} (hkey : ¬ "att:".toList <+: key.toList)
      (value : Bytes) : Run S (m.insert key value) found
  | commit {S : Store} {m : Metadata} {found : List (ObjectId × Attestation)}
      (h : Run S m found) (effects : List Effect) :
      Run S (indexOpAttestations readsAs S m effects)
        (found ++ offers readsAs S (putIds effects))
  | opened {S : Store} {m : Metadata} {found : List (ObjectId × Attestation)}
      (h : Run S m found) (hnew : m.get? "att:indexed" = none) :
      Run S (ensureIndex readsAs S m) (found ++ offers readsAs S (ids S))
  | reopened {S : Store} {m : Metadata} {found : List (ObjectId × Attestation)}
      (h : Run S m found) (hindexed : (m.get? "att:indexed").isSome) :
      Run S (ensureIndex readsAs S m) found

variable {readsAs} {S : Store} {m : Metadata} {found : List (ObjectId × Attestation)}

theorem foldl_offers (ids : List ObjectId) (m : Metadata) :
    ids.foldl (fun m id =>
      match attestationAt readsAs S id with
      | some att => indexAttestation m id att
      | none => m) m = appendAll m ((offers readsAs S ids).flatMap entriesOf) := by
  rw [← indexAll_eq]
  induction ids generalizing m with
  | nil => rfl
  | cons id rest ih =>
      rw [List.foldl_cons, ih]
      cases hatt : attestationAt readsAs S id <;> simp [offers, hatt]

theorem indexOpAttestations_eq (effects : List Effect) (m : Metadata) :
    indexOpAttestations readsAs S m effects =
      appendAll m ((offers readsAs S (putIds effects)).flatMap entriesOf) := by
  rw [← foldl_offers]
  induction effects generalizing m with
  | nil => rfl
  | cons e rest ih =>
      unfold indexOpAttestations at ih ⊢
      rw [List.foldl_cons]
      cases e <;> exact ih _

theorem Run.lists (h : Run readsAs S m found) : Lists m (found.flatMap entriesOf) := by
  induction h with
  | init S repoId =>
      refine lists_empty.insert (fun hkey => ?_) repoId
      have hprefix := hkey.prefixed
      simp at hprefix
  | put _ _ ih => exact ih
  | note _ hkey value ih => exact ih.insert (fun hindex => hkey hindex.prefixed) value
  | commit _ effects ih =>
      rw [indexOpAttestations_eq, List.flatMap_append]
      exact ih.appendAll _
  | opened _ hnew ih =>
      rw [ensureIndex, hnew, List.flatMap_append]
      simp only [foldl_offers]
      exact (ih.appendAll _).insert (fun hkey => hkey.ne_indexed rfl) _
  | reopened _ hindexed ih =>
      rw [ensureIndex, if_pos hindexed]
      exact ih

theorem attestationAt_append {id : ObjectId} {att : Attestation} {S S' : Store}
    (h : attestationAt readsAs S id = some att) :
    attestationAt readsAs (S ++ S') id = some att := by
  rw [attestationAt, Option.bind_eq_some_iff] at h ⊢
  obtain ⟨o, ho, hatt⟩ := h
  exact ⟨o, by rw [List.find?_append, ho, Option.some_or], hatt⟩

theorem attestationAt_of_offers {ids : List ObjectId} {o : ObjectId × Attestation}
    (h : o ∈ offers readsAs S ids) : attestationAt readsAs S o.1 = some o.2 := by
  obtain ⟨id, _, heq⟩ := List.mem_filterMap.mp h
  obtain ⟨att, hatt, rfl⟩ := Option.map_eq_some_iff.mp heq
  exact hatt

/-- What was found stays what the store holds. -/
theorem Run.stored (h : Run readsAs S m found) :
    ∀ o ∈ found, attestationAt readsAs S o.1 = some o.2 := by
  induction h with
  | init => simp
  | put _ _ ih => exact fun o ho => attestationAt_append (ih o ho)
  | note _ _ _ ih | reopened _ _ ih => exact ih
  | commit _ _ ih | opened _ _ ih =>
      intro o ho
      rcases List.mem_append.mp ho with ho | ho
      · exact ih o ho
      · exact attestationAt_of_offers ho

/-- The attestation names the revision, its previous one, one of its snapshots, or a body
that its index carries. -/
def Applies (revId : ObjectId) (rev : Revision) (idx : Option NodeIndex) (att : Attestation) :
    Prop :=
  (∃ s ∈ att.subject, s ∈ subjectsOf revId rev) ∨
    ∃ b ∈ att.bodies.getD [], ∃ index ∈ idx, ∃ n ∈ index.nodes, n.body = b

theorem Run.mem_subject (h : Run readsAs S m found) (s : Bytes) {id : ObjectId} :
    id ∈ idsAt m (attSubjectKey s) ↔ ∃ att, (id, att) ∈ found ∧ att.subject = some s := by
  rw [h.lists.idsAt (.inl ⟨s, rfl⟩), mem_listed, List.mem_flatMap]
  simp only [subjectKey_mem_entriesOf]
  constructor
  · rintro ⟨o, ho, rfl, hs⟩
    exact ⟨o.2, ho, hs⟩
  · rintro ⟨att, ho, hs⟩
    exact ⟨_, ho, rfl, hs⟩

theorem Run.mem_body (h : Run readsAs S m found) (b : ObjectId) {id : ObjectId} :
    id ∈ idsAt m (attBodyKey b) ↔ ∃ att, (id, att) ∈ found ∧ b ∈ att.bodies.getD [] := by
  rw [h.lists.idsAt (.inr ⟨b, rfl⟩), mem_listed, List.mem_flatMap]
  simp only [bodyKey_mem_entriesOf]
  constructor
  · rintro ⟨o, ho, rfl, hb⟩
    exact ⟨o.2, ho, hb⟩
  · rintro ⟨att, ho, hb⟩
    exact ⟨_, ho, rfl, hb⟩

theorem Run.mem_collectFor (h : Run readsAs S m found) (revId : ObjectId) (rev : Revision)
    {idx : Option NodeIndex} {bodies : List ObjectId}
    (hbodies : ∀ b, b ∈ bodies ↔ ∃ index ∈ idx, ∃ n ∈ index.nodes, n.body = b) {id : ObjectId} :
    id ∈ collectFor m revId rev bodies ↔
      ∃ att, (id, att) ∈ found ∧ Applies revId rev idx att := by
  simp only [collectFor, mem_firsts_id, List.mem_flatMap, List.mem_append, List.mem_map]
  constructor
  · rintro ⟨key, ⟨s, hs, rfl⟩ | ⟨b, hb, rfl⟩, hid⟩
    · obtain ⟨att, hatt, hon⟩ := (h.mem_subject s).mp hid
      exact ⟨att, hatt, .inl ⟨s, hon, hs⟩⟩
    · obtain ⟨att, hatt, hon⟩ := (h.mem_body b).mp hid
      exact ⟨att, hatt, .inr ⟨b, hon, (hbodies b).mp hb⟩⟩
  · rintro ⟨att, hatt, ⟨s, hon, hs⟩ | ⟨b, hon, hb⟩⟩
    · exact ⟨_, .inl ⟨s, hs, rfl⟩, (h.mem_subject s).mpr ⟨att, hatt, hon⟩⟩
    · exact ⟨_, .inr ⟨b, (hbodies b).mpr hb, rfl⟩, (h.mem_body b).mpr ⟨att, hatt, hon⟩⟩

/-- Whatever was put, committed and opened, each attestation that applies to a revision is
collected for it, once, and nothing else is. -/
theorem collected_exact (h : Run readsAs S m found) (revId : ObjectId) (rev : Revision)
    {idx : Option NodeIndex} {bodies : List ObjectId}
    (hbodies : ∀ b, b ∈ bodies ↔ ∃ index ∈ idx, ∃ n ∈ index.nodes, n.body = b) :
    (collectFor m revId rev bodies).Nodup ∧
      (∀ id, id ∈ collectFor m revId rev bodies ↔
        ∃ att, (id, att) ∈ found ∧ Applies revId rev idx att) ∧
      ∀ o ∈ found, attestationAt readsAs S o.1 = some o.2 :=
  ⟨nodup_firsts_id _, fun _ => h.mem_collectFor revId rev hbodies, h.stored⟩

end Runs

section Samples

/-! A test run of a body on a revision, indexed when an op puts it. -/

def ranTests : Attestation where
  kind := "tests.pass"
  subject := some (ObjectId.splat 5).bytes
  bodies := some [.splat 6]
  subjectType := none
  scope := none
  result := .bool true
  env := none
  verifier := .splat 1
  runner := none
  evidence := none
  time := 0
  sigkind := "ed25519"
  sig := none

def ranRevision : Revision where
  id := .splat 2
  prev := none
  snapshots := ∅
  parents := []
  intent := none
  title := ""
  body := none
  author := .splat 1
  time := 0
  ops := none
  flags := none

local instance ranHash : Crypto := .ofTable [.attestation ranTests]

def ranMetadata : Metadata :=
  indexOpAttestations (fun _ => none) [.attestation ranTests] (OrdMap.insert ∅ "repo_id" [])
    [.put (.splat 0)]

theorem ranRun : Run (fun _ => none) [.attestation ranTests] ranMetadata
    [(.splat 0, ranTests)] :=
  (Run.init _ []).commit [.put (.splat 0)]

theorem collected_exact_ran :
    ((collectFor ranMetadata (.splat 5) ranRevision []).Nodup ∧
      (∀ id, id ∈ collectFor ranMetadata (.splat 5) ranRevision [] ↔
        ∃ att, (id, att) ∈ [(ObjectId.splat 0, ranTests)] ∧
          Applies (.splat 5) ranRevision none att) ∧
      ∀ o ∈ [(ObjectId.splat 0, ranTests)],
        attestationAt (fun _ => none) [.attestation ranTests] o.1 = some o.2) ∧
    collectFor ranMetadata (.splat 5) ranRevision [] = [.splat 0] :=
  ⟨collected_exact ranRun (.splat 5) ranRevision (by simp), by decide⟩

end Samples

end Tessra.Daemon.Verifiers
