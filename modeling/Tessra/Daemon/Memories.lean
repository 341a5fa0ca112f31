import Mathlib.Logic.Relation
import Tessra.Core.Store
import Tessra.Oplog.Standard
import Tessra.Oplog.View

namespace Tessra.Daemon.Memories

open Tessra.Core Tessra.Data Tessra.Oplog Tessra.Oplog.Standard Relation

/-! What the repository remembers: memories that replace one another, and the approval requests
among them, from asking over an answer to closing. -/

section Verbs

variable [Crypto]

/-- The objects that are stored, and what the view has at every entity. -/
structure Board where
  objects : Store
  entities : OrdMap EntityId Pointer

def memoryAt (S : Store) : Pointer → Option (ObjectId × Memory)
  | .id oid =>
      match S.find? fun o => Crypto.objectId o = oid with
      | some (.memory m) => some (oid, m)
      | _ => none
  | .conflict _ => none

/-- The memories of a board with their current versions, in the order of their ids. -/
def Board.memories (b : Board) : List (EntityId × ObjectId × Memory) :=
  b.entities.entries.filterMap fun e => (memoryAt b.objects e.2).map fun v => (e.1, v)

/-- Put versions of memories and point the memories to them, in one op. -/
def Board.commit (b : Board) (writes : List (EntityId × Memory)) : Board :=
  writes.foldl (fun b w => ⟨b.objects ++ [.memory w.2],
    b.entities.insert w.1 (.id (Crypto.objectId (.memory w.2)))⟩) b

structure Caller where
  principal : EntityId
  kind : String
  cap : Option ObjectId

def memoryKinds : List String :=
  ["fact", "decision", "convention", "gotcha", "preference", "task", "question"]

def matchesPrefix (id : EntityId) (text : String) : Bool :=
  text.toList.isPrefixOf id.toLetters.toList

def findMemory (b : Board) (text : String) : Option (EntityId × ObjectId × Memory) :=
  b.memories.find? fun v => matchesPrefix v.1 text

/-- What `remember` is given. The confidence is in thousandths. -/
structure Note where
  kind : Option String
  body : Option String
  scope : Option (Option String × Option String)
  supersedes : Option String
  confidence : ℕ
  visibility : Option String

/-- The scopes that a capability lets its session record memories in. -/
def checkScope (b : Board) (cap : Option ObjectId) (kind : String) : Except Error Unit :=
  match cap with
  | none => .ok ()
  | some id =>
      match (get Capability id).value b.objects with
      | .error e => .error e
      | .ok c =>
          match c.write.memoryScopes with
          | none => .ok ()
          | some scopes =>
              if kind ∈ scopes then .ok ()
              else
                let allowed := ", ".intercalate
                  (scopes.map fun s => if s = "node" then "unit" else s)
                let instead :=
                  if kind = "repo" then
                    "repository-wide memory is the owner's: run `tessra remember` without " ++
                      "--agent, or scope this one with --scope-kind path --scope-ref <path>"
                  else "use one of those"
                .error (.verb "SCOPE"
                  s!"this session records {allowed} memories, not {kind}; {instead}")

/-- The memory that a new one takes the place of. -/
def superseded (b : Board) (actor : Caller) : Option String →
    Except Error (Option (EntityId × ObjectId × Memory))
  | none => .ok none
  | some text =>
      match findMemory b text with
      | none => .error (.verb "NOT_FOUND" s!"no memory {text} to supersede")
      | some (id, oid, old) =>
          if old.author ≠ actor.principal ∧ actor.kind ≠ "daemon" then
            .error (.verb "SCOPE" "only a memory's author or the owner supersedes it")
          else .ok (some (id, oid, old))

/-- A later version of a memory, with another status. -/
def later (m : Memory) (oid : ObjectId) (status body : String) : Memory :=
  { m with prev := some oid, status := status, body := body }

/-- Record a memory, about the content that `current` finds in a scope, and retire the one that
it replaces. -/
def remember (current : String → String → Option ObjectId) (b : Board) (actor : Caller)
    (note : Note) (fresh : EntityId) (now : ℤ) : Except Error (List (EntityId × Memory)) :=
  let kind := note.kind.getD "fact"
  if kind ∉ memoryKinds then
    let kinds := ", ".intercalate memoryKinds
    .error (.verb "ARGS" s!"memory kind {kind}; use one of {kinds}")
  else
    match note.body with
    | none => .error (.verb "ARGS" "remember needs body")
    | some body =>
        let scope := note.scope.getD (some "repo", some "")
        let named := scope.1.getD "repo"
        let ref := scope.2.getD ""
        let scopeKind := if named = "unit" then "node" else named
        match checkScope b actor.cap scopeKind with
        | .error e => .error e
        | .ok () =>
            match superseded b actor note.supersedes with
            | .error e => .error e
            | .ok old =>
                let m : Memory := {
                  id := fresh, prev := none, kind := kind,
                  scope := ⟨scopeKind, .text ref⟩, body := body,
                  anchor := current scopeKind ref, confidence := note.confidence,
                  author := actor.principal, time := now, expires := none, proposed := none,
                  status := "active", links := old.map fun v => [v.2.1],
                  visibility := note.visibility.getD "shared" }
                .ok ((fresh, m) :: old.toList.map fun v =>
                  (v.1, later v.2.2 v.2.1 "superseded" v.2.2.body))

/-- Take a memory back. -/
def retireMemory (b : Board) (actor : Caller) (text : String) :
    Except Error (List (EntityId × Memory)) :=
  match findMemory b text with
  | none => .error (.verb "NOT_FOUND" s!"no memory {text}")
  | some (id, oid, old) =>
      if old.author ≠ actor.principal ∧ actor.kind ≠ "daemon" then
        .error (.verb "SCOPE" "only a memory's author or the owner retires it")
      else if old.status = "retired" then .ok []
      else .ok [(id, later old oid "retired" old.body)]

/-- An approval clause always asks; a judged clause only when a judge said no. -/
def needsHuman (u : Unmet) : Bool :=
  decide ("approved(".toList <:+: u.clause.toList) ||
    (decide ("judge(".toList <:+: u.clause.toList) &&
      "a judge said no".toList.isPrefixOf u.reason.toList)

def asksFor (rev : ObjectId) (m : Memory) : Bool :=
  m.kind == "question" && m.status == "active" && (m.links.getD []).contains rev &&
    "Approval needed".toList.isPrefixOf m.body.toList

/-- What a request tells of the change besides its clauses. -/
structure Told where
  author : String
  level : String
  score : ℕ
  judges : List String
  humans : List String

def requestBody (id : EntityId) (rev : Revision) (clauses : List String) (told : Told) : String :=
  let said := "; ".intercalate told.judges
  let judges := if told.judges.isEmpty then "" else s!" Judges: {said}."
  let humans := if told.humans.isEmpty then "human" else "|".intercalate told.humans
  let asked := "; ".intercalate clauses
  s!"Approval needed for change {rev.id} ({rev.title}) by {told.author}: {asked}. " ++
    s!"Risk {told.level} ({told.score}).{judges} " ++
    s!"Reply: tessra --as <{humans}> approve --request {id}"

/-- Ask for the approval that clauses need, once for a revision: the request that is open, or a
new one. -/
def ensureApprovalRequest (b : Board) (daemon : EntityId) (revId : ObjectId) (rev : Revision)
    (unmet : List Unmet) (told : Told) (fresh : EntityId) (now : ℤ) :
    List (EntityId × Memory) :=
  if unmet.any needsHuman then
    match b.memories.find? fun v => asksFor revId v.2.2 with
    | some _ => []
    | none =>
        let clauses := (unmet.filter needsHuman).map fun u => s!"{u.clause}: {u.reason}"
        [(fresh, {
          id := fresh, prev := none, kind := "question",
          scope :=
            match rev.intent with
            | some i => ⟨"intent", .bytes i.bytes⟩
            | none => ⟨"repo", .text ""⟩,
          body := requestBody fresh rev clauses told, anchor := none, confidence := 1000,
          author := daemon, time := now, expires := none, proposed := none, status := "active",
          links := some [revId], visibility := "shared" })]
  else []

/-- What a human answers: the revision that is attested, and the request that is closed. -/
def approve (b : Board) (actor : Caller) (name : String) (request : String) (decision : Bool)
    (note : Option String) : Except Error (ObjectId × List (EntityId × Memory)) :=
  if actor.kind ≠ "human" then
    .error (.verb "SCOPE" ("only a human principal approves; the owner grants one with " ++
      "`tessra grant --human <name>` and acts with `--as <name>`"))
  else
    match b.memories.find? fun v => matchesPrefix v.1 request && v.2.2.kind == "question" with
    | none => .error (.verb "NOT_FOUND" s!"no approval request {request}")
    | some (id, oid, q) =>
        match (q.links.getD []).head? with
        | none => .error (.verb "REQUEST" "the request names no revision")
        | some revId =>
            match (get Revision revId).value b.objects with
            | .error e => .error e
            | .ok _ =>
                let said := note.elim "" fun n => s!" ({n})"
                let answer := if decision then "approved" else "declined"
                let status := if decision then "resolved" else "declined"
                .ok (revId, [(id, later q oid status
                  (q.body ++ s!" Answered by {name}: {answer}{said}"))])

/-- Close every open request that is said to be over, in one op. -/
def closeRequestsWhere (b : Board) (moot : Memory → Bool) : List (EntityId × Memory) :=
  (b.memories.filter fun v => v.2.2.kind == "question" && v.2.2.status == "active" &&
    "Approval needed".toList.isPrefixOf v.2.2.body.toList && moot v.2.2).map fun v =>
      (v.1, later v.2.2 v.2.1 "resolved" (v.2.2.body ++ " Landed."))

end Verbs

section Runs

variable [Crypto]

/-- The board shows a version of a memory. -/
def Board.Shows (b : Board) (id : EntityId) (oid : ObjectId) (m : Memory) : Prop :=
  b.entities.get? id = some (.id oid) ∧ .memory m ∈ b.objects ∧ Crypto.objectId (.memory m) = oid

/-- One op on the memories, or on something else. A new memory has an id that is new, and what
else is moved is no memory. -/
inductive Step (b : Board) : Board → Prop
  | put (o : Object) : Step b ⟨b.objects ++ [o], b.entities⟩
  | other {id : EntityId} {o : Object} : o ∈ b.objects → (∀ m, o ≠ .memory m) →
      (∀ oid m, ¬ b.Shows id oid m) →
      Step b ⟨b.objects, b.entities.insert id (.id (Crypto.objectId o))⟩
  | task {fresh : EntityId} {m : Memory} : b.entities.get? fresh = none → m.kind = "task" →
      Step b (b.commit [(fresh, m)])
  | remember {current : String → String → Option ObjectId} {actor : Caller} {note : Note}
      {fresh : EntityId} {now : ℤ} {writes : List (EntityId × Memory)} :
      b.entities.get? fresh = none → remember current b actor note fresh now = .ok writes →
      Step b (b.commit writes)
  | retire {actor : Caller} {text : String} {writes : List (EntityId × Memory)} :
      retireMemory b actor text = .ok writes → Step b (b.commit writes)
  | ask {daemon fresh : EntityId} {rev : Revision} {unmet : List Unmet} {told : Told} {now : ℤ} :
      .revision rev ∈ b.objects → b.entities.get? fresh = none →
      Step b (b.commit (ensureApprovalRequest b daemon (Crypto.objectId (.revision rev)) rev unmet
        told fresh now))
  | approve {actor : Caller} {name request : String} {decision : Bool} {note : Option String}
      {revId : ObjectId} {writes : List (EntityId × Memory)} :
      approve b actor name request decision note = .ok (revId, writes) → Step b (b.commit writes)
  | close (moot : Memory → Bool) : Step b (b.commit (closeRequestsWhere b moot))

/-- A version that came after another one: nothing but its status is changed, and its body goes
on. -/
def Follows (m m' : Memory) : Prop :=
  ∃ status ∈ ["superseded", "retired", "resolved", "declined"], ∃ said,
    m' = later m (Crypto.objectId (.memory m)) status (m.body ++ said)

/-- What verbs write: the next versions of memories, and new memories, of which one that asks for
the approval of a revision comes alone, when none does. -/
structure Writes (F : Store) (b : Board) (writes : List (EntityId × Memory)) : Prop where
  nodup : (writes.map Prod.fst).Nodup
  cases : ∀ w ∈ writes, (∃ oid m, b.Shows w.1 oid m ∧ Follows m w.2) ∨
    b.entities.get? w.1 = none ∧ ∀ r, .revision r ∈ F →
      asksFor (Crypto.objectId (.revision r)) w.2 = true → writes = [w] ∧
        ∀ id oid m, b.Shows id oid m → asksFor (Crypto.objectId (.revision r)) m = false

variable {b c : Board} {writes : List (EntityId × Memory)} {id id' : EntityId}
  {oid oid' : ObjectId} {m m' : Memory}

theorem shows_of_mem (h : (id, oid, m) ∈ b.memories) : b.Shows id oid m := by
  obtain ⟨⟨id', p⟩, he, hm⟩ := List.mem_filterMap.mp h
  obtain ⟨v, hv, heq⟩ := Option.map_eq_some_iff.mp hm
  obtain ⟨rfl, rfl⟩ := Prod.mk.inj heq
  cases p with
  | conflict ids => cases hv
  | id i =>
      rw [memoryAt] at hv
      split at hv
      · rename_i m' hfind
        obtain ⟨rfl, rfl⟩ := Prod.mk.inj (Option.some.inj hv)
        exact ⟨OrdMap.mem_entries.mp he, List.mem_of_find?_eq_some hfind,
          by simpa using List.find?_some hfind⟩
      · cases hv

theorem mem_of_shows (hfree : CollisionFree b.objects) (h : b.Shows id oid m) :
    (id, oid, m) ∈ b.memories := by
  obtain ⟨hget, hmem, rfl⟩ := h
  refine List.mem_filterMap.mpr ⟨⟨id, .id (Crypto.objectId (.memory m))⟩,
    OrdMap.mem_entries.mpr hget, ?_⟩
  have hfind := StoreM.find?_objectId hfree hmem
  simp only [memoryAt, hfind, Option.map_some]

theorem shows_of_find {q : EntityId × ObjectId × Memory → Bool}
    (h : b.memories.find? q = some (id, oid, m)) : b.Shows id oid m :=
  shows_of_mem (List.mem_of_find?_eq_some h)

theorem follows_later (h : b.Shows id oid m) (status : String)
    (hstatus : status ∈ ["superseded", "retired", "resolved", "declined"]) (said : String) :
    Follows m (later m oid status (m.body ++ said)) :=
  ⟨status, hstatus, said, by rw [h.2.2]⟩

theorem Follows.status_ne (h : Follows m m') : m'.status ≠ "active" := by
  obtain ⟨status, hstatus, said, rfl⟩ := h
  intro hactive
  have hbad : "active" ∈ ["superseded", "retired", "resolved", "declined"] := hactive ▸ hstatus
  exact absurd hbad (by decide)

omit [Crypto] in
theorem status_of_asks {rev : ObjectId} (h : asksFor rev m = true) : m.status = "active" := by
  simp only [asksFor, Bool.and_eq_true, beq_iff_eq] at h
  exact h.1.1.2

theorem objects_commit (b : Board) (writes : List (EntityId × Memory)) :
    (b.commit writes).objects = b.objects ++ writes.map fun w => .memory w.2 := by
  unfold Board.commit
  induction writes generalizing b with
  | nil => exact (List.append_nil _).symm
  | cons w rest ih =>
      rw [List.foldl_cons, ih, List.map_cons, List.append_assoc]
      rfl

theorem get_commit_of_notMem (hid : id ∉ writes.map Prod.fst) :
    (b.commit writes).entities.get? id = b.entities.get? id := by
  unfold Board.commit
  induction writes generalizing b with
  | nil => rfl
  | cons w rest ih =>
      rw [List.map_cons, List.mem_cons, not_or] at hid
      rw [List.foldl_cons, ih hid.2, OrdMap.get?_insert, if_neg (Ne.symm hid.1)]

theorem get_commit_of_mem (hnodup : (writes.map Prod.fst).Nodup) (hw : (id, m) ∈ writes) :
    (b.commit writes).entities.get? id = some (.id (Crypto.objectId (.memory m))) := by
  unfold Board.commit
  induction writes generalizing b with
  | nil => cases hw
  | cons w rest ih =>
      obtain ⟨hfirst, hrest⟩ := List.nodup_cons.mp hnodup
      rw [List.foldl_cons]
      rcases List.mem_cons.mp hw with rfl | hw
      · have hstay := get_commit_of_notMem (b := ⟨b.objects ++ [.memory m], b.entities.insert id
          (.id (Crypto.objectId (.memory m)))⟩) hfirst
        rw [Board.commit] at hstay
        rw [hstay, OrdMap.get?_insert, if_pos rfl]
      · exact ih hrest hw

variable {F : Store}

theorem writes_next (h : b.Shows id oid m) (status : String)
    (hstatus : status ∈ ["superseded", "retired", "resolved", "declined"]) (said : String) :
    Writes F b [(id, later m oid status (m.body ++ said))] where
  nodup := List.nodup_singleton id
  cases := by
    intro w hw
    obtain rfl := List.mem_singleton.mp hw
    exact .inl ⟨oid, m, h, follows_later h status hstatus said⟩

theorem superseded_shows {actor : Caller} {text : Option String}
    {old : Option (EntityId × ObjectId × Memory)} (h : superseded b actor text = .ok old) :
    ∀ v ∈ old, b.Shows v.1 v.2.1 v.2.2 := by
  intro v hv
  obtain rfl := hv
  unfold superseded at h
  split at h
  · cases h
  · split at h
    · cases h
    · rename_i hfind
      split_ifs at h
      cases h
      exact shows_of_find hfind

theorem writes_remember (hfree : CollisionFree F) (hsub : b.objects ⊆ F)
    {current : String → String → Option ObjectId} {actor : Caller} {note : Note}
    {fresh : EntityId} {now : ℤ} (hfresh : b.entities.get? fresh = none)
    (h : remember current b actor note fresh now = .ok writes) : Writes F b writes := by
  unfold remember at h
  dsimp only at h
  split at h
  · cases h
  split at h
  · cases h
  split at h
  · cases h
  split at h
  · cases h
  rename_i old hold
  have hshows := superseded_shows hold
  obtain rfl := Except.ok.inj h
  have hnext : ∀ v ∈ old, b.Shows v.1 v.2.1 v.2.2 ∧
      Follows v.2.2 (later v.2.2 v.2.1 "superseded" v.2.2.body) := by
    intro v hv
    have hfollows := follows_later (hshows v hv) "superseded" (by decide) ""
    rw [String.append_empty] at hfollows
    exact ⟨hshows v hv, hfollows⟩
  refine ⟨?_, fun w hw => ?_⟩
  · cases old with
    | none => exact List.nodup_singleton fresh
    | some v =>
        have hne : fresh ≠ v.1 := by
          rintro rfl
          rw [(hshows v rfl).1] at hfresh
          cases hfresh
        simpa using hne
  · rcases List.mem_cons.mp hw with rfl | hw
    · refine .inr ⟨hfresh, fun r hr hasks => ?_⟩
      -- What a new memory links is a memory, and no revision.
      simp only [asksFor, Bool.and_eq_true] at hasks
      have hlink := hasks.1.2
      cases old with
      | none => simp at hlink
      | some v =>
          obtain ⟨-, hmem, hid⟩ := hshows v rfl
          have hsame : Crypto.objectId (.revision r) = v.2.1 := by simpa using hlink
          rw [← hid] at hsame
          have hobject := hfree _ hr _ (hsub hmem) hsame
          cases hobject
    · obtain ⟨v, hv, rfl⟩ := List.mem_map.mp hw
      exact .inl ⟨v.2.1, v.2.2, hnext v (Option.mem_toList.mp hv)⟩

theorem writes_retire {actor : Caller} {text : String}
    (h : retireMemory b actor text = .ok writes) : Writes F b writes := by
  unfold retireMemory at h
  split at h
  · cases h
  · rename_i id oid old hfind
    split_ifs at h
    · obtain rfl := Except.ok.inj h
      exact ⟨.nil, fun _ hw => nomatch hw⟩
    · obtain rfl := Except.ok.inj h
      have hnext := writes_next (F := F) (shows_of_find hfind) "retired" (by decide) ""
      rwa [String.append_empty] at hnext

theorem writes_ask (hfree : CollisionFree b.objects) {daemon fresh : EntityId} {rev : Revision}
    {unmet : List Unmet} {told : Told} {now : ℤ} (hfresh : b.entities.get? fresh = none) :
    Writes F b (ensureApprovalRequest b daemon (Crypto.objectId (.revision rev)) rev unmet told
      fresh now) := by
  unfold ensureApprovalRequest
  split_ifs
  · split
    · exact ⟨.nil, fun _ hw => nomatch hw⟩
    · rename_i hnone
      refine ⟨List.nodup_singleton fresh, fun w hw => .inr ⟨?_, fun r hr hasks => ⟨?_, ?_⟩⟩⟩
      · obtain rfl := List.mem_singleton.mp hw
        exact hfresh
      · rw [List.mem_singleton.mp hw]
      · intro id oid m hm
        obtain rfl := List.mem_singleton.mp hw
        have hsame : Crypto.objectId (.revision r) = Crypto.objectId (.revision rev) := by
          simp only [asksFor, Bool.and_eq_true] at hasks
          simpa using hasks.1.2
        rw [hsame]
        have hnot := List.find?_eq_none.mp hnone _ (mem_of_shows hfree hm)
        exact eq_false_of_ne_true hnot
  · exact ⟨.nil, fun _ hw => nomatch hw⟩

theorem writes_approve {actor : Caller} {name request : String} {decision : Bool}
    {note : Option String} {revId : ObjectId}
    (h : approve b actor name request decision note = .ok (revId, writes)) :
    Writes F b writes := by
  unfold approve at h
  split at h
  · cases h
  split at h
  · cases h
  rename_i id oid q hfind
  split at h
  · cases h
  split at h
  · cases h
  obtain ⟨-, rfl⟩ := Prod.mk.inj (Except.ok.inj h)
  refine writes_next (shows_of_find hfind) _ ?_ _
  cases decision <;> decide

theorem writes_close (moot : Memory → Bool) : Writes F b (closeRequestsWhere b moot) where
  nodup := by
    have hkeys : (b.memories.map Prod.fst).Nodup := by
      have hall : (b.entities.entries.map Sigma.fst).Nodup := b.entities.nodupKeys
      refine List.Sublist.nodup ?_ hall
      unfold Board.memories
      induction b.entities.entries with
      | nil => exact List.Sublist.slnil
      | cons e rest ih =>
          rw [List.filterMap_cons]
          cases memoryAt b.objects e.2 with
          | none => exact ih.cons _
          | some v => exact ih.cons_cons _
    rw [closeRequestsWhere, List.map_map]
    exact List.Sublist.nodup ((List.filter_sublist).map Prod.fst) hkeys
  cases := by
    intro w hw
    obtain ⟨v, hv, rfl⟩ := List.mem_map.mp hw
    have hshows := shows_of_mem (List.mem_filter.mp hv).1
    exact .inl ⟨v.2.1, v.2.2, hshows, follows_later hshows _ (by decide) " Landed."⟩

/-- What every run keeps: what is pointed to is stored, and no two open requests ask for the
approval of one revision. -/
structure Sound (F : Store) (b : Board) : Prop where
  stored : ∀ id p, b.entities.get? id = some p → ∃ o ∈ b.objects, p = .id (Crypto.objectId o)
  single : ∀ r, .revision r ∈ F → ∀ id oid m id' oid' m', b.Shows id oid m →
    asksFor (Crypto.objectId (.revision r)) m = true → b.Shows id' oid' m' →
    asksFor (Crypto.objectId (.revision r)) m' = true → id = id'

/-- A version that a commit shows was written by it or shown before. -/
theorem Sound.of_commit (h : Sound F b) (hfree : CollisionFree F)
    (hsub : (b.commit writes).objects ⊆ F) (hwrites : Writes F b writes)
    (hshows : (b.commit writes).Shows id oid m) :
    (id, m) ∈ writes ∨ id ∉ writes.map Prod.fst ∧ b.Shows id oid m := by
  obtain ⟨hget, hmem, hoid⟩ := hshows
  by_cases hid : id ∈ writes.map Prod.fst
  · obtain ⟨⟨id', m'⟩, hw, rfl⟩ := List.mem_map.mp hid
    rw [get_commit_of_mem hwrites.nodup hw] at hget
    have hm' : Object.memory m' ∈ (b.commit writes).objects := by
      rw [objects_commit]
      exact List.mem_append_right _ (List.mem_map.mpr ⟨_, hw, rfl⟩)
    have hsame : Crypto.objectId (.memory m') = Crypto.objectId (.memory m) := by
      rw [hoid]
      exact Pointer.id.inj (Option.some.inj hget)
    obtain rfl := Object.memory.inj (hfree _ (hsub hm') _ (hsub hmem) hsame)
    exact .inl hw
  · rw [get_commit_of_notMem hid] at hget
    obtain ⟨o, ho, hp⟩ := h.stored id _ hget
    have hbefore : o ∈ (b.commit writes).objects := by
      rw [objects_commit]
      exact List.mem_append_left _ ho
    obtain rfl := hfree o (hsub hbefore) _ (hsub hmem) (by rw [hoid, Pointer.id.inj hp])
    exact .inr ⟨hid, hget, ho, hoid⟩

theorem Sound.commit (h : Sound F b) (hfree : CollisionFree F)
    (hsub : (b.commit writes).objects ⊆ F) (hwrites : Writes F b writes) :
    Sound F (b.commit writes) where
  stored := by
    intro id p hp
    rw [objects_commit]
    by_cases hid : id ∈ writes.map Prod.fst
    · obtain ⟨⟨id', m⟩, hw, rfl⟩ := List.mem_map.mp hid
      rw [get_commit_of_mem hwrites.nodup hw] at hp
      exact ⟨.memory m, List.mem_append_right _ (List.mem_map.mpr ⟨_, hw, rfl⟩),
        (Option.some.inj hp).symm⟩
    · rw [get_commit_of_notMem hid] at hp
      obtain ⟨o, ho, heq⟩ := h.stored id p hp
      exact ⟨o, List.mem_append_left _ ho, heq⟩
  single := by
    -- Of what is written only a new request asks, and it comes alone.
    have hnew : ∀ r, .revision r ∈ F → ∀ id m, (id, m) ∈ writes →
        asksFor (Crypto.objectId (.revision r)) m = true → writes = [(id, m)] ∧
          ∀ id oid m, b.Shows id oid m → asksFor (Crypto.objectId (.revision r)) m = false := by
      intro r hr id m hw hasks
      rcases hwrites.cases _ hw with ⟨oid, m', -, hfollows⟩ | ⟨-, hask⟩
      · exact absurd (status_of_asks hasks) hfollows.status_ne
      · exact hask r hr hasks
    intro r hr id oid m id' oid' m' hm hasks hm' hasks'
    rcases h.of_commit hfree hsub hwrites hm with hw | ⟨-, hold⟩ <;>
      rcases h.of_commit hfree hsub hwrites hm' with hw' | ⟨-, hold'⟩
    · rw [(hnew r hr id m hw hasks).1] at hw'
      exact (Prod.mk.inj (List.mem_singleton.mp hw')).1.symm
    · rw [(hnew r hr id m hw hasks).2 id' oid' m' hold'] at hasks'
      cases hasks'
    · rw [(hnew r hr id' m' hw' hasks').2 id oid m hold] at hasks
      cases hasks
    · exact h.single r hr id oid m id' oid' m' hold hasks hold' hasks'

/-- Every op puts an object, moves what is no memory, or writes memories. -/
theorem Step.spec (h : Step b c) (hfree : CollisionFree F) (hsub : b.objects ⊆ F) :
    (∃ o, c = ⟨b.objects ++ [o], b.entities⟩) ∨
    (∃ id, ∃ o ∈ b.objects, (∀ m, o ≠ .memory m) ∧ (∀ oid m, ¬ b.Shows id oid m) ∧
      c = ⟨b.objects, b.entities.insert id (.id (Crypto.objectId o))⟩) ∨
    ∃ writes, Writes F b writes ∧ c = b.commit writes := by
  cases h with
  | put o => exact .inl ⟨o, rfl⟩
  | other ho hnot hshows => exact .inr (.inl ⟨_, _, ho, hnot, hshows, rfl⟩)
  | @task fresh m hfresh hkind =>
      refine .inr (.inr ⟨[(fresh, m)], ⟨List.nodup_singleton fresh, fun w hw => .inr ?_⟩, rfl⟩)
      obtain rfl := List.mem_singleton.mp hw
      refine ⟨hfresh, fun r hr hasks => ?_⟩
      simp [asksFor, hkind] at hasks
  | remember hfresh hvalue =>
      exact .inr (.inr ⟨_, writes_remember hfree hsub hfresh hvalue, rfl⟩)
  | retire hvalue => exact .inr (.inr ⟨_, writes_retire hvalue, rfl⟩)
  | ask hrev hfresh => exact .inr (.inr ⟨_, writes_ask (hfree.mono hsub) hfresh, rfl⟩)
  | approve hvalue => exact .inr (.inr ⟨_, writes_approve hvalue, rfl⟩)
  | close moot => exact .inr (.inr ⟨_, writes_close moot, rfl⟩)

theorem Step.subset (h : Step b c) : b.objects ⊆ c.objects := by
  cases h with
  | put o => exact List.subset_append_left _ _
  | other => exact List.Subset.refl _
  | _ =>
      rw [objects_commit]
      exact List.subset_append_left _ _

/-- One op keeps the board sound, and shows of every memory the version that was shown or the
next one. -/
theorem Step.carry (h : Step b c) (hfree : CollisionFree F) (hsub : c.objects ⊆ F)
    (hsound : Sound F b) : Sound F c ∧ ∀ id oid m, b.Shows id oid m →
      ∃ oid' m', c.Shows id oid' m' ∧ (m' = m ∨ Follows m m') := by
  have hb := List.Subset.trans h.subset hsub
  rcases h.spec hfree hb with ⟨o, rfl⟩ | ⟨id, o, ho, hnot, hfresh, rfl⟩ | ⟨writes, hwrites, rfl⟩
  · have hstored : ∀ id p, b.entities.get? id = some p →
        ∃ o' ∈ b.objects ++ [o], p = .id (Crypto.objectId o') := by
      intro id p hp
      obtain ⟨o', ho', heq⟩ := hsound.stored id p hp
      exact ⟨o', List.mem_append_left _ ho', heq⟩
    have hback : ∀ id oid m, Board.Shows ⟨b.objects ++ [o], b.entities⟩ id oid m →
        b.Shows id oid m := by
      intro id oid m hm
      obtain ⟨hget, hmem, hoid⟩ := hm
      obtain ⟨o', ho', hp⟩ := hsound.stored id _ hget
      obtain rfl := hfree o' (hb ho') _ (hsub hmem) (by rw [hoid, Pointer.id.inj hp])
      exact ⟨hget, ho', hoid⟩
    refine ⟨⟨hstored, fun r hr id oid m id' oid' m' hm hasks hm' hasks' =>
      hsound.single r hr id oid m id' oid' m' (hback _ _ _ hm) hasks (hback _ _ _ hm') hasks'⟩,
      fun id oid m hm => ⟨oid, m, ⟨hm.1, List.mem_append_left _ hm.2.1, hm.2.2⟩, .inl rfl⟩⟩
  · have hback : ∀ id' oid m, Board.Shows
        ⟨b.objects, b.entities.insert id (.id (Crypto.objectId o))⟩ id' oid m →
        b.Shows id' oid m := by
      intro id' oid m hm
      obtain ⟨hget, hmem, hoid⟩ := hm
      rw [OrdMap.get?_insert] at hget
      split_ifs at hget with hid
      · have hsame := hfree o (hb ho) _ (hb hmem) (by
          rw [hoid, Pointer.id.inj (Option.some.inj hget)])
        exact absurd hsame (hnot m)
      · exact ⟨hget, hmem, hoid⟩
    refine ⟨⟨fun id' p hp => ?_, fun r hr id₁ oid m id₂ oid' m' hm hasks hm' hasks' =>
      hsound.single r hr id₁ oid m id₂ oid' m' (hback _ _ _ hm) hasks (hback _ _ _ hm') hasks'⟩,
      fun id' oid m hm => ⟨oid, m, ⟨?_, hm.2⟩, .inl rfl⟩⟩
    · rw [OrdMap.get?_insert] at hp
      split_ifs at hp with hid
      · exact ⟨o, ho, (Option.some.inj hp).symm⟩
      · exact hsound.stored id' p hp
    · have hne : id ≠ id' := by
        rintro rfl
        exact hfresh oid m hm
      rw [OrdMap.get?_insert, if_neg hne]
      exact hm.1
  · refine ⟨hsound.commit hfree hsub hwrites, fun id oid m hm => ?_⟩
    by_cases hid : id ∈ writes.map Prod.fst
    · obtain ⟨⟨id', m'⟩, hw, rfl⟩ := List.mem_map.mp hid
      have hget := get_commit_of_mem (b := b) hwrites.nodup hw
      have hmem : Object.memory m' ∈ (b.commit writes).objects := by
        rw [objects_commit]
        exact List.mem_append_right _ (List.mem_map.mpr ⟨_, hw, rfl⟩)
      refine ⟨_, m', ⟨hget, hmem, rfl⟩, .inr ?_⟩
      rcases hwrites.cases _ hw with ⟨oid', old, hold, hfollows⟩ | ⟨hfresh, -⟩
      · have hsame : oid' = oid := Pointer.id.inj (Option.some.inj (hold.1.symm.trans hm.1))
        have hmemory := hfree _ (hb hold.2.1) _ (hb hm.2.1) (by rw [hold.2.2, hm.2.2, hsame])
        exact Object.memory.inj hmemory ▸ hfollows
      · rw [hm.1] at hfresh
        cases hfresh
    · have hget := get_commit_of_notMem (b := b) hid
      refine ⟨oid, m, ⟨hget.trans hm.1, ?_, hm.2.2⟩, .inl rfl⟩
      rw [objects_commit]
      exact List.mem_append_left _ hm.2.1

theorem run_subset (h : ReflTransGen Step b c) : b.objects ⊆ c.objects := by
  induction h with
  | refl => exact List.Subset.refl _
  | tail _ hstep ih => exact List.Subset.trans ih hstep.subset

theorem run_carry (h : ReflTransGen Step b c) (hfree : CollisionFree F) (hsub : c.objects ⊆ F)
    (hsound : Sound F b) : Sound F c ∧ ∀ id oid m, b.Shows id oid m →
      ∃ oid' m', c.Shows id oid' m' ∧ ReflTransGen Follows m m' := by
  induction h with
  | refl => exact ⟨hsound, fun id oid m hm => ⟨oid, m, hm, .refl⟩⟩
  | @tail c d hrun hstep ih =>
      obtain ⟨hc, hshows⟩ := ih (List.Subset.trans hstep.subset hsub)
      obtain ⟨hd, hnext⟩ := hstep.carry hfree hsub hc
      refine ⟨hd, fun id oid m hm => ?_⟩
      obtain ⟨oid', m', hm', hversions⟩ := hshows id oid m hm
      obtain ⟨oid'', m'', hm'', rfl | hfollows⟩ := hnext id oid' m' hm'
      · exact ⟨oid'', m'', hm'', hversions⟩
      · exact ⟨oid'', m'', hm'', hversions.tail hfollows⟩

theorem active_of_versions (h : ReflTransGen Follows m m') (hactive : m'.status = "active") :
    m' = m := by
  rcases h.cases_tail with heq | ⟨m₁, -, hfollows⟩
  · exact heq
  · exact absurd hactive hfollows.status_ne

end Runs

section Samples

/-! A request that a human answers. -/

def proposal : Revision where
  id := .splat 4
  prev := none
  snapshots := ∅
  parents := []
  intent := none
  title := "round half up"
  body := none
  author := .splat 5
  time := 0
  ops := none
  flags := none

def unapproved : List Unmet := [⟨"require approved(ana)", "no approval by ana"⟩]

def toldOfIt : Told := ⟨"bot", "low", 3, [], ["ana"]⟩

def asked : Memory where
  id := .splat 7
  prev := none
  kind := "question"
  scope := ⟨"repo", .text ""⟩
  body := requestBody (.splat 7) proposal ["require approved(ana): no approval by ana"] toldOfIt
  anchor := none
  confidence := 1000
  author := .splat 1
  time := 2
  expires := none
  proposed := none
  status := "active"
  links := some [.splat 0]
  visibility := "shared"

def answered : Memory :=
  later asked (.splat 1) "resolved" (asked.body ++ " Answered by ana: approved")

local instance askedHash : Crypto :=
  .ofTable [.revision proposal, .memory asked, .memory answered]

def proposed : Board := ⟨[] ++ [.revision proposal], ∅⟩

def requested : Board := proposed.commit [(.splat 7, asked)]

def closed : Board := requested.commit [(.splat 7, answered)]

set_option maxRecDepth 8000 in
theorem asked_run : ReflTransGen Step ⟨[], ∅⟩ requested := by
  have hask : ensureApprovalRequest proposed (.splat 1) (Crypto.objectId (.revision proposal))
      proposal unapproved toldOfIt (.splat 7) 2 = [(.splat 7, asked)] := by decide
  have hstep : Step proposed requested := by
    rw [requested, ← hask]
    exact Step.ask (List.mem_singleton_self _) rfl
  exact (ReflTransGen.single (Step.put _)).tail hstep

set_option maxRecDepth 8000 in
theorem answered_run : ReflTransGen Step requested closed := by
  have hanswer : approve requested ⟨.splat 9, "human", none⟩ "ana" "kr" true none =
      .ok (.splat 0, [(.splat 7, answered)]) := by decide
  exact .single (Step.approve hanswer)

end Samples

end Tessra.Daemon.Memories
