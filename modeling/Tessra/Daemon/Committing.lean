import Tessra.Oplog.LastWrite
import Tessra.Oplog.Reopen

namespace Tessra.Daemon.Committing

open Tessra.Core Tessra.Data Tessra.Oplog StoreM OpLog

/-! Committing an op: the writes that make it durable, in their order, and what is found when the
store is opened again after some of them. -/

section Model

variable [Crypto]

/-- What attestations are indexed by. -/
inductive AttKey
  | subject (subject : Bytes)
  | body (body : ObjectId)
deriving DecidableEq

/-- What is on disk. -/
structure Disk where
  objects : Store
  heads : List ObjectId
  index : List (AttKey × List ObjectId)
  idem : List ((EntityId × Bytes) × ObjectId)

/-- A transaction. -/
inductive Write
  | objects (objects : List Object)
  | heads (heads : List ObjectId)
  | index (key : AttKey) (ids : List ObjectId)
  | idem (key : EntityId × Bytes) (id : ObjectId)

def Disk.write (d : Disk) : Write → Disk
  | .objects objects => { d with objects := d.objects ++ objects }
  | .heads heads => { d with heads }
  | .index key ids => { d with index := (key, ids) :: d.index }
  | .idem key id => { d with idem := (key, id) :: d.idem }

def Disk.run (d : Disk) (writes : List Write) : Disk := writes.foldl Disk.write d

def Disk.idsAt (d : Disk) (key : AttKey) : List ObjectId := (d.index.lookup key).getD []

def appendId (d : Disk) (key : AttKey) (id : ObjectId) : List Write :=
  if id ∈ d.idsAt key then [] else [.index key (d.idsAt key ++ [id])]

/-- An attestation is indexed by its subject and bodies. -/
def attKeys (att : Attestation) : List AttKey :=
  att.subject.toList.map .subject ++ (att.bodies.getD []).map .body

def indexAttestations : Disk → List (AttKey × ObjectId) → List Write
  | _, [] => []
  | d, (key, id) :: rest =>
      appendId d key id ++ indexAttestations (d.run (appendId d key id)) rest

/-- The attestations that an op puts, each with what it is indexed by. -/
def opAttestations (S : Store) (op : Op) : List (AttKey × ObjectId) :=
  op.effects.flatMap fun e =>
    match e with
    | .put id =>
        match (get Attestation id).value S with
        | .ok att => (attKeys att).map fun key => (key, id)
        | .error _ => []
    | _ => []

/-- A repository with its log in memory and the puts of the batch that is open. -/
structure Repo where
  log : OpLog
  disk : Disk
  pending : List Object

def Repo.store (r : Repo) : Store := r.disk.objects ++ r.pending

/-- What the batch writes once an op is accepted. -/
def Repo.batch (r : Repo) (op : Op) : List Write :=
  let objects := r.pending ++ (r.log.accept op r.store).puts
  if objects = [] then [] else [.objects objects]

/-- The index entries of an op that is on disk. -/
def Repo.entries (r : Repo) (op : Op) (log' : OpLog) : List Write :=
  let d := (r.disk.run (r.batch op)).write (.heads log'.heads)
  indexAttestations d (opAttestations d.objects op)

/-- The transactions of a commit: the objects, the heads that reference them, the attestations,
and the idempotency key. -/
def Repo.writes (r : Repo) (op : Op) : List Write :=
  match (r.log.accept op).value r.store with
  | .error _ => []
  | .ok (id, log') =>
      r.batch op ++ .heads log'.heads ::
        (r.entries op log' ++ (idemKey op).toList.map fun k => .idem k id)

/-- Commit an op, where one of the writes may fail. -/
def Repo.commitOp (r : Repo) (op : Op) (fault : Option ℕ) : Except Error ObjectId × Repo :=
  match (r.log.accept op).value r.store with
  | .error e => (.error e, { r with pending := r.pending ++ (r.log.accept op r.store).puts })
  | .ok (id, log') =>
      match fault with
      | none => (.ok id, ⟨log', r.disk.run (r.writes op), []⟩)
      | some n =>
          if n < (r.writes op).length then
            (.error (.store "write"), ⟨log', r.disk.run ((r.writes op).take n), []⟩)
          else (.ok id, ⟨log', r.disk.run (r.writes op), []⟩)

/-- What is on disk where a commit stops after some of its writes. -/
def Repo.crash (r : Repo) (op : Op) (n : ℕ) : Disk := r.disk.run ((r.writes op).take n)

/-- The log that is opened from a disk has its heads and all that they are built on, each op with
its view, the attestations that it puts indexed, and its idempotency key. -/
structure Consistent (records : List (String × Bytes)) (d : Disk) (log : OpLog) : Prop where
  opened : (OpLog.«open» records d.heads).value d.objects = .ok log
  heads : log.heads = d.heads ∧ ∀ x ∈ d.heads, x ∈ log.verified
  ops : ∀ x ∈ log.verified, ∃ op view, (getOp x).value d.objects = .ok op ∧
    (get View op.view).value d.objects = .ok view ∧ (∀ p ∈ op.parents, p ∈ log.verified) ∧
    (∀ k, idemKey op = some k → log.idem.lookup k = some x) ∧
    ∀ id, .put id ∈ op.effects → ∀ att, (get Attestation id).value d.objects = .ok att →
      ∀ key ∈ attKeys att, id ∈ d.idsAt key

/-- What an op puts is in the store when it is committed. -/
def PutsStored (r : Repo) (op : Op) : Prop :=
  ∀ id, .put id ∈ op.effects → ∃ o ∈ r.store, Crypto.objectId o = id

/-- Runs of commits that are not cut short, between which objects are put and batches are
written. -/
inductive CommitRun : Repo → Prop
  | new (records : List (String × Bytes)) :
      CommitRun ⟨{ OpLog.new with records }, ⟨[], [], [], []⟩, []⟩
  | put {r : Repo} (o : Object) : CommitRun r → CommitRun { r with pending := r.pending ++ [o] }
  | note {r : Repo} (records : List (String × Bytes)) :
      CommitRun r → CommitRun { r with log := { r.log with records } }
  | endBatch {r : Repo} : CommitRun r →
      CommitRun ⟨r.log, r.disk.write (.objects r.pending), []⟩
  | commit {r : Repo} (op : Op) : CommitRun r → PutsStored r op →
      CommitRun (r.commitOp op none).2

end Model

section Index

variable {d : Disk} {key : AttKey} {id : ObjectId}

theorem run_append (d : Disk) (A B : List Write) : d.run (A ++ B) = (d.run A).run B :=
  List.foldl_append

/-- A write adds to the index and changes nothing else. -/
structure Extends (d d' : Disk) : Prop where
  objects : d'.objects = d.objects
  heads : d'.heads = d.heads
  index : ∀ key id, id ∈ d.idsAt key → id ∈ d'.idsAt key

theorem Extends.trans {d d' d'' : Disk} (h : Extends d d') (h' : Extends d' d'') : Extends d d'' :=
  ⟨h'.objects.trans h.objects, h'.heads.trans h.heads,
    fun key id hid => h'.index key id (h.index key id hid)⟩

theorem appendId_spec (d : Disk) (key : AttKey) (id : ObjectId) :
    Extends d (d.run (appendId d key id)) ∧ id ∈ (d.run (appendId d key id)).idsAt key := by
  unfold appendId
  split_ifs with hmem
  · exact ⟨⟨rfl, rfl, fun _ _ h => h⟩, hmem⟩
  · have hlookup : ∀ key', (d.run [.index key (d.idsAt key ++ [id])]).idsAt key' =
        if key' = key then d.idsAt key ++ [id] else d.idsAt key' := by
      intro key'
      rw [Disk.idsAt, Disk.run, List.foldl_cons, List.foldl_nil, Disk.write, List.lookup_cons]
      by_cases heq : key' = key
      · rw [if_pos heq, heq, beq_self_eq_true]
        rfl
      · rw [if_neg heq, beq_eq_false_iff_ne.mpr heq]
        rfl
    refine ⟨⟨rfl, rfl, fun key' id' hid => ?_⟩, ?_⟩
    · rw [hlookup]
      split_ifs with heq
      · exact List.mem_append_left _ (heq ▸ hid)
      · exact hid
    · rw [hlookup, if_pos rfl]
      exact List.mem_append_right _ (List.mem_singleton_self id)

/-- Once the entries are written each is found. -/
theorem indexAttestations_spec : ∀ (entries : List (AttKey × ObjectId)) (d : Disk),
    Extends d (d.run (indexAttestations d entries)) ∧
      ∀ e ∈ entries, e.2 ∈ (d.run (indexAttestations d entries)).idsAt e.1
  | [], _ => ⟨⟨rfl, rfl, fun _ _ h => h⟩, List.forall_mem_nil _⟩
  | (key, id) :: rest, d => by
      obtain ⟨hgrows, hid⟩ := appendId_spec d key id
      obtain ⟨hrest, hall⟩ := indexAttestations_spec rest (d.run (appendId d key id))
      rw [indexAttestations, run_append]
      refine ⟨hgrows.trans hrest, fun e he => ?_⟩
      rcases List.mem_cons.mp he with rfl | he
      · exact hrest.index _ _ hid
      · exact hall e he

theorem grows_idem (d : Disk) (id : ObjectId) (keys : List (EntityId × Bytes)) :
    Extends d (d.run (keys.map fun k => .idem k id)) := by
  induction keys generalizing d with
  | nil => exact ⟨rfl, rfl, fun _ _ h => h⟩
  | cons k keys ih =>
      have hfirst : Extends d (d.write (.idem k id)) := ⟨rfl, rfl, fun _ _ h => h⟩
      exact hfirst.trans (ih (d.write (.idem k id)))

/-- Writes that leave the heads alone. -/
def Write.isIndex : Write → Bool
  | .index _ _ => true
  | .idem _ _ => true
  | _ => false

theorem heads_run {writes : List Write} (h : ∀ w ∈ writes, w.isIndex = true) :
    (d.run writes).heads = d.heads := by
  induction writes generalizing d with
  | nil => rfl
  | cons w writes ih =>
      have hw := h w List.mem_cons_self
      refine (ih fun w' hw' => h w' (List.mem_cons_of_mem w hw')).trans ?_
      cases w with
      | objects | heads => cases hw
      | index | idem => rfl

theorem isIndex_indexAttestations : ∀ (entries : List (AttKey × ObjectId)) (d : Disk),
    ∀ w ∈ indexAttestations d entries, w.isIndex = true
  | [], _, _, h => by cases h
  | (key, id) :: rest, d, w, h => by
      rw [indexAttestations] at h
      rcases List.mem_append.mp h with h | h
      · unfold appendId at h
        split_ifs at h
        · cases h
        · rw [List.mem_singleton.mp h]
          rfl
      · exact isIndex_indexAttestations rest _ w h

end Index

section Runs

variable [Crypto] {d d' : Disk} {log log' : OpLog} {r : Repo} {op : Op} {S : Store}

theorem mem_of_value_get {T : Type} [TessraObject T] {id : ObjectId} {t : T}
    (h : (get T id).value S = .ok t) :
    TessraObject.toObject t ∈ S ∧ Crypto.objectId (TessraObject.toObject t) = id := by
  obtain ⟨found, hfound, hrest, -⟩ := bind_ok h
  have hfind : S.find? (fun o => Crypto.objectId o = id) = found := Except.ok.inj hfound
  cases found with
  | none => cases hrest
  | some o =>
      dsimp only at hrest
      split at hrest
      · rename_i t' ht'
        obtain rfl : t' = t := Except.ok.inj hrest
        rw [← TessraObject.toObject_of_ofObject ht']
        exact ⟨List.mem_of_find?_eq_some hfind, by simpa using List.find?_some hfind⟩
      · cases hrest

/-- What an op puts is on disk, and the attestations among it are indexed. -/
def PutsIndexed (d : Disk) (op : Op) : Prop :=
  ∀ id, .put id ∈ op.effects → (∃ o ∈ d.objects, Crypto.objectId o = id) ∧
    ∀ att, Object.attestation att ∈ d.objects → Crypto.objectId (.attestation att) = id →
      ∀ key ∈ attKeys att, id ∈ d.idsAt key

theorem PutsIndexed.mono (h : PutsIndexed d op) (hobjects : d'.objects = d.objects)
    (hindex : ∀ key id, id ∈ d.idsAt key → id ∈ d'.idsAt key) : PutsIndexed d' op := by
  intro id hput
  obtain ⟨hstored, hatts⟩ := h id hput
  rw [hobjects]
  exact ⟨hstored, fun att hatt hid key hkey => hindex key id (hatts att hatt hid key hkey)⟩

/-- What is on disk is the log's: its objects are those of a run, its heads the log's, and what its
ops put is there and indexed. -/
structure OnDisk (d : Disk) (log : OpLog) : Prop where
  reached : LogReached d.objects log
  heads : d.heads = log.heads
  indexed : ∀ x ∈ log.verified, ∀ op, (getOp x).value d.objects = .ok op → PutsIndexed d op

theorem OnDisk.consistent (h : OnDisk d log) (hfree : CollisionFree d.objects) :
    ∃ log', Consistent log.records d log' := by
  obtain ⟨log', hopen, hsame⟩ := h.reached.openAt hfree
  have hkept := h.reached.keeps hfree
  have hindexed := h.reached.indexed hfree
  refine ⟨log', ⟨h.heads ▸ hopen, ⟨hsame.heads.symm.trans h.heads.symm, fun x hx => ?_⟩,
    fun x hx => ?_⟩⟩
  · exact (hsame.verified x).mp (hkept.heads x (h.heads ▸ hx))
  · have hx' := (hsame.verified x).mpr hx
    obtain ⟨op, view, c, hrecorded, -, -, hparents⟩ := hkept.recorded x hx'
    have hop := hrecorded.get_op hfree
    have hview : (get View op.view).value d.objects = .ok view :=
      hrecorded.view_id ▸ value_get hfree hrecorded.view_mem
    refine ⟨op, view, hop, hview, fun p hp => (hsame.verified p).mp (hparents p hp).1,
      fun k hk => ?_, fun id hput att hatt => ?_⟩
    · rw [← hsame.idem]
      exact (hindexed.idem k x).mpr ⟨hx', op, hop, hk⟩
    · obtain ⟨hmem, hid⟩ := mem_of_value_get hatt
      exact (h.indexed x hx' op hop id hput).2 att hmem hid

/-- More objects change nothing that the log says. -/
theorem OnDisk.objects (h : OnDisk d log) {objects : List Object}
    (hfree : CollisionFree (d.objects ++ objects)) : OnDisk (d.write (.objects objects)) log := by
  have hsub : d.objects ⊆ d.objects ++ objects := List.subset_append_left _ _
  have hkept := h.reached.keeps (hfree.mono hsub)
  refine ⟨h.reached.putAll, h.heads, fun x hx op hop id hput => ?_⟩
  rw [Disk.write, hkept.getOp_mono hsub hfree hx] at hop
  obtain ⟨⟨o, ho, hid⟩, hatts⟩ := h.indexed x hx op hop id hput
  refine ⟨⟨o, hsub ho, hid⟩, fun att hatt hattId => ?_⟩
  obtain rfl := hfree _ (hsub ho) _ hatt (hid.trans hattId.symm)
  exact hatts att ho hattId

theorem OnDisk.grows (h : OnDisk d log) (hgrows : Extends d d') : OnDisk d' log := by
  refine ⟨hgrows.objects ▸ h.reached, hgrows.heads.trans h.heads, ?_⟩
  rw [hgrows.objects]
  exact fun x hx op hop => (h.indexed x hx op hop).mono hgrows.objects hgrows.index

theorem run_batch (r : Repo) (op : Op) : r.disk.run (r.batch op) =
    r.disk.write (.objects (r.pending ++ (r.log.accept op r.store).puts)) := by
  unfold Repo.batch
  dsimp only
  split_ifs with hnil
  · rw [hnil, Disk.write, List.append_nil]
    rfl
  · rfl

theorem objects_batch (r : Repo) (op : Op) :
    (r.disk.run (r.batch op)).objects = (r.log.accept op).after r.store := by
  rw [run_batch, Disk.write, ← List.append_assoc]
  rfl

theorem OnDisk.batch (h : OnDisk r.disk r.log)
    (hfree : CollisionFree ((r.log.accept op).after r.store)) :
    OnDisk (r.disk.run (r.batch op)) r.log := by
  have hobjects := objects_batch r op
  rw [run_batch] at hobjects ⊢
  refine h.objects ?_
  rwa [← hobjects] at hfree

/-- Once the attestations of an accepted op are indexed, what is on disk is the new log's. -/
theorem OnDisk.entries (h : OnDisk r.disk r.log) (hputs : PutsStored r op)
    (hfree : CollisionFree ((r.log.accept op).after r.store)) {id : ObjectId}
    (hvalue : (r.log.accept op).value r.store = .ok (id, log')) :
    OnDisk (((r.disk.run (r.batch op)).write (.heads log'.heads)).run (r.entries op log'))
      log' := by
  have hbatch := h.batch hfree
  have hobjects := objects_batch r op
  obtain ⟨hgrows, hall⟩ := indexAttestations_spec
    (opAttestations ((r.disk.run (r.batch op)).write (.heads log'.heads)).objects op)
    ((r.disk.run (r.batch op)).write (.heads log'.heads))
  have hstart : ((r.disk.run (r.batch op)).write (.heads log'.heads)).objects =
      (r.log.accept op).after r.store := hobjects
  have hreached : LogReached ((r.log.accept op).after r.store) log' :=
    h.reached.putAll.accept op hvalue
  refine ⟨?_, hgrows.heads, ?_⟩
  · rw [Repo.entries, hgrows.objects, hstart]
    exact hreached
  · rw [Repo.entries, hgrows.objects]
    have hold : ∀ x ∈ r.log.verified, ∀ op', (getOp x).value ((r.disk.run (r.batch op)).write
        (.heads log'.heads)).objects = .ok op' → PutsIndexed (((r.disk.run (r.batch op)).write
          (.heads log'.heads)).run (r.entries op log')) op' :=
      fun x hx op' hop' => (hbatch.indexed x hx op' hop').mono hgrows.objects hgrows.index
    cases hanswer : answer r.log op with
    | some existing =>
        rw [accept_answered hanswer] at hvalue
        cases hvalue
        exact hold
    | none =>
        obtain ⟨rfl, hlog, -, v, -, hafter⟩ := accept_verified hanswer hvalue
        intro x hx op' hop'
        rw [hlog, mem_record_verified] at hx
        rcases hx with hx | rfl
        · exact hold x hx op' hop'
        intro id hput
        have hown : Object.op op ∈ (r.log.accept op).after r.store := by simp [hafter]
        have hsame : op' = op := by
          rw [hstart] at hop'
          exact Except.ok.inj (hop'.symm.trans (value_get (t := op) hfree hown))
        subst hsame
        obtain ⟨o, ho, hid⟩ := hputs id hput
        rw [hgrows.objects, hstart]
        refine ⟨⟨o, subset_after (r.log.accept op') r.store ho, hid⟩,
          fun att hatt hattId key hkey => ?_⟩
        rw [hstart] at hall
        refine hall (key, id) ?_
        refine List.mem_flatMap.mpr ⟨.put id, hput, ?_⟩
        have hget := value_get (t := att) hfree hatt
        rw [show Crypto.objectId (TessraObject.toObject att) = id from hattId] at hget
        dsimp only
        rw [hget]
        exact List.mem_map_of_mem hkey

/-- A commit that is cut short between its heads and the last index entry that it owes. -/
def Repo.InGap (r : Repo) (op : Op) (n : ℕ) : Prop :=
  ∃ id log', (r.log.accept op).value r.store = .ok (id, log') ∧ (r.batch op).length < n ∧
    n < (r.batch op).length + 1 + (r.entries op log').length

theorem writes_of_ok {id : ObjectId} (hvalue : (r.log.accept op).value r.store = .ok (id, log')) :
    r.writes op = r.batch op ++ .heads log'.heads ::
      (r.entries op log' ++ (idemKey op).toList.map fun k => .idem k id) := by
  unfold Repo.writes
  rw [hvalue]

theorem accept_records {id : ObjectId}
    (hvalue : (r.log.accept op).value r.store = .ok (id, log')) :
    log'.records = r.log.records := by
  cases hanswer : answer r.log op with
  | some existing =>
      rw [accept_answered hanswer] at hvalue
      cases hvalue
      rfl
  | none =>
      obtain ⟨-, rfl, -⟩ := accept_verified hanswer hvalue
      rfl

/-- The writes of a commit up to its entries and some of its keys. -/
theorem run_late {id : ObjectId} (hvalue : (r.log.accept op).value r.store = .ok (id, log'))
    (m : ℕ) : r.disk.run ((r.writes op).take
      ((r.batch op).length + 1 + (r.entries op log').length + m)) =
    (((r.disk.run (r.batch op)).write (.heads log'.heads)).run (r.entries op log')).run
      (((idemKey op).toList.take m).map fun k => .idem k id) := by
  have htake : (r.writes op).take ((r.batch op).length + 1 + (r.entries op log').length + m) =
      r.batch op ++ Write.heads log'.heads ::
        (r.entries op log' ++ ((idemKey op).toList.take m).map fun k => Write.idem k id) := by
    rw [writes_of_ok hvalue, Nat.add_assoc, Nat.add_assoc, List.take_length_add_append,
      Nat.add_comm 1, List.take_succ_cons, List.take_length_add_append, List.map_take]
  rw [htake, run_append]
  exact run_append _ _ _

theorem entries_extends (r : Repo) (op : Op) (log' : OpLog) :
    Extends ((r.disk.run (r.batch op)).write (.heads log'.heads))
      (((r.disk.run (r.batch op)).write (.heads log'.heads)).run (r.entries op log')) :=
  (indexAttestations_spec _ _).1

theorem objects_late {id : ObjectId} (hvalue : (r.log.accept op).value r.store = .ok (id, log'))
    (m : ℕ) : (r.disk.run ((r.writes op).take
      ((r.batch op).length + 1 + (r.entries op log').length + m))).objects =
    (r.log.accept op).after r.store := by
  rw [run_late hvalue, (grows_idem _ id _).objects, (entries_extends r op log').objects]
  exact objects_batch r op

/-- Once its entries are indexed a commit leaves the new log on disk. -/
theorem OnDisk.late (h : OnDisk r.disk r.log) (hputs : PutsStored r op)
    (hfree : CollisionFree ((r.log.accept op).after r.store)) {id : ObjectId}
    (hvalue : (r.log.accept op).value r.store = .ok (id, log')) (m : ℕ) :
    OnDisk (r.disk.run ((r.writes op).take
      ((r.batch op).length + 1 + (r.entries op log').length + m))) log' := by
  rw [run_late hvalue]
  exact (h.entries hputs hfree hvalue).grows (grows_idem _ id _)

/-- Before its heads are written a commit leaves the old log on disk, and once its entries are
indexed the new one. -/
theorem crash_onDisk (h : OnDisk r.disk r.log) (hputs : PutsStored r op)
    (hfree : CollisionFree ((r.log.accept op).after r.store)) {n : ℕ} (hgap : ¬ r.InGap op n) :
    ∃ log', OnDisk (r.crash op n) log' ∧ log'.records = r.log.records ∧
      (r.crash op n).objects ⊆ (r.log.accept op).after r.store := by
  have hstore : r.disk.objects ⊆ (r.log.accept op).after r.store :=
    List.Subset.trans (List.subset_append_left _ _) (subset_after _ _)
  cases hvalue : (r.log.accept op).value r.store with
  | error e =>
      have hwrites : r.writes op = [] := by
        unfold Repo.writes
        rw [hvalue]
      rw [Repo.crash, hwrites, List.take_nil]
      exact ⟨r.log, h, rfl, hstore⟩
  | ok result =>
      obtain ⟨id, log'⟩ := result
      rw [Repo.crash]
      rcases Nat.lt_or_ge (r.batch op).length n with hlate | hearly
      · have hafter : (r.batch op).length + 1 + (r.entries op log').length ≤ n := by
          by_contra hbefore
          exact hgap ⟨id, log', hvalue, hlate, Nat.lt_of_not_le hbefore⟩
        obtain ⟨m, rfl⟩ := Nat.exists_eq_add_of_le hafter
        exact ⟨log', h.late hputs hfree hvalue m, accept_records hvalue,
          objects_late hvalue m ▸ List.Subset.refl _⟩
      · rw [writes_of_ok hvalue, List.take_append_of_le_length hearly]
        have hbatch : (r.batch op).take n = [] ∨ (r.batch op).take n = r.batch op := by
          unfold Repo.batch
          dsimp only
          split_ifs
          · exact Or.inl List.take_nil
          · cases n with
            | zero => exact Or.inl rfl
            | succ n => exact Or.inr (List.take_of_length_le (Nat.le_add_left 1 n))
        rcases hbatch with hnone | hall
        · rw [hnone]
          exact ⟨r.log, h, rfl, hstore⟩
        · rw [hall]
          exact ⟨r.log, h.batch hfree, rfl, objects_batch r op ▸ List.Subset.refl _⟩

theorem length_writes {id : ObjectId} (hvalue : (r.log.accept op).value r.store = .ok (id, log')) :
    (r.writes op).length =
      (r.batch op).length + 1 + (r.entries op log').length + (idemKey op).toList.length := by
  rw [writes_of_ok hvalue, List.length_append, List.length_cons, List.length_append,
    List.length_map]
  omega

/-- In every run the disk is the log's. -/
theorem CommitRun.onDisk (h : CommitRun r) (hfree : CollisionFree r.store) :
    OnDisk r.disk r.log := by
  induction h with
  | new records => exact ⟨LogReached.new.note records, rfl, fun x hx => by cases hx⟩
  | @put r o _ ih =>
      refine ih (hfree.mono ?_)
      rw [Repo.store, Repo.store, ← List.append_assoc]
      exact List.subset_append_left _ _
  | note records _ ih =>
      have hdisk := ih hfree
      exact ⟨hdisk.reached.note records, hdisk.heads, hdisk.indexed⟩
  | @endBatch r _ ih =>
      have hstore : CollisionFree r.store := by
        rw [Repo.store, List.append_nil] at hfree
        exact hfree
      exact (ih hstore).objects hstore
  | @commit r op _ hputs ih =>
      cases hvalue : (r.log.accept op).value r.store with
      | error e =>
          have hcommit : (r.commitOp op none).2 =
              { r with pending := r.pending ++ (r.log.accept op r.store).puts } := by
            unfold Repo.commitOp
            rw [hvalue]
          rw [hcommit] at hfree ⊢
          refine ih (hfree.mono ?_)
          rw [Repo.store, Repo.store, ← List.append_assoc]
          exact List.subset_append_left _ _
      | ok result =>
          obtain ⟨id, log'⟩ := result
          have hcommit : (r.commitOp op none).2 = ⟨log', r.disk.run (r.writes op), []⟩ := by
            unfold Repo.commitOp
            rw [hvalue]
          have hall : (r.writes op).take ((r.batch op).length + 1 + (r.entries op log').length +
              (idemKey op).toList.length) = r.writes op :=
            List.take_of_length_le (length_writes hvalue).le
          have hobjects := objects_late hvalue (idemKey op).toList.length
          rw [hall] at hobjects
          rw [hcommit, Repo.store, List.append_nil] at hfree
          rw [hcommit]
          rw [hobjects] at hfree
          have hlate := (ih (hfree.mono (subset_after _ _))).late hputs hfree hvalue
            (idemKey op).toList.length
          rwa [hall] at hlate

/-- A commit that fails with its heads not yet written. -/
def Repo.HeadsFault (r : Repo) (op : Op) (fault : Option ℕ) : Prop :=
  ∃ n, fault = some n ∧ n ≤ (r.batch op).length ∧ ∃ result, (r.log.accept op).value r.store =
    .ok result

theorem heads_of_error (h : OnDisk r.disk r.log) {fault : Option ℕ}
    (hfault : ¬ r.HeadsFault op fault) {e : Error} {r' : Repo}
    (hcommit : r.commitOp op fault = (.error e, r')) : r'.log.heads = r'.disk.heads := by
  unfold Repo.commitOp at hcommit
  cases hvalue : (r.log.accept op).value r.store with
  | error e' =>
      rw [hvalue] at hcommit
      obtain rfl := (Prod.mk.inj hcommit).2
      exact h.heads.symm
  | ok result =>
      obtain ⟨id, log'⟩ := result
      rw [hvalue] at hcommit
      cases fault with
      | none => cases (Prod.mk.inj hcommit).1
      | some n =>
          dsimp only at hcommit
          split_ifs at hcommit with hn
          · obtain rfl := (Prod.mk.inj hcommit).2
            have hlate : (r.batch op).length < n := by
              by_contra hearly
              exact hfault ⟨n, rfl, Nat.le_of_not_lt hearly, (id, log'), hvalue⟩
            obtain ⟨m, rfl⟩ := Nat.exists_eq_add_of_lt hlate
            have htake : (r.writes op).take ((r.batch op).length + m + 1) = r.batch op ++
                Write.heads log'.heads :: (r.entries op log' ++
                  (idemKey op).toList.map fun k => Write.idem k id).take m := by
              rw [writes_of_ok hvalue, Nat.add_assoc, List.take_length_add_append,
                List.take_succ_cons]
            dsimp only
            rw [htake, run_append]
            refine ((heads_run (d := (r.disk.run (r.batch op)).write (.heads log'.heads))
              fun w hw => ?_)).symm
            rcases List.mem_append.mp (List.mem_of_mem_take hw) with hw | hw
            · exact isIndex_indexAttestations _ _ w hw
            · obtain ⟨k, -, rfl⟩ := List.mem_map.mp hw
              rfl
          · cases (Prod.mk.inj hcommit).1

end Runs

section Samples

def sampleAttestation : Attestation where
  kind := "review"
  subject := some []
  bodies := none
  subjectType := none
  scope := none
  result := .bool true
  env := none
  verifier := .splat 1
  runner := none
  evidence := none
  time := 0
  sigkind := "human"
  sig := none

/-- The first op, with an attestation put beside it. -/
def attestingOp : Op :=
  ownerOp "init" [] [.owner (.splat 1), .point (.splat 1) (.splat 1) none, .put (.splat 5)]
    (.splat 3)

def attestedTable : List Object := [
  .trie .empty,
  .principal ownerPrincipal,
  .trie ⟨1#16, [.leaf (EntityId.splat 1).bytes (.id (.splat 1))]⟩,
  .view initView,
  .op attestingOp,
  .attestation sampleAttestation]

local instance attestedHash : Crypto := .ofTable attestedTable

def drafted : Repo :=
  ⟨.new, ⟨[], [], [], []⟩, [] ++ [.principal ownerPrincipal] ++ [.attestation sampleAttestation]⟩

theorem drafted_run : CommitRun drafted := ((CommitRun.new []).put _).put _

theorem drafted_stored : PutsStored drafted attestingOp := by
  intro id hput
  obtain rfl : id = .splat 5 := by simpa [attestingOp, ownerOp] using hput
  exact ⟨.attestation sampleAttestation, List.mem_cons_of_mem _ List.mem_cons_self,
    by decide +kernel⟩

theorem drafted_free :
    CollisionFree ((drafted.log.accept attestingOp).after drafted.store) :=
  collisionFree_ofTable (by decide) (by decide +kernel)

end Samples

end Tessra.Daemon.Committing
