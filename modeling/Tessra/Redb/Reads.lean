import Tessra.Redb.Records

namespace Tessra.Redb

open Tessra.Core

/-! What is read back of what was put, in every run of batches, puts and imports. -/

section Entries

variable {entries : List (ObjectId × Bytes)} {id id' : ObjectId} {rec : Bytes}

theorem mem_of_lookup (h : entries.lookup id = some rec) : (id, rec) ∈ entries := by
  induction entries with
  | nil => cases h
  | cons e entries ih =>
      rw [List.lookup_cons] at h
      by_cases heq : id = e.1
      · rw [heq, beq_self_eq_true] at h
        cases h
        rw [heq]
        exact List.mem_cons_self
      · rw [beq_eq_false_iff_ne.mpr heq] at h
        exact List.mem_cons_of_mem _ (ih h)

theorem isSome_lookup_append (more : List (ObjectId × Bytes))
    (h : (entries.lookup id).isSome) : ((entries ++ more).lookup id).isSome := by
  rw [List.lookup_append, Option.isSome_or, h, Bool.true_or]

theorem isSome_insertNew_self : ((insertNew entries id rec).lookup id).isSome := by
  rw [insertNew]
  split_ifs with h
  · exact h
  · rw [List.lookup_append, Option.isSome_or, Bool.or_eq_true]
    exact .inr (by rw [List.lookup_cons, beq_self_eq_true]; rfl)

theorem isSome_insertNew (h : (entries.lookup id).isSome) :
    ((insertNew entries id' rec).lookup id).isSome := by
  rw [insertNew]
  split_ifs
  · exact h
  · exact isSome_lookup_append _ h

theorem mem_insertNew {e : ObjectId × Bytes} (h : e ∈ insertNew entries id rec) :
    e ∈ entries ∨ e = (id, rec) := by
  rw [insertNew] at h
  split_ifs at h
  · exact .inl h
  · exact (List.mem_append.mp h).imp_right List.mem_singleton.mp

theorem mem_insertAll {more : List (ObjectId × Bytes)} {e : ObjectId × Bytes}
    (h : e ∈ more.foldl (fun objects e => insertNew objects e.1 e.2) entries) :
    e ∈ entries ∨ e ∈ more := by
  induction more generalizing entries with
  | nil => exact .inl h
  | cons e' more ih =>
      rcases ih h with h | h
      · refine (mem_insertNew h).imp_right fun heq => ?_
        rw [heq]
        exact List.mem_cons_self
      · exact .inr (List.mem_cons_of_mem _ h)

theorem isSome_insertAll {more : List (ObjectId × Bytes)}
    (h : (entries.lookup id).isSome ∨ (more.lookup id).isSome) :
    ((more.foldl (fun objects e => insertNew objects e.1 e.2) entries).lookup id).isSome := by
  induction more generalizing entries with
  | nil => exact h.resolve_right (by simp)
  | cons e' more ih =>
      rw [List.foldl_cons]
      refine ih ?_
      rw [List.lookup_cons] at h
      by_cases heq : id = e'.1
      · exact .inl (heq ▸ isSome_insertNew_self)
      · rw [beq_eq_false_iff_ne.mpr heq] at h
        exact h.imp_left isSome_insertNew

end Entries

section Layers

variable [Digest] {s : RedbStore} {puts : List (String × Bytes)} {tag : String} {bytes : Bytes}

/-- Both layers hold records of puts, and every put is in one of them. -/
structure Layered (s : RedbStore) (puts : List (String × Bytes)) : Prop where
  objects : ∀ e ∈ s.objects, ∃ p ∈ puts, e = (objectId p.1 p.2, record p.1 p.2)
  pending : ∀ e ∈ s.pending.getD [], ∃ p ∈ puts, e = (objectId p.1 p.2, record p.1 p.2)
  stored : ∀ p ∈ puts, (s.objects.lookup (objectId p.1 p.2)).isSome ∨
    ((s.pending.getD []).lookup (objectId p.1 p.2)).isSome

theorem Layered.putBytes (h : Layered s puts) (tag : String) (bytes : Bytes) :
    Layered (s.putBytes tag bytes) (puts ++ [(tag, bytes)]) := by
  have hold : ∀ {e}, (∃ p ∈ puts, e = (objectId p.1 p.2, record p.1 p.2)) →
      ∃ p ∈ puts ++ [(tag, bytes)], e = (objectId p.1 p.2, record p.1 p.2) :=
    fun ⟨p, hp, he⟩ => ⟨p, List.mem_append_left _ hp, he⟩
  have hnew : ∃ p ∈ puts ++ [(tag, bytes)],
      (objectId tag bytes, record tag bytes) = (objectId p.1 p.2, record p.1 p.2) :=
    ⟨(tag, bytes), List.mem_append_right _ List.mem_cons_self, rfl⟩
  cases hpending : s.pending with
  | none =>
      have hput : s.putBytes tag bytes =
          { s with objects := insertNew s.objects (objectId tag bytes) (record tag bytes) } := by
        rw [RedbStore.putBytes, hpending]
      rw [hput]
      refine ⟨fun e he => ?_, fun e he => hold (h.pending e he), fun p hp => ?_⟩
      · rcases mem_insertNew he with he | rfl
        · exact hold (h.objects e he)
        · exact hnew
      · rcases List.mem_append.mp hp with hp | hp
        · exact (h.stored p hp).imp_left isSome_insertNew
        · cases List.mem_singleton.mp hp
          exact .inl isSome_insertNew_self
  | some map =>
      have hput : s.putBytes tag bytes =
          { s with pending := some (insertNew map (objectId tag bytes) (record tag bytes)) } := by
        rw [RedbStore.putBytes, hpending]
      have hmap : s.pending.getD [] = map := by rw [hpending, Option.getD_some]
      rw [hput]
      refine ⟨fun e he => hold (h.objects e he), fun e he => ?_, fun p hp => ?_⟩
      · rcases mem_insertNew he with he | rfl
        · exact hold (h.pending e (hmap ▸ he))
        · exact hnew
      · rcases List.mem_append.mp hp with hp | hp
        · exact (h.stored p hp).imp_right fun hsome => isSome_insertNew (hmap ▸ hsome)
        · cases List.mem_singleton.mp hp
          exact .inr isSome_insertNew_self

theorem Layered.putAll (h : Layered s puts) (more : List (String × Bytes)) :
    Layered (more.foldl (fun s p => s.putBytes p.1 p.2) s) (puts ++ more) := by
  induction more generalizing s puts with
  | nil => rwa [List.append_nil]
  | cons p more ih =>
      have hrest := ih (h.putBytes p.1 p.2)
      rwa [List.append_assoc] at hrest

theorem Layered.run (h : Layered s puts) (op : StoreOp) :
    Layered (op.run s) (puts ++ op.puts) := by
  cases op with
  | beginBatch =>
      rw [StoreOp.puts, List.append_nil]
      exact ⟨h.objects, h.pending, h.stored⟩
  | put tag bytes => exact h.putBytes tag bytes
  | endBatch =>
      rw [StoreOp.puts, List.append_nil]
      refine ⟨fun e he => ?_, fun e he => absurd he List.not_mem_nil,
        fun p hp => .inl (isSome_insertAll (h.stored p hp))⟩
      rcases mem_insertAll he with he | he
      · exact h.objects e he
      · exact h.pending e he
  | «import» pack => exact h.putAll _

theorem layered_runAll (ops : List StoreOp) : Layered (runAll ops) (putsOf ops) := by
  induction ops using List.reverseRecOn with
  | nil => exact ⟨by simp [runAll, RedbStore.new], by simp [runAll, RedbStore.new], by simp [putsOf]⟩
  | append_singleton ops op ih =>
      have hrun := ih.run op
      rwa [runAll, List.foldl_append, putsOf, List.flatMap_append, List.flatMap_singleton]

/-- No two different objects of the puts are hashed as the same bytes. -/
def Apart (puts : List (String × Bytes)) : Prop :=
  ∀ p ∈ puts, ∀ q ∈ puts, hashed p.1 p.2 = hashed q.1 q.2 → p = q

/-- The hash tells what is hashed of the puts apart. -/
def Ideal (puts : List (String × Bytes)) : Prop :=
  ∀ p ∈ puts, ∀ q ∈ puts, objectId p.1 p.2 = objectId q.1 q.2 →
    hashed p.1 p.2 = hashed q.1 q.2

/-- The bytes of a put are read back. -/
def BytesRead (s : RedbStore) (p : String × Bytes) : Prop :=
  s.getBytes (objectId p.1 p.2) = .ok (some p.2) ∧ s.has (objectId p.1 p.2) = .ok true

def TaggedRead (s : RedbStore) (p : String × Bytes) : Prop :=
  s.getTagged (objectId p.1 p.2) = .ok (some (p.1, p.2))

omit [Digest] in
theorem splitRecord_record (tag : String) (bytes : Bytes) :
    splitRecord (record tag bytes) =
      .ok (fromUtf8Lossy ((utf8 tag).take ((utf8 tag).length % 256)),
        (utf8 tag).drop ((utf8 tag).length % 256) ++ bytes) := by
  have hlength : (Byte.ofNat (utf8 tag).length).val = (utf8 tag).length % 256 := rfl
  have hle := Nat.mod_le (utf8 tag).length 256
  rw [record, splitRecord, hlength, if_pos (by rw [List.length_append]; omega),
    List.take_append_of_le_length hle, List.drop_append_of_le_length hle]

omit [Digest] in
/-- A record is split as it was made exactly if its tag is shorter than 256 bytes. -/
theorem split_bytes_iff : (utf8 tag).drop ((utf8 tag).length % 256) ++ bytes = bytes ↔
    (utf8 tag).length < 256 := by
  rw [List.append_left_eq_self, List.drop_eq_nil_iff]
  have hmod := Nat.mod_lt (utf8 tag).length (show 256 > 0 by omega)
  constructor
  · omega
  · intro hlt
    rw [Nat.mod_eq_of_lt hlt]

omit [Digest] in
theorem splitRecord_short (h : (utf8 tag).length < 256) :
    splitRecord (record tag bytes) = .ok (tag, bytes) := by
  rw [splitRecord_record, Nat.mod_eq_of_lt h, List.take_length, List.drop_length,
    fromUtf8Lossy_utf8, List.nil_append]

variable {p : String × Bytes}

theorem record_eq (hideal : Ideal puts) (hapart : Apart puts) (hp : p ∈ puts)
    {entries : List (ObjectId × Bytes)} {rec : Bytes}
    (hentries : ∀ e ∈ entries, ∃ p ∈ puts, e = (objectId p.1 p.2, record p.1 p.2))
    (hrec : entries.lookup (objectId p.1 p.2) = some rec) : rec = record p.1 p.2 := by
  obtain ⟨q, hq, heq⟩ := hentries _ (mem_of_lookup hrec)
  obtain ⟨hid, rfl⟩ := Prod.mk.inj heq
  rw [hapart p hp q hq (hideal p hp q hq hid)]

theorem Layered.getBytes (h : Layered s puts) (hideal : Ideal puts) (hapart : Apart puts)
    (hp : p ∈ puts) : s.getBytes (objectId p.1 p.2) =
      (splitRecord (record p.1 p.2)).map fun split => some split.2 := by
  rw [RedbStore.getBytes]
  cases hpending : (s.pending.getD []).lookup (objectId p.1 p.2) with
  | some rec => rw [record_eq hideal hapart hp h.pending hpending]
  | none =>
      have hstored := (h.stored p hp).resolve_right (by simp [hpending])
      obtain ⟨rec, hrec⟩ := Option.isSome_iff_exists.mp hstored
      rw [hrec, record_eq hideal hapart hp h.objects hrec]

theorem Layered.bytesRead_iff (h : Layered s puts) (hideal : Ideal puts) (hapart : Apart puts)
    (hp : p ∈ puts) : BytesRead s p ↔ (utf8 p.1).length < 256 := by
  rw [BytesRead, RedbStore.has, h.getBytes hideal hapart hp, splitRecord_record]
  simp only [Except.map, Except.ok.injEq, Option.some.injEq, Option.isSome_some, and_true]
  exact split_bytes_iff

theorem Layered.taggedRead_iff (h : Layered s puts) (hideal : Ideal puts) (hapart : Apart puts)
    (hp : p ∈ puts) (hshort : (utf8 p.1).length < 256) :
    TaggedRead s p ↔ (s.objects.lookup (objectId p.1 p.2)).isSome := by
  rw [TaggedRead, RedbStore.getTagged]
  cases hrec : s.objects.lookup (objectId p.1 p.2) with
  | none => simp
  | some rec =>
      rw [record_eq hideal hapart hp h.objects hrec]
      simp only [splitRecord_short hshort, Except.map, Option.isSome_some]

end Layers

section Runs

variable [Digest]

/-- At every point of a run, every read of what was put so far returns it. -/
def ReadsPuts (ops : List StoreOp) : Prop :=
  ∀ done rest, ops = done ++ rest → ∀ p ∈ putsOf done,
    BytesRead (runAll done) p ∧ TaggedRead (runAll done) p

/-- Every put has a tag shorter than 256 bytes, is hashed as no other, and waits in a
batch only where its object is in the database already. -/
structure Readable (ops : List StoreOp) : Prop where
  short : ∀ p ∈ putsOf ops, (utf8 p.1).length < 256
  apart : Apart (putsOf ops)
  written : ∀ done op rest, ops = done ++ op :: rest → (runAll done).pending.isSome →
    ∀ p ∈ op.puts, ((runAll done).objects.lookup (objectId p.1 p.2)).isSome

theorem runAll_concat (ops : List StoreOp) (op : StoreOp) :
    runAll (ops ++ [op]) = op.run (runAll ops) := by
  rw [runAll, List.foldl_append]
  rfl

theorem putsOf_concat (ops : List StoreOp) (op : StoreOp) :
    putsOf (ops ++ [op]) = putsOf ops ++ op.puts := by
  rw [putsOf, List.flatMap_append, List.flatMap_singleton, putsOf]

theorem putAll_pending {s : RedbStore} (h : s.pending.isSome) (puts : List (String × Bytes)) :
    (puts.foldl (fun s p => s.putBytes p.1 p.2) s).objects = s.objects := by
  induction puts generalizing s with
  | nil => rfl
  | cons p puts ih =>
      obtain ⟨map, hmap⟩ := Option.isSome_iff_exists.mp h
      have hput : s.putBytes p.1 p.2 =
          { s with pending := some (insertNew map (objectId p.1 p.2) (record p.1 p.2)) } := by
        rw [RedbStore.putBytes, hmap]
      rw [List.foldl_cons, ih (by rw [hput]; rfl), hput]

theorem isSome_putBytes {s : RedbStore} {id : ObjectId} (h : (s.objects.lookup id).isSome)
    (p : String × Bytes) : ((s.putBytes p.1 p.2).objects.lookup id).isSome := by
  rw [RedbStore.putBytes]
  cases s.pending with
  | none => exact isSome_insertNew h
  | some map => exact h

theorem isSome_putAll {s : RedbStore} {id : ObjectId} (h : (s.objects.lookup id).isSome)
    (puts : List (String × Bytes)) :
    ((puts.foldl (fun s p => s.putBytes p.1 p.2) s).objects.lookup id).isSome := by
  induction puts generalizing s with
  | nil => exact h
  | cons p puts ih => exact ih (isSome_putBytes h p)

theorem isSome_run {s : RedbStore} {id : ObjectId} (h : (s.objects.lookup id).isSome)
    (op : StoreOp) : ((op.run s).objects.lookup id).isSome := by
  cases op with
  | beginBatch => exact h
  | put tag bytes => exact isSome_putBytes h (tag, bytes)
  | endBatch => exact isSome_insertAll (.inl h)
  | «import» pack => exact isSome_putAll h _

/-- Outside a batch what is put is in the database at once. -/
theorem isSome_putAll_self {s : RedbStore} (h : s.pending = none) {puts : List (String × Bytes)}
    {p : String × Bytes} (hp : p ∈ puts) :
    ((puts.foldl (fun s p => s.putBytes p.1 p.2) s).objects.lookup (objectId p.1 p.2)).isSome := by
  induction puts generalizing s with
  | nil => cases hp
  | cons q puts ih =>
      have hput : s.putBytes q.1 q.2 =
          { s with objects := insertNew s.objects (objectId q.1 q.2) (record q.1 q.2) } := by
        rw [RedbStore.putBytes, h]
      rcases List.mem_cons.mp hp with rfl | hp
      · have hself : ((s.putBytes p.1 p.2).objects.lookup (objectId p.1 p.2)).isSome := by
          rw [hput]
          exact isSome_insertNew_self
        exact isSome_putAll hself puts
      · have hpending : (s.putBytes q.1 q.2).pending = none := by rw [hput, h]
        exact ih hpending hp

theorem run_puts (s : RedbStore) (op : StoreOp) {p : String × Bytes} (hp : p ∈ op.puts) :
    op.run s = op.puts.foldl (fun s p => s.putBytes p.1 p.2) s := by
  cases op with
  | beginBatch => cases hp
  | put tag bytes => rfl
  | endBatch => cases hp
  | «import» pack => rfl

theorem Readable.objects {ops : List StoreOp} (h : Readable ops) (done rest : List StoreOp)
    (hops : ops = done ++ rest) :
    ∀ p ∈ putsOf done, ((runAll done).objects.lookup (objectId p.1 p.2)).isSome := by
  induction done using List.reverseRecOn generalizing rest with
  | nil =>
      intro p hp
      cases hp
  | append_singleton done op ih =>
      rw [List.append_assoc] at hops
      have hold := ih ([op] ++ rest) hops
      intro p hp
      rw [runAll_concat]
      rw [putsOf_concat] at hp
      rcases List.mem_append.mp hp with hp | hp
      · exact isSome_run (hold p hp) op
      · cases hpending : (runAll done).pending with
        | none =>
            rw [run_puts _ op hp]
            exact isSome_putAll_self hpending hp
        | some map => exact isSome_run (h.written done op rest hops (by rw [hpending]; rfl) p hp) op

theorem apart_of_read {s : RedbStore} {p q : String × Bytes} (hp : BytesRead s p)
    (hq : BytesRead s q) (h : hashed p.1 p.2 = hashed q.1 q.2) : p = q := by
  have hid : objectId p.1 p.2 = objectId q.1 q.2 := congrArg Digest.blake3 h
  have hbytes : p.2 = q.2 := by
    have hsame := hp.1
    rw [hid, hq.1] at hsame
    simpa using hsame.symm
  rw [hashed, hashed, hbytes] at h
  have htag := List.append_cancel_left (List.append_cancel_right (List.append_cancel_right h))
  exact Prod.ext (utf8_injective htag) hbytes

/-- Reads return what was put exactly in the runs whose puts can be read. -/
theorem reads_puts_iff (ops : List StoreOp) (hideal : Ideal (putsOf ops)) :
    ReadsPuts ops ↔ Readable ops := by
  have hsub : ∀ {done rest : List StoreOp}, ops = done ++ rest → ∀ p ∈ putsOf done,
      p ∈ putsOf ops := by
    intro done rest hops p hp
    rw [hops, putsOf, List.flatMap_append]
    exact List.mem_append_left _ hp
  constructor
  · intro h
    have hlast := h ops [] (List.append_nil ops).symm
    have hapart : Apart (putsOf ops) := fun p hp q hq hsame =>
      apart_of_read (hlast p hp).1 (hlast q hq).1 hsame
    have hshort : ∀ p ∈ putsOf ops, (utf8 p.1).length < 256 := fun p hp =>
      ((layered_runAll ops).bytesRead_iff hideal hapart hp).mp (hlast p hp).1
    refine ⟨hshort, hapart, fun done op rest hops hpending p hp => ?_⟩
    have hops' : ops = (done ++ [op]) ++ rest := by rw [hops, List.append_assoc]; rfl
    have hmem : p ∈ putsOf (done ++ [op]) := by
      rw [putsOf_concat]
      exact List.mem_append_right _ hp
    have hwritten := ((layered_runAll (done ++ [op])).taggedRead_iff
      (fun p hp q hq => hideal p (hsub hops' p hp) q (hsub hops' q hq))
      (fun p hp q hq => hapart p (hsub hops' p hp) q (hsub hops' q hq)) hmem
      (hshort p (hsub hops' p hmem))).mp (h _ rest hops' p hmem).2
    rwa [runAll_concat, run_puts _ op hp, putAll_pending hpending] at hwritten
  · intro h done rest hops p hp
    have hlayered := layered_runAll done
    have hideal' : Ideal (putsOf done) := fun p hp q hq =>
      hideal p (hsub hops p hp) q (hsub hops q hq)
    have hapart' : Apart (putsOf done) := fun p hp q hq =>
      h.apart p (hsub hops p hp) q (hsub hops q hq)
    have hshort := h.short p (hsub hops p hp)
    exact ⟨(hlayered.bytesRead_iff hideal' hapart' hp).mpr hshort,
      (hlayered.taggedRead_iff hideal' hapart' hp hshort).mpr (h.objects done rest hops p hp)⟩

end Runs

section Samples

local instance sampleDigest : Digest := ⟨fun bytes => .splat bytes.length⟩

/-- An object put in a batch has no tag until the batch ends. -/
theorem tagged_in_batch : ¬ ReadsPuts [.beginBatch, .put "blob" [.ofNat 97]] := by
  intro h
  have hread := h [.beginBatch, .put "blob" [.ofNat 97]] [] rfl ("blob", [.ofNat 97])
    List.mem_cons_self
  cases hread.2

theorem reads_puts_put : ReadsPuts [.put "blob" [.ofNat 97], .beginBatch, .endBatch] ↔
    Readable [.put "blob" [.ofNat 97], .beginBatch, .endBatch] := by
  refine reads_puts_iff _ fun p hp q hq _ => ?_
  cases List.mem_singleton.mp hp
  cases List.mem_singleton.mp hq
  rfl

end Samples

end Tessra.Redb
