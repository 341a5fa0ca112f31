import Tessra.Cbor.Encoding
import Tessra.Pack.Varint

namespace Tessra.Pack

open Tessra.Core
open Tessra.Redb (utf8 fromUtf8 fromUtf8_utf8)
open Tessra.Cbor (utf8_of_fromUtf8)

/-! Packs: records one after the other between a header and the hash of it all. -/

structure Record where
  id : ObjectId
  tag : String
  bytes : Bytes
deriving DecidableEq

def magic : Bytes := [0x47, 0x56, 0x50, 0x4b]

def version : Byte := 1

section Writing

variable (blake3 : Bytes → ObjectId)

def objectId (tag : String) (bytes : Bytes) : ObjectId :=
  blake3 (utf8 "tessra:" ++ utf8 tag ++ utf8 "\n" ++ bytes)

def writeRecord (r : Record) : Bytes :=
  r.id.bytes ++ writeVarint (utf8 r.tag).length ++ utf8 r.tag ++
    writeVarint r.bytes.length ++ r.bytes

/-- The header, some records and the trailer. -/
def close (records : Bytes) : Bytes :=
  let body := magic ++ [version] ++ records
  body ++ (blake3 body).bytes

def write (records : List Record) : Bytes := close blake3 (records.flatMap writeRecord)

end Writing

section Reading

def readId (cur : Bytes) : Except Stop (ObjectId × Bytes) :=
  if h : 32 ≤ cur.length then .ok (⟨cur.take 32, List.length_take_of_le h⟩, cur.drop 32)
  else .error (.failed .unexpectedEof)

def readExact (n : ℕ) (cur : Bytes) : Except Stop (Bytes × Bytes) :=
  if n ≤ cur.length then .ok (cur.take n, cur.drop n) else .error (.failed .unexpectedEof)

/-- The buffer is made before it is filled, and none is larger than an `isize` counts. -/
def readVec (cur : Bytes) : Except Stop (Bytes × Bytes) := do
  let (len, cur) ← readVarint 0 0 cur
  if len < 2 ^ 63 then readExact len cur else .error (.panicked "capacity overflow")

variable (blake3 : Bytes → ObjectId)

def readRecord (cur : Bytes) : Except Stop (Record × Bytes) := do
  let (id, cur) ← readId cur
  let (tag, cur) ← readVec cur
  match fromUtf8 tag with
  | none => .error (.failed (.pack "tag not utf-8"))
  | some tag =>
      let (data, cur) ← readVec cur
      if objectId blake3 tag data = id then .ok (⟨id, tag, data⟩, cur)
      else .error (.failed (.pack s!"record {id} does not hash to its id"))

end Reading

/-- The bytes spell a length, in whichever form. -/
structure Spells (v : Bytes) (n : ℕ) : Prop where
  terminated : Terminated v
  short : v.length ≤ 10
  value : value v % 2 ^ 64 = n

/-- A record, with its two lengths as they are spelled. -/
structure Entry where
  record : Record
  tagLen : Bytes
  len : Bytes

def Entry.bytes (e : Entry) : Bytes :=
  e.record.id.bytes ++ e.tagLen ++ utf8 e.record.tag ++ e.len ++ e.record.bytes

/-- A record whose id is the hash of its bytes, which fit in memory. -/
structure Record.Sound (blake3 : Bytes → ObjectId) (r : Record) : Prop where
  hashed : objectId blake3 r.tag r.bytes = r.id
  tag_fits : (utf8 r.tag).length < 2 ^ 63
  bytes_fits : r.bytes.length < 2 ^ 63

structure Entry.Sound (blake3 : Bytes → ObjectId) (e : Entry) : Prop where
  record : e.record.Sound blake3
  tagLen : Spells e.tagLen (utf8 e.record.tag).length
  len : Spells e.len e.record.bytes.length

/-- Bytes where the first length that is reached is more than a buffer holds. -/
inductive Oversize : Bytes → Prop
  | tag (id : ObjectId) {v : Bytes} {n : ℕ} (rest : Bytes) (hv : Spells v n)
      (hn : 2 ^ 63 ≤ n) : Oversize (id.bytes ++ v ++ rest)
  | bytes (id : ObjectId) (tag : String) {v w : Bytes} {n : ℕ} (rest : Bytes)
      (hv : Spells v (utf8 tag).length) (htag : (utf8 tag).length < 2 ^ 63)
      (hw : Spells w n) (hn : 2 ^ 63 ≤ n) : Oversize (id.bytes ++ v ++ utf8 tag ++ w ++ rest)

variable {blake3 : Bytes → ObjectId} {cur rest data a b v w : Bytes} {n m : ℕ} {r : Record}
  {e : Entry} {rs : List Record} {es : List Entry} {message : String}

section Parts

theorem Spells.readVarint (h : Spells v n) (rest : Bytes) :
    readVarint 0 0 (v ++ rest) = .ok (n, rest) :=
  readVarint_eq_ok_iff.mpr ⟨v, rfl, h.terminated, h.short, h.value.symm⟩

theorem spells_of_readVarint (h : Pack.readVarint 0 0 cur = .ok (n, rest)) :
    ∃ v, cur = v ++ rest ∧ Spells v n := by
  obtain ⟨v, hcur, hv, hshort, hn⟩ := readVarint_eq_ok_iff.mp h
  exact ⟨v, hcur, hv, hshort, hn.symm⟩

theorem spells_writeVarint (h : n < 2 ^ 63) : Spells (writeVarint n) n := by
  have hbig : n < 2 ^ 64 := by omega
  refine ⟨terminated_writeVarint n, length_writeVarint (k := 9) ?_, ?_⟩
  · exact hbig.trans_le (Nat.pow_le_pow_right (by omega) (by omega))
  · rw [value_writeVarint, Nat.mod_eq_of_lt hbig]

theorem Spells.writeVarint_eq_iff (h : Spells v n) : writeVarint n = v ↔ Shortest v := by
  rw [← h.value]
  exact Pack.writeVarint_eq_iff h.terminated

/-- No spelling of a length starts another. -/
theorem Spells.append_inj (hv : Spells v n) (hw : Spells w m) (h : v ++ a = w ++ b) :
    v = w ∧ a = b := by
  have hread := hv.readVarint a
  rw [h, hw.readVarint b, Except.ok.injEq, Prod.mk.injEq] at hread
  obtain ⟨-, rfl⟩ := hread
  exact ⟨List.append_cancel_right h, rfl⟩

theorem readId_append (id : ObjectId) (rest : Bytes) :
    readId (id.bytes ++ rest) = .ok (id, rest) := by
  have hlength := id.length_bytes
  rw [readId, dif_pos (by rw [List.length_append]; omega)]
  congr 2
  · apply ObjectId.bytes_injective
    change List.take 32 _ = _
    rw [← hlength, List.take_left]
  · rw [← hlength, List.drop_left]

theorem readId_cases (cur : Bytes) :
    (∃ id rest, cur = ObjectId.bytes id ++ rest) ∨
      readId cur = .error (.failed .unexpectedEof) := by
  by_cases h : 32 ≤ cur.length
  · exact .inl ⟨⟨cur.take 32, List.length_take_of_le h⟩, cur.drop 32,
      (List.take_append_drop 32 cur).symm⟩
  · exact .inr (dif_neg h)

theorem readVec_append (h : Spells v data.length) (hfits : data.length < 2 ^ 63)
    (rest : Bytes) : readVec (v ++ (data ++ rest)) = .ok (data, rest) := by
  rw [readVec, h.readVarint]
  change (if data.length < 2 ^ 63 then readExact data.length (data ++ rest) else _) = _
  rw [if_pos hfits, readExact, if_pos (by simp), List.take_left, List.drop_left]

theorem readVec_oversize (h : Spells v n) (hn : 2 ^ 63 ≤ n) (rest : Bytes) :
    readVec (v ++ rest) = .error (.panicked "capacity overflow") := by
  rw [readVec, h.readVarint]
  exact if_neg (by omega)

/-- What reading a buffer comes to. -/
theorem readVec_cases (cur : Bytes) :
    (∃ v data rest, cur = v ++ (data ++ rest) ∧ Spells v data.length ∧ data.length < 2 ^ 63) ∨
      (∃ v n rest, cur = v ++ rest ∧ Spells v n ∧ 2 ^ 63 ≤ n) ∨
      ∃ error, readVec cur = .error (.failed error) := by
  cases hread : Pack.readVarint 0 0 cur with
  | error stop =>
      cases stop with
      | failed error => exact .inr (.inr ⟨error, by rw [readVec, hread]; rfl⟩)
      | panicked message => exact absurd hread readVarint_not_panicked
  | ok found =>
      obtain ⟨n, rest⟩ := found
      obtain ⟨v, rfl, hv⟩ := spells_of_readVarint hread
      by_cases hn : n < 2 ^ 63
      · by_cases hle : n ≤ rest.length
        · refine .inl ⟨v, rest.take n, rest.drop n, by rw [List.take_append_drop], ?_, ?_⟩
          · rwa [List.length_take_of_le hle]
          · rwa [List.length_take_of_le hle]
        · refine .inr (.inr ⟨.unexpectedEof, ?_⟩)
          rw [readVec, hread]
          change (if n < 2 ^ 63 then readExact n rest else _) = _
          rw [if_pos hn]
          exact if_neg hle
      · exact .inr (.inl ⟨v, n, rest, rfl, hv, by omega⟩)

end Parts

section Records

theorem Entry.Sound.readRecord (h : e.Sound blake3) (rest : Bytes) :
    readRecord blake3 (e.bytes ++ rest) = .ok (e.record, rest) := by
  have hbytes : e.bytes ++ rest = e.record.id.bytes ++
      (e.tagLen ++ (utf8 e.record.tag ++ (e.len ++ (e.record.bytes ++ rest)))) := by
    rw [Entry.bytes]
    simp only [List.append_assoc]
  rw [Pack.readRecord, hbytes, readId_append]
  simp only [bind, Except.bind, readVec_append h.tagLen h.record.tag_fits, fromUtf8_utf8,
    readVec_append h.len h.record.bytes_fits, if_pos h.record.hashed]

theorem Oversize.readRecord (h : Oversize cur) :
    readRecord blake3 cur = .error (.panicked "capacity overflow") := by
  cases h with
  | tag id rest hv hn =>
      rw [Pack.readRecord, List.append_assoc, readId_append]
      simp only [bind, Except.bind, readVec_oversize hv hn]
  | bytes id tag rest hv htag hw hn =>
      rw [Pack.readRecord, List.append_assoc, List.append_assoc, List.append_assoc,
        readId_append]
      simp only [bind, Except.bind, readVec_append hv htag, fromUtf8_utf8,
        readVec_oversize hw hn]

/-- What reading a record comes to. -/
theorem readRecord_cases (blake3 : Bytes → ObjectId) (cur : Bytes) :
    (∃ e rest, cur = Entry.bytes e ++ rest ∧ e.Sound blake3) ∨ Oversize cur ∨
      ∃ error, readRecord blake3 cur = .error (.failed error) := by
  obtain ⟨id, cur, rfl⟩ | hid := readId_cases cur
  swap
  · exact .inr (.inr ⟨_, by rw [readRecord, hid]; rfl⟩)
  obtain ⟨v, tag, cur, rfl, hv, htag⟩ | ⟨v, n, rest, rfl, hv, hn⟩ | ⟨error, herror⟩ :=
    readVec_cases cur
  · cases htext : fromUtf8 tag with
    | none =>
        refine .inr (.inr ⟨.pack "tag not utf-8", ?_⟩)
        rw [readRecord, readId_append]
        simp only [bind, Except.bind, readVec_append hv htag, htext]
    | some text =>
        obtain rfl := utf8_of_fromUtf8 htext
        obtain ⟨w, data, rest, rfl, hw, hdata⟩ | ⟨w, n, rest, rfl, hw, hn⟩ | ⟨error, herror⟩ :=
          readVec_cases cur
        · by_cases hhash : objectId blake3 text data = id
          · refine .inl ⟨⟨⟨id, text, data⟩, v, w⟩, rest, ?_, ⟨hhash, htag, hdata⟩, hv, hw⟩
            rw [Entry.bytes]
            simp only [List.append_assoc]
          · refine .inr (.inr ⟨.pack s!"record {id} does not hash to its id", ?_⟩)
            rw [readRecord, readId_append]
            simp only [bind, Except.bind, readVec_append hv htag, fromUtf8_utf8,
              readVec_append hw hdata, if_neg hhash]
        · refine .inr (.inl ?_)
          have hover := Oversize.bytes id text rest hv htag hw hn
          simpa only [List.append_assoc] using hover
        · refine .inr (.inr ⟨error, ?_⟩)
          rw [readRecord, readId_append]
          simp only [bind, Except.bind, readVec_append hv htag, fromUtf8_utf8, herror]
  · refine .inr (.inl ?_)
    have hover := Oversize.tag id rest hv hn
    simpa only [List.append_assoc] using hover
  · refine .inr (.inr ⟨error, ?_⟩)
    rw [readRecord, readId_append]
    simp only [bind, Except.bind, herror]

theorem readRecord_shrinks (h : readRecord blake3 cur = .ok (r, rest)) :
    rest.length < cur.length := by
  obtain ⟨e, rest', rfl, he⟩ | hover | ⟨error, herror⟩ := readRecord_cases blake3 cur
  · rw [he.readRecord] at h
    cases h
    have hid := e.record.id.length_bytes
    simp only [Entry.bytes, List.length_append]
    omega
  · rw [hover.readRecord] at h
    cases h
  · rw [herror] at h
    cases h

variable (blake3) in
def readRecords (cur : Bytes) : Except Stop (List Record) :=
  if cur = [] then .ok []
  else
    match _h : readRecord blake3 cur with
    | .error stop => .error stop
    | .ok (r, rest) => (r :: ·) <$> readRecords rest
termination_by cur.length
decreasing_by exact readRecord_shrinks _h

theorem readRecords_nil : readRecords blake3 [] = .ok [] := by
  rw [readRecords, if_pos rfl]

theorem readRecords_error {stop : Stop} (h : readRecord blake3 cur = .error stop)
    (hne : cur ≠ []) : readRecords blake3 cur = .error stop := by
  rw [readRecords, if_neg hne]
  split
  · rename_i heq
    rw [h] at heq
    cases heq
    rfl
  · rename_i heq
    rw [h] at heq
    cases heq

theorem readRecords_ok (h : readRecord blake3 cur = .ok (r, rest)) :
    readRecords blake3 cur = (r :: ·) <$> readRecords blake3 rest := by
  have hne : cur ≠ [] := fun hnil => by
    have hlt := readRecord_shrinks h
    rw [hnil] at hlt
    exact absurd hlt (Nat.not_lt_zero _)
  rw [readRecords, if_neg hne]
  split
  · rename_i heq
    rw [h] at heq
    cases heq
  · rename_i heq
    rw [h] at heq
    cases heq
    rfl

theorem readRecords_entries (hes : ∀ e ∈ es, e.Sound blake3) (rest : Bytes) :
    readRecords blake3 (es.flatMap Entry.bytes ++ rest) =
      (es.map Entry.record ++ ·) <$> readRecords blake3 rest := by
  induction es with
  | nil =>
      cases h : readRecords blake3 rest <;> simp [h, Functor.map, Except.map]
  | cons e es ih =>
      rw [List.flatMap_cons, List.append_assoc,
        readRecords_ok ((hes e List.mem_cons_self).readRecord _),
        ih fun e he => hes e (List.mem_cons_of_mem _ he)]
      cases readRecords blake3 rest <;> rfl

theorem Oversize.ne_nil (h : Oversize cur) : cur ≠ [] := by
  rintro rfl
  have hread : Pack.readRecord (fun _ => ObjectId.splat 0) [] =
      .error (.panicked "capacity overflow") := h.readRecord
  cases hread

/-- What reading records comes to. -/
theorem readRecords_cases (blake3 : Bytes → ObjectId) (cur : Bytes) :
    (∃ es : List Entry, cur = es.flatMap Entry.bytes ∧ ∀ e ∈ es, e.Sound blake3) ∨
      (∃ (es : List Entry) (rest : Bytes), cur = es.flatMap Entry.bytes ++ rest ∧
        (∀ e ∈ es, e.Sound blake3) ∧ Oversize rest) ∨
      ∃ error, readRecords blake3 cur = .error (.failed error) := by
  induction hn : cur.length using Nat.strong_induction_on generalizing cur with
  | _ n ih =>
    subst hn
    by_cases hnil : cur = []
    · exact .inl ⟨[], hnil, by simp⟩
    obtain ⟨e, rest, rfl, he⟩ | hover | ⟨error, herror⟩ := readRecord_cases blake3 cur
    · obtain ⟨es, rfl, hes⟩ | ⟨es, last, rfl, hes, hover⟩ | ⟨error, herror⟩ :=
        ih rest.length (readRecord_shrinks (he.readRecord rest)) rest rfl
      · exact .inl ⟨e :: es, rfl, List.forall_mem_cons.mpr ⟨he, hes⟩⟩
      · exact .inr (.inl ⟨e :: es, last, by rw [List.flatMap_cons, List.append_assoc],
          List.forall_mem_cons.mpr ⟨he, hes⟩, hover⟩)
      · exact .inr (.inr ⟨error, by rw [readRecords_ok (he.readRecord rest), herror]; rfl⟩)
    · exact .inr (.inl ⟨[], cur, rfl, by simp, hover⟩)
    · exact .inr (.inr ⟨error, readRecords_error herror hnil⟩)

theorem readRecords_sound (hes : ∀ e ∈ es, e.Sound blake3) :
    readRecords blake3 (es.flatMap Entry.bytes) = .ok (es.map Entry.record) := by
  have h := readRecords_entries hes []
  rw [List.append_nil, readRecords_nil] at h
  rw [h]
  exact congrArg Except.ok (List.append_nil _)

theorem readRecords_oversize (hes : ∀ e ∈ es, e.Sound blake3) (hover : Oversize rest) :
    readRecords blake3 (es.flatMap Entry.bytes ++ rest) =
      .error (.panicked "capacity overflow") := by
  rw [readRecords_entries hes, readRecords_error hover.readRecord hover.ne_nil]
  rfl

/-- The entry a record is written as. -/
def Record.entry (r : Record) : Entry :=
  ⟨r, writeVarint (utf8 r.tag).length, writeVarint r.bytes.length⟩

theorem Record.Sound.entry (h : r.Sound blake3) : r.entry.Sound blake3 :=
  ⟨h, spells_writeVarint h.tag_fits, spells_writeVarint h.bytes_fits⟩

theorem flatMap_entry (rs : List Record) :
    (rs.map Record.entry).flatMap Entry.bytes = rs.flatMap writeRecord := by
  rw [List.flatMap_map]
  rfl

/-- Entries are written as they were read when their lengths were in their shortest form. -/
theorem flatMap_writeRecord_iff (hes : ∀ e ∈ es, e.Sound blake3) :
    (es.map Entry.record).flatMap writeRecord = es.flatMap Entry.bytes ↔
      ∀ e ∈ es, Shortest e.tagLen ∧ Shortest e.len := by
  induction es with
  | nil => simp
  | cons e es ih =>
      obtain ⟨he, hes⟩ := List.forall_mem_cons.mp hes
      rw [List.map_cons, List.flatMap_cons, List.flatMap_cons, List.forall_mem_cons, ← ih hes]
      constructor
      · intro h
        have hread := he.record.entry.readRecord
          ((es.map Entry.record).flatMap writeRecord)
        rw [show e.record.entry.bytes = writeRecord e.record from rfl, h, he.readRecord,
          Except.ok.injEq, Prod.mk.injEq] at hread
        refine ⟨?_, hread.2.symm⟩
        rw [hread.2] at h
        have hbytes := List.append_cancel_right h
        rw [writeRecord, Entry.bytes] at hbytes
        simp only [List.append_assoc, List.append_cancel_left_eq] at hbytes
        obtain ⟨htag, hbytes⟩ := (spells_writeVarint he.record.tag_fits).append_inj
          he.tagLen hbytes
        rw [List.append_cancel_left_eq] at hbytes
        obtain ⟨hlen, -⟩ := (spells_writeVarint he.record.bytes_fits).append_inj he.len hbytes
        exact ⟨he.tagLen.writeVarint_eq_iff.mp htag, he.len.writeVarint_eq_iff.mp hlen⟩
      · rintro ⟨⟨htag, hlen⟩, hrest⟩
        rw [hrest, writeRecord, Entry.bytes, he.tagLen.writeVarint_eq_iff.mpr htag,
          he.len.writeVarint_eq_iff.mpr hlen]

end Records

section Packs

variable (blake3) in
/-- Trailer, header and every record's hash under its tag. -/
def read (bytes : Bytes) : Except Stop (List Record) :=
  if bytes.length < 4 + 1 + 32 then .error (.failed (.pack "too short"))
  else
    let body := bytes.take (bytes.length - 32)
    let trailer := bytes.drop (bytes.length - 32)
    if (blake3 body).bytes ≠ trailer then .error (.failed (.pack "trailer mismatch"))
    else if body.take 4 ≠ magic ∨ body[4]? ≠ some version then
      .error (.failed (.pack "bad magic or version"))
    else readRecords blake3 (body.drop 5)

theorem close_inj (h : close blake3 a = close blake3 b) : a = b := by
  have hbody := (List.append_inj' h (by rw [ObjectId.length_bytes, ObjectId.length_bytes])).1
  exact List.append_cancel_left hbody

theorem read_close (blake3 : Bytes → ObjectId) (records : Bytes) :
    read blake3 (close blake3 records) = readRecords blake3 records := by
  have hlength : (close blake3 records).length - 32 =
      (magic ++ [version] ++ records).length := by
    rw [close, List.length_append, ObjectId.length_bytes, Nat.add_sub_cancel]
  have hlong : ¬ (close blake3 records).length < 4 + 1 + 32 := by
    simp [close, magic, ObjectId.length_bytes]
  rw [read, if_neg hlong]
  simp only [hlength]
  rw [close, List.take_left, List.drop_left, if_neg (not_not.mpr rfl), if_neg]
  · rfl
  · rw [not_or, not_not, not_not]
    exact ⟨rfl, rfl⟩

/-- Only what is closed under its header and trailer is read any further. -/
theorem read_cases (blake3 : Bytes → ObjectId) (bytes : Bytes) :
    (∃ records, bytes = close blake3 records) ∨
      ∃ error, read blake3 bytes = .error (.failed error) := by
  rw [read]
  dsimp only
  split_ifs with hshort htrailer hheader
  · exact .inr ⟨_, rfl⟩
  · exact .inr ⟨_, rfl⟩
  · exact .inr ⟨_, rfl⟩
  · rw [not_not] at htrailer
    rw [not_or, not_not, not_not] at hheader
    refine .inl ⟨(bytes.take (bytes.length - 32)).drop 5, ?_⟩
    have hbody : magic ++ [version] ++ (bytes.take (bytes.length - 32)).drop 5 =
        bytes.take (bytes.length - 32) := by
      obtain ⟨hlt, hversion⟩ := List.getElem?_eq_some_iff.mp hheader.2
      rw [← hheader.1, ← hversion, List.append_assoc, List.singleton_append,
        ← List.drop_eq_getElem_cons hlt, List.take_append_drop]
    rw [close, hbody, htrailer, List.take_append_drop]

/-- Bytes that reading turns down, or takes for records that write them again. -/
structure Exact (blake3 : Bytes → ObjectId) (bytes : Bytes) : Prop where
  total : ∀ message, read blake3 bytes ≠ .error (.panicked message)
  hashed : ∀ rs, read blake3 bytes = .ok rs → ∀ r ∈ rs, objectId blake3 r.tag r.bytes = r.id
  again : ∀ rs, read blake3 bytes = .ok rs → write blake3 rs = bytes

/-- No pack with a length longer than it need be, and none with one that no buffer has. -/
structure Plain (blake3 : Bytes → ObjectId) (bytes : Bytes) : Prop where
  shortest : ∀ es : List Entry, (∀ e ∈ es, e.Sound blake3) →
    bytes = close blake3 (es.flatMap Entry.bytes) →
    ∀ e ∈ es, Shortest e.tagLen ∧ Shortest e.len
  bounded : ∀ (es : List Entry) rest, (∀ e ∈ es, e.Sound blake3) →
    bytes = close blake3 (es.flatMap Entry.bytes ++ rest) → ¬ Oversize rest

theorem read_write (hrs : ∀ r ∈ rs, r.Sound blake3) :
    read blake3 (write blake3 rs) = .ok rs := by
  have hes : ∀ e ∈ rs.map Record.entry, e.Sound blake3 := by
    intro e he
    obtain ⟨r, hr, rfl⟩ := List.mem_map.mp he
    exact (hrs r hr).entry
  rw [write, read_close, ← flatMap_entry, readRecords_sound hes, List.map_map]
  exact congrArg Except.ok (List.map_id rs)

theorem exact_iff_plain (blake3 : Bytes → ObjectId) (bytes : Bytes) :
    Exact blake3 bytes ↔ Plain blake3 bytes := by
  constructor
  · intro h
    constructor
    · rintro es hes rfl
      have hread := (read_close blake3 _).trans (readRecords_sound hes)
      exact (flatMap_writeRecord_iff hes).mp (close_inj (h.again _ hread))
    · rintro es rest hes rfl hover
      exact h.total _ ((read_close blake3 _).trans (readRecords_oversize hes hover))
  · intro h
    obtain ⟨records, rfl⟩ | ⟨error, herror⟩ := read_cases blake3 bytes
    swap
    · constructor <;> intros <;> simp_all
    rcases readRecords_cases blake3 records with ⟨es, rfl, hes⟩ | ⟨es, rest, rfl, hes, hover⟩ |
      ⟨error, herror⟩
    · have hread := (read_close blake3 _).trans (readRecords_sound hes)
      refine ⟨fun message hpanic => ?_, fun rs hrs r hr => ?_, fun rs hrs => ?_⟩
      · rw [hread] at hpanic
        cases hpanic
      · rw [hread] at hrs
        cases hrs
        obtain ⟨e, he, rfl⟩ := List.mem_map.mp hr
        exact (hes e he).record.hashed
      · rw [hread] at hrs
        cases hrs
        rw [write, (flatMap_writeRecord_iff hes).mpr (h.shortest es hes rfl)]
    · exact absurd hover (h.bounded es rest hes rfl)
    · have hread := (read_close blake3 _).trans herror
      constructor <;> intros <;> simp_all

/-- Packs of records are read back for any records, and bytes are either turned down or
those of what they are read as, without a panic, exactly when they are plain. -/
theorem pack_exact_iff (blake3 : Bytes → ObjectId) (bytes : Bytes) :
    ((∀ records : List Record, (∀ r ∈ records, r.Sound blake3) →
        read blake3 (write blake3 records) = .ok records) ∧ Exact blake3 bytes) ↔
      Plain blake3 bytes := by
  rw [exact_iff_plain]
  exact and_iff_right fun records h => read_write h

section Overlong

/-- A pack of one record without a tag or bytes, its first length in two bytes. -/
def overlong (blake3 : Bytes → ObjectId) : Bytes :=
  close blake3 ((objectId blake3 "" []).bytes ++ [0x80, 0x00, 0x00])

/-- A pack where the length of a tag is 2⁶³. -/
def oversized (blake3 : Bytes → ObjectId) : Bytes :=
  close blake3 ((objectId blake3 "" []).bytes ++
    [0x80, 0x80, 0x80, 0x80, 0x80, 0x80, 0x80, 0x80, 0x80, 0x01])

/-- Hashes that are the length of what they are of. -/
def byLength (bytes : Bytes) : ObjectId := .splat bytes.length

/-- The first is read as a record that is written in another way, and the second is no
pack, but reading it panics. -/
theorem overlong_oversized :
    (read byLength (overlong byLength) = .ok [⟨objectId byLength "" [], "", []⟩] ∧
      write byLength [⟨objectId byLength "" [], "", []⟩] ≠ overlong byLength) ∧
    read byLength (oversized byLength) = .error (.panicked "capacity overflow") := by
  have hread : readRecord byLength ((objectId byLength "" []).bytes ++ [0x80, 0x00, 0x00]) =
      .ok (⟨objectId byLength "" [], "", []⟩, []) := by decide +kernel
  refine ⟨⟨?_, fun h => ?_⟩, ?_⟩
  · rw [overlong, read_close, readRecords_ok hread, readRecords_nil]
    rfl
  · have hzero : writeVarint 0 = [0] := by
      rw [writeVarint]
      rfl
    have hlength := congrArg List.length (close_inj h)
    rw [List.flatMap_singleton, writeRecord, show (utf8 "").length = 0 from rfl,
      List.length_nil, hzero] at hlength
    exact absurd hlength (by decide +kernel)
  · have hpanic : readRecord byLength ((objectId byLength "" []).bytes ++
        [0x80, 0x80, 0x80, 0x80, 0x80, 0x80, 0x80, 0x80, 0x80, 0x01]) =
          .error (.panicked "capacity overflow") := by decide +kernel
    rw [oversized, read_close, readRecords_error hpanic (by decide +kernel)]

end Overlong

end Packs

end Tessra.Pack
