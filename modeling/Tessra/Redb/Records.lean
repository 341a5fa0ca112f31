import Tessra.Core.Id

namespace Tessra.Redb

open Tessra.Core

/-! The object store on redb: records, batches, and the packs they are imported from. -/

section Texts

/-- The bytes of a text in UTF-8. -/
def utf8 (s : String) : Bytes := s.toByteArray.data.toList.map UInt8.toFin

def byteArray (bytes : Bytes) : ByteArray := ⟨(bytes.map UInt8.ofFin).toArray⟩

/-- The text that the bytes encode, if they encode one. -/
def fromUtf8 (bytes : Bytes) : Option String := String.fromUTF8? (byteArray bytes)

/-- The bytes of the character that a first byte starts, and the range of the second. -/
def leading (b : Byte) : ℕ × ℕ × ℕ :=
  if 0xC2 ≤ b.val ∧ b.val ≤ 0xDF then (2, 0x80, 0xBF)
  else if b.val = 0xE0 then (3, 0xA0, 0xBF)
  else if b.val = 0xED then (3, 0x80, 0x9F)
  else if 0xE1 ≤ b.val ∧ b.val ≤ 0xEF then (3, 0x80, 0xBF)
  else if b.val = 0xF0 then (4, 0x90, 0xBF)
  else if b.val = 0xF4 then (4, 0x80, 0x8F)
  else if 0xF1 ≤ b.val ∧ b.val ≤ 0xF3 then (4, 0x80, 0xBF)
  else (1, 0x80, 0xBF)

/-- How many bytes at the front are of one character, complete or broken off. -/
def charLength : Bytes → ℕ
  | [] => 0
  | b :: rest =>
      let (length, low, high) := leading b
      let later := (rest.take (length - 1)).zipIdx.takeWhile fun e =>
        if e.2 = 0 then low ≤ e.1.val && e.1.val ≤ high else 0x80 ≤ e.1.val && e.1.val ≤ 0xBF
      later.length + 1

/-- Each character that is broken off, or no character, is replaced. -/
def replaceInvalid : ℕ → Bytes → String
  | 0, _ => ""
  | _ + 1, [] => ""
  | fuel + 1, b :: rest =>
      let n := charLength (b :: rest)
      ((fromUtf8 ((b :: rest).take n)).getD "\uFFFD") ++ replaceInvalid fuel ((b :: rest).drop n)

def fromUtf8Lossy (bytes : Bytes) : String :=
  (fromUtf8 bytes).getD (replaceInvalid bytes.length bytes)

theorem byteArray_utf8 (s : String) : byteArray (utf8 s) = s.toByteArray := by
  have hbyte : UInt8.ofFin ∘ UInt8.toFin = id := rfl
  rw [byteArray, utf8, List.map_map, hbyte, List.map_id, Array.toArray_toList]

theorem fromUtf8_utf8 (s : String) : fromUtf8 (utf8 s) = some s := by
  rw [fromUtf8, byteArray_utf8, String.fromUTF8?, dif_pos s.isValidUTF8]
  rfl

theorem utf8_injective : Function.Injective utf8 := by
  intro s s' h
  have hsame := congrArg fromUtf8 h
  rw [fromUtf8_utf8, fromUtf8_utf8] at hsame
  exact Option.some.inj hsame

@[simp] theorem fromUtf8Lossy_utf8 (s : String) : fromUtf8Lossy (utf8 s) = s := by
  rw [fromUtf8Lossy, fromUtf8_utf8, Option.getD_some]

end Texts

section Stores

/-- The hash over bytes. -/
class Digest where
  blake3 : Bytes → ObjectId

variable [Digest]

/-- What is hashed of an object: its type's domain and its bytes. -/
def hashed (tag : String) (bytes : Bytes) : Bytes :=
  utf8 "tessra:" ++ utf8 tag ++ utf8 "\n" ++ bytes

def objectId (tag : String) (bytes : Bytes) : ObjectId := Digest.blake3 (hashed tag bytes)

/-- `[tag_len u8][tag][bytes]`, the length of the tag cut to a byte. -/
def record (tag : String) (bytes : Bytes) : Bytes :=
  Byte.ofNat (utf8 tag).length :: (utf8 tag ++ bytes)

inductive ReadError
  /-- A slice past the end of the record panics. -/
  | panic
deriving DecidableEq

def splitRecord : Bytes → Except ReadError (String × Bytes)
  | [] => .error .panic
  | n :: rest =>
      if n.val ≤ rest.length then .ok (fromUtf8Lossy (rest.take n.val), rest.drop n.val)
      else .error .panic

/-- The table of objects by ID, and the puts of an open batch. -/
structure RedbStore where
  objects : List (ObjectId × Bytes)
  pending : Option (List (ObjectId × Bytes))

def insertNew (entries : List (ObjectId × Bytes)) (id : ObjectId) (rec : Bytes) :
    List (ObjectId × Bytes) :=
  if (entries.lookup id).isSome then entries else entries ++ [(id, rec)]

namespace RedbStore

def new : RedbStore := ⟨[], none⟩

/-- Start collecting puts in memory. -/
def beginBatch (s : RedbStore) : RedbStore := { s with pending := some (s.pending.getD []) }

/-- Write every pending put in one transaction. -/
def endBatch (s : RedbStore) : RedbStore where
  objects := (s.pending.getD []).foldl (fun objects e => insertNew objects e.1 e.2) s.objects
  pending := none

def putBytes (s : RedbStore) (tag : String) (bytes : Bytes) : RedbStore :=
  let id := objectId tag bytes
  match s.pending with
  | some map => { s with pending := some (insertNew map id (record tag bytes)) }
  | none => { s with objects := insertNew s.objects id (record tag bytes) }

/-- The bytes of an object, of the pending puts first. -/
def getBytes (s : RedbStore) (id : ObjectId) : Except ReadError (Option Bytes) :=
  match (s.pending.getD []).lookup id with
  | some rec => (splitRecord rec).map fun split => some split.2
  | none =>
      match s.objects.lookup id with
      | some rec => (splitRecord rec).map fun split => some split.2
      | none => .ok none

def has (s : RedbStore) (id : ObjectId) : Except ReadError Bool :=
  (s.getBytes id).map Option.isSome

/-- The type tag and bytes of an object. -/
def getTagged (s : RedbStore) (id : ObjectId) : Except ReadError (Option (String × Bytes)) :=
  match s.objects.lookup id with
  | some rec => (splitRecord rec).map some
  | none => .ok none

end RedbStore

end Stores

section Packs

inductive PackError
  | io
  | tooShort
  | trailerMismatch
  | badMagicOrVersion
  | tagNotUtf8
  | hash (id : ObjectId)
deriving DecidableEq

structure Record where
  id : ObjectId
  tag : String
  bytes : Bytes

def magic : Bytes := utf8 "GVPK"

def version : Byte := 1

/-- The next bytes, all of them or none. -/
def readExact (n : ℕ) (cur : Bytes) : Except PackError (Bytes × Bytes) :=
  if n ≤ cur.length then .ok (cur.take n, cur.drop n) else .error .io

/-- Seven bits a byte, the lowest first, and what a `u64` keeps of them. -/
def readVarintFrom (shift n : ℕ) : Bytes → Except PackError (ℕ × Bytes)
  | [] => .error .io
  | b :: rest =>
      let n := n ||| (b.val % 128) * 2 ^ shift % 2 ^ 64
      if b.val < 128 then .ok (n, rest)
      else if 63 < shift + 7 then .error .io
      else readVarintFrom (shift + 7) n rest

def readVarint : Bytes → Except PackError (ℕ × Bytes) := readVarintFrom 0 0

variable [Digest]

def readRecord (cur : Bytes) : Except PackError (Record × Bytes) := do
  let (idb, cur) ← readExact 32 cur
  let (tagLength, cur) ← readVarint cur
  let (tag, cur) ← readExact tagLength cur
  let tag ← match fromUtf8 tag with
    | some tag => pure tag
    | none => throw .tagNotUtf8
  let (length, cur) ← readVarint cur
  let (data, cur) ← readExact length cur
  let id := objectId tag data
  if id.bytes = idb then return (⟨id, tag, data⟩, cur)
  else match ObjectId.fromSlice idb with
    | some id => throw (.hash id)
    | none => throw .io

/-- No record takes no bytes. -/
def readRecords : ℕ → Bytes → Except PackError (List Record)
  | _, [] => .ok []
  | 0, _ :: _ => .error .io
  | fuel + 1, b :: rest => do
      let (r, cur) ← readRecord (b :: rest)
      return r :: (← readRecords fuel cur)

/-- Read and verify a pack: trailer, then every record's hash under its tag. -/
def readPack (bytes : Bytes) : Except PackError (List Record) :=
  let body := bytes.take (bytes.length - 32)
  if bytes.length < 4 + 1 + 32 then .error .tooShort
  else if (Digest.blake3 body).bytes ≠ bytes.drop (bytes.length - 32) then .error .trailerMismatch
  else if body.take 4 ≠ magic ∨ body[4]? ≠ some version then .error .badMagicOrVersion
  else readRecords body.length (body.drop 5)

end Packs

section Runs

variable [Digest]

inductive StoreOp
  | beginBatch
  | put (tag : String) (bytes : Bytes)
  | endBatch
  | «import» (pack : Bytes)

namespace StoreOp

/-- What an operation puts: an import puts the records of a pack that it accepts. -/
def puts : StoreOp → List (String × Bytes)
  | .beginBatch | .endBatch => []
  | .put tag bytes => [(tag, bytes)]
  | .«import» pack =>
      match readPack pack with
      | .ok records => records.map fun r => (r.tag, r.bytes)
      | .error _ => []

def run (s : RedbStore) : StoreOp → RedbStore
  | .beginBatch => s.beginBatch
  | .endBatch => s.endBatch
  | .put tag bytes => s.putBytes tag bytes
  | .«import» pack => (puts (.«import» pack)).foldl (fun s p => s.putBytes p.1 p.2) s

end StoreOp

def runAll (ops : List StoreOp) : RedbStore := ops.foldl StoreOp.run .new

def putsOf (ops : List StoreOp) : List (String × Bytes) := ops.flatMap StoreOp.puts

end Runs

end Tessra.Redb
