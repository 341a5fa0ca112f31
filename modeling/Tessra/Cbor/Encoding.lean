import Tessra.Core.Value
import Tessra.Redb.Records

namespace Tessra.Cbor

open Tessra.Core
open Tessra.Redb (utf8 fromUtf8 fromUtf8_utf8 byteArray)

/-! CBOR bytes of values.  What canonical bytes never hold, a float, a tag, an item of
indefinite length, is an error when it is read here and one later in the code. -/

section Heads

/-- A number in so many bytes, the highest first. -/
def bigEndian : ℕ → ℕ → Bytes
  | 0, _ => []
  | k + 1, n => Byte.ofNat (n / 256 ^ k) :: bigEndian k n

def ofBigEndian (bytes : Bytes) : ℕ := bytes.foldl (fun n b => n * 256 + b.val) 0

theorem length_bigEndian : ∀ k n, (bigEndian k n).length = k
  | 0, _ => rfl
  | k + 1, n => congrArg (· + 1) (length_bigEndian k n)

theorem foldl_bigEndian : ∀ k n m,
    (bigEndian k n).foldl (fun n b => n * 256 + b.val) m = m * 256 ^ k + n % 256 ^ k
  | 0, n, m => by simp [bigEndian, Nat.mod_one]
  | k + 1, n, m => by
      have hbyte : (Byte.ofNat (n / 256 ^ k)).val = n / 256 ^ k % 256 := rfl
      rw [bigEndian, List.foldl_cons, foldl_bigEndian k n, hbyte]
      have hsplit : n % 256 ^ (k + 1) = n / 256 ^ k % 256 * 256 ^ k + n % 256 ^ k := by
        rw [Nat.pow_succ, Nat.mod_mul, Nat.mul_comm]
        omega
      rw [hsplit, Nat.pow_succ, Nat.add_mul, Nat.add_assoc, Nat.mul_assoc,
        Nat.mul_comm 256 (256 ^ k)]

theorem ofBigEndian_bigEndian {k n : ℕ} (h : n < 256 ^ k) : ofBigEndian (bigEndian k n) = n := by
  rw [ofBigEndian, foldl_bigEndian, Nat.zero_mul, Nat.zero_add, Nat.mod_eq_of_lt h]

/-- The head of an item: its major type, and an argument in the shortest form. -/
def head (major n : ℕ) : Bytes :=
  let first := fun info => Byte.ofNat (major * 32 + info)
  if n < 24 then [first n]
  else if n < 256 ^ 1 then first 24 :: bigEndian 1 n
  else if n < 256 ^ 2 then first 25 :: bigEndian 2 n
  else if n < 256 ^ 4 then first 26 :: bigEndian 4 n
  else first 27 :: bigEndian 8 n

theorem one_le_length_head (major n : ℕ) : 1 ≤ (head major n).length := by
  unfold head
  split_ifs <;> simp

/-- The bytes of the argument that follow the first byte. -/
def argumentWidth (info : ℕ) : ℕ :=
  if info < 24 then 0 else 2 ^ (info - 24)

def readHead : Bytes → Option (ℕ × ℕ × Bytes)
  | [] => none
  | b :: rest =>
      let major := b.val / 32
      let info := b.val % 32
      let width := argumentWidth info
      if 27 < info ∨ rest.length < width then none
      else if info < 24 then some (major, info, rest)
      else some (major, ofBigEndian (rest.take width), rest.drop width)

theorem readHead_cons {major info n k : ℕ} (rest : Bytes) (hmajor : major < 8)
    (hinfo : 24 ≤ info) (hle : info ≤ 27) (hwidth : argumentWidth info = k) (hn : n < 256 ^ k) :
    readHead (Byte.ofNat (major * 32 + info) :: (bigEndian k n ++ rest)) = some (major, n, rest) := by
  have hval : (Byte.ofNat (major * 32 + info)).val = major * 32 + info := by
    have hmod : (Byte.ofNat (major * 32 + info)).val = (major * 32 + info) % 256 := rfl
    omega
  have hlength := length_bigEndian k n
  rw [readHead, hval, show (major * 32 + info) / 32 = major by omega,
    show (major * 32 + info) % 32 = info by omega, hwidth,
    if_neg (by rw [List.length_append, hlength]; omega), if_neg (by omega),
    List.take_left' hlength, List.drop_left' hlength, ofBigEndian_bigEndian hn]

theorem readHead_head {major n : ℕ} (rest : Bytes) (hmajor : major < 8) (hn : n < 256 ^ 8) :
    readHead (head major n ++ rest) = some (major, n, rest) := by
  unfold head
  split
  · have hval : (Byte.ofNat (major * 32 + n)).val = major * 32 + n := by
      have hmod : (Byte.ofNat (major * 32 + n)).val = (major * 32 + n) % 256 := rfl
      omega
    have hwidth : argumentWidth n = 0 := if_pos (by omega)
    rw [List.singleton_append, readHead, hval, show (major * 32 + n) / 32 = major by omega,
      show (major * 32 + n) % 32 = n by omega, hwidth, if_neg (by omega), if_pos (by omega)]
  · split
    · exact readHead_cons rest hmajor (by omega) (by omega) rfl (by assumption)
    · split
      · exact readHead_cons rest hmajor (by omega) (by omega) rfl (by assumption)
      · split
        · exact readHead_cons rest hmajor (by omega) (by omega) rfl (by assumption)
        · exact readHead_cons rest hmajor (by omega) (by omega) rfl hn

end Heads

section Items

mutual

def write : Value → Bytes
  | .integer (.ofNat n) => head 0 n
  | .integer (.negSucc n) => head 1 n
  | .bytes b => head 2 b.length ++ b
  | .text t => head 3 (utf8 t).length ++ utf8 t
  | .array items => head 4 items.length ++ writeItems items
  | .map entries => head 5 entries.length ++ writeEntries entries
  | .bool false => head 7 20
  | .bool true => head 7 21
  | .null => head 7 22

def writeItems : List Value → Bytes
  | [] => []
  | v :: items => write v ++ writeItems items

def writeEntries : List (Value × Value) → Bytes
  | [] => []
  | (k, v) :: entries => (write k ++ write v) ++ writeEntries entries

end

def readMany {α : Type} (read : Bytes → Option (α × Bytes)) : ℕ → Bytes → Option (List α × Bytes)
  | 0, bytes => some ([], bytes)
  | n + 1, bytes => do
      let (x, rest) ← read bytes
      let (xs, rest) ← readMany read n rest
      return (x :: xs, rest)

def readPair {α : Type} (read : Bytes → Option (α × Bytes)) (bytes : Bytes) :
    Option ((α × α) × Bytes) := do
  let (x, rest) ← read bytes
  let (y, rest) ← read rest
  return ((x, y), rest)

def readSpan (n : ℕ) (bytes : Bytes) : Option (Bytes × Bytes) :=
  if n ≤ bytes.length then some (bytes.take n, bytes.drop n) else none

/-- What an item is, by the major type and the argument of its head. -/
def readItem (inner : Option (Bytes → Option (Value × Bytes))) (major n : ℕ) (bytes : Bytes) :
    Option (Value × Bytes) :=
  match major with
  | 0 => some (.integer (.ofNat n), bytes)
  | 1 => some (.integer (.negSucc n), bytes)
  | 2 => (readSpan n bytes).map fun s => (.bytes s.1, s.2)
  | 3 => do
      let (b, rest) ← readSpan n bytes
      let t ← fromUtf8 b
      return (.text t, rest)
  | 4 => do
      let (items, rest) ← readMany (← inner) n bytes
      return (.array items, rest)
  | 5 => do
      let (entries, rest) ← readMany (readPair (← inner)) n bytes
      return (.map entries, rest)
  | 7 =>
      if n = 20 then some (.bool false, bytes)
      else if n = 21 then some (.bool true, bytes)
      else if n = 22 then some (.null, bytes)
      else none
  | _ => none

/-- Containers nest as deep as the limit allows. -/
def readValue : ℕ → Bytes → Option (Value × Bytes)
  | 0, bytes => do
      let (major, n, rest) ← readHead bytes
      readItem none major n rest
  | depth + 1, bytes => do
      let (major, n, rest) ← readHead bytes
      readItem (some (readValue depth)) major n rest

/-- How deep the reader follows containers. -/
def recursionLimit : ℕ := 256

/-- Read the first item of the bytes. -/
def read (bytes : Bytes) : Option Value := (readValue recursionLimit bytes).map Prod.fst

end Items

section RoundTrip

/-- What the reader can give back: numbers and lengths of 64 bits, containers nested no
deeper than the limit. -/
def Readable : ℕ → Value → Prop
  | _, .integer (.ofNat n) => n < 256 ^ 8
  | _, .integer (.negSucc n) => n < 256 ^ 8
  | _, .bytes b => b.length < 256 ^ 8
  | _, .text t => (utf8 t).length < 256 ^ 8
  | _, .bool _ => True
  | _, .null => True
  | depth + 1, .array items => items.length < 256 ^ 8 ∧ ∀ v ∈ items, Readable depth v
  | depth + 1, .map entries =>
      entries.length < 256 ^ 8 ∧ ∀ e ∈ entries, Readable depth e.1 ∧ Readable depth e.2
  | 0, _ => False

theorem readSpan_append (b rest : Bytes) : readSpan b.length (b ++ rest) = some (b, rest) := by
  simp [readSpan]

variable {read : Bytes → Option (Value × Bytes)}

theorem readPair_write {k v : Value} (hk : ∀ rest, read (write k ++ rest) = some (k, rest))
    (hv : ∀ rest, read (write v ++ rest) = some (v, rest)) (rest : Bytes) :
    readPair read ((write k ++ write v) ++ rest) = some ((k, v), rest) := by
  rw [readPair, List.append_assoc, hk]
  simp only [Option.bind_eq_bind, Option.bind_some]
  rw [hv]
  rfl

theorem readMany_cons {α : Type} {one : Bytes → Option (α × Bytes)} {n : ℕ} {bytes rest last : Bytes}
    {x : α} {xs : List α} (hone : one bytes = some (x, rest))
    (hrest : readMany one n rest = some (xs, last)) :
    readMany one (n + 1) bytes = some (x :: xs, last) := by
  rw [readMany, hone]
  simp only [Option.bind_eq_bind, Option.bind_some]
  rw [hrest]
  rfl

theorem readMany_writeItems (items : List Value)
    (h : ∀ v ∈ items, ∀ rest, read (write v ++ rest) = some (v, rest)) (rest : Bytes) :
    readMany read items.length (writeItems items ++ rest) = some (items, rest) := by
  induction items with
  | nil => rfl
  | cons v items ih =>
      rw [writeItems, List.append_assoc]
      exact readMany_cons (h v List.mem_cons_self _)
        (ih fun w hw => h w (List.mem_cons_of_mem _ hw))

theorem readMany_writeEntries (entries : List (Value × Value))
    (h : ∀ e ∈ entries, (∀ rest, read (write e.1 ++ rest) = some (e.1, rest)) ∧
      ∀ rest, read (write e.2 ++ rest) = some (e.2, rest)) (rest : Bytes) :
    readMany (readPair read) entries.length (writeEntries entries ++ rest) =
      some (entries, rest) := by
  induction entries with
  | nil => rfl
  | cons e entries ih =>
      obtain ⟨hk, hv⟩ := h e List.mem_cons_self
      rw [writeEntries, List.append_assoc]
      exact readMany_cons (readPair_write hk hv _)
        (ih fun w hw => h w (List.mem_cons_of_mem _ hw))

/-- What is written is read back, whatever follows it. -/
theorem readValue_write : ∀ {depth v}, Readable depth v → ∀ rest,
    readValue depth (write v ++ rest) = some (v, rest) := by
  have scalar : ∀ {inner depth} (v : Value) (rest : Bytes),
      (∀ items, v ≠ .array items) → (∀ entries, v ≠ .map entries) → Readable depth v →
      (do
        let (major, n, rest) ← readHead (write v ++ rest)
        readItem inner major n rest) = some (v, rest) := by
    intro inner depth v rest harray hmap h
    cases v with
    | integer i =>
        cases i with
        | ofNat n =>
            rw [Readable] at h
            rw [write, readHead_head rest (by omega) h]
            rfl
        | negSucc n =>
            rw [Readable] at h
            rw [write, readHead_head rest (by omega) h]
            rfl
    | bytes b =>
        rw [Readable] at h
        rw [write, List.append_assoc, readHead_head _ (by omega) h]
        simp [readItem, readSpan_append]
    | text t =>
        rw [Readable] at h
        rw [write, List.append_assoc, readHead_head _ (by omega) h]
        simp [readItem, readSpan_append, fromUtf8_utf8]
    | bool b =>
        cases b <;>
        · rw [write, readHead_head rest (by omega) (by omega)]
          rfl
    | null =>
        rw [write, readHead_head rest (by omega) (by omega)]
        rfl
    | array items => exact absurd rfl (harray items)
    | map entries => exact absurd rfl (hmap entries)
  intro depth
  induction depth with
  | zero =>
      intro v h rest
      refine scalar v rest ?_ ?_ h
      · rintro items rfl
        exact h
      · rintro entries rfl
        exact h
  | succ depth ih =>
      intro v h rest
      cases v with
      | array items =>
          obtain ⟨hlength, hitems⟩ := h
          rw [readValue, write, List.append_assoc, readHead_head _ (by omega) hlength]
          simp only [Option.bind_eq_bind, Option.bind_some, readItem]
          rw [readMany_writeItems items (fun v hv => ih (hitems v hv)) rest]
          rfl
      | map entries =>
          obtain ⟨hlength, hentries⟩ := h
          rw [readValue, write, List.append_assoc, readHead_head _ (by omega) hlength]
          simp only [Option.bind_eq_bind, Option.bind_some, readItem]
          rw [readMany_writeEntries entries
            (fun e he => ⟨ih (hentries e he).1, ih (hentries e he).2⟩) rest]
          rfl
      | _ => exact scalar _ rest (fun _ => nofun) (fun _ => nofun) h

theorem read_write {v : Value} (h : Readable recursionLimit v) : Cbor.read (write v) = some v := by
  have hread := readValue_write h []
  rw [List.append_nil] at hread
  rw [Cbor.read, hread]
  rfl

theorem foldl_lt (bytes : Bytes) : ∀ m,
    bytes.foldl (fun n b => n * 256 + b.val) m < (m + 1) * 256 ^ bytes.length := by
  induction bytes with
  | nil => simp
  | cons b bytes ih =>
      intro m
      rw [List.foldl_cons, List.length_cons, Nat.pow_succ']
      refine (ih (m * 256 + b.val)).trans_le ?_
      rw [← Nat.mul_assoc]
      exact Nat.mul_le_mul_right _ (by omega)

theorem readHead_bound {bytes rest : Bytes} {major n : ℕ}
    (h : readHead bytes = some (major, n, rest)) : n < 256 ^ 8 := by
  cases bytes with
  | nil => cases h
  | cons b bytes =>
      simp only [readHead] at h
      split_ifs at h with hbad hsmall
      · cases h
        omega
      · cases h
        have hlt := foldl_lt (bytes.take (argumentWidth (b.val % 32))) 0
        rw [Nat.zero_add, Nat.one_mul] at hlt
        refine hlt.trans_le (Nat.pow_le_pow_right (by omega) ?_)
        refine (List.length_take_le _ _).trans ?_
        rw [argumentWidth, if_neg hsmall]
        exact Nat.pow_le_pow_right (show 0 < 2 by omega) (show b.val % 32 - 24 ≤ 3 by omega)

theorem utf8_of_fromUtf8 {b : Bytes} {t : String} (h : fromUtf8 b = some t) : utf8 t = b := by
  rw [fromUtf8, String.fromUTF8?] at h
  split_ifs at h with hvalid
  cases h
  have hbyte : UInt8.toFin ∘ UInt8.ofFin = id := rfl
  change (byteArray b).data.toList.map UInt8.toFin = b
  rw [byteArray, List.map_map, hbyte, List.map_id]

theorem forall_of_readMany {α : Type} {one : Bytes → Option (α × Bytes)} {P : α → Prop}
    (hone : ∀ {bytes x rest}, one bytes = some (x, rest) → P x) :
    ∀ {n bytes xs rest}, readMany one n bytes = some (xs, rest) → xs.length = n ∧ ∀ x ∈ xs, P x
  | 0, bytes, xs, rest, h => by
      cases h
      simp
  | n + 1, bytes, xs, rest, h => by
      simp only [readMany, Option.bind_eq_bind, Option.bind_eq_some_iff] at h
      obtain ⟨⟨x, later⟩, hx, ⟨ys, last⟩, hys, heq⟩ := h
      cases heq
      obtain ⟨hlength, hall⟩ := forall_of_readMany hone hys
      refine ⟨congrArg (· + 1) hlength, fun y hy => ?_⟩
      rcases List.mem_cons.mp hy with rfl | hy
      · exact hone hx
      · exact hall y hy

theorem readable_of_readItem {depth major n : ℕ} {bytes rest : Bytes} {v : Value}
    {inner : Option (Bytes → Option (Value × Bytes))} (hn : n < 256 ^ 8)
    (hinner : ∀ one, inner = some one → ∃ d, depth = d + 1 ∧
      ∀ {bytes v rest}, one bytes = some (v, rest) → Readable d v)
    (h : readItem inner major n bytes = some (v, rest)) : Readable depth v := by
  have span : ∀ {b after : Bytes}, readSpan n bytes = some (b, after) → b.length = n := by
    intro b after hspan
    rw [readSpan] at hspan
    split_ifs at hspan with hle
    cases hspan
    exact List.length_take_of_le hle
  unfold readItem at h
  split at h
  · cases h
    rwa [Readable]
  · cases h
    rwa [Readable]
  · obtain ⟨⟨b, after⟩, hspan, heq⟩ := Option.map_eq_some_iff.mp h
    cases heq
    rw [Readable, span hspan]
    exact hn
  · simp only [Option.bind_eq_bind, Option.bind_eq_some_iff] at h
    obtain ⟨⟨b, after⟩, hspan, t, ht, heq⟩ := h
    cases heq
    rw [Readable, utf8_of_fromUtf8 ht, span hspan]
    exact hn
  · simp only [Option.bind_eq_bind, Option.bind_eq_some_iff] at h
    obtain ⟨one, hone, ⟨items, after⟩, hmany, heq⟩ := h
    cases heq
    obtain ⟨d, rfl, hread⟩ := hinner one hone
    obtain ⟨hlength, hall⟩ := forall_of_readMany hread hmany
    exact ⟨hlength ▸ hn, hall⟩
  · simp only [Option.bind_eq_bind, Option.bind_eq_some_iff] at h
    obtain ⟨one, hone, ⟨entries, after⟩, hmany, heq⟩ := h
    cases heq
    obtain ⟨d, rfl, hread⟩ := hinner one hone
    have hpair : ∀ {bytes : Bytes} {e : Value × Value} {rest : Bytes},
        readPair one bytes = some (e, rest) → Readable d e.1 ∧ Readable d e.2 := by
      intro bytes e rest hpair
      simp only [readPair, Option.bind_eq_bind, Option.bind_eq_some_iff] at hpair
      obtain ⟨⟨k, _⟩, hk, ⟨v, _⟩, hv, heq⟩ := hpair
      cases heq
      exact ⟨hread hk, hread hv⟩
    obtain ⟨hlength, hall⟩ := forall_of_readMany hpair hmany
    exact ⟨hlength ▸ hn, hall⟩
  · split_ifs at h <;>
    · cases h
      simp [Readable]
  · cases h

/-- What is read can be read back. -/
theorem readable_of_readValue : ∀ {depth bytes v rest},
    readValue depth bytes = some (v, rest) → Readable depth v
  | 0, bytes, v, rest, h => by
      simp only [readValue, Option.bind_eq_bind, Option.bind_eq_some_iff] at h
      obtain ⟨⟨major, n, later⟩, hhead, hitem⟩ := h
      exact readable_of_readItem (readHead_bound hhead) (fun _ hone => by cases hone) hitem
  | depth + 1, bytes, v, rest, h => by
      simp only [readValue, Option.bind_eq_bind, Option.bind_eq_some_iff] at h
      obtain ⟨⟨major, n, later⟩, hhead, hitem⟩ := h
      refine readable_of_readItem (readHead_bound hhead) (fun one hone => ?_) hitem
      cases hone
      exact ⟨depth, rfl, readable_of_readValue⟩

theorem readable_of_read {bytes : Bytes} {v : Value} (h : Cbor.read bytes = some v) :
    Readable recursionLimit v := by
  obtain ⟨⟨v, rest⟩, hread, rfl⟩ := Option.map_eq_some_iff.mp h
  exact readable_of_readValue hread

end RoundTrip

end Tessra.Cbor
