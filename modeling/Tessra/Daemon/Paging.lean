import Tessra.Cbor.Encoding

namespace Tessra.Daemon.Paging

open Tessra.Core Tessra.Redb Tessra.Cbor

/-! A blob shown page by page: each page is decoded from a window of bytes and cut to what its
JSON encoding leaves room for. -/

section Fitting

/-- The bytes of a text. -/
def textSize (cs : List Char) : ℕ := (cs.map Char.utf8Size).sum

/-- The bytes of a character in a JSON string. -/
def escapeSize (c : Char) : ℕ :=
  if c = '"' ∨ c = '\\' then 2
  else if c.toNat < 32 then
    if c.toNat ∈ [8, 9, 10, 12, 13] then 2 else 6
  else c.utf8Size

/-- The bytes of a text as JSON, its quotes included. -/
def jsonLen (cs : List Char) : ℕ := 2 + (cs.map escapeSize).sum

/-- The longest prefix of no more than so many bytes. -/
def prefixWithin : ℕ → List Char → List Char
  | _, [] => []
  | n, c :: cs => if c.utf8Size ≤ n then c :: prefixWithin (n - c.utf8Size) cs else []

def suffixWithin (n : ℕ) (cs : List Char) : List Char := (prefixWithin n cs.reverse).reverse

/-- Cut a text to fewer bytes, by how far its encoding is too long, until it fits. -/
def fitLoop (cut : ℕ → List Char) (room : ℕ) : ℕ → ℕ → List Char
  | 0, _ => []
  | fuel + 1, take =>
      let kept := cut take
      if kept = [] then []
      else if jsonLen kept ≤ room then kept
      else fitLoop cut room fuel (min (textSize kept * room / jsonLen kept) (textSize kept - 1))

/-- A prefix of the text whose JSON encoding fits. -/
def fitPrefix (text : List Char) (room : ℕ) : List Char :=
  fitLoop (fun n => prefixWithin n text) room (min (textSize text) room + 1)
    (min (textSize text) room)

/-- A suffix of the text whose JSON encoding fits. -/
def fitSuffix (text : List Char) (room : ℕ) : List Char :=
  fitLoop (fun n => suffixWithin n text) room (min (textSize text) room + 1)
    (min (textSize text) room)

structure Page where
  size : ℕ
  offset : ℕ
  text : String
  nextOffset : Option ℕ

/-- So many bytes of a blob from a start on, as far as it goes. -/
def window (bytes : Bytes) (chars start : ℕ) : Bytes :=
  (bytes.take (min (start + chars) bytes.length)).drop start

/-- A page of a blob, from an offset or at its end. -/
def blobPage (bytes : Bytes) (offset : ℕ) (tail : Bool) (chars : ℕ) : Page :=
  let size := bytes.length
  let start := if tail then size - chars else min offset size
  let decoded := (fromUtf8Lossy (window bytes chars start)).toList
  let (text, first, past) :=
    if tail then
      let s := fitSuffix decoded chars
      (s, start + (textSize decoded - textSize s), min (start + chars) size)
    else
      let t := fitPrefix decoded chars
      (t, start, start + textSize t)
  ⟨size, first, String.ofList text, if past < size then some past else none⟩

/-- A page shows the bytes from its offset up to an end. -/
structure Shows (bytes : Bytes) (chars : ℕ) (p : Page) (stop : ℕ) : Prop where
  text : p.text = fromUtf8Lossy ((bytes.take stop).drop p.offset)
  fits : jsonLen p.text.toList ≤ chars

/-- From an offset on, the pages follow one another up to the end of the blob. -/
inductive ReadsOn (bytes : Bytes) (chars : ℕ) : ℕ → Prop
  | last {offset : ℕ} (hoffset : (blobPage bytes offset false chars).offset = offset)
      (hnext : (blobPage bytes offset false chars).nextOffset = none)
      (hshows : Shows bytes chars (blobPage bytes offset false chars) bytes.length) :
      ReadsOn bytes chars offset
  | more {offset next : ℕ} (hoffset : (blobPage bytes offset false chars).offset = offset)
      (hnext : (blobPage bytes offset false chars).nextOffset = some next) (hlt : offset < next)
      (hshows : Shows bytes chars (blobPage bytes offset false chars) next)
      (hrest : ReadsOn bytes chars next) : ReadsOn bytes chars offset

/-- The page at the end of the blob shows it from its offset on. -/
def ReadsTail (bytes : Bytes) (chars : ℕ) : Prop :=
  ∀ offset, (blobPage bytes offset true chars).nextOffset = none ∧
    Shows bytes chars (blobPage bytes offset true chars) bytes.length

/-- The offsets of the pages that follow one another from the start. -/
inductive Reached (bytes : Bytes) (chars : ℕ) : ℕ → Prop
  | start : Reached bytes chars 0
  | next {offset next : ℕ} (h : Reached bytes chars offset)
      (hnext : (blobPage bytes offset false chars).nextOffset = some next) :
      Reached bytes chars next

/-- The bytes of a character. -/
def enc (c : Char) : Bytes := (String.utf8EncodeChar c).map UInt8.toFin

/-- Bytes that break off in a character. -/
structure Broken (front : Bytes) : Prop where
  broken : ∃ c back, enc c = front ++ back ∧ back ≠ []
  ne_nil : front ≠ []

/-- Escapes take at most so many times the bytes of a character. -/
def Costs (k : ℕ) (cs : List Char) : Prop := ∀ c ∈ cs, escapeSize c ≤ k * c.utf8Size

/-- Whole characters, of which the first has room in a page however the others are escaped, and
perhaps one that breaks off at their end. -/
def Whole (chars : ℕ) (w : Bytes) : Prop :=
  ∃ (cs : List Char) (front : Bytes) (k : ℕ), w = cs.flatMap enc ++ front ∧
    (front = [] ∨ Broken front) ∧ Costs k cs ∧ ∀ c ∈ cs.head?, k * c.utf8Size + 2 ≤ chars

/-- All that is left of a blob is decoded to a text that a page has room for. -/
def Fits (bytes : Bytes) (chars offset : ℕ) : Prop :=
  bytes.length ≤ offset + chars ∧ jsonLen (fromUtf8Lossy (bytes.drop offset)).toList ≤ chars

/-- The last bytes of a blob are whole characters. -/
def WholeTail (bytes : Bytes) (chars : ℕ) : Prop :=
  ∃ cs : List Char, window bytes chars (bytes.length - chars) = cs.flatMap enc

end Fitting

section Encoded

variable {c d : Char} {front m : Bytes}

theorem utf8_ofList (cs : List Char) : utf8 (String.ofList cs) = cs.flatMap enc := by
  rw [utf8, String.toByteArray_ofList, List.utf8Encode, List.data_toByteArray,
    List.map_flatMap]
  rfl

theorem length_enc (c : Char) : (enc c).length = c.utf8Size := by
  rw [enc, List.length_map, String.length_utf8EncodeChar]

theorem length_flatMap_enc (cs : List Char) : (cs.flatMap enc).length = textSize cs := by
  rw [List.length_flatMap, textSize]
  exact congrArg List.sum (List.map_congr_left fun c _ => length_enc c)

theorem val_ofNat {n : ℕ} (h : n < 256) : (UInt8.toFin (UInt8.ofNat n)).val = n :=
  (UInt8.toNat_ofNat' (n := n)).trans (Nat.mod_eq_of_lt h)

theorem leading_three {b : Byte} (h : 0xE0 ≤ b.val ∧ b.val ≤ 0xEF) : (leading b).1 = 3 ∧
    ∀ x, 0x80 ≤ x ∧ x ≤ 0xBF → (b.val = 0xE0 → 0xA0 ≤ x) → (b.val = 0xED → x ≤ 0x9F) →
      (leading b).2.1 ≤ x ∧ x ≤ (leading b).2.2 := by
  unfold leading
  split_ifs <;> exact ⟨by omega, fun x hx hlow hhigh => by dsimp only; omega⟩

theorem leading_four {b : Byte} (h : 0xF0 ≤ b.val ∧ b.val ≤ 0xF4) : (leading b).1 = 4 ∧
    ∀ x, 0x80 ≤ x ∧ x ≤ 0xBF → (b.val = 0xF0 → 0x90 ≤ x) → (b.val = 0xF4 → x ≤ 0x8F) →
      (leading b).2.1 ≤ x ∧ x ≤ (leading b).2.2 := by
  unfold leading
  split_ifs <;> exact ⟨by omega, fun x hx hlow hhigh => by dsimp only; omega⟩

/-- The first byte of a character tells its length and the range of the second. -/
theorem enc_spec (c : Char) : ∃ b rest, enc c = b :: rest ∧ (leading b).1 = rest.length + 1 ∧
    (∀ x ∈ rest.head?, (leading b).2.1 ≤ x.val ∧ x.val ≤ (leading b).2.2) ∧
    ∀ x ∈ rest.tail, 0x80 ≤ x.val ∧ x.val ≤ 0xBF := by
  have hvalid : c.val.toNat < 0xD800 ∨ 0xDFFF < c.val.toNat ∧ c.val.toNat < 0x110000 := c.valid
  have hlast : ∀ n, 0x80 ≤ (UInt8.toFin (UInt8.ofNat (n % 64 + 0x80))).val ∧
      (UInt8.toFin (UInt8.ofNat (n % 64 + 0x80))).val ≤ 0xBF := by
    intro n
    rw [val_ofNat (by omega)]
    omega
  unfold enc String.utf8EncodeChar
  dsimp only
  split_ifs with hone htwo hthree
  · have hb : (UInt8.toFin (UInt8.ofNat c.val.toNat)).val = c.val.toNat := val_ofNat (by omega)
    refine ⟨_, [], rfl, ?_, by simp, by simp⟩
    unfold leading
    split_ifs <;> simp <;> omega
  · have hb : (UInt8.toFin (UInt8.ofNat (c.val.toNat / 64 % 0x20 + 0xC0))).val =
        c.val.toNat / 64 % 0x20 + 0xC0 := val_ofNat (by omega)
    refine ⟨_, [_], rfl, ?_, fun x hx => ?_, by simp⟩
    · unfold leading
      rw [if_pos (by omega)]
      rfl
    · obtain rfl := Option.some.inj hx
      unfold leading
      rw [if_pos (by omega)]
      exact hlast _
  · have hb : (UInt8.toFin (UInt8.ofNat (c.val.toNat / 4096 % 0x10 + 0xE0))).val =
        c.val.toNat / 4096 % 0x10 + 0xE0 := val_ofNat (by omega)
    have hspec := leading_three (b := UInt8.toFin (UInt8.ofNat (c.val.toNat / 4096 % 0x10 + 0xE0)))
      (by omega)
    refine ⟨_, [_, _], rfl, hspec.1, fun x hx => ?_, fun x hx => ?_⟩
    · obtain rfl := Option.some.inj hx
      have hx' : (UInt8.toFin (UInt8.ofNat (c.val.toNat / 64 % 0x40 + 0x80))).val =
          c.val.toNat / 64 % 0x40 + 0x80 := val_ofNat (by omega)
      exact hspec.2 _ (hlast _) (fun h => by omega) fun h => by omega
    · obtain rfl := List.mem_singleton.mp hx
      exact hlast _
  · have hb : (UInt8.toFin (UInt8.ofNat (c.val.toNat / 262144 % 0x08 + 0xF0))).val =
        c.val.toNat / 262144 % 0x08 + 0xF0 := val_ofNat (by omega)
    have hspec := leading_four (b := UInt8.toFin (UInt8.ofNat (c.val.toNat / 262144 % 0x08 + 0xF0)))
      (by omega)
    refine ⟨_, [_, _, _], rfl, hspec.1, fun x hx => ?_, fun x hx => ?_⟩
    · obtain rfl := Option.some.inj hx
      have hx' : (UInt8.toFin (UInt8.ofNat (c.val.toNat / 4096 % 0x40 + 0x80))).val =
          c.val.toNat / 4096 % 0x40 + 0x80 := val_ofNat (by omega)
      exact hspec.2 _ (hlast _) (fun h => by omega) fun h => by omega
    · rcases List.mem_pair.mp hx with rfl | rfl
      · exact hlast _
      · exact hlast _

theorem fromUtf8_flatMap (cs : List Char) :
    fromUtf8 (cs.flatMap enc) = some (String.ofList cs) := by
  rw [← utf8_ofList, fromUtf8_utf8]

theorem leading_le_four (b : Byte) : (leading b).1 ≤ 4 := by
  unfold leading
  split_ifs <;> exact (by decide)

theorem leading_of_four {b : Byte} (h : (leading b).1 = 4) : (0xF0 ≤ b.val ∧ b.val ≤ 0xF4) ∧
    ∀ x, (leading b).2.1 ≤ x → x ≤ (leading b).2.2 →
      (0x80 ≤ x ∧ x ≤ 0xBF) ∧ (b.val = 0xF0 → 0x90 ≤ x) ∧ (b.val = 0xF4 → x ≤ 0x8F) := by
  unfold leading at h ⊢
  split_ifs at h ⊢ <;>
    first
      | exact absurd h (by decide)
      | exact ⟨by omega, fun x hlow hhigh => by dsimp only at hlow hhigh; omega⟩

/-- Four bytes in the ranges of a character are one. -/
theorem exists_enc {b x y z : Byte} (hb : 0xF0 ≤ b.val ∧ b.val ≤ 0xF4)
    (hx : 0x80 ≤ x.val ∧ x.val ≤ 0xBF) (hlow : b.val = 0xF0 → 0x90 ≤ x.val)
    (hhigh : b.val = 0xF4 → x.val ≤ 0x8F) (hy : 0x80 ≤ y.val ∧ y.val ≤ 0xBF)
    (hz : 0x80 ≤ z.val ∧ z.val ≤ 0xBF) : ∃ c, enc c = [b, x, y, z] := by
  obtain ⟨v, hv⟩ : ∃ v, v = (b.val - 0xF0) * 262144 + (x.val - 0x80) * 4096 +
    (y.val - 0x80) * 64 + (z.val - 0x80) := ⟨_, rfl⟩
  have hvalid : v.isValidChar := Or.inr ⟨by omega, by omega⟩
  have hc : (Char.ofNatAux v hvalid).val.toNat = v := rfl
  refine ⟨Char.ofNatAux v hvalid, ?_⟩
  unfold enc String.utf8EncodeChar
  dsimp only
  rw [hc, if_neg (by omega), if_neg (by omega), if_neg (by omega)]
  have hbyte : ∀ {n : ℕ} {d : Byte}, n = d.val → UInt8.toFin (UInt8.ofNat n) = d := by
    intro n d hn
    exact Fin.ext ((val_ofNat (hn ▸ d.isLt)).trans hn)
  rw [List.map_cons, List.map_cons, List.map_cons, List.map_cons, List.map_nil,
    hbyte (d := b) (by omega), hbyte (d := x) (by omega), hbyte (d := y) (by omega),
    hbyte (d := z) (by omega)]

/-- Bytes of no character are at most three. -/
theorem charLength_le_three {b : Byte} {rest : Bytes}
    (h : fromUtf8 ((b :: rest).take (charLength (b :: rest))) = none) :
    charLength (b :: rest) ≤ 3 := by
  by_contra hlong
  have hfour := leading_le_four b
  have hlater : charLength (b :: rest) ≤ (rest.take ((leading b).1 - 1)).length + 1 :=
    Nat.succ_le_succ ((List.takeWhile_prefix _).length_le.trans (List.length_zipIdx ..).le)
  rw [List.length_take] at hlater
  obtain ⟨x, y, z, m, rfl⟩ : ∃ x y z m, rest = x :: y :: z :: m := by
    match rest, hlater with
    | [], hlater => exact absurd (hlater.trans (by simp)) hlong
    | [_], hlater => exact absurd (hlater.trans (by simp)) hlong
    | [_, _], hlater => exact absurd (hlater.trans (by simp)) hlong
    | x :: y :: z :: m, _ => exact ⟨x, y, z, m, rfl⟩
  have hlead : (leading b).1 = 4 := by omega
  obtain ⟨hb, hsecond⟩ := leading_of_four hlead
  have hlength : charLength (b :: x :: y :: z :: m) = 4 := by omega
  rw [hlength] at h
  have hall : [(x, 0), (y, 1), (z, 2)].takeWhile (fun e : Byte × ℕ =>
      if e.2 = 0 then decide ((leading b).2.1 ≤ e.1.val) && decide (e.1.val ≤ (leading b).2.2)
      else decide (0x80 ≤ e.1.val) && decide (e.1.val ≤ 0xBF)) = [(x, 0), (y, 1), (z, 2)] := by
    refine (List.takeWhile_prefix _).eq_of_length ?_
    unfold charLength at hlength
    simp only [hlead] at hlength
    exact Nat.succ.inj hlength
  have hbytes := List.takeWhile_eq_self_iff.mp hall
  have hx := hbytes (x, 0) (by simp)
  have hy := hbytes (y, 1) (by simp)
  have hz := hbytes (z, 2) (by simp)
  simp only [if_true, Nat.one_ne_zero, OfNat.ofNat_ne_zero, if_false, Bool.and_eq_true,
    decide_eq_true_eq] at hx hy hz
  obtain ⟨hrange, hlow, hhigh⟩ := hsecond x.val hx.1 hx.2
  obtain ⟨c, hc⟩ := exists_enc hb hrange hlow hhigh hy hz
  have htext := fromUtf8_flatMap [c]
  rw [List.flatMap_cons, List.flatMap_nil, List.append_nil, hc] at htext
  have hnone : fromUtf8 [b, x, y, z] = none := h
  rw [hnone] at htext
  cases htext

theorem charLength_of_leading {b : Byte} {rest l : Bytes}
    (hlength : (leading b).1 = rest.length + 1)
    (hhead : ∀ x ∈ rest.head?, (leading b).2.1 ≤ x.val ∧ x.val ≤ (leading b).2.2)
    (htail : ∀ x ∈ rest.tail, 0x80 ≤ x.val ∧ x.val ≤ 0xBF) (hl : l <+: rest)
    (hend : l = rest ∨ m = []) : charLength (b :: (l ++ m)) = l.length + 1 := by
  have htake : (l ++ m).take ((leading b).1 - 1) = l := by
    rw [hlength, Nat.add_sub_cancel]
    rcases hend with rfl | rfl
    · exact List.take_left
    · rw [List.append_nil]
      exact List.take_of_length_le hl.length_le
  have hall : ∀ e ∈ l.zipIdx, (if e.2 = 0 then
      decide ((leading b).2.1 ≤ e.1.val) && decide (e.1.val ≤ (leading b).2.2)
      else decide (0x80 ≤ e.1.val) && decide (e.1.val ≤ 0xBF)) = true := by
    rintro ⟨x, i⟩ he
    have hx : l[i]? = some x := List.mem_zipIdx_iff_getElem?.mp he
    have hrest : rest[i]? = some x := by
      obtain ⟨t, rfl⟩ := hl
      rw [List.getElem?_append_left (List.getElem?_eq_some_iff.mp hx).1, hx]
    cases i with
    | zero =>
        have hfirst := hhead x (by rw [List.head?_eq_getElem?]; exact hrest)
        simpa using hfirst
    | succ i =>
        have hlater := htail x (List.mem_of_getElem? (i := i) (by
          rw [List.getElem?_tail]
          exact hrest))
        simpa using hlater
  unfold charLength
  simp only [htake]
  rw [List.takeWhile_eq_self_iff.mpr hall, List.length_zipIdx]

theorem charLength_enc (c : Char) (more : Bytes) :
    charLength (enc c ++ more) = (enc c).length := by
  obtain ⟨b, rest, henc, hlength, hhead, htail⟩ := enc_spec c
  rw [henc, List.cons_append,
    charLength_of_leading hlength hhead htail (List.prefix_refl rest) (Or.inl rfl),
    List.length_cons]

theorem Broken.charLength (h : Broken front) : charLength front = front.length := by
  obtain ⟨c, back, henc', -⟩ := h.broken
  obtain ⟨b, rest, henc, hlength, hhead, htail⟩ := enc_spec c
  obtain ⟨b', l, rfl⟩ := List.exists_cons_of_ne_nil h.ne_nil
  rw [henc, List.cons_append] at henc'
  obtain ⟨rfl, hrest⟩ := List.cons.inj henc'
  have hall := charLength_of_leading (m := []) hlength hhead htail
    ⟨back, hrest.symm⟩ (Or.inr rfl)
  rwa [List.append_nil] at hall

theorem Broken.length_le (h : Broken front) : front.length ≤ 3 := by
  obtain ⟨c, back, henc, hback⟩ := h.broken
  have hlength := congrArg List.length henc
  have hpos := List.length_pos_of_ne_nil hback
  have hfour := c.utf8Size_le_four
  rw [length_enc, List.length_append] at hlength
  omega

/-- Characters whose bytes start alike are as long. -/
theorem length_enc_of_head {x y : Bytes} (h : enc c ++ x = enc d ++ y) :
    (enc c).length = (enc d).length := by
  obtain ⟨b, rest, henc, hlength, -⟩ := enc_spec c
  obtain ⟨b', rest', henc', hlength', -⟩ := enc_spec d
  rw [henc, henc', List.cons_append, List.cons_append] at h
  obtain ⟨rfl, -⟩ := List.cons.inj h
  rw [henc, henc', List.length_cons, List.length_cons, ← hlength, ← hlength']

theorem exists_of_fromUtf8 {bytes : Bytes} {t : String} (h : fromUtf8 bytes = some t) :
    ∃ cs : List Char, cs.flatMap enc = bytes := by
  refine ⟨t.toList, ?_⟩
  rw [← utf8_ofList, String.ofList_toList]
  exact utf8_of_fromUtf8 h

/-- Whole characters and one that breaks off are no text. -/
theorem Broken.not_text (h : Broken front) : ∀ k cs : List Char,
    cs.flatMap enc ≠ k.flatMap enc ++ front
  | [], [], heq => h.ne_nil heq.symm
  | [], d :: cs, heq => by
      obtain ⟨c, back, henc, hback⟩ := h.broken
      rw [List.flatMap_cons, List.flatMap_nil, List.nil_append] at heq
      have hlength : (enc d).length = (enc c).length :=
        length_enc_of_head (x := cs.flatMap enc ++ back) (y := []) (by
          rw [List.append_nil, henc, ← heq, List.append_assoc])
      have hle : (enc d).length ≤ front.length := by
        rw [← heq, List.length_append]
        exact Nat.le_add_right _ _
      have hpos := List.length_pos_of_ne_nil hback
      rw [henc, List.length_append] at hlength
      omega
  | c :: k, [], heq => by
      obtain ⟨b, rest, henc, -⟩ := enc_spec c
      rw [List.flatMap_cons, henc] at heq
      cases heq
  | c :: k, d :: cs, heq => by
      rw [List.flatMap_cons, List.flatMap_cons, List.append_assoc] at heq
      exact h.not_text k cs (List.append_inj heq (length_enc_of_head heq)).2

theorem Broken.fromUtf8 (h : Broken front) (k : List Char) :
    fromUtf8 (k.flatMap enc ++ front) = none := by
  cases htext : Redb.fromUtf8 (k.flatMap enc ++ front) with
  | none => rfl
  | some t =>
      obtain ⟨cs, hcs⟩ := exists_of_fromUtf8 htext
      exact absurd hcs (h.not_text k cs)

theorem textSize_append (cs ds : List Char) : textSize (cs ++ ds) = textSize cs + textSize ds := by
  rw [textSize, List.map_append, List.sum_append]
  rfl

theorem utf8_length (t : String) : (utf8 t).length = textSize t.toList := by
  rw [← length_flatMap_enc, ← utf8_ofList, String.ofList_toList]

/-- What is replaced is no longer than what stands for it. -/
theorem length_le_replaceInvalid : ∀ {fuel : ℕ} {w : Bytes}, w.length ≤ fuel →
    w.length ≤ textSize (replaceInvalid fuel w).toList
  | 0, [], _ => le_rfl
  | _ + 1, [], _ => Nat.zero_le _
  | fuel + 1, b :: rest, h => by
      have hone : 1 ≤ charLength (b :: rest) := Nat.le_add_left 1 _
      have hrest : ((b :: rest).drop (charLength (b :: rest))).length ≤ fuel := by
        rw [List.length_drop]
        omega
      have ih := length_le_replaceInvalid hrest
      have hpiece : ((b :: rest).take (charLength (b :: rest))).length ≤ textSize
          ((fromUtf8 ((b :: rest).take (charLength (b :: rest)))).getD "\uFFFD").toList := by
        cases htext : fromUtf8 ((b :: rest).take (charLength (b :: rest))) with
        | none =>
            rw [List.length_take]
            exact (min_le_left _ _).trans (charLength_le_three htext)
        | some t =>
            rw [Option.getD_some, ← utf8_length, utf8_of_fromUtf8 htext]
      rw [replaceInvalid, String.toList_append, textSize_append]
      calc (b :: rest).length = ((b :: rest).take (charLength (b :: rest))).length +
            ((b :: rest).drop (charLength (b :: rest))).length := by
            rw [← List.length_append, List.take_append_drop]
        _ ≤ _ := Nat.add_le_add hpiece ih

theorem length_le_lossy (w : Bytes) : w.length ≤ textSize (fromUtf8Lossy w).toList := by
  rw [fromUtf8Lossy]
  cases htext : fromUtf8 w with
  | none => exact length_le_replaceInvalid le_rfl
  | some t => rw [Option.getD_some, ← utf8_length, utf8_of_fromUtf8 htext]

theorem Broken.replaceInvalid (h : Broken front) : ∀ (k : List Char) {fuel : ℕ},
    k.length < fuel →
    replaceInvalid fuel (k.flatMap enc ++ front) = String.ofList (k ++ ['\uFFFD'])
  | [], fuel + 1, _ => by
      have hnone := h.fromUtf8 []
      rw [List.flatMap_nil, List.nil_append] at hnone ⊢
      obtain ⟨b, rest, hfront⟩ := List.exists_cons_of_ne_nil h.ne_nil
      have hlength := h.charLength
      rw [hfront] at hnone hlength ⊢
      rw [Redb.replaceInvalid, hlength, List.take_length, List.drop_length, hnone]
      cases fuel <;> rfl
  | c :: k, fuel + 1, hlt => by
      have ih := h.replaceInvalid k (Nat.lt_of_succ_lt_succ hlt)
      obtain ⟨b, rest, henc, -⟩ := enc_spec c
      have hlength := charLength_enc c (k.flatMap enc ++ front)
      have hone := fromUtf8_flatMap [c]
      rw [List.flatMap_cons, List.flatMap_nil, List.append_nil] at hone
      rw [List.flatMap_cons, List.append_assoc]
      rw [henc] at hlength hone ⊢
      rw [List.cons_append] at hlength ⊢
      rw [Redb.replaceInvalid]
      simp only [hlength]
      rw [← List.cons_append, List.take_left, List.drop_left, hone, ih]
      rw [Option.getD_some, ← String.ofList_append, List.singleton_append, List.cons_append]

theorem length_le_flatMap_enc : ∀ k : List Char, k.length ≤ (k.flatMap enc).length
  | [] => le_rfl
  | c :: k => by
      have ih := length_le_flatMap_enc k
      obtain ⟨b, rest, henc, -⟩ := enc_spec c
      rw [List.flatMap_cons, henc, List.length_append, List.length_cons, List.length_cons]
      omega

/-- What breaks off is replaced, and nothing before it. -/
theorem Broken.lossy (h : Broken front) (k : List Char) :
    (fromUtf8Lossy (k.flatMap enc ++ front)).toList = k ++ ['\uFFFD'] := by
  have hfuel : k.length < (k.flatMap enc ++ front).length := by
    have hpos := List.length_pos_of_ne_nil h.ne_nil
    have hle := length_le_flatMap_enc k
    rw [List.length_append]
    omega
  rw [fromUtf8Lossy, h.fromUtf8 k, Option.getD_none, h.replaceInvalid k hfuel,
    String.toList_ofList]

theorem lossy_flatMap (k : List Char) : fromUtf8Lossy (k.flatMap enc) = String.ofList k := by
  rw [← utf8_ofList, fromUtf8Lossy_utf8]

end Encoded

section Cutting

variable {cs : List Char} {n room : ℕ} {cut : ℕ → List Char}

theorem textSize_cons (c : Char) (cs : List Char) : textSize (c :: cs) = c.utf8Size + textSize cs :=
  rfl

theorem textSize_pos (h : cs ≠ []) : 0 < textSize cs := by
  obtain ⟨c, cs, rfl⟩ := List.exists_cons_of_ne_nil h
  have hpos := c.utf8Size_pos
  rw [textSize_cons]
  omega

theorem prefixWithin_front : ∀ (n : ℕ) (cs : List Char), prefixWithin n cs <+: cs
  | _, [] => List.prefix_refl _
  | n, c :: cs => by
      rw [prefixWithin]
      split
      · exact List.cons_prefix_cons.mpr ⟨rfl, prefixWithin_front _ cs⟩
      · exact List.nil_prefix

theorem textSize_prefixWithin_le : ∀ (n : ℕ) (cs : List Char), textSize (prefixWithin n cs) ≤ n
  | _, [] => Nat.zero_le _
  | n, c :: cs => by
      rw [prefixWithin]
      split
      · have ih := textSize_prefixWithin_le (n - c.utf8Size) cs
        rw [textSize_cons]
        omega
      · exact Nat.zero_le _

theorem prefixWithin_all : ∀ {n : ℕ} {cs : List Char}, textSize cs ≤ n → prefixWithin n cs = cs
  | _, [], _ => by
      rw [prefixWithin]
  | n, c :: cs, h => by
      rw [textSize_cons] at h
      rw [prefixWithin, if_pos (by omega), prefixWithin_all (by omega)]

theorem prefixWithin_cons {c : Char} (h : c.utf8Size ≤ n) :
    prefixWithin n (c :: cs) = c :: prefixWithin (n - c.utf8Size) cs := if_pos h

theorem utf8Size_ascii {c : Char} (h : c.toNat < 128) : c.utf8Size = 1 := by
  refine Char.utf8Size_eq_one_iff.mpr ?_
  rw [UInt32.le_iff_toNat_le]
  exact Nat.le_of_lt_succ h

theorem utf8Size_le_escapeSize (c : Char) : c.utf8Size ≤ escapeSize c := by
  unfold escapeSize
  split_ifs with hquote hcontrol
  · have hone : c.utf8Size = 1 := by
      rcases hquote with rfl | rfl <;> rfl
    omega
  · have hone := utf8Size_ascii (c := c) (by omega)
    omega
  · have hone := utf8Size_ascii (c := c) (by omega)
    omega
  · exact le_rfl

theorem escapeSize_le (c : Char) : escapeSize c ≤ 6 * c.utf8Size := by
  have hpos := c.utf8Size_pos
  unfold escapeSize
  split_ifs <;> omega

theorem jsonLen_cons (c : Char) (cs : List Char) :
    jsonLen (c :: cs) = escapeSize c + jsonLen cs := by
  rw [jsonLen, jsonLen, List.map_cons, List.sum_cons]
  omega

theorem textSize_le_jsonLen : ∀ cs : List Char, textSize cs + 2 ≤ jsonLen cs
  | [] => le_rfl
  | c :: cs => by
      have ih := textSize_le_jsonLen cs
      have hc := utf8Size_le_escapeSize c
      rw [jsonLen_cons, textSize_cons]
      omega

theorem jsonLen_le {k : ℕ} : ∀ {cs : List Char}, Costs k cs → jsonLen cs ≤ k * textSize cs + 2
  | [], _ => Nat.le_add_left _ _
  | c :: cs, h => by
      have ih := jsonLen_le fun d hd => h d (List.mem_cons_of_mem c hd)
      have hc := h c List.mem_cons_self
      rw [jsonLen_cons, textSize_cons, Nat.mul_add]
      omega

theorem fitLoop_cases (cut : ℕ → List Char) (room : ℕ) : ∀ (fuel take : ℕ),
    fitLoop cut room fuel take = [] ∨
      ∃ n, fitLoop cut room fuel take = cut n ∧ jsonLen (cut n) ≤ room
  | 0, _ => Or.inl rfl
  | fuel + 1, take => by
      rw [fitLoop]
      split
      · exact Or.inl rfl
      split
      · rename_i hfits
        exact Or.inr ⟨take, rfl, hfits⟩
      · exact fitLoop_cases cut room fuel _

/-- Where a first character leaves room enough, it is kept: a cut is never scaled below it. -/
theorem fitLoop_ne_nil {k w : ℕ} (hw : k * w + 2 ≤ room) (hsize : ∀ n, textSize (cut n) ≤ n)
    (hcosts : ∀ n, Costs k (cut n)) (hcut : ∀ n, w ≤ n → cut n ≠ [] ∧ w ≤ textSize (cut n)) :
    ∀ (fuel take : ℕ), take < fuel → w ≤ take → fitLoop cut room fuel take ≠ []
  | 0, _, hlt, _ => absurd hlt (Nat.not_lt_zero _)
  | fuel + 1, take, hlt, hle => by
      obtain ⟨hne, hkept⟩ := hcut take hle
      have hlow := textSize_le_jsonLen (cut take)
      have hhigh := jsonLen_le (hcosts take)
      have htake := hsize take
      have hpos := textSize_pos hne
      rw [fitLoop, if_neg hne]
      split
      · exact hne
      · rename_i hlong
        have hmore : w < textSize (cut take) := by
          have hmul : k * w < k * textSize (cut take) := by omega
          exact Nat.lt_of_mul_lt_mul_left hmul
        refine fitLoop_ne_nil hw hsize hcosts hcut fuel _ ?_ (le_min ?_ ?_)
        · refine (min_le_right _ _).trans_lt ?_
          omega
        · rw [Nat.le_div_iff_mul_le (by omega)]
          calc w * jsonLen (cut take) ≤ w * (k * textSize (cut take) + 2) :=
                Nat.mul_le_mul_left w hhigh
            _ = textSize (cut take) * (k * w) + w * 2 := by ring
            _ ≤ textSize (cut take) * (k * w) + textSize (cut take) * 2 :=
                Nat.add_le_add_left (Nat.mul_le_mul_right 2 hkept) _
            _ = textSize (cut take) * (k * w + 2) := by ring
            _ ≤ textSize (cut take) * room := Nat.mul_le_mul_left _ hw
        · omega

/-- A prefix that fits. -/
theorem fitPrefix_spec (text : List Char) {room : ℕ} (hroom : 2 ≤ room) :
    fitPrefix text room <+: text ∧ jsonLen (fitPrefix text room) ≤ room := by
  rcases fitLoop_cases (fun n => prefixWithin n text) room (min (textSize text) room + 1)
    (min (textSize text) room) with hnil | ⟨n, hn, hfits⟩
  · rw [fitPrefix, hnil]
    exact ⟨List.nil_prefix, hroom⟩
  · rw [fitPrefix, hn]
    exact ⟨prefixWithin_front n text, hfits⟩

theorem fitPrefix_ne_nil {c : Char} {k : ℕ} (hcosts : Costs k (c :: cs))
    (h : k * c.utf8Size + 2 ≤ room) : fitPrefix (c :: cs) room ≠ [] := by
  have hone : c.utf8Size ≤ room := by
    have hc := (utf8Size_le_escapeSize c).trans (hcosts c List.mem_cons_self)
    omega
  refine fitLoop_ne_nil h (fun n => textSize_prefixWithin_le n _)
    (fun n d hd => hcosts d ((prefixWithin_front n _).mem hd)) (fun n hn => ?_) _ _
    (Nat.lt_succ_self _) (le_min ?_ hone)
  · rw [prefixWithin_cons hn, textSize_cons]
    exact ⟨List.cons_ne_nil _ _, Nat.le_add_right _ _⟩
  · rw [textSize_cons]
    exact Nat.le_add_right _ _

/-- A suffix that fits. -/
theorem fitSuffix_spec (text : List Char) (hroom : 2 ≤ room) :
    fitSuffix text room <:+ text ∧ jsonLen (fitSuffix text room) ≤ room := by
  rcases fitLoop_cases (fun n => suffixWithin n text) room (min (textSize text) room + 1)
    (min (textSize text) room) with hnil | ⟨n, hn, hfits⟩
  · rw [fitSuffix, hnil]
    exact ⟨List.nil_suffix, hroom⟩
  · rw [fitSuffix, hn]
    refine ⟨?_, hfits⟩
    have hreverse := List.reverse_suffix.mpr (prefixWithin_front n text.reverse)
    rwa [List.reverse_reverse] at hreverse

end Cutting

section Pages

variable {bytes w : Bytes} {chars offset : ℕ} {text : List Char}

theorem fitLoop_of_fits {cut : ℕ → List Char} (hcut : cut (textSize text) = text)
    (h : jsonLen text ≤ chars) : fitLoop cut chars (min (textSize text) chars + 1)
      (min (textSize text) chars) = text := by
  have hsize := textSize_le_jsonLen text
  have htake : min (textSize text) chars = textSize text := min_eq_left (by omega)
  rw [htake, fitLoop, hcut]
  split
  · rename_i hnil
    rw [hnil]
  · rfl

/-- A text that fits is not cut. -/
theorem fitPrefix_of_fits (h : jsonLen text ≤ chars) : fitPrefix text chars = text :=
  fitLoop_of_fits (prefixWithin_all le_rfl) h

theorem fitSuffix_of_fits (h : jsonLen text ≤ chars) : fitSuffix text chars = text := by
  refine fitLoop_of_fits ?_ h
  have hreverse : textSize text.reverse = textSize text := by
    rw [textSize, List.map_reverse, List.sum_reverse]
    rfl
  rw [suffixWithin, prefixWithin_all hreverse.le, List.reverse_reverse]

theorem length_window (bytes : Bytes) (chars offset : ℕ) :
    (window bytes chars offset).length = min chars (bytes.length - offset) := by
  rw [window, List.length_drop, List.length_take]
  omega

/-- Characters of which the first has room keep something, whatever cheap ones follow. -/
theorem fitPrefix_append_ne_nil {cs tail : List Char} {k : ℕ} (hcosts : Costs k cs)
    (hfirst : ∀ c ∈ cs.head?, k * c.utf8Size + 2 ≤ chars) (htail : Costs 1 tail) (hne : cs ≠ []) :
    fitPrefix (cs ++ tail) chars ≠ [] := by
  obtain ⟨c, cs, rfl⟩ := List.exists_cons_of_ne_nil hne
  have hk : 1 ≤ k := by
    have hpos := c.utf8Size_pos
    have hc := (utf8Size_le_escapeSize c).trans (hcosts c List.mem_cons_self)
    rcases Nat.eq_zero_or_pos k with rfl | hk
    · omega
    · exact hk
  refine fitPrefix_ne_nil (k := k) (fun d hd => ?_) (hfirst c rfl)
  rcases List.mem_append.mp (show d ∈ (c :: cs) ++ tail from hd) with hd | hd
  · exact hcosts d hd
  · exact (htail d hd).trans (Nat.mul_le_mul_right _ hk)

/-- What a page keeps of a window of whole characters: some of them, or all there is at the end
of the blob. -/
theorem kept_spec (hroom : 8 ≤ chars) (hw : Whole chars w) (hne : w ≠ [])
    {kept : List Char} (h : kept = fitPrefix (fromUtf8Lossy w).toList chars) :
    jsonLen kept ≤ chars ∧ kept ≠ [] ∧ ((∃ back, w = kept.flatMap enc ++ back) ∨
      String.ofList kept = fromUtf8Lossy w ∧ w.length ≤ textSize kept ∧ w.length < chars) := by
  obtain ⟨cs, front, k, rfl, hfront, hcosts, hfirst⟩ := hw
  rcases hfront with rfl | hbroken
  · rw [List.append_nil] at hne h ⊢
    rw [lossy_flatMap, String.toList_ofList] at h
    subst h
    have hfit := fitPrefix_spec cs (show 2 ≤ chars by omega)
    have hcs : cs ≠ [] := by
      rintro rfl
      exact hne rfl
    have hkept := fitPrefix_append_ne_nil hcosts hfirst (List.forall_mem_nil _) hcs
    rw [List.append_nil] at hkept
    obtain ⟨back, hback⟩ := hfit.1
    refine ⟨hfit.2, hkept, Or.inl ⟨back.flatMap enc, ?_⟩⟩
    rw [← List.flatMap_append, hback]
  · rw [hbroken.lossy] at h
    have hfit := fitPrefix_spec (cs ++ ['\uFFFD']) (show 2 ≤ chars by omega)
    rw [← h] at hfit
    have hkept : kept ≠ [] := by
      rcases eq_or_ne cs [] with rfl | hcs
      · have hfits : jsonLen ['\uFFFD'] ≤ 8 := by decide
        rw [h, List.nil_append, fitPrefix_of_fits (hfits.trans hroom)]
        exact List.cons_ne_nil _ _
      · rw [h]
        exact fitPrefix_append_ne_nil hcosts hfirst
          (List.forall_mem_singleton.mpr (by decide)) hcs
    refine ⟨hfit.2, hkept, ?_⟩
    rcases List.prefix_concat_iff.mp hfit.1 with hall | hprefix
    · -- With the quotes the replacement of what breaks off fits at the end of the blob only.
      have hjson := textSize_le_jsonLen kept
      have hthree : textSize ['\uFFFD'] = 3 := by decide
      have hsize : textSize kept = textSize cs + 3 := by rw [hall, textSize_append, hthree]
      have hfront := hbroken.length_le
      have hlength : (cs.flatMap enc ++ front).length = textSize cs + front.length := by
        rw [List.length_append, length_flatMap_enc]
      refine Or.inr ⟨?_, by omega, by omega⟩
      rw [hall, ← hbroken.lossy cs, String.ofList_toList]
    · obtain ⟨back, rfl⟩ := hprefix
      refine Or.inl ⟨back.flatMap enc ++ front, ?_⟩
      rw [List.flatMap_append, List.append_assoc]

/-- The front of a window is the bytes from its start on. -/
theorem window_front {a back : Bytes} (h : window bytes chars offset = a ++ back) :
    (bytes.take (offset + a.length)).drop offset = a := by
  rw [window, List.drop_take] at h
  have hfront : a <+: bytes.drop offset :=
    (h ▸ List.prefix_append a back).trans (List.take_prefix _ _)
  rw [List.drop_take, Nat.add_sub_cancel_left, ← List.prefix_iff_eq_take.mp hfront]

theorem window_end (h : bytes.length ≤ offset + chars) :
    window bytes chars offset = bytes.drop offset := by
  rw [window, min_eq_right h, List.take_length]

theorem blobPage_front (hle : offset ≤ bytes.length) {kept : List Char}
    (h : kept = fitPrefix (fromUtf8Lossy (window bytes chars offset)).toList chars) :
    blobPage bytes offset false chars = ⟨bytes.length, offset, String.ofList kept,
      if offset + textSize kept < bytes.length then some (offset + textSize kept) else none⟩ := by
  have hmin : min offset bytes.length = offset := min_eq_left hle
  subst h
  unfold blobPage
  simp only [hmin, Bool.false_eq_true, if_false]

/-- A page of whole characters shows its own bytes, and the next one starts at their end. -/
theorem page_spec (hroom : 8 ≤ chars) (hle : offset ≤ bytes.length)
    (h : Whole chars (window bytes chars offset) ∨ Fits bytes chars offset) {p : Page}
    (hp : blobPage bytes offset false chars = p) :
    p.offset = offset ∧ (p.nextOffset = none ∧ Shows bytes chars p bytes.length ∨
      ∃ next, p.nextOffset = some next ∧ offset < next ∧ next ≤ bytes.length ∧
        Shows bytes chars p next) := by
  obtain ⟨kept, hkept⟩ : ∃ kept, kept = fitPrefix
    (fromUtf8Lossy (window bytes chars offset)).toList chars := ⟨_, rfl⟩
  rw [blobPage_front hle hkept] at hp
  subst hp
  refine ⟨rfl, ?_⟩
  have hlength := length_window bytes chars offset
  rcases h with hw | ⟨hleft, hfits⟩
  swap
  · rw [window_end hleft] at hkept
    have hall := hkept.trans (fitPrefix_of_fits hfits)
    have hlong := length_le_lossy (bytes.drop offset)
    rw [← hall, List.length_drop] at hlong
    rw [← hall] at hfits
    refine Or.inl ⟨if_neg (by omega), ?_, ?_⟩
    · rw [List.take_length, hall, String.ofList_toList]
    · rwa [String.toList_ofList]
  rcases eq_or_ne (window bytes chars offset) [] with hnil | hne
  · rw [hnil, List.length_nil] at hlength
    rw [hnil] at hkept
    have hnone : kept = [] := hkept
    subst hnone
    refine Or.inl ⟨if_neg ?_, ⟨?_, ?_⟩⟩
    · have hend : offset = bytes.length := by omega
      rw [hend]
      exact Nat.not_lt.mpr (Nat.le_add_right _ _)
    · have hend : bytes.length ≤ offset := by omega
      rw [List.take_length, List.drop_of_length_le hend]
      rfl
    · exact (by decide : jsonLen [] ≤ 8).trans hroom
  · obtain ⟨hfits, hsome, hshown⟩ := kept_spec hroom hw hne hkept
    have hjson : jsonLen (String.ofList kept).toList ≤ chars := by
      rwa [String.toList_ofList]
    rcases hshown with ⟨back, hback⟩ | ⟨htext, hsize, hshort⟩
    · have hfront := window_front hback
      have hle' := congrArg List.length hback
      rw [List.length_append] at hle'
      rw [length_flatMap_enc] at hfront hle'
      have hpos : 0 < textSize kept := textSize_pos hsome
      have hown : String.ofList kept =
          fromUtf8Lossy ((bytes.take (offset + textSize kept)).drop offset) := by
        rw [hfront, lossy_flatMap]
      by_cases hmore : offset + textSize kept < bytes.length
      · exact Or.inr ⟨offset + textSize kept, if_pos hmore, by omega, hmore.le, hown, hjson⟩
      · have hend : offset + textSize kept = bytes.length := by omega
        rw [hend] at hown
        exact Or.inl ⟨if_neg hmore, hown, hjson⟩
    · refine Or.inl ⟨if_neg (by omega), ?_, hjson⟩
      rw [htext, window_end (by omega), List.take_length]

/-- The page at the end of a blob, where it keeps a part of what the bytes there decode to. -/
theorem blobPage_back {lost kept : List Char} (offset : ℕ)
    (h : (fromUtf8Lossy (window bytes chars (bytes.length - chars))).toList = lost ++ kept)
    (hkept : fitSuffix (lost ++ kept) chars = kept) : blobPage bytes offset true chars =
      ⟨bytes.length, bytes.length - chars + textSize lost, String.ofList kept, none⟩ := by
  have hend : min (bytes.length - chars + chars) bytes.length = bytes.length :=
    min_eq_right (by omega)
  have hsize : textSize (lost ++ kept) - textSize kept = textSize lost := by
    rw [textSize_append, Nat.add_sub_cancel]
  unfold blobPage
  simp only [if_true, h, hkept, hend, hsize, Nat.lt_irrefl, if_false]

/-- The page at the end of a blob shows its own bytes where it starts with a character. -/
theorem readsTail_of_whole (hroom : 8 ≤ chars)
    (h : WholeTail bytes chars ∨ Fits bytes chars (bytes.length - chars)) :
    ReadsTail bytes chars := by
  intro offset
  rcases h with ⟨cs, hcs⟩ | ⟨hleft, hfits⟩
  · obtain ⟨⟨lost, hlost⟩, hfits⟩ := fitSuffix_spec cs (show 2 ≤ chars by omega)
    have hdecoded : (fromUtf8Lossy (window bytes chars (bytes.length - chars))).toList =
        lost ++ fitSuffix cs chars := by
      rw [hcs, lossy_flatMap, String.toList_ofList, hlost]
    rw [blobPage_back offset hdecoded (by rw [hlost])]
    rw [window_end (by omega), ← hlost, List.flatMap_append] at hcs
    refine ⟨rfl, ?_, ?_⟩
    · dsimp only
      rw [List.take_length, ← List.drop_drop, hcs, ← length_flatMap_enc, List.drop_left,
        lossy_flatMap]
    · rw [String.toList_ofList]
      exact hfits
  · have hdecoded : (fromUtf8Lossy (window bytes chars (bytes.length - chars))).toList =
        [] ++ (fromUtf8Lossy (bytes.drop (bytes.length - chars))).toList := by
      rw [window_end hleft]
      rfl
    rw [blobPage_back offset hdecoded (fitSuffix_of_fits hfits)]
    refine ⟨rfl, ?_, ?_⟩
    · rw [String.ofList_toList, List.take_length]
      rfl
    · rw [String.toList_ofList]
      exact hfits

theorem readsOn_of_reached (hroom : 8 ≤ chars)
    (h : ∀ o, Reached bytes chars o → Whole chars (window bytes chars o) ∨ Fits bytes chars o) :
    ∀ (n offset : ℕ), bytes.length - offset ≤ n → offset ≤ bytes.length →
      Reached bytes chars offset → ReadsOn bytes chars offset := by
  intro n
  induction n with
  | zero =>
      intro offset hn hle hreached
      obtain ⟨hoffset, ⟨hnext, hshows⟩ | ⟨next, hnext, hlt, hle', -⟩⟩ :=
        page_spec hroom hle (h offset hreached) rfl
      · exact ReadsOn.last hoffset hnext hshows
      · rw [Nat.sub_eq_zero_iff_le.mp (Nat.le_zero.mp hn) |> hle.antisymm] at hlt
        omega
  | succ n ih =>
      intro offset hn hle hreached
      obtain ⟨hoffset, ⟨hnext, hshows⟩ | ⟨next, hnext, hlt, hle', hshows⟩⟩ :=
        page_spec hroom hle (h offset hreached) rfl
      · exact ReadsOn.last hoffset hnext hshows
      · exact ReadsOn.more hoffset hnext hlt hshows
          (ih next (by omega) hle' (hreached.next hnext))

/-- Where each page that is reached reads whole characters, or all that is left fits in it, the
pages show the blob to its end. -/
theorem pages_show (bytes : Bytes) (chars : ℕ) (hroom : 8 ≤ chars)
    (h : ∀ o, Reached bytes chars o → Whole chars (window bytes chars o) ∨ Fits bytes chars o)
    (htail : WholeTail bytes chars ∨ Fits bytes chars (bytes.length - chars)) :
    ReadsOn bytes chars 0 ∧ ReadsTail bytes chars :=
  ⟨readsOn_of_reached hroom h bytes.length 0 (Nat.sub_le _ _) (Nat.zero_le _) Reached.start,
    readsTail_of_whole hroom htail⟩

theorem pages_show_letters : ReadsOn (utf8 "abcdefgh") 8 0 ∧ ReadsTail (utf8 "abcdefgh") 8 := by
  have hfirst : (blobPage (utf8 "abcdefgh") 0 false 8).nextOffset = some 6 := by decide +kernel
  have hsecond : (blobPage (utf8 "abcdefgh") 6 false 8).nextOffset = none := by decide +kernel
  refine pages_show (utf8 "abcdefgh") 8 le_rfl (fun o ho => ?_)
    (Or.inl ⟨"abcdefgh".toList, by decide +kernel⟩)
  have hpages : o = 0 ∨ o = 6 := by
    induction ho with
    | start => exact Or.inl rfl
    | next _ hnext ih =>
        rcases ih with rfl | rfl
        · rw [hfirst] at hnext
          exact Or.inr (Option.some.inj hnext).symm
        · rw [hsecond] at hnext
          cases hnext
  rcases hpages with rfl | rfl
  · refine Or.inl ⟨"abcdefgh".toList, [], 6, by decide +kernel, Or.inl rfl,
      fun c _ => escapeSize_le c, fun c hc => ?_⟩
    have hletter : "abcdefgh".toList.head? = some 'a' := by decide +kernel
    rw [hletter] at hc
    obtain rfl := Option.some.inj hc
    decide
  · exact Or.inr ⟨by decide +kernel, by decide +kernel⟩

/-- Bytes of no character followed by letters. -/
def stray : Bytes := 0xFF :: utf8 "abcdefgh"

/-- A character of four bytes followed by control characters. -/
def crowded : Bytes := utf8 "😀\x01\x01\x01\x01"

/-- Letters, of which one is two bytes. -/
def divided : Bytes := utf8 "aébcdefgh"

/-- A page that replaces a single byte counts three and skips what follows, one that has no room
for its first character is followed by itself, and one at the end that starts inside a character
counts as many bytes too many. -/
theorem pages_skip : ¬ ReadsOn stray 8 0 ∧ ¬ ReadsOn crowded 8 0 ∧ ¬ ReadsTail divided 8 := by
  have hskip : (blobPage stray 0 false 8).nextOffset = some 6 := by decide +kernel
  have htext : (blobPage stray 0 false 8).text ≠
      fromUtf8Lossy ((stray.take 6).drop (blobPage stray 0 false 8).offset) := by decide +kernel
  have hstall : (blobPage crowded 0 false 8).nextOffset = some 0 := by decide +kernel
  have htail : (blobPage divided 0 true 8).text ≠
      fromUtf8Lossy ((divided.take divided.length).drop (blobPage divided 0 true 8).offset) := by
    decide +kernel
  refine ⟨fun h => ?_, fun h => ?_, fun h => htail (h 0).2.text⟩
  · cases h with
    | last _ hnext =>
        rw [hskip] at hnext
        cases hnext
    | more _ hnext _ hshows =>
        rw [hskip] at hnext
        cases hnext
        exact htext hshows.text
  · cases h with
    | last _ hnext =>
        rw [hstall] at hnext
        cases hnext
    | more _ hnext hlt =>
        rw [hstall] at hnext
        cases hnext
        exact Nat.lt_irrefl _ hlt

end Pages

section Texts

variable {chars k : ℕ} {rest : List Char}

/-- A window on a text holds whole characters and perhaps one that breaks off at its end. -/
theorem take_flatMap_enc : ∀ (rest : List Char) (n : ℕ), ∃ front,
    (rest.flatMap enc).take n = (prefixWithin n rest).flatMap enc ++ front ∧
      (front = [] ∨ Broken front)
  | [], n => ⟨[], by simp [prefixWithin], Or.inl rfl⟩
  | c :: rest, n => by
      have hlength := length_enc c
      by_cases hle : c.utf8Size ≤ n
      · obtain ⟨front, htake, hfront⟩ := take_flatMap_enc rest (n - c.utf8Size)
        refine ⟨front, ?_, hfront⟩
        rw [prefixWithin_cons hle, List.flatMap_cons, List.flatMap_cons, List.take_append,
          List.take_of_length_le (by omega), hlength, htake, List.append_assoc]
      · have hnone : prefixWithin n (c :: rest) = [] := if_neg hle
        refine ⟨(enc c).take n, ?_, ?_⟩
        · rw [hnone, List.flatMap_cons, List.take_append_of_le_length (by omega)]
          rfl
        · rcases Nat.eq_zero_or_pos n with rfl | hpos
          · exact Or.inl rfl
          · refine Or.inr ⟨⟨c, (enc c).drop n, (List.take_append_drop n _).symm, ?_⟩, ?_⟩
            · refine List.ne_nil_of_length_pos ?_
              rw [List.length_drop]
              omega
            · refine List.ne_nil_of_length_pos ?_
              rw [List.length_take]
              omega

theorem enc_injective : Function.Injective enc := by
  intro c d h
  have hc := fromUtf8_flatMap [c]
  have hd := fromUtf8_flatMap [d]
  rw [List.flatMap_cons, List.flatMap_nil] at hc hd
  rw [h, hd] at hc
  have hone := String.ofList_injective (Option.some.inj hc)
  exact (List.cons.inj hone).1.symm

/-- Texts whose bytes start alike start alike. -/
theorem front_of_flatMap : ∀ {kept rest : List Char} {x : Bytes},
    kept.flatMap enc ++ x = rest.flatMap enc → kept <+: rest
  | [], _, _, _ => List.nil_prefix
  | c :: kept, [], x, h => by
      obtain ⟨b, rest, henc, -⟩ := enc_spec c
      rw [List.flatMap_cons, henc] at h
      cases h
  | c :: kept, d :: rest, x, h => by
      rw [List.flatMap_cons, List.flatMap_cons, List.append_assoc] at h
      obtain ⟨hone, hmore⟩ := List.append_inj h (length_enc_of_head h)
      rw [enc_injective hone]
      exact List.cons_prefix_cons.mpr ⟨rfl, front_of_flatMap hmore⟩

theorem window_text (pre rest : List Char) (chars : ℕ) :
    window ((pre ++ rest).flatMap enc) chars (textSize pre) = (rest.flatMap enc).take chars := by
  rw [window, List.drop_take, List.flatMap_append, ← length_flatMap_enc pre, List.drop_left,
    List.take_eq_take_iff, List.length_append]
  omega

/-- Where a character of a text starts, its bytes are whole characters. -/
theorem whole_text (pre : List Char) (hcosts : Costs k rest)
    (hchars : ∀ c ∈ rest, k * c.utf8Size + 2 ≤ chars) :
    Whole chars (window ((pre ++ rest).flatMap enc) chars (textSize pre)) := by
  obtain ⟨front, htake, hfront⟩ := take_flatMap_enc rest chars
  have hwhole := prefixWithin_front chars rest
  refine ⟨prefixWithin chars rest, front, k, ?_, hfront, fun c hc => hcosts c (hwhole.mem hc),
    fun c hc => hchars c (hwhole.mem (List.mem_of_mem_head? hc))⟩
  rw [window_text, htake]

/-- Each page of a text starts with one of its characters. -/
theorem Reached.text {text : List Char} (hroom : 8 ≤ chars) (hcosts : Costs k text)
    (hchars : ∀ c ∈ text, k * c.utf8Size + 2 ≤ chars) {offset : ℕ}
    (h : Reached (text.flatMap enc) chars offset) :
    ∃ pre rest, text = pre ++ rest ∧ offset = textSize pre := by
  induction h with
  | start => exact ⟨[], text, rfl, rfl⟩
  | @next offset next _ hnext ih =>
      obtain ⟨pre, rest, rfl, rfl⟩ := ih
      have hsize : ((pre ++ rest).flatMap enc).length = textSize pre + textSize rest := by
        rw [length_flatMap_enc, textSize_append]
      obtain ⟨kept, hkept⟩ : ∃ kept, kept = fitPrefix (fromUtf8Lossy
        (window ((pre ++ rest).flatMap enc) chars (textSize pre))).toList chars := ⟨_, rfl⟩
      rw [blobPage_front (by omega) hkept] at hnext
      dsimp only at hnext
      split_ifs at hnext with hmore
      obtain rfl := Option.some.inj hnext
      have hlength := length_window ((pre ++ rest).flatMap enc) chars (textSize pre)
      have hne : window ((pre ++ rest).flatMap enc) chars (textSize pre) ≠ [] := by
        refine List.ne_nil_of_length_pos ?_
        omega
      have hwhole := whole_text pre
        (fun c hc => hcosts c (List.mem_append_right pre hc))
        fun c hc => hchars c (List.mem_append_right pre hc)
      obtain ⟨-, -, ⟨back, hback⟩ | ⟨-, hlong, hshort⟩⟩ :=
        kept_spec hroom hwhole hne hkept
      · have hall := List.take_append_drop chars (rest.flatMap enc)
        rw [← window_text pre, hback, List.append_assoc] at hall
        obtain ⟨rest', rfl⟩ := front_of_flatMap hall
        exact ⟨pre ++ kept, rest', (List.append_assoc ..).symm, (textSize_append ..).symm⟩
      · omega

/-- The pages of a text whose characters each have room in a page show it to its end. -/
theorem text_pages (s : String) (hroom : 8 ≤ chars) (hcosts : Costs k s.toList)
    (hchars : ∀ c ∈ s.toList, k * c.utf8Size + 2 ≤ chars) : ReadsOn (utf8 s) chars 0 := by
  have hbytes : utf8 s = s.toList.flatMap enc := by
    rw [← utf8_ofList, String.ofList_toList]
  rw [hbytes]
  refine readsOn_of_reached hroom (fun o ho => ?_) _ 0 le_rfl (Nat.zero_le _) Reached.start
  obtain ⟨pre, rest, htext, rfl⟩ := ho.text hroom hcosts hchars
  rw [htext] at hcosts hchars ⊢
  exact Or.inl (whole_text pre (fun c hc => hcosts c (List.mem_append_right pre hc))
    fun c hc => hchars c (List.mem_append_right pre hc))

/-- From twenty-six on a page has room for any character. -/
theorem text_pages_wide (s : String) (hchars : 26 ≤ chars) : ReadsOn (utf8 s) chars 0 := by
  refine text_pages s (by omega) (fun c _ => escapeSize_le c) fun c _ => ?_
  have hfour := c.utf8Size_le_four
  omega

end Texts

end Tessra.Daemon.Paging
