import Tessra.Data.Brackets
import Tessra.Data.Lists
import Tessra.Oplog.Clauses

namespace Tessra.Oplog.Standard

open Tessra.Core Tessra.Data

/-! Predicates as text: what a text says, part by part. -/

section Reading

/-- White space as Unicode has it. -/
def isWhite (c : Char) : Bool :=
  (9 ≤ c.toNat && c.toNat ≤ 13) || (0x2000 ≤ c.toNat && c.toNat ≤ 0x200A) ||
    [0x20, 0x85, 0xA0, 0x1680, 0x2028, 0x2029, 0x202F, 0x205F, 0x3000].contains c.toNat

def isNumeral (c : Char) : Bool := c.isDigit || c = '+' || c = '-'

/-- Parentheses, commas and white space. Numerals are read and printed in different ways, so
they do not count for the size of a text. -/
def layout : Layout Char where
  weight c := if c = '(' then 1 else if c = ')' then -1 else 0
  sep := ','
  blank := isWhite
  counted c := !isWhite c && !isNumeral c
  weight_sep := rfl
  blank_sep := rfl
  counted_sep := rfl
  weight_blank c hc := by
    rw [if_neg, if_neg]
    all_goals
      rintro rfl
      exact absurd hc (by decide)
  counted_blank c hc := by simp [hc]

def splitStep : List (List Char) × ℤ × List Char → Char → List (List Char) × ℤ × List Char
  | (out, depth, cur), ch =>
      if ch = '(' then (out, depth + 1, cur ++ [ch])
      else if ch = ')' then (out, depth - 1, cur ++ [ch])
      else if ch = ',' ∧ depth = 0 then (out ++ [layout.trim cur], depth, [])
      else (out, depth, cur ++ [ch])

def splitTop (s : List Char) : List (List Char) :=
  let (out, _, cur) := s.foldl splitStep ([], 0, [])
  if layout.trim cur = [] then out else out ++ [layout.trim cur]

def parseValue (v : List Char) : Value :=
  if v = "true".toList then .bool true
  else if v = "false".toList then .bool false
  else
    match parseI64 (String.ofList v) with
    | some n => .integer n
    | none => .text (String.ofList v)

/-- A predicate as a value, in another's arguments. -/
def encode (p : Predicate) : Value :=
  .map ((.text "kind", .text p.kind) :: (p.name.toList.map fun n => (.text "name", .text n)) ++
    p.args.toList.map fun a =>
      (.text "args", .map (a.entries.map fun e => (.text e.1, e.2))))

def compound (kind : String) (preds : List Predicate) : Predicate :=
  ⟨kind, none, some ((∅ : OrdMap String Value).insert "preds" (.array (preds.map encode)))⟩

def parsePart (s : Option String × OrdMap String Value) (e : List Char × ℕ) :
    Except String (Option String × OrdMap String Value) :=
  let part := layout.trim e.1
  if part = [] then .ok s
  else if '=' ∈ part then
    let k := part.takeWhile (· ≠ '=')
    let v := (part.dropWhile (· ≠ '=')).tail
    .ok (s.1, s.2.insert (String.ofList (layout.trim k)) (parseValue (layout.trim v)))
  else if e.2 = 0 then .ok (some (String.ofList part), s.2)
  else .error s!"expected key=value, got {String.ofList part}"

def parseParts (inner : List Char) : Except String (Option String × OrdMap String Value) :=
  (splitTop inner).zipIdx.foldlM parsePart (none, ∅)

def parseInner (parse : List Char → Except String Predicate) (kind : String)
    (inner : List Char) : Except String Predicate :=
  if kind ∈ compoundKinds then do
    let preds ← (splitTop inner).mapM parse
    return compound kind preds
  else do
    let (name, args) ← parseParts inner
    return ⟨kind, name, if args.entries = [] then none else some args⟩

def parsePredicateAt : ℕ → List Char → Except String Predicate
  | 0, text => .error s!"expected kind(name, ...), got {String.ofList text}"
  | fuel + 1, text =>
      let text := layout.trim text
      if '(' ∉ text then .error s!"expected kind(name, ...), got {String.ofList text}"
      else if text.getLast? ≠ some ')' then
        .error s!"expected a closing parenthesis in {String.ofList text}"
      else
        let kind := String.ofList (layout.trim (text.takeWhile (· ≠ '(')))
        let inner := (text.dropWhile (· ≠ '(')).tail.dropLast
        parseInner (parsePredicateAt fuel) kind inner

/-- The parts of a text are shorter than it, so its length bounds how deep they nest. -/
def parsePredicate (text : String) : Except String Predicate :=
  parsePredicateAt (text.toList.length + 1) text.toList

end Reading

section Split

/-- The parts are the pieces, but for a blank one at the end. -/
theorem foldl_splitStep : ∀ (s : List Char) (out : List (List Char)) (depth : ℤ) (cur : List Char),
    ∃ pieces last d, (layout.piecesFrom depth s).modifyHead (cur ++ ·) = pieces ++ [last] ∧
      s.foldl splitStep (out, depth, cur) = (out ++ pieces.map layout.trim, d, last)
  | [], out, depth, cur => ⟨[], cur, depth, by simp [Layout.piecesFrom], by simp⟩
  | ch :: s, out, depth, cur => by
      obtain ⟨a, l, heq⟩ := Layout.exists_piecesFrom (m := layout) (depth + layout.weight ch) s
      rw [Layout.piecesFrom, List.foldl_cons]
      by_cases hsep : ch = layout.sep ∧ depth = 0
      · have hweight : layout.weight ch = 0 := by rw [hsep.1]; rfl
        have hstep : splitStep (out, depth, cur) ch = (out ++ [layout.trim cur], depth, []) := by
          rw [hsep.1, hsep.2]
          rfl
        obtain ⟨pieces, last, d, hpieces, hout⟩ :=
          foldl_splitStep s (out ++ [layout.trim cur]) depth []
        refine ⟨cur :: pieces, last, d, ?_, by rw [hstep, hout]; simp⟩
        rw [hweight, add_zero] at heq
        rw [if_pos hsep, List.modifyHead_cons, List.append_nil, List.cons_append, ← hpieces, heq]
        rfl
      · have hstep : splitStep (out, depth, cur) ch =
            (out, depth + layout.weight ch, cur ++ [ch]) := by
          rw [splitStep]
          split_ifs with hopen hclose hcomma
          · rw [hopen]
            rfl
          · rw [hclose]
            rfl
          · exact absurd hcomma hsep
          · have hweight : layout.weight ch = 0 := by
              change (if ch = '(' then (1 : ℤ) else if ch = ')' then -1 else 0) = 0
              rw [if_neg hopen, if_neg hclose]
            rw [hweight, add_zero]
        obtain ⟨pieces, last, d, hpieces, hout⟩ :=
          foldl_splitStep s out (depth + layout.weight ch) (cur ++ [ch])
        refine ⟨pieces, last, d, ?_, by rw [hstep, hout]⟩
        rw [if_neg hsep, ← hpieces, heq]
        simp

/-- The trimmed pieces of a text, between the commas outside all parentheses. -/
def pieceTexts (s : List Char) : List (List Char) := (layout.pieces s).map layout.trim

theorem splitTop_cases (s : List Char) :
    (splitTop s = pieceTexts s ∧ [] ≠ (pieceTexts s).getLast?.getD []) ∨
      pieceTexts s = splitTop s ++ [[]] := by
  obtain ⟨pieces, last, d, hpieces, hout⟩ := foldl_splitStep s [] 0 []
  have hall : layout.pieces s = pieces ++ [last] := by
    obtain ⟨a, l, heq⟩ := Layout.exists_piecesFrom (m := layout) 0 s
    rw [Layout.pieces, ← hpieces, heq]
    rfl
  rw [splitTop, hout, pieceTexts, hall]
  by_cases hlast : layout.trim last = []
  · exact Or.inr (by simp [hlast])
  · exact Or.inl ⟨by simp [hlast], by simpa using Ne.symm hlast⟩

end Split

section Values

/-- Two texts are alike in their parentheses, in their commas and in size. -/
structure Alike (a b : List Char) : Prop where
  balance : layout.balance a = layout.balance b
  sepAt : ∀ d, layout.SepAt d a ↔ layout.SepAt d b
  size : layout.size a = layout.size b

theorem Alike.refl (a : List Char) : Alike a a := ⟨rfl, fun _ => Iff.rfl, rfl⟩

theorem alike_trim (a : List Char) : Alike (layout.trim a) a :=
  ⟨Layout.balance_trim a, fun _ => Layout.sepAt_trim a, Layout.size_trim a⟩

theorem Alike.trans {a b c : List Char} (h : Alike a b) (h' : Alike b c) : Alike a c :=
  ⟨h.balance.trans h'.balance, fun d => (h.sepAt d).trans (h'.sepAt d), h.size.trans h'.size⟩

theorem Alike.append {a b c d : List Char} (h : Alike a b) (h' : Alike c d) :
    Alike (a ++ c) (b ++ d) where
  balance := by rw [Layout.balance_append, Layout.balance_append, h.balance, h'.balance]
  sepAt n := by
    rw [Layout.sepAt_append, Layout.sepAt_append, h.sepAt, h.balance, h'.sepAt]
  size := by rw [Layout.size_append, Layout.size_append, h.size, h'.size]

theorem numeral_spec {c : Char} (h : isNumeral c = true) :
    layout.weight c = 0 ∧ c ≠ ',' ∧ isWhite c = false ∧ layout.counted c = false := by
  refine ⟨?_, ?_, ?_, by simp [layout, h]⟩
  · change (if c = '(' then (1 : ℤ) else if c = ')' then -1 else 0) = 0
    rw [if_neg, if_neg]
    all_goals
      rintro rfl
      exact absurd h (by decide)
  · rintro rfl
    exact absurd h (by decide)
  · have hrange : 43 ≤ c.toNat ∧ c.toNat ≤ 57 := by
      simp only [isNumeral, Bool.or_eq_true, decide_eq_true_eq, Char.isDigit, Bool.and_eq_true] at h
      rcases h with (⟨hlow, hhigh⟩ | rfl) | rfl
      · exact ⟨le_trans (by decide) hlow, hhigh⟩
      · decide
      · decide
    have hother : c.toNat ∉ [0x20, 0x85, 0xA0, 0x1680, 0x2028, 0x2029, 0x202F, 0x205F, 0x3000] := by
      simp only [List.mem_cons, List.not_mem_nil, or_false]
      omega
    simp only [isWhite, Bool.or_eq_false_iff, Bool.and_eq_false_iff, decide_eq_false_iff_not]
    refine ⟨⟨by omega, by omega⟩, ?_⟩
    simpa using hother

theorem alike_numerals {a b : List Char} (ha : ∀ c ∈ a, isNumeral c = true)
    (hb : ∀ c ∈ b, isNumeral c = true) : Alike a b := by
  have hall : ∀ l : List Char, (∀ c ∈ l, isNumeral c = true) →
      layout.balance l = 0 ∧ (∀ d, ¬ layout.SepAt d l) ∧ layout.size l = 0 := by
    intro l
    induction l with
    | nil => exact fun _ => ⟨rfl, fun _ => id, rfl⟩
    | cons c l ih =>
        intro hl
        obtain ⟨hweight, hsep, -, hcounted⟩ := numeral_spec (hl c List.mem_cons_self)
        obtain ⟨hbalance, hfree, hsize⟩ := ih fun c hc => hl c (List.mem_cons_of_mem _ hc)
        refine ⟨by rw [Layout.balance_cons, hweight, hbalance, add_zero], fun d => ?_, ?_⟩
        · rintro (⟨heq, -⟩ | hlater)
          · exact hsep heq
          · exact hfree _ hlater
        · exact Layout.size_eq_zero fun x hx => (numeral_spec (hl x hx)).2.2.2
  obtain ⟨hbalance, hfree, hsize⟩ := hall a ha
  obtain ⟨hbalance', hfree', hsize'⟩ := hall b hb
  exact ⟨hbalance.trans hbalance'.symm, fun d => iff_of_false (hfree d) (hfree' d),
    hsize.trans hsize'.symm⟩

theorem trim_numerals {a : List Char} (ha : ∀ c ∈ a, isNumeral c = true) : layout.trim a = a :=
  Layout.trim_eq_self (fun c hc => (numeral_spec (ha c (List.mem_of_head? hc))).2.2.1)
    fun c hc => (numeral_spec (ha c (List.mem_of_getLast? hc))).2.2.1

theorem digit_numeral {c : Char} (h : c.isDigit = true) : isNumeral c = true := by
  simp [isNumeral, h]

/-- The number that digits write. -/
def digitsOf (l : List Char) : Option ℕ :=
  if l ≠ [] ∧ l.all Char.isDigit then
    some (l.foldl (fun n c => n * 10 + (c.toNat - '0'.toNat)) 0)
  else none

theorem parseInt_minus {s : String} {l : List Char} (h : s.toList = '-' :: l) :
    parseInt s = (digitsOf l).map fun n : ℕ => -(n : ℤ) := by
  unfold parseInt
  rw [h]
  change Option.map _ ((digitsOf l).bind _) = _
  cases digitsOf l <;> rfl

theorem parseInt_plus {s : String} {l : List Char} (h : s.toList = '+' :: l) :
    parseInt s = (digitsOf l).map Int.ofNat := by
  unfold parseInt
  rw [h]
  rfl

theorem parseInt_digits {s : String} (hminus : ∀ l, s.toList ≠ '-' :: l)
    (hplus : ∀ l, s.toList ≠ '+' :: l) : parseInt s = (digitsOf s.toList).map Int.ofNat := by
  unfold parseInt
  split
  · rename_i l heq
    exact absurd heq (hminus l)
  · rename_i l heq
    exact absurd heq (hplus l)
  · rfl

theorem digitsOf_toDigits (n : ℕ) : digitsOf (Nat.toDigits 10 n) = some n := by
  have hall : (Nat.toDigits 10 n).all Char.isDigit = true :=
    List.all_eq_true.mpr fun c hc => Nat.isDigit_of_mem_toDigits (by decide) (by decide) hc
  have hvalue := Nat.ofDigitChars_ten_toDigits (n := n)
  rw [Nat.ofDigitChars_eq_foldl] at hvalue
  simp only [Nat.mul_comm 10] at hvalue
  rw [digitsOf, if_pos ⟨Nat.toDigits_ne_nil, hall⟩, hvalue]

theorem numerals_of_digitsOf {l : List Char} {n : ℕ} (h : digitsOf l = some n) :
    ∀ c ∈ l, isNumeral c = true := by
  unfold digitsOf at h
  split_ifs at h with hdigits
  exact fun c hc => digit_numeral (List.all_eq_true.mp hdigits.2 c hc)

theorem numerals_of_parseI64 {s : String} {n : ℤ} (h : parseI64 s = some n) :
    ∀ c ∈ s.toList, isNumeral c = true := by
  have hint : parseInt s = some n := (Option.filter_eq_some_iff.mp h).1
  have hsign : ∀ {sign : Char} {l : List Char}, isNumeral sign = true →
      (∀ c ∈ l, isNumeral c = true) → ∀ c ∈ sign :: l, isNumeral c = true :=
    fun hsign hl => List.forall_mem_cons.mpr ⟨hsign, hl⟩
  by_cases hminus : ∃ l, s.toList = '-' :: l
  · obtain ⟨l, hl⟩ := hminus
    rw [parseInt_minus hl] at hint
    obtain ⟨k, hk, -⟩ := Option.map_eq_some_iff.mp hint
    rw [hl]
    exact hsign (by decide) (numerals_of_digitsOf hk)
  by_cases hplus : ∃ l, s.toList = '+' :: l
  · obtain ⟨l, hl⟩ := hplus
    rw [parseInt_plus hl] at hint
    obtain ⟨k, hk, -⟩ := Option.map_eq_some_iff.mp hint
    rw [hl]
    exact hsign (by decide) (numerals_of_digitsOf hk)
  · rw [parseInt_digits (not_exists.mp hminus) (not_exists.mp hplus)] at hint
    obtain ⟨k, hk, -⟩ := Option.map_eq_some_iff.mp hint
    exact numerals_of_digitsOf hk

theorem numerals_toDigits (n : ℕ) : ∀ c ∈ Nat.toDigits 10 n, isNumeral c = true :=
  numerals_of_digitsOf (digitsOf_toDigits n)

theorem toList_toString_ofNat (n : ℕ) : (toString (Int.ofNat n)).toList = Nat.toDigits 10 n :=
  Nat.toList_repr

theorem toList_toString_negSucc (n : ℕ) :
    (toString (Int.negSucc n)).toList = '-' :: Nat.toDigits 10 (n + 1) := by
  change ("-" ++ (n + 1).repr).toList = _
  rw [String.toList_append, Nat.toList_repr]
  rfl

theorem numerals_toString (n : ℤ) : ∀ c ∈ (toString n).toList, isNumeral c = true := by
  cases n with
  | ofNat n => exact toList_toString_ofNat n ▸ numerals_toDigits n
  | negSucc n =>
      rw [toList_toString_negSucc]
      exact List.forall_mem_cons.mpr ⟨by decide, numerals_toDigits (n + 1)⟩

/-- A printed integer is read as the same. -/
theorem parseInt_toString (n : ℤ) : parseInt (toString n) = some n := by
  cases n with
  | ofNat n =>
      have hdigit : ∀ {c l}, Nat.toDigits 10 n = c :: l → c.isDigit = true := fun heq =>
        Nat.isDigit_of_mem_toDigits (by decide) (by decide) (heq ▸ List.mem_cons_self)
      have hnot : ∀ c : Char, c.isDigit = false →
          ∀ l, (toString (Int.ofNat n)).toList ≠ c :: l := by
        intro c hc l heq
        rw [toList_toString_ofNat] at heq
        exact Bool.false_ne_true (hc.symm.trans (hdigit heq))
      rw [parseInt_digits (hnot '-' (by decide)) (hnot '+' (by decide)), toList_toString_ofNat,
        digitsOf_toDigits]
      rfl
  | negSucc n =>
      rw [parseInt_minus (toList_toString_negSucc n), digitsOf_toDigits]
      rfl

/-- A value as it is printed: alike its text, and read as the same value. -/
theorem parseValue_spec {y : List Char} (hy : layout.trim y = y) :
    Alike (valueText (parseValue y)).toList y ∧
      parseValue (valueText (parseValue y)).toList = parseValue y ∧
      layout.trim (valueText (parseValue y)).toList = (valueText (parseValue y)).toList := by
  have hsame : (valueText (parseValue y)).toList = y →
      Alike (valueText (parseValue y)).toList y ∧
        parseValue (valueText (parseValue y)).toList = parseValue y ∧
        layout.trim (valueText (parseValue y)).toList = (valueText (parseValue y)).toList := by
    intro heq
    rw [heq]
    exact ⟨Alike.refl y, rfl, hy⟩
  by_cases htrue : y = "true".toList
  · exact hsame (by rw [htrue]; decide)
  by_cases hfalse : y = "false".toList
  · exact hsame (by rw [hfalse]; decide)
  cases hint : parseI64 (String.ofList y) with
  | none =>
      refine hsame ?_
      simp only [parseValue, if_neg htrue, if_neg hfalse, hint, valueText, String.toList_ofList]
  | some n =>
      have hvalue : parseValue y = .integer n := by
        simp only [parseValue, if_neg htrue, if_neg hfalse, hint]
      have hrange := (Option.filter_eq_some_iff.mp hint).2
      have hy' : ∀ c ∈ y, isNumeral c = true := fun c hc =>
        numerals_of_parseI64 hint c (by rwa [String.toList_ofList])
      rw [hvalue, valueText]
      refine ⟨alike_numerals (numerals_toString n) hy', ?_, trim_numerals (numerals_toString n)⟩
      have hnot : ∀ {w : String} {c : Char}, c ∈ w.toList → isNumeral c = false →
          (toString n).toList ≠ w.toList := by
        intro w c hc hother heq
        exact Bool.false_ne_true (hother.symm.trans (numerals_toString n c (heq ▸ hc)))
      have hagain : parseI64 (String.ofList (toString n).toList) = some n := by
        rw [String.ofList_toList, parseI64, parseInt_toString]
        exact Option.filter_eq_some_iff.mpr ⟨rfl, hrange⟩
      have hnottrue : (toString n).toList ≠ "true".toList :=
        @hnot "true" 't' (by decide) (by decide)
      have hnotfalse : (toString n).toList ≠ "false".toList :=
        @hnot "false" 'f' (by decide) (by decide)
      simp only [parseValue, if_neg hnottrue, if_neg hnotfalse, hagain]

end Values

section Items

/-- What a part says. -/
inductive Item
  | name (n : String)
  | arg (k : String) (v : Value)

def Item.text : Item → List Char
  | .name n => n.toList
  | .arg k v => k.toList ++ '=' :: (valueText v).toList

def Item.key : Item → Option String
  | .name _ => none
  | .arg k _ => some k

def itemOf (part : List Char) : Item :=
  if '=' ∈ part then
    .arg (String.ofList (layout.trim (part.takeWhile (· ≠ '='))))
      (parseValue (layout.trim (part.dropWhile (· ≠ '=')).tail))
  else .name (String.ofList part)

def items (s : Option String × OrdMap String Value) : List Item :=
  s.1.toList.map .name ++ s.2.entries.map fun e => .arg e.1 e.2

theorem mem_trim {c : Char} {s : List Char} (h : c ∈ layout.trim s) : c ∈ s := by
  obtain ⟨front, back, hs, -, -⟩ := Layout.exists_trim (m := layout) s
  rw [hs]
  simp [h]

theorem itemOf_append {k y : List Char} (h : '=' ∉ k) : itemOf (k ++ '=' :: y) =
    .arg (String.ofList (layout.trim k)) (parseValue (layout.trim y)) := by
  obtain ⟨hkey, hvalue⟩ := split_append y h
  rw [itemOf, if_pos (by simp), hkey, hvalue]

theorem trim_pair {k y : List Char} (hk : layout.trim k = k) (hy : layout.trim y = y) :
    layout.trim (k ++ '=' :: y) = k ++ '=' :: y := by
  refine Layout.trim_eq_self (fun c hc => ?_) fun c hc => ?_
  · cases k with
    | nil =>
        cases hc
        rfl
    | cons x k =>
        exact Layout.blank_head_trim (m := layout) (s := x :: k) (by rw [hk]; exact hc)
  · cases hlast : y.getLast? with
    | none =>
        rw [List.getLast?_eq_none_iff.mp hlast, List.getLast?_concat] at hc
        cases hc
        rfl
    | some x =>
        rw [List.getLast?_append, List.getLast?_cons, hlast] at hc
        cases hc
        exact Layout.blank_getLast_trim (m := layout) (s := y) (by rw [hy]; exact hlast)

/-- An item is alike the part that says it, and its text says the same. -/
theorem itemOf_spec {part : List Char} (hpart : layout.trim part = part) (hne : part ≠ []) :
    Alike (itemOf part).text part ∧ itemOf (itemOf part).text = itemOf part ∧
      layout.trim (itemOf part).text = (itemOf part).text ∧ (itemOf part).text ≠ [] := by
  by_cases heq : '=' ∈ part
  · obtain ⟨k, y, hsplit, hk⟩ : ∃ k y, part = k ++ '=' :: y ∧ '=' ∉ k :=
      ⟨_, _, split_first heq, fun h => by simpa using List.mem_takeWhile_imp h⟩
    have hk' : '=' ∉ layout.trim k := fun h => hk (mem_trim h)
    obtain ⟨halike, hagain, htrim⟩ := parseValue_spec (Layout.trim_trim (m := layout) y)
    rw [hsplit, itemOf_append hk, Item.text, String.toList_ofList]
    refine ⟨?_, ?_, trim_pair ?_ htrim, by simp⟩
    · exact (alike_trim k).append ((Alike.refl ['=']).append (halike.trans (alike_trim y)))
    · rw [itemOf_append hk', Layout.trim_trim, htrim, hagain]
    · exact Layout.trim_trim k
  · rw [itemOf, if_neg heq, Item.text, String.toList_ofList]
    exact ⟨Alike.refl part, by rw [itemOf, if_neg heq], hpart, hne⟩

theorem parsePart_eq {part : List Char} (hpart : layout.trim part = part) (i : ℕ)
    (s : Option String × OrdMap String Value) : parsePart s (part, i) =
      if part = [] then .ok s
      else match itemOf part with
        | .arg k v => .ok (s.1, s.2.insert k v)
        | .name n => if i = 0 then .ok (some n, s.2)
            else .error s!"expected key=value, got {String.ofList part}" := by
  unfold parsePart itemOf
  simp only [hpart]
  split_ifs <;> rfl

end Items

section Runs

/-- Of the items with one key the last. -/
def lastItems : List Item → List Item
  | [] => []
  | it :: rest => if it.key ∈ rest.map Item.key then lastItems rest else it :: lastItems rest

theorem lastItems_sublist : ∀ its : List Item, (lastItems its).Sublist its
  | [] => List.Sublist.slnil
  | it :: rest => by
      rw [lastItems]
      split_ifs
      · exact (lastItems_sublist rest).cons it
      · exact (lastItems_sublist rest).cons_cons it

theorem lastItems_concat (its : List Item) (it : Item) :
    ∃ kept, kept.Sublist its ∧ lastItems (its ++ [it]) = kept ++ [it] := by
  induction its with
  | nil => exact ⟨[], List.Sublist.slnil, rfl⟩
  | cons first its ih =>
      obtain ⟨kept, hsub, hlast⟩ := ih
      rw [List.cons_append, lastItems]
      split_ifs
      · exact ⟨kept, hsub.cons first, hlast⟩
      · exact ⟨first :: kept, hsub.cons_cons first, by rw [hlast]; rfl⟩

theorem perm_items_insert (name : Option String) (a : OrdMap String Value) (k : String)
    (v : Value) : (items (name, a.insert k v)).Perm
      (.arg k v :: (items (name, a)).filter (·.key ≠ some k)) := by
  have hnames : (name.toList.map Item.name).filter (fun it => it.key ≠ some k) =
      name.toList.map Item.name := by
    refine List.filter_eq_self.mpr fun it hit => ?_
    obtain ⟨n, -, rfl⟩ := List.mem_map.mp hit
    simp [Item.key]
  have hargs : ((a.entries.map fun e => Item.arg e.1 e.2).filter fun it => it.key ≠ some k) =
      (a.entries.filter (·.1 ≠ k)).map fun e => .arg e.1 e.2 := by
    rw [List.filter_map]
    congr 1
    refine List.filter_congr fun e _ => ?_
    simp [Item.key]
  rw [items, items, List.filter_append, hnames, hargs]
  exact ((a.perm_insert k v).map fun e => Item.arg e.1 e.2).append_left _ |>.trans
    List.perm_middle

/-- What the parts say that are not blank. -/
def said (parts : List (List Char)) : List Item := (parts.filter (· ≠ [])).map itemOf

theorem filter_drop {it : Item} {keys : List (Option String)} {l : List Item}
    (h : it.key ∈ keys) :
    (it :: l).filter (·.key ∉ keys) = l.filter (·.key ∉ keys) := by simp [h]

theorem filter_keep {it : Item} {keys : List (Option String)} {l : List Item}
    (h : it.key ∉ keys) :
    (it :: l).filter (·.key ∉ keys) = it :: l.filter (·.key ∉ keys) := by simp [h]

/-- The items that are read are those of the parts, of each key the last. -/
theorem items_of_foldlM : ∀ (parts : List (List Char)) (i : ℕ)
    (s s' : Option String × OrdMap String Value), (∀ part ∈ parts, layout.trim part = part) →
    (s.1 = none ∨ 0 < i) → (parts.zipIdx i).foldlM parsePart s = .ok s' →
      (items s').Perm ((items s).filter (·.key ∉ (said parts).map Item.key) ++
        lastItems (said parts)) ∧ (0 < i → none ∉ (said parts).map Item.key)
  | [], _, s, s', _, _, h => by
      cases h
      exact ⟨by simp [said, lastItems], by simp [said]⟩
  | part :: parts, i, s, s', htrim, hfirst, h => by
      have hrest := fun p hp => htrim p (List.mem_cons_of_mem part hp)
      rw [List.zipIdx_cons, List.foldlM_cons, parsePart_eq (htrim part List.mem_cons_self)] at h
      by_cases hnil : part = []
      · have hsaid : said (part :: parts) = said parts := by simp [said, hnil]
        rw [if_pos hnil] at h
        obtain ⟨hperm, hnone⟩ := items_of_foldlM parts (i + 1) s s' hrest
          (Or.inr (Nat.succ_pos i)) h
        rw [hsaid]
        exact ⟨hperm, fun _ => hnone (Nat.succ_pos i)⟩
      · have hsaid : said (part :: parts) = itemOf part :: said parts := by simp [said, hnil]
        rw [if_neg hnil] at h
        rw [hsaid, List.map_cons, lastItems]
        cases hitem : itemOf part with
        | arg k v =>
            simp only [hitem] at h
            obtain ⟨hperm, hnone⟩ := items_of_foldlM parts (i + 1) (s.1, s.2.insert k v) s' hrest
              (Or.inr (Nat.succ_pos i)) h
            generalize hkeys : (said parts).map Item.key = keys at hperm hnone
            have hboth : ((items s).filter (·.key ≠ some k)).filter (·.key ∉ keys) =
                (items s).filter (·.key ∉ some k :: keys) := by
              rw [List.filter_filter]
              exact List.filter_congr fun it _ => by simp [Bool.and_comm]
            have hinsert := (perm_items_insert s.1 s.2 k v).filter (·.key ∉ keys)
            refine ⟨hperm.trans ((hinsert.append_right _).trans ?_), fun _ hmem => ?_⟩
            · by_cases hk : some k ∈ keys
              · rw [@filter_drop (.arg k v) _ _ hk, hboth,
                  if_pos (by simpa [Item.key, hkeys] using hk)]
                exact List.Perm.refl _
              · rw [@filter_keep (.arg k v) _ _ hk, hboth,
                  if_neg (by simpa [Item.key, hkeys] using hk)]
                exact List.perm_middle.symm
            · rcases List.mem_cons.mp hmem with heq | hmem
              · cases heq
              · exact hnone (Nat.succ_pos i) hmem
        | name n =>
            simp only [hitem] at h
            by_cases hi : i = 0
            · have hs : s = (none, s.2) := by
                rw [← hfirst.resolve_right (by omega)]
              rw [if_pos hi] at h
              obtain ⟨hperm, hnone⟩ := items_of_foldlM parts (i + 1) (some n, s.2) s' hrest
                (Or.inr (Nat.succ_pos i)) h
              generalize hkeys : (said parts).map Item.key = keys at hperm hnone
              have hfree := hnone (Nat.succ_pos i)
              have hitems : items (some n, s.2) = .name n :: items s := by
                rw [hs]
                rfl
              have hkeep : (items s).filter (·.key ∉ keys) =
                  (items s).filter (·.key ∉ none :: keys) := by
                rw [hs]
                refine List.filter_congr fun it hit => ?_
                obtain ⟨e, -, rfl⟩ := List.mem_map.mp hit
                exact decide_eq_decide.mpr (by simp [Item.key])
              rw [hitems, @filter_keep (.name n) _ _ hfree, hkeep] at hperm
              refine ⟨?_, fun hpos => absurd hpos (by omega)⟩
              rw [if_neg (by simpa [Item.key, hkeys] using hfree)]
              exact hperm.trans List.perm_middle.symm
            · rw [if_neg hi] at h
              cases h

end Runs

section Parts

/-- A blank piece says nothing, so the parts may as well be the pieces. -/
theorem parseParts_eq (inner : List Char) :
    parseParts inner = (pieceTexts inner).zipIdx.foldlM parsePart (none, ∅) := by
  rcases splitTop_cases inner with ⟨h, -⟩ | h
  · rw [parseParts, h]
  · have hblank : ∀ i s, parsePart s ([], i) = .ok s := fun i s =>
      (parsePart_eq (Layout.trim_of_blank fun _ hx => absurd hx List.not_mem_nil) i s).trans
        (if_pos rfl)
    rw [parseParts, h, List.zipIdx_append, List.foldlM_append]
    cases (splitTop inner).zipIdx.foldlM parsePart (none, ∅) with
    | error e => rfl
    | ok s =>
        have hstep := hblank (0 + (splitTop inner).length) s
        simp only [List.zipIdx_cons, List.zipIdx_nil, List.foldlM_cons, List.foldlM_nil]
        change Except.ok s = parsePart s ([], 0 + (splitTop inner).length) >>= pure
        rw [hstep]
        rfl

theorem trim_of_mem_pieceTexts {inner part : List Char} (h : part ∈ pieceTexts inner) :
    layout.trim part = part := by
  obtain ⟨piece, -, rfl⟩ := List.mem_map.mp h
  exact Layout.trim_trim piece

variable {inner : List Char} {s : Option String × OrdMap String Value}
  (h : parseParts inner = .ok s)
include h

theorem items_perm : (items s).Perm (lastItems (said (pieceTexts inner))) := by
  rw [parseParts_eq] at h
  exact (items_of_foldlM _ 0 _ _ (fun _ => trim_of_mem_pieceTexts) (Or.inl rfl) h).1

theorem mem_said {it : Item} (hit : it ∈ items s) : it ∈ said (pieceTexts inner) :=
  (lastItems_sublist _).subset ((items_perm h).mem_iff.mp hit)

/-- Each item is that of a piece. -/
theorem exists_part {it : Item} (hit : it ∈ items s) :
    ∃ part ∈ pieceTexts inner, part ≠ [] ∧ itemOf part = it := by
  obtain ⟨part, hpart, rfl⟩ := List.mem_map.mp (mem_said h hit)
  obtain ⟨hmem, hne⟩ := List.mem_filter.mp hpart
  exact ⟨part, hmem, of_decide_eq_true hne, rfl⟩

theorem exists_piece {it : Item} (hit : it ∈ items s) :
    ∃ piece ∈ layout.pieces inner, Alike it.text piece := by
  obtain ⟨part, hpart, hne, rfl⟩ := exists_part h hit
  obtain ⟨piece, hpiece, rfl⟩ := List.mem_map.mp hpart
  exact ⟨piece, hpiece, (itemOf_spec (Layout.trim_trim piece) hne).1.trans (alike_trim piece)⟩

/-- An item's text is read as the item. -/
theorem item_again {it : Item} (hit : it ∈ items s) :
    itemOf it.text = it ∧ layout.trim it.text = it.text ∧ it.text ≠ [] := by
  obtain ⟨part, hpart, hne, rfl⟩ := exists_part h hit
  exact (itemOf_spec (trim_of_mem_pieceTexts hpart) hne).2

theorem free_item {it : Item} (hit : it ∈ items s) : ¬ layout.SepAt 0 it.text := by
  obtain ⟨piece, hpiece, halike⟩ := exists_piece h hit
  exact fun hsep => Layout.not_sepAt_of_mem_pieces hpiece ((halike.sepAt 0).mp hsep)

/-- Only the first piece can be a name. -/
theorem none_notMem_tail : none ∉ (said (pieceTexts inner).tail).map Item.key := by
  rw [parseParts_eq] at h
  have htrim : ∀ part ∈ pieceTexts inner, layout.trim part = part :=
    fun _ => trim_of_mem_pieceTexts
  cases hparts : pieceTexts inner with
  | nil => simp [said]
  | cons part parts =>
      rw [hparts, List.zipIdx_cons, List.foldlM_cons] at h
      rw [hparts] at htrim
      cases hstep : parsePart (none, ∅) (part, 0) with
      | error e =>
          rw [hstep] at h
          cases h
      | ok s' =>
          rw [hstep] at h
          exact (items_of_foldlM parts 1 s' s (fun p hp => htrim p (List.mem_cons_of_mem _ hp))
            (Or.inr Nat.one_pos) h).2 Nat.one_pos

end Parts

section Sizes

variable {inner : List Char} {s : Option String × OrdMap String Value}

theorem sum_said (parts : List (List Char)) (htrim : ∀ part ∈ parts, layout.trim part = part) :
    ((said parts).map fun it => layout.size it.text + 1).sum =
      ((parts.filter (· ≠ [])).map fun part => layout.size part + 1).sum := by
  rw [said, List.map_map]
  congr 1
  refine List.map_congr_left fun part hpart => ?_
  obtain ⟨hmem, hne⟩ := List.mem_filter.mp hpart
  have hsize := (itemOf_spec (htrim part hmem) (of_decide_eq_true hne)).1.size
  simp only [Function.comp_apply, hsize]

theorem sum_pieceTexts (inner : List Char) :
    ((pieceTexts inner).map fun part => layout.size part + 1).sum = layout.size inner + 1 := by
  obtain ⟨a, l, heq⟩ := Layout.exists_piecesFrom (m := layout) 0 inner
  have hjoin := Layout.size_join (m := layout) (l := layout.pieces inner) (by
    rw [Layout.pieces, heq]
    exact List.cons_ne_nil a l)
  rw [Layout.pieces, Layout.join_piecesFrom] at hjoin
  rw [hjoin, pieceTexts, List.map_map, Layout.pieces]
  congr 1
  exact List.map_congr_left fun piece _ => by simp

/-- What is read says no more than the text. -/
theorem size_items_le (h : parseParts inner = .ok s) :
    ((items s).map fun it => layout.size it.text + 1).sum ≤ layout.size inner + 1 := by
  rw [((items_perm h).map _).sum_eq, ← sum_pieceTexts]
  refine (sum_le_of_sublist (lastItems_sublist _)).trans ?_
  rw [sum_said _ fun _ => trim_of_mem_pieceTexts]
  exact sum_le_of_sublist List.filter_sublist

/-- What is read of a text and says as much as it has an item for each piece. -/
theorem itemOf_mem_items (h : parseParts inner = .ok s) (hsize : layout.size inner + 1 ≤
      ((items s).map fun it => layout.size it.text + 1).sum) {part : List Char}
    (hpart : part ∈ pieceTexts inner) : itemOf part ∈ items s := by
  have hsaid := sum_said (pieceTexts inner) fun _ => trim_of_mem_pieceTexts
  have hlast := sum_le_of_sublist (f := fun it : Item => layout.size it.text + 1)
    (lastItems_sublist (said (pieceTexts inner)))
  rw [((items_perm h).map _).sum_eq, ← sum_pieceTexts] at hsize
  have hfilter : (pieceTexts inner).filter (· ≠ []) = pieceTexts inner :=
    eq_of_sublist_of_sum (fun part => Nat.succ_pos (layout.size part)) List.filter_sublist
      (hsize.trans (hlast.trans hsaid.le))
  have hkept : lastItems (said (pieceTexts inner)) = said (pieceTexts inner) :=
    eq_of_sublist_of_sum (fun it => Nat.succ_pos (layout.size it.text)) (lastItems_sublist _)
      (by rw [hsaid, hfilter]; exact hsize)
  rw [(items_perm h).mem_iff, hkept, said, hfilter]
  exact List.mem_map_of_mem hpart

end Sizes

end Tessra.Oplog.Standard
