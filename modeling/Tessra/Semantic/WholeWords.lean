import Tessra.Data.Words
import Tessra.Redb.Records
import Tessra.Semantic.Matching

namespace Tessra.Semantic.Rename

open Tessra.Core Tessra.Data.Words
open Tessra.Redb (utf8 utf8_injective)

/-! A rename in a text without a grammar: whole words that are the identifier. -/

section Model

def identByte (b : Byte) : Bool :=
  (48 ≤ b.val && b.val ≤ 57) || (65 ≤ b.val && b.val ≤ 90) || b.val = 95 ||
    (97 ≤ b.val && b.val ≤ 122)

/-- The identifier stands at a position of the text, with no byte of one before or after. -/
def identAt (text ident : Bytes) (i : ℕ) : Bool :=
  (text.drop i).take ident.length = ident &&
    (i = 0 || !text[i - 1]?.any identByte) &&
    (i + ident.length = text.length || !text[i + ident.length]?.any identByte)

def findIdent (text ident : Bytes) (start : ℕ) : Option ℕ :=
  if ident = [] ∨ text.length < ident.length then none
  else (List.range' start (text.length + 1 - ident.length - start)).find? (identAt text ident)

def containsIdent (text : Bytes) (ident : String) : Bool := (findIdent text (utf8 ident) 0).isSome

/-- The loop of `replaceIdent`: what is written so far, where the last word ended, and where
the next one begins. -/
def replaceFrom (text f t : Bytes) : ℕ → Bytes → ℕ → ℕ → Bytes
  | 0, out, last, _ => out ++ text.drop last
  | fuel + 1, out, last, pos =>
      let out := out ++ (text.drop last).take (pos - last) ++ t
      let last := pos + f.length
      match findIdent text f last with
      | some p => replaceFrom text f t fuel out last p
      | none => out ++ text.drop last

def replaceIdent (text : Bytes) (source target : String) : Option Bytes :=
  (findIdent text (utf8 source) 0).map
    (replaceFrom text (utf8 source) (utf8 target) (text.length + 1) [] 0)

end Model

section Identifiers

theorem utf8_eq (s : String) :
    utf8 s = (s.toList.flatMap String.utf8EncodeChar).map UInt8.toFin := by
  rw [utf8, ← String.utf8Encode_toList, List.utf8Encode, List.data_toByteArray]

theorem utf8EncodeChar_ascii {c : Char} (h : c.toNat < 128) :
    String.utf8EncodeChar c = [c.val.toUInt8] := by
  have hval : c.val ≤ 127 := UInt32.le_iff_toNat_le.mpr (Nat.le_of_lt_succ h)
  exact String.utf8EncodeChar_eq_singleton (by simp [Char.utf8Size, hval])

theorem identChar_range {c : Char} (h : (c.isAlphanum || decide (c = '_')) = true) :
    (48 ≤ c.toNat ∧ c.toNat ≤ 57) ∨ (65 ≤ c.toNat ∧ c.toNat ≤ 90) ∨ c.toNat = 95 ∨
      (97 ≤ c.toNat ∧ c.toNat ≤ 122) := by
  simp only [Char.isAlphanum, Char.isAlpha, Char.isUpper, Char.isLower, Char.isDigit,
    Bool.or_eq_true, Bool.and_eq_true, decide_eq_true_eq, ge_iff_le] at h
  rcases h with ((hupper | hlower) | hdigit) | rfl
  · exact Or.inr (Or.inl hupper)
  · exact Or.inr (Or.inr (Or.inr hlower))
  · exact Or.inl hdigit
  · exact Or.inr (Or.inr (Or.inl rfl))

theorem identChars {s : String} (h : isIdent s = true) :
    s.toList ≠ [] ∧ ∀ c ∈ s.toList, (c.isAlphanum || decide (c = '_')) = true := by
  unfold isIdent at h
  split at h
  · cases h
  · rename_i c rest heq
    rw [heq]
    exact ⟨List.cons_ne_nil c rest, List.all_eq_true.mp (Bool.and_eq_true_iff.mp h).2⟩

theorem flatMap_ascii : ∀ {l : List Char}, (∀ c ∈ l, c.toNat < 128) →
    l.flatMap String.utf8EncodeChar = l.map fun c => c.val.toUInt8
  | [], _ => rfl
  | c :: l, h => by
      rw [List.flatMap_cons, utf8EncodeChar_ascii (h c List.mem_cons_self),
        flatMap_ascii fun d hd => h d (List.mem_cons_of_mem c hd)]
      rfl

/-- The bytes of an identifier are a word. -/
theorem isWord_utf8 {s : String} (h : isIdent s = true) : IsWord identByte (utf8 s) := by
  obtain ⟨hne, hall⟩ := identChars h
  have hascii : ∀ c ∈ s.toList, c.toNat < 128 := fun c hc => by
    have hrange := identChar_range (hall c hc)
    omega
  rw [utf8_eq, flatMap_ascii hascii, List.map_map]
  constructor
  · simpa using hne
  · refine List.forall_mem_map.mpr fun c hc => ?_
    have hrange := identChar_range (hall c hc)
    have hval : (UInt8.toFin c.val.toUInt8).val = c.toNat :=
      (UInt32.toNat_toUInt8 c.val).trans (Nat.mod_eq_of_lt ((hascii c hc).trans (by decide)))
    simp only [Function.comp_apply, identByte, hval, Bool.or_eq_true, Bool.and_eq_true,
      decide_eq_true_eq]
    omega

end Identifiers

section Finding

variable {text f a b : Bytes} {start i : ℕ}

theorem identAt_iff : identAt text f i = true ∧ i + f.length ≤ text.length ↔
    ∃ a b, Occurs identByte f text a b ∧ a.length = i := by
  constructor
  · rintro ⟨hat, hle⟩
    simp only [identAt, Bool.and_eq_true, decide_eq_true_eq] at hat
    obtain ⟨⟨hslice, hbefore⟩, hafter⟩ := hat
    have hlength : (text.take i).length = i := by
      rw [List.length_take]
      omega
    refine ⟨text.take i, text.drop (i + f.length), ⟨?_, fun x hx => ?_, fun x hx => ?_⟩, hlength⟩
    · rw [← List.drop_drop, List.append_assoc]
      conv_lhs => rw [← List.take_append_drop i text]
      congr 1
      conv_lhs => rw [← List.take_append_drop f.length (text.drop i), hslice]
    · rw [List.getLast?_take] at hx
      split_ifs at hx with hzero
      · cases hx
      have hlt : i - 1 < text.length := by omega
      rw [List.getElem?_eq_getElem hlt] at hx hbefore
      cases hx
      simpa [hzero] using hbefore
    · rw [List.head?_drop] at hx
      have hlt := (List.getElem?_eq_some_iff.mp hx).1
      rw [hx] at hafter
      simpa [hlt.ne] using hafter
  · rintro ⟨a, b, ⟨rfl, hbefore, hafter⟩, rfl⟩
    refine ⟨?_, by simp⟩
    simp only [identAt, Bool.and_eq_true, decide_eq_true_eq]
    refine ⟨⟨by simp, ?_⟩, ?_⟩
    · rcases List.eq_nil_or_concat' a with rfl | ⟨a, x, rfl⟩
      · simp
      · have hx := hbefore x (by simp)
        simp [hx]
    · cases b with
      | nil => simp
      | cons x b =>
          have hx := hafter x rfl
          simp [hx]

theorem mem_range_findIdent : i ∈ List.range' start (text.length + 1 - f.length - start) ↔
    start ≤ i ∧ i + f.length ≤ text.length := by
  rw [List.mem_range'_1]
  omega

/-- What is found is the first place of the word from some position on. -/
theorem findIdent_eq_some (h : findIdent text f start = some i) :
    (∃ a b, Occurs identByte f text a b ∧ a.length = i) ∧ start ≤ i ∧
      ∀ a b, Occurs identByte f text a b → start ≤ a.length → i ≤ a.length := by
  unfold findIdent at h
  split_ifs at h with hshort
  obtain ⟨hat, hmem, hfirst⟩ := List.find?_range'_eq_some.mp h
  obtain ⟨hstart, hin⟩ := mem_range_findIdent.mp hmem
  refine ⟨identAt_iff.mp ⟨hat, hin⟩, hstart, fun a b hoccurs hstart => ?_⟩
  by_contra hlt
  have hnot := hfirst a.length hstart (Nat.lt_of_not_le hlt)
  rw [(identAt_iff.mpr ⟨a, b, hoccurs, rfl⟩).1] at hnot
  cases hnot

theorem findIdent_eq_none (hf : f ≠ []) (h : findIdent text f start = none)
    (hoccurs : Occurs identByte f text a b) : a.length < start := by
  obtain ⟨hat, hin⟩ := identAt_iff.mpr ⟨a, b, hoccurs, rfl⟩
  unfold findIdent at h
  split_ifs at h with hshort
  · rcases hshort with hnil | hshort
    · exact absurd hnil hf
    · omega
  · by_contra hle
    have hmem := mem_range_findIdent.mpr ⟨Nat.le_of_not_lt hle, hin⟩
    exact List.find?_eq_none.mp h a.length hmem hat

end Finding

section Loop

variable {text f t a b c s : Bytes} {pos : ℕ}

/-- The text may be cut here: no word goes on. -/
def Edge (a s : Bytes) : Prop := a = [] ∨ ∀ x ∈ s.head?, identByte x = false

variable (hf : IsWord identByte f)
include hf

theorem Occurs.append (h : Occurs identByte f s c b) (hedge : Edge a s) :
    Occurs identByte f (a ++ s) (a ++ c) b where
  split := by rw [h.split, List.append_assoc, List.append_assoc, List.append_assoc]
  before := by
    rcases List.eq_nil_or_concat' c with rfl | ⟨c, x, rfl⟩
    · rcases hedge with rfl | hedge
      · simp
      · obtain ⟨x, rest, hcons⟩ := List.exists_cons_of_ne_nil hf.nonempty
        have hx := hf.all x (hcons ▸ List.mem_cons_self)
        have hnot := hedge x (by rw [h.split, hcons]; rfl)
        exact absurd (hnot.symm.trans hx) Bool.false_ne_true
    · have hlast := h.before
      rw [List.getLast?_concat] at hlast
      rwa [← List.append_assoc, List.getLast?_concat]
  after := h.after

/-- The word is not in what comes before its first place. -/
theorem Occurs.first (h : Occurs identByte f s c b)
    (hfirst : ∀ c' b', Occurs identByte f s c' b' → c.length ≤ c'.length) :
    f ∉ tokens identByte c := by
  rw [mem_tokens hf]
  rintro ⟨c₁, c₂, hsplit, hbefore, hafter⟩
  have hearly : Occurs identByte f s c₁ (c₂ ++ f ++ b) := by
    refine ⟨?_, hbefore, ?_⟩
    · rw [h.split, hsplit]
      simp
    · cases c₂ with
      | nil =>
          obtain ⟨x, hx, hword⟩ := hf.last
          have hnot := h.before x (by
            rw [hsplit, List.append_nil, List.getLast?_append_of_ne_nil _ hf.nonempty]
            exact hx)
          exact absurd (hnot.symm.trans hword) Bool.false_ne_true
      | cons x c₂ => exact hafter
  have hle := hfirst _ _ hearly
  have hpos := List.length_pos_iff.mpr hf.nonempty
  rw [hsplit, List.length_append, List.length_append] at hle
  omega

theorem findIdent_append_none (hedge : Edge a s) (h : findIdent (a ++ s) f a.length = none) :
    f ∉ tokens identByte s := by
  rw [mem_tokens hf]
  rintro ⟨c, b, hoccurs⟩
  have hlt := findIdent_eq_none hf.nonempty h (Occurs.append hf hoccurs hedge)
  rw [List.length_append] at hlt
  omega

theorem findIdent_append_some (hedge : Edge a s) (h : findIdent (a ++ s) f a.length = some pos) :
    ∃ c b, Occurs identByte f s c b ∧ pos = a.length + c.length ∧ f ∉ tokens identByte c := by
  obtain ⟨⟨a', b, hoccurs, rfl⟩, hstart, hfirst⟩ := findIdent_eq_some h
  obtain ⟨c, rfl⟩ : ∃ c, a' = a ++ c := by
    have hprefix : a <+: a' := List.prefix_of_prefix_length_le (List.prefix_append a s)
      ⟨f ++ b, by rw [hoccurs.split, List.append_assoc]⟩ hstart
    exact ⟨_, hprefix.choose_spec.symm⟩
  have hs : Occurs identByte f s c b := by
    refine ⟨(List.append_right_inj a).mp ?_, fun x hx => hoccurs.before x ?_, hoccurs.after⟩
    · rw [hoccurs.split, List.append_assoc, List.append_assoc, List.append_assoc]
    · rw [List.getLast?_append, Option.mem_def.mp hx]
      rfl
  refine ⟨c, b, hs, List.length_append, Occurs.first hf hs fun c' b' hoccurs' => ?_⟩
  have hle := hfirst _ _ (Occurs.append hf hoccurs' hedge) (by simp)
  rw [List.length_append, List.length_append] at hle
  omega

/-- The loop writes what is left of the text with one word for the other. -/
theorem replaceFrom_eq {fuel : ℕ} (hfuel : s.length < fuel) (hedge : Edge a s)
    (h : findIdent (a ++ s) f a.length = some pos) (out : Bytes) :
    replaceFrom (a ++ s) f t fuel out a.length pos =
      out ++ replace identByte f t s := by
  induction fuel generalizing a s pos out with
  | zero => exact absurd hfuel (Nat.not_lt_zero _)
  | succ fuel ih =>
      obtain ⟨c, b, hoccurs, rfl, hfirst⟩ := findIdent_append_some hf hedge h
      have hsplit := hoccurs.split
      have hnext : a ++ s = (a ++ c ++ f) ++ b := by
        rw [hsplit, List.append_assoc, List.append_assoc, List.append_assoc]
      have hlength : a.length + c.length + f.length = (a ++ c ++ f).length := by
        rw [List.length_append, List.length_append]
      have hbefore : ((a ++ s).drop a.length).take (a.length + c.length - a.length) = c := by
        rw [List.drop_left, Nat.add_sub_cancel_left, hsplit, List.append_assoc, List.take_left]
      have hpos := List.length_pos_iff.mpr hf.nonempty
      have hshorter : b.length < fuel := by
        rw [hsplit, List.length_append, List.length_append] at hfuel
        omega
      rw [replaceFrom]
      simp only [hbefore]
      rw [hlength, hoccurs.replace_eq hf hfirst, hnext]
      cases hfound : findIdent ((a ++ c ++ f) ++ b) f (a ++ c ++ f).length with
      | none =>
          have hrest := findIdent_append_none hf (Or.inr hoccurs.after) hfound
          rw [replace_of_notMem hrest]
          change out ++ c ++ t ++ ((a ++ c ++ f) ++ b).drop (a ++ c ++ f).length = _
          rw [List.drop_left]
          simp only [List.append_assoc]
      | some pos =>
          change replaceFrom _ _ _ fuel (out ++ c ++ t) _ pos = _
          rw [ih hshorter (Or.inr hoccurs.after) hfound]
          simp only [List.append_assoc]

end Loop

section Results

variable {text : Bytes} {source target : String}

/-- A rename in a text puts one word for the other, if the word is there at all. -/
theorem replaceIdent_eq (hsource : isIdent source = true) : replaceIdent text source target =
    if utf8 source ∈ tokens identByte text then
      some (replace identByte (utf8 source) (utf8 target) text)
    else none := by
  have hf := isWord_utf8 hsource
  have hedge : Edge [] text := Or.inl rfl
  unfold replaceIdent
  cases hfound : findIdent text (utf8 source) 0 with
  | none =>
      have hnot := findIdent_append_none (a := []) hf hedge hfound
      rw [if_neg hnot]
      rfl
  | some pos =>
      have hloop := replaceFrom_eq (a := []) (t := utf8 target) hf (Nat.lt_succ_self _) hedge
        hfound []
      obtain ⟨c, b, hoccurs, -, -⟩ := findIdent_append_some (a := []) hf hedge hfound
      rw [if_pos ((mem_tokens hf).mpr ⟨c, b, hoccurs⟩)]
      exact congrArg some hloop

theorem containsIdent_iff (hsource : isIdent source = true) :
    containsIdent text source = true ↔ utf8 source ∈ tokens identByte text := by
  have heq : replaceIdent text source source = _ := replaceIdent_eq hsource
  have hsome : (replaceIdent text source source).isSome = containsIdent text source :=
    Option.isSome_map
  rw [← hsome, heq]
  split_ifs with hmem
  · exact iff_of_true rfl hmem
  · exact iff_of_false Bool.false_ne_true hmem

/-- A rename of whole words is exact, leaves none of them, and can be taken back if the new
name was not there. -/
theorem replaceIdent_exact (hsource : isIdent source = true) (htarget : isIdent target = true)
    (hne : source ≠ target) :
    (replaceIdent text source target = none ↔ utf8 source ∉ tokens identByte text) ∧
    ∀ out, replaceIdent text source target = some out →
      (out = ((tokens identByte text).map fun token =>
        if token = utf8 source then utf8 target else token).flatten ∧
      tokens identByte out = (tokens identByte text).map fun token =>
        if token = utf8 source then utf8 target else token) ∧
      utf8 source ∉ tokens identByte out ∧
      (utf8 target ∉ tokens identByte text → replaceIdent out target source = some text) := by
  have hf := isWord_utf8 hsource
  have ht := isWord_utf8 htarget
  rw [replaceIdent_eq hsource]
  constructor
  · split_ifs with hmem
    · exact iff_of_false (by simp) (not_not.mpr hmem)
    · exact iff_of_true rfl hmem
  · intro out hout
    split_ifs at hout with hmem
    obtain rfl := Option.some.inj hout
    have htokens := tokens_replace hf ht text
    refine ⟨⟨rfl, htokens⟩, ?_, fun hnew => ?_⟩
    · exact notMem_tokens_replace hf ht fun heq => hne (utf8_injective heq)
    · have hback : utf8 target ∈
          tokens identByte (replace identByte (utf8 source) (utf8 target) text) := by
        rw [htokens]
        exact List.mem_map.mpr ⟨utf8 source, hmem, if_pos rfl⟩
      rw [replaceIdent_eq htarget, if_pos hback, replace_replace hf ht hnew]

/-- A counter that is renamed. -/
theorem replaceIdent_exact_counter :
    isIdent "n" = true ∧ isIdent "count" = true ∧
    (replaceIdent (utf8 "n + n1") "n" "count" = none ↔
      utf8 "n" ∉ tokens identByte (utf8 "n + n1")) :=
  ⟨by decide, by decide, (replaceIdent_exact (by decide) (by decide) (by decide)).1⟩

end Results

end Tessra.Semantic.Rename
