import Tessra.Oplog.PredicatePrint

namespace Tessra.Oplog.Standard

open Tessra.Core Tessra.Data

/-! Which predicates are read again from what is printed of them. -/

section Survival

/-- The predicates that are printed as a text that says the same: no argument has the key of
the nested predicates, and what is printed before the last argument closes the parentheses it
opens. -/
inductive Survives : Predicate → Prop
  | plain {p : Predicate} (hkind : p.kind ∉ compoundKinds) (hpreds : arg p "preds" = none)
      (hitems : ∀ it ∈ (items (partsOf p)).dropLast, layout.balance it.text = 0) : Survives p
  | nested {p : Predicate} (hkind : p.kind ∈ compoundKinds) (hsubs : ∀ q ∈ subPreds p, Survives q) :
      Survives p

end Survival

section Texts

/-- The text of a predicate as it is printed. -/
def textOf (p : Predicate) : List Char := (describe p).toList

variable {kind inner : List Char} {d : ℤ}

theorem balance_shape : layout.balance (kind ++ '(' :: (inner ++ [')'])) =
    layout.balance kind + layout.balance inner := by
  have hopen : layout.weight '(' = 1 := rfl
  have hclose : layout.weight ')' = -1 := rfl
  simp only [Layout.balance_append, Layout.balance_cons, Layout.balance_nil, hopen, hclose]
  ring

theorem sepAt_shape : layout.SepAt d (kind ++ '(' :: (inner ++ [')'])) ↔
    layout.SepAt d kind ∨ layout.SepAt (d - layout.balance kind - 1) inner := by
  have hopen : layout.weight '(' = 1 := rfl
  have hnotopen : '(' ≠ layout.sep := by decide
  have hnotclose : ')' ≠ layout.sep := by decide
  rw [Layout.sepAt_append, Layout.sepAt_cons, Layout.sepAt_append, Layout.sepAt_cons, hopen]
  simp [hnotopen, hnotclose]

theorem size_shape : layout.size (kind ++ '(' :: (inner ++ [')'])) =
    layout.size kind + layout.size inner + 2 := by
  rw [Layout.size_append, Layout.size_cons rfl, Layout.size_append, Layout.size_cons rfl,
    Layout.size_nil]
  omega

theorem trim_shape (hkind : layout.trim kind = kind) :
    layout.trim (kind ++ '(' :: (inner ++ [')'])) = kind ++ '(' :: (inner ++ [')']) := by
  refine Layout.trim_eq_self (fun c hc => ?_) fun c hc => ?_
  · cases kind with
    | nil =>
        cases hc
        rfl
    | cons x k =>
        exact Layout.blank_head_trim (m := layout) (s := x :: k) (by rw [hkind]; exact hc)
  · rw [← List.cons_append, ← List.append_assoc, List.getLast?_concat] at hc
    cases hc
    rfl

end Texts

section Fuel

theorem mem_pieceTexts_of_mem_splitTop {s part : List Char} (h : part ∈ splitTop s) :
    part ∈ pieceTexts s := by
  rcases splitTop_cases s with ⟨heq, -⟩ | heq
  · exact heq ▸ h
  · rw [heq]
    exact List.mem_append_left _ h

theorem length_le_of_mem_splitTop {s part : List Char} (h : part ∈ splitTop s) :
    part.length ≤ s.length := by
  obtain ⟨piece, hpiece, rfl⟩ := List.mem_map.mp (mem_pieceTexts_of_mem_splitTop h)
  have hjoin := Layout.join_piecesFrom (m := layout) 0 s
  have hle := Layout.length_le_join (m := layout) hpiece
  rw [Layout.pieces, hjoin] at hle
  exact (Layout.length_trim_le piece).trans hle

theorem parseInner_congr {f g : List Char → Except String Predicate} {kind : String}
    {inner : List Char} (h : ∀ part ∈ splitTop inner, f part = g part) :
    parseInner f kind inner = parseInner g kind inner := by
  rw [parseInner, parseInner, mapM_congr h]

/-- More fuel than the text is long changes nothing. -/
theorem parsePredicateAt_fuel {n m : ℕ} {text : List Char} (hn : text.length < n)
    (hm : text.length < m) : parsePredicateAt n text = parsePredicateAt m text := by
  induction n generalizing m text with
  | zero => omega
  | succ n ih =>
      obtain ⟨m, rfl⟩ : ∃ k, m = k + 1 := ⟨m - 1, by omega⟩
      rw [parsePredicateAt, parsePredicateAt]
      split_ifs with hopen hclose
      · rfl
      · obtain ⟨kind, inner, htext, hkind⟩ := exists_shape_of hopen (not_not.mp hclose)
        refine parseInner_congr fun part hpart => ?_
        have hlength := length_le_of_mem_splitTop hpart
        have htrim := Layout.length_trim_le (m := layout) text
        rw [htext, (split_append _ hkind).2, List.dropLast_concat] at hlength
        rw [htext, List.length_append, List.length_cons, List.length_append] at htrim
        exact ih (by omega) (by omega)
      · rfl

end Fuel

section Growth

theorem kind_toList {kind : List Char} {p : Predicate}
    (h : p.kind = String.ofList (layout.trim kind)) : p.kind.toList = layout.trim kind := by
  rw [h, String.toList_ofList]

theorem listed_singleton (a : List Char) : listed [a] = a := List.intercalate_singleton

theorem printed_compound (kind : String) (preds : List Predicate) :
    printed (compound kind preds) = [listed (preds.map textOf)] := by
  rw [printed, subPreds_compound]
  rfl

theorem sum_splitTop_le (inner : List Char) :
    ((splitTop inner).map fun part => layout.size part + 1).sum ≤ layout.size inner + 1 := by
  rw [← sum_pieceTexts]
  rcases splitTop_cases inner with ⟨heq, -⟩ | heq
  · rw [heq]
  · rw [heq, List.map_append, List.sum_append]
    exact Nat.le_add_right _ _

/-- What is read says no more than the text it is read from. -/
theorem size_textOf_le {n : ℕ} {text : List Char} {p : Predicate}
    (h : parsePredicateAt n text = .ok p) : layout.size (textOf p) ≤ layout.size text := by
  induction n generalizing text p with
  | zero => cases h
  | succ n ih =>
      obtain ⟨kind, inner, htext, hkind⟩ := exists_shape h
      rw [parse_of_shape htext hkind] at h
      rw [← Layout.size_trim text, htext, size_shape, textOf, toList_describe, size_shape]
      by_cases hcompound : String.ofList (layout.trim kind) ∈ compoundKinds
      · obtain ⟨preds, hparts, rfl⟩ := (parseInner_compound hcompound).mp h
        rw [printed_compound, listed_singleton, kind_toList rfl, Layout.size_trim]
        have hsize : layout.size (listed (preds.map textOf)) ≤ layout.size inner := by
          by_cases hne : preds = []
          · rw [hne]
            exact Nat.zero_le _
          · have hlisted := size_listed (l := preds.map textOf) (by simpa using hne)
            rw [List.map_map] at hlisted
            have hsum := sum_le_of_forall₂ (f := fun part => layout.size part + 1)
              (g := (fun a => layout.size a + 1) ∘ textOf)
              (hparts.imp fun a q hq => Nat.succ_le_succ (ih hq))
            have hinner := sum_splitTop_le inner
            omega
        omega
      · obtain ⟨hparts, hp, -⟩ := (parseInner_plain hcompound).mp h
        rw [kind_toList hp, Layout.size_trim]
        have hprinted := (size_printed (subPreds_of_parsed hparts)).1
        have hitems := size_items_le hparts
        have hsize : layout.size (listed (printed p)) ≤ layout.size inner := by
          by_cases hne : printed p = []
          · rw [hne]
            exact Nat.zero_le _
          · have hlisted := size_listed hne
            omega
        omega

end Growth

section Reprints

variable {n : ℕ} {text kind inner : List Char} {p : Predicate}

theorem textOf_eq (p : Predicate) :
    textOf p = p.kind.toList ++ '(' :: (listed (printed p) ++ [')']) := toList_describe p

theorem trim_textOf (htrim : layout.trim p.kind.toList = p.kind.toList) :
    layout.trim (textOf p) = textOf p := by
  rw [textOf_eq, trim_shape htrim]

/-- A kind that is read is trimmed, and has no parenthesis that opens. -/
theorem kind_of_parsed (h : parsePredicateAt n text = .ok p) :
    '(' ∉ p.kind.toList ∧ layout.trim p.kind.toList = p.kind.toList := by
  cases n with
  | zero => cases h
  | succ n =>
      obtain ⟨kind, inner, htext, hkind⟩ := exists_shape h
      rw [parse_of_shape htext hkind] at h
      have hp : p.kind = String.ofList (layout.trim kind) := by
        by_cases hcompound : String.ofList (layout.trim kind) ∈ compoundKinds
        · obtain ⟨preds, -, rfl⟩ := (parseInner_compound hcompound).mp h
          rfl
        · exact ((parseInner_plain hcompound).mp h).2.1
      rw [kind_toList hp, Layout.trim_trim]
      exact ⟨fun hmem => hkind (mem_trim hmem), rfl⟩

theorem parse_textOf (hopen : '(' ∉ p.kind.toList)
    (htrim : layout.trim p.kind.toList = p.kind.toList) : parsePredicateAt (n + 1) (textOf p) =
      parseInner (parsePredicateAt n) p.kind (listed (printed p)) := by
  have hshape : layout.trim (textOf p) = p.kind.toList ++ '(' :: (listed (printed p) ++ [')']) := by
    rw [trim_textOf htrim, textOf_eq]
  rw [parse_of_shape hshape hopen, htrim, String.ofList_toList]

/-- A predicate is printed as a text that is read as the predicate, and that has the
parentheses and commas of the text it was read from. -/
structure Reprints (text : List Char) (p : Predicate) : Prop where
  again : parsePredicate (describe p) = .ok p
  balance : layout.balance (textOf p) = layout.balance text
  sepAt : ∀ d, layout.SepAt d (textOf p) → layout.SepAt d text

theorem reprints_of_inner (htext : layout.trim text = kind ++ '(' :: (inner ++ [')']))
    (hkind : p.kind = String.ofList (layout.trim kind))
    (hagain : parsePredicate (describe p) = .ok p)
    (hbalance : layout.balance (listed (printed p)) = layout.balance inner)
    (hsep : ∀ d, layout.SepAt d (listed (printed p)) → layout.SepAt d inner) :
    Reprints text p where
  again := hagain
  balance := by
    rw [← Layout.balance_trim text, htext, textOf_eq, balance_shape, balance_shape,
      kind_toList hkind, Layout.balance_trim, hbalance]
  sepAt d h := by
    rw [← Layout.sepAt_trim text, htext, sepAt_shape]
    rw [textOf_eq, sepAt_shape, kind_toList hkind, Layout.balance_trim, Layout.sepAt_trim] at h
    exact h.imp_right (hsep _)

end Reprints

section RoundTrip

variable {n : ℕ} {text kind inner : List Char} {p : Predicate} {preds : List Predicate}

theorem printed_ne_nil {k : String} (h : arg p k ≠ none) : printed p ≠ [] := by
  obtain ⟨v, hv⟩ := Option.ne_none_iff_exists'.mp h
  rw [arg_eq, ← OrdMap.mem_entries] at hv
  rw [printed]
  exact List.append_ne_nil_of_right_ne_nil _ (List.ne_nil_of_mem (List.mem_map_of_mem hv))

/-- The parts of a predicate that is not compound. -/
theorem plain_iff (hkind : p.kind ∉ compoundKinds) (hargs : p.args ≠ some ∅)
    (hopen : '(' ∉ p.kind.toList) (htrim : layout.trim p.kind.toList = p.kind.toList)
    (hparts : parseParts inner = .ok (partsOf p)) :
    parsePredicate (describe p) = .ok p ↔ Survives p := by
  rw [parsePredicate, ← textOf, parse_textOf hopen htrim, parseInner_plain hkind]
  constructor
  · rintro ⟨hagain, -, -⟩
    have hsize := size_printed (subPreds_of_parsed hparts)
    have hle := size_items_le hagain
    have hpreds : arg p "preds" = none := by
      by_contra hsome
      have hlt := hsize.2 hsome
      have hlisted := size_listed (printed_ne_nil hsome)
      omega
    rw [printed_plain hpreds] at hagain
    exact .plain hkind hpreds (balanced_of_again hparts hagain)
  · intro hsurvives
    cases hsurvives with
    | plain _ hpreds hitems =>
        rw [printed_plain hpreds]
        exact ⟨parseParts_items hparts hitems, rfl, hargs⟩
    | nested hcompound => exact absurd hcompound hkind

theorem reprints_plain (hkind : p.kind ∉ compoundKinds) (hargs : p.args ≠ some ∅)
    (htext : layout.trim text = kind ++ '(' :: (inner ++ [')'])) (hopen : '(' ∉ kind)
    (hp : p.kind = String.ofList (layout.trim kind))
    (hparts : parseParts inner = .ok (partsOf p)) (h : Survives p) : Reprints text p := by
  have hopen' : '(' ∉ p.kind.toList := by
    rw [kind_toList hp]
    exact fun hmem => hopen (mem_trim hmem)
  have htrim : layout.trim p.kind.toList = p.kind.toList := by
    rw [kind_toList hp, Layout.trim_trim]
  have hagain := (plain_iff hkind hargs hopen' htrim hparts).mpr h
  cases h with
  | nested hcompound => exact absurd hcompound hkind
  | plain _ hpreds hitems =>
      refine reprints_of_inner htext hp hagain ?_ fun d hsep => ?_
      · rw [printed_plain hpreds, balance_listed, List.map_map]
        exact balance_items hparts
      · rw [printed_plain hpreds] at hsep
        exact sepAt_items hparts hitems hsep

end RoundTrip

section Nested

variable {n : ℕ} {text kind inner : List Char} {p q : Predicate} {preds : List Predicate}

theorem sum_balance_splitTop (inner : List Char) :
    ((splitTop inner).map layout.balance).sum = layout.balance inner := by
  have hpieces : ((pieceTexts inner).map layout.balance).sum = layout.balance inner := by
    have hjoin := Layout.balance_join (m := layout) (l := layout.pieces inner)
    rw [Layout.pieces, Layout.join_piecesFrom] at hjoin
    rw [hjoin, pieceTexts, List.map_map, Layout.pieces]
    congr 1
    exact List.map_congr_left fun piece _ => by simp
  rcases splitTop_cases inner with ⟨heq, -⟩ | heq
  · rw [heq, hpieces]
  · rw [← hpieces, heq]
    simp

theorem balance_of_mem_splitTop {part : List Char} (h : part ∈ (splitTop inner).dropLast) :
    layout.balance part = 0 := by
  have hmem : part ∈ (pieceTexts inner).dropLast := by
    rcases splitTop_cases inner with ⟨heq, -⟩ | heq
    · rwa [← heq]
    · rw [heq, List.dropLast_concat]
      exact List.mem_of_mem_dropLast h
  rw [pieceTexts, ← List.map_dropLast] at hmem
  obtain ⟨piece, hpiece, rfl⟩ := List.mem_map.mp hmem
  rw [Layout.balance_trim, Layout.balance_of_mem_pieces hpiece]

theorem sepAt_of_mem_splitTop {part : List Char} {d : ℤ} (h : part ∈ splitTop inner)
    (hsep : layout.SepAt d part) : ∃ piece ∈ layout.pieces inner, layout.SepAt d piece := by
  obtain ⟨piece, hpiece, rfl⟩ := List.mem_map.mp (mem_pieceTexts_of_mem_splitTop h)
  exact ⟨piece, hpiece, (Layout.sepAt_trim piece).mp hsep⟩

theorem length_splitTop_le (inner : List Char) :
    (splitTop inner).length ≤ (layout.pieces inner).length := by
  have hlength : (pieceTexts inner).length = (layout.pieces inner).length := List.length_map _
  rw [← hlength]
  rcases splitTop_cases inner with ⟨heq, -⟩ | heq
  · rw [heq]
  · rw [heq, List.length_append]
    exact Nat.le_add_right _ _

theorem textOf_ne_nil (p : Predicate) : textOf p ≠ [] := by
  rw [textOf_eq]
  exact List.append_ne_nil_of_right_ne_nil _ (List.cons_ne_nil _ _)

/-- A predicate's text, wherever it is read, is read as by itself. -/
theorem again_iff (hlength : (textOf q).length < n) :
    parsePredicateAt n (textOf q) = .ok q ↔ parsePredicate (describe q) = .ok q := by
  rw [parsePredicate, ← textOf, parsePredicateAt_fuel hlength (Nat.lt_succ_self _)]

theorem length_textOf_lt (h : textOf q ∈ splitTop (listed (printed p))) :
    (textOf q).length < (textOf p).length := by
  have hle := length_le_of_mem_splitTop h
  rw [textOf_eq p, List.length_append, List.length_cons, List.length_append]
  omega

section Forward

variable (hparts : List.Forall₂ (fun a q => parsePredicateAt n a = .ok q) (splitTop inner) preds)
  (hkept : List.Forall₂ Reprints (splitTop inner) preds)
include hparts hkept

theorem splitTop_preds : (∀ b ∈ (preds.map textOf).dropLast, layout.balance b = 0) ∧
    splitTop (listed (preds.map textOf)) = preds.map textOf := by
  have hbalance : (preds.map textOf).map layout.balance = (splitTop inner).map layout.balance := by
    rw [List.map_map]
    exact map_eq_of_forall₂ (hkept.imp fun a q h => h.balance)
  have hbalanced : ∀ b ∈ (preds.map textOf).dropLast, layout.balance b = 0 := by
    intro b hb
    have hmem : layout.balance b ∈ ((preds.map textOf).map layout.balance).dropLast := by
      rw [← List.map_dropLast]
      exact List.mem_map_of_mem hb
    rw [hbalance, ← List.map_dropLast] at hmem
    obtain ⟨part, hpart, heq⟩ := List.mem_map.mp hmem
    rw [← heq, balance_of_mem_splitTop hpart]
  refine ⟨hbalanced, splitTop_listed ?_ ?_ ?_ hbalanced⟩
  · refine List.forall_mem_map.mpr fun q hq => ?_
    obtain ⟨a, -, hparsed⟩ := exists_left hparts hq
    exact trim_textOf (kind_of_parsed hparsed).2
  · exact List.forall_mem_map.mpr fun q _ => textOf_ne_nil q
  · refine List.forall_mem_map.mpr fun q hq hsep => ?_
    obtain ⟨a, ha, hprint⟩ := exists_left hkept hq
    obtain ⟨piece, hpiece, hsep⟩ := sepAt_of_mem_splitTop ha (hprint.sepAt 0 hsep)
    exact Layout.not_sepAt_of_mem_pieces hpiece hsep

/-- A compound predicate is printed from the texts of the nested ones. -/
theorem reprints_nested (hcompound : String.ofList (layout.trim kind) ∈ compoundKinds)
    (htext : layout.trim text = kind ++ '(' :: (inner ++ [')'])) (hopen : '(' ∉ kind) :
    Reprints text (compound (String.ofList (layout.trim kind)) preds) := by
  obtain ⟨hbalanced, hsplit⟩ := splitTop_preds hparts hkept
  have hlisted : listed (printed (compound (String.ofList (layout.trim kind)) preds)) =
      listed (preds.map textOf) := by rw [printed_compound, listed_singleton]
  have hkind : (compound (String.ofList (layout.trim kind)) preds).kind.toList =
      layout.trim kind := kind_toList rfl
  refine reprints_of_inner htext rfl ?_ ?_ fun d hsep => ?_
  · rw [parsePredicate, ← textOf, parse_textOf (by rw [hkind]; exact fun h => hopen (mem_trim h))
      (by rw [hkind, Layout.trim_trim]), hlisted]
    refine (parseInner_compound hcompound).mpr ⟨preds, ?_, rfl⟩
    rw [hsplit, List.forall₂_map_left_iff, List.forall₂_same]
    intro q hq
    obtain ⟨a, -, hprint⟩ := exists_left hkept hq
    refine (again_iff (length_textOf_lt ?_)).mpr hprint.again
    rw [hlisted, hsplit]
    exact List.mem_map_of_mem hq
  · rw [hlisted, balance_listed, List.map_map, ← sum_balance_splitTop inner]
    exact congrArg List.sum (map_eq_of_forall₂ (hkept.imp fun a q h => h.balance))
  · rw [hlisted] at hsep
    refine sepAt_of_pieces ?_
    rcases (sepAt_listed hbalanced).mp hsep with ⟨b, hb, hsep⟩ | ⟨hd, hlength⟩
    · obtain ⟨q, hq, rfl⟩ := List.mem_map.mp hb
      obtain ⟨a, ha, hprint⟩ := exists_left hkept hq
      exact Or.inl (sepAt_of_mem_splitTop ha (hprint.sepAt d hsep))
    · rw [List.length_map, ← hparts.length_eq] at hlength
      exact Or.inr ⟨hd, hlength.trans (length_splitTop_le inner)⟩

end Forward

/-- Where the texts of predicates, listed, are read as the predicates, each is a part. -/
theorem splitTop_of_again (hagain : List.Forall₂ (fun a q => parsePredicateAt n a = .ok q)
    (splitTop (listed (preds.map textOf))) preds) :
    splitTop (listed (preds.map textOf)) = preds.map textOf := by
  by_cases hne : preds.map textOf = []
  · rw [hne]
    rfl
  have hsizes : List.Forall₂ (fun a q => layout.size (textOf q) ≤ layout.size a)
      (splitTop (listed (preds.map textOf))) preds := hagain.imp fun a q h => size_textOf_le h
  have hlisted := size_listed hne
  rcases splitTop_cases (listed (preds.map textOf)) with ⟨heq, -⟩ | heq
  · have hspaced : spaced (preds.map textOf) = layout.pieces (listed (preds.map textOf)) := by
      have hsame : (layout.pieces (listed (preds.map textOf))).map layout.size =
          (splitTop (listed (preds.map textOf))).map layout.size := by
        rw [heq, pieceTexts, List.map_map]
        exact List.map_congr_left fun piece _ => (Layout.size_trim piece).symm
      refine Layout.join_inj (m := layout) ?_ ?_
      · rw [← List.forall₂_map_left_iff (f := layout.size) (R := fun n b => n ≤ layout.size b),
          ← List.forall₂_map_right_iff (f := layout.size) (R := fun n n' => n ≤ n'), hsame,
          map_spaced fun a => (alike_blank a).size, List.map_map, List.forall₂_map_left_iff,
          List.forall₂_map_right_iff]
        exact hsizes.flip
      · rw [← listed_eq, Layout.pieces, Layout.join_piecesFrom]
    rw [heq, pieceTexts, ← hspaced, map_trim_spaced]
    refine List.forall_mem_map.mpr fun q hq => ?_
    obtain ⟨a, -, hparsed⟩ := exists_left hagain hq
    exact trim_textOf (kind_of_parsed hparsed).2
  · have hsum := sum_pieceTexts (listed (preds.map textOf))
    have hle := sum_le_of_forall₂ (f := fun part => layout.size part + 1)
      (g := (fun a => layout.size a + 1) ∘ textOf) (hsizes.imp fun a q h => Nat.succ_le_succ h)
    rw [heq, List.map_append, List.sum_append, hlisted, List.map_map] at hsum
    rw [List.map_singleton, List.sum_singleton] at hsum
    omega

end Nested

section Main

/-- A text that is read is printed from what is read, with nothing lost, only where no
argument hides the nested predicates and no argument leaves a parenthesis open. -/
theorem reprints_iff : ∀ (n : ℕ) {text : List Char} {p : Predicate},
    parsePredicateAt n text = .ok p → (Survives p → Reprints text p) ∧
      (parsePredicate (describe p) = .ok p → Survives p)
  | 0, _, _, h => by cases h
  | n + 1, text, p, h => by
      obtain ⟨kind, inner, htext, hopen⟩ := exists_shape h
      obtain ⟨hopen', htrim⟩ := kind_of_parsed h
      rw [parse_of_shape htext hopen] at h
      by_cases hcompound : String.ofList (layout.trim kind) ∈ compoundKinds
      · obtain ⟨preds, hparts, rfl⟩ := (parseInner_compound hcompound).mp h
        constructor
        · intro hsurvives
          cases hsurvives with
          | plain hkind => exact absurd hcompound hkind
          | nested _ hall =>
              rw [subPreds_compound] at hall
              have hboth := (List.forall₂_and_left _ _).mpr ⟨hall, hparts.flip⟩
              exact reprints_nested hparts
                (hboth.imp fun q a hqa => (reprints_iff n hqa.2).1 hqa.1).flip hcompound htext hopen
        · intro hagain
          rw [parsePredicate, ← textOf, parse_textOf hopen' htrim, printed_compound,
            listed_singleton] at hagain
          obtain ⟨preds', hagain, heq⟩ := (parseInner_compound hcompound).mp hagain
          obtain rfl : preds = preds' := by
            rw [← subPreds_compound _ preds, heq, subPreds_compound]
          have hsplit := splitTop_of_again hagain
          rw [hsplit, List.forall₂_map_left_iff, List.forall₂_same] at hagain
          refine .nested hcompound fun q hq => ?_
          rw [subPreds_compound] at hq
          obtain ⟨a, -, hparsed⟩ := exists_left hparts hq
          refine (reprints_iff n hparsed).2 ((again_iff (length_textOf_lt ?_)).mp (hagain q hq))
          rw [printed_compound, listed_singleton, hsplit]
          exact List.mem_map_of_mem hq
      · obtain ⟨hparts, hp, hargs⟩ := (parseInner_plain hcompound).mp h
        have hkind : p.kind ∉ compoundKinds := hp ▸ hcompound
        exact ⟨reprints_plain hkind hargs htext hopen hp hparts,
          (plain_iff hkind hargs hopen' htrim hparts).mp⟩

/-- A predicate read from a text is read again from what is printed of it just where it
survives. -/
theorem describe_round_trip_iff {text : String} {p : Predicate} (h : parsePredicate text = .ok p) :
    parsePredicate (describe p) = .ok p ↔ Survives p :=
  ⟨(reprints_iff _ h).2, fun hsurvives => ((reprints_iff _ h).1 hsurvives).again⟩

/-- The predicate that a passing test run is attested. -/
def testsPass : Predicate := ⟨"attest", some "tests.pass", none⟩

theorem testsPass_round_trip : parsePredicate (describe testsPass) = .ok testsPass :=
  (describe_round_trip_iff
    (show parsePredicate "attest(tests.pass)" = .ok testsPass by decide +kernel)).mpr
      (.plain (by decide) rfl (by decide))

/-- Two arguments of which the one that is printed first opens a parenthesis, so that the
other is read as part of it. -/
def openParenthesis : Predicate :=
  ⟨"structural", none, some (((∅ : OrdMap String Value).insert "b" (.integer 1)).insert "a"
    (.text "("))⟩

/-- An argument that is printed as if it held nested predicates. -/
def hiddenArgument : Predicate :=
  ⟨"attest", some "tests.pass", some ((∅ : OrdMap String Value).insert "preds" (.text "x"))⟩

theorem describe_not_round_trip :
    (parsePredicate "structural(b=1, a=()" = .ok openParenthesis ∧
      parsePredicate (describe openParenthesis) ≠ .ok openParenthesis) ∧
    parsePredicate "attest(tests.pass, preds=x)" = .ok hiddenArgument ∧
      parsePredicate (describe hiddenArgument) ≠ .ok hiddenArgument := by
  decide +kernel

end Main

end Tessra.Oplog.Standard
