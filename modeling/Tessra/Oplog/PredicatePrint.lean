import Tessra.Oplog.PredicateText

namespace Tessra.Oplog.Standard

open Tessra.Core Tessra.Data

/-! Predicates printed, and what their texts say. -/

section Printing

/-- Texts with a comma and a blank between each two. -/
def listed (l : List (List Char)) : List Char := [',', ' '].intercalate l

def partsOf (p : Predicate) : Option String × OrdMap String Value := (p.name, p.args.getD ∅)

/-- The texts between the parentheses of a printed predicate. -/
def printed (p : Predicate) : List (List Char) :=
  (partsOf p).1.toList.map String.toList ++ (partsOf p).2.entries.map fun e =>
    if e.1 = "preds" then listed ((subPreds p).map fun q => (describe q).toList)
    else (Item.arg e.1 e.2).text

theorem depth_le_depthItems {v : Value} : ∀ {l : List Value}, v ∈ l → v.depth ≤ Value.depthItems l
  | w :: l, h => by
      rw [Value.depthItems]
      rcases List.mem_cons.mp h with rfl | h
      · exact Nat.le_max_left _ _
      · exact (depth_le_depthItems h).trans (Nat.le_max_right _ _)

theorem depth_le_depthEntries {e : Value × Value} :
    ∀ {l : List (Value × Value)}, e ∈ l → e.2.depth ≤ Value.depthEntries l
  | (k, w) :: l, h => by
      rw [Value.depthEntries]
      rcases List.mem_cons.mp h with rfl | h
      · exact Nat.le_max_left _ _
      · exact (depth_le_depthEntries h).trans (Nat.le_max_right _ _)

theorem depthItems_le {n : ℕ} : ∀ {l : List Value}, (∀ v ∈ l, v.depth ≤ n) → Value.depthItems l ≤ n
  | [], _ => Nat.zero_le n
  | v :: l, h => by
      rw [Value.depthItems]
      exact max_le (h v List.mem_cons_self)
        (depthItems_le fun w hw => h w (List.mem_cons_of_mem v hw))

theorem fieldOnce_mem {name : String} {entries : List (Value × Value)} {v : Value}
    (h : fieldOnce name entries = some (some v)) : (.text name, v) ∈ entries := by
  unfold fieldOnce at h
  split at h
  · cases h
  · rename_i e heq
    cases h
    have hmem : e ∈ entries.filter (fun e => e.1 = .text name) := heq ▸ List.mem_singleton_self e
    obtain ⟨hmem, hname⟩ := List.mem_filter.mp hmem
    rwa [← of_decide_eq_true hname]
  · cases h

theorem mem_of_get?_foldl {k : String} {v : Value} {l : List (String × Value)}
    {m : OrdMap String Value} (h : (l.foldl (fun m e => m.insert e.1 e.2) m).get? k = some v) :
    m.get? k = some v ∨ (k, v) ∈ l := by
  induction l generalizing m with
  | nil => exact Or.inl h
  | cons e l ih =>
      rcases ih h with h | h
      · rw [OrdMap.get?_insert] at h
        split_ifs at h with heq
        · cases h
          rw [← heq]
          exact Or.inr List.mem_cons_self
        · exact Or.inl h
      · exact Or.inr (List.mem_cons_of_mem e h)

theorem depthItems_argsOf {v : Value} {a : OrdMap String Value} (h : argsOf v = some a) :
    Value.depthItems a.values + 1 ≤ v.depth := by
  cases v with
  | map entries =>
      obtain ⟨pairs, hpairs, h⟩ := Option.bind_eq_some_iff.mp h
      cases h
      rw [Value.depth]
      refine Nat.succ_le_succ (depthItems_le fun v hv => ?_)
      obtain ⟨k, hk⟩ := OrdMap.mem_values.mp hv
      have hpair := (mem_of_get?_foldl hk).resolve_left (Option.some_ne_none v ∘ Eq.symm)
      obtain ⟨e, he, heq⟩ := mem_of_mapM hpairs hpair
      obtain ⟨k', -, heq⟩ := Option.map_eq_some_iff.mp heq
      cases heq
      exact depth_le_depthEntries he
  | _ => cases h

theorem optional_eq_some {α : Type} {read : Value → Option α} {o : Option Value} {a : α}
    (h : optional read o = some (some a)) : ∃ v, o = some v ∧ read v = some a := by
  cases o with
  | none => cases h
  | some v =>
      cases v with
      | null => cases h
      | _ =>
          obtain ⟨b, hb, heq⟩ := Option.map_eq_some_iff.mp h
          cases heq
          exact ⟨_, rfl, hb⟩

theorem predDepth_predicateOf {v : Value} {q : Predicate} (h : predicateOf v = some q) :
    predDepth q ≤ v.depth := by
  cases v with
  | map entries =>
      simp only [predicateOf, Option.bind_eq_bind, Option.bind_eq_some_iff] at h
      obtain ⟨-, -, -, -, kind, -, -, -, name, -, value, hvalue, args, hargs, hq⟩ := h
      cases hq
      rw [Value.depth]
      cases args with
      | none => exact Nat.succ_le_succ (Nat.zero_le _)
      | some a =>
          obtain ⟨v, rfl, hv⟩ := optional_eq_some hargs
          have hdepth := depth_le_depthEntries (fieldOnce_mem hvalue)
          exact (depthItems_argsOf hv).trans (hdepth.trans (Nat.le_succ _))
  | _ => cases h

theorem predDepth_lt {p q : Predicate} (h : q ∈ subPreds p) : predDepth q < predDepth p := by
  unfold subPreds at h
  split at h
  · rename_i values harg
    cases hsubs : values.mapM predicateOf with
    | none =>
        rw [hsubs] at h
        cases h
    | some subs =>
        rw [hsubs, Option.getD_some] at h
        obtain ⟨v, hv, hq⟩ := mem_of_mapM hsubs h
        obtain ⟨args, hargs, hget⟩ := Option.bind_eq_some_iff.mp harg
        have hmem : Value.array values ∈ args.values := OrdMap.mem_values.mpr ⟨_, hget⟩
        have hdepth := depth_le_depthItems hmem
        have hitem := depth_le_depthItems hv
        have hsub := predDepth_predicateOf hq
        rw [Value.depth] at hdepth
        rw [predDepth.eq_1 p, hargs]
        simp only
        omega
  · cases h

theorem describeAt_eq {n m : ℕ} {p : Predicate} (hn : predDepth p ≤ n) (hm : predDepth p ≤ m) :
    describeAt n p = describeAt m p := by
  induction n generalizing m p with
  | zero =>
      have hpos := predDepth_pos p
      omega
  | succ n ih =>
      obtain ⟨m, rfl⟩ : ∃ k, m = k + 1 := ⟨m - 1, by
        have hpos := predDepth_pos p
        omega⟩
      have hsubs : (subPreds p).map (describeAt n) = (subPreds p).map (describeAt m) := by
        refine List.map_congr_left fun q hq => ?_
        have hlt := predDepth_lt hq
        exact ih (by omega) (by omega)
      rw [describeAt, describeAt, hsubs]

theorem toList_describe (p : Predicate) : (describe p).toList =
    p.kind.toList ++ '(' :: (listed (printed p) ++ [')']) := by
  obtain ⟨n, hn⟩ : ∃ n, predDepth p = n + 1 :=
    ⟨predDepth p - 1, (Nat.sub_add_cancel (predDepth_pos p)).symm⟩
  have hsubs : (subPreds p).map (describeAt n) = (subPreds p).map describe := by
    refine List.map_congr_left fun q hq => ?_
    have hlt := predDepth_lt hq
    exact describeAt_eq (by omega) le_rfl
  have hargs : (p.args.map fun a => a.entries).getD [] = (p.args.getD ∅).entries := by
    cases p.args <;> rfl
  rw [describe, hn, describeAt, hsubs, hargs]
  change (p.kind ++ "(" ++ ", ".intercalate _ ++ ")").toList = _
  rw [String.toList_append, String.toList_append, String.toList_append, String.toList_intercalate,
    List.append_assoc, List.append_assoc]
  congr 1
  change '(' :: (listed _ ++ [')']) = _
  rw [List.map_append, List.map_map]
  have hentry : ∀ e : (_ : String) × Value, (if e.1 = "preds" then
        ", ".intercalate ((subPreds p).map describe) else s!"{e.1}={valueText e.2}").toList =
      if e.1 = "preds" then listed ((subPreds p).map fun q => (describe q).toList)
        else (Item.arg e.1 e.2).text := by
    intro e
    split_ifs
    · rw [String.toList_intercalate, List.map_map]
      rfl
    · change (e.1 ++ "=" ++ valueText e.2).toList = _
      rw [String.toList_append, String.toList_append, List.append_assoc]
      rfl
  exact congrArg (fun l => '(' :: (listed (p.name.toList.map String.toList ++ l) ++ [')']))
    (List.map_congr_left fun e _ => hentry e)

end Printing

section Listed

theorem Alike.symm {a b : List Char} (h : Alike a b) : Alike b a :=
  ⟨h.balance.symm, fun d => (h.sepAt d).symm, h.size.symm⟩

theorem alike_blank (a : List Char) : Alike (' ' :: a) a := by
  have htrim : layout.trim (' ' :: a) = layout.trim a := Layout.trim_cons rfl
  exact (htrim ▸ (alike_trim (' ' :: a)).symm).trans (alike_trim a)

/-- The texts as they stand between the commas. -/
def spaced : List (List Char) → List (List Char)
  | [] => []
  | a :: l => a :: l.map (' ' :: ·)

theorem listed_eq (l : List (List Char)) : listed l = layout.join (spaced l) := by
  cases l with
  | nil => rfl
  | cons a l => exact Layout.intercalate_pair (m := layout) ' '

theorem map_spaced {β : Type} {f : List Char → β} (hf : ∀ a, f (' ' :: a) = f a)
    (l : List (List Char)) : (spaced l).map f = l.map f := by
  cases l with
  | nil => rfl
  | cons a l =>
      rw [spaced, List.map_cons, List.map_cons, List.map_map]
      exact congrArg _ (List.map_congr_left fun b _ => hf b)

theorem exists_spaced {P : List Char → Prop} (hP : ∀ a, P (' ' :: a) ↔ P a)
    (l : List (List Char)) : (∃ a ∈ spaced l, P a) ↔ ∃ a ∈ l, P a := by
  cases l with
  | nil => exact Iff.rfl
  | cons a l => simp [spaced, hP]

theorem length_spaced (l : List (List Char)) : (spaced l).length = l.length := by
  cases l <;> simp [spaced]

theorem map_trim_spaced {l : List (List Char)} (h : ∀ a ∈ l, layout.trim a = a) :
    (spaced l).map layout.trim = l := by
  rw [map_spaced (fun a => Layout.trim_cons (m := layout) (x := ' ') rfl)]
  exact (List.map_congr_left h).trans (List.map_id l)

theorem balanced_spaced {l : List (List Char)}
    (h : ∀ a ∈ l.dropLast, layout.balance a = 0) :
    ∀ a ∈ (spaced l).dropLast, layout.balance a = 0 := by
  intro a ha
  have hmem : layout.balance a ∈ ((spaced l).map layout.balance).dropLast := by
    rw [← List.map_dropLast]
    exact List.mem_map_of_mem ha
  rw [map_spaced fun a => (alike_blank a).balance, ← List.map_dropLast] at hmem
  obtain ⟨b, hb, heq⟩ := List.mem_map.mp hmem
  rw [← heq, h b hb]

theorem balance_listed (l : List (List Char)) :
    layout.balance (listed l) = (l.map layout.balance).sum := by
  rw [listed_eq, Layout.balance_join, map_spaced fun a => (alike_blank a).balance]

theorem size_listed {l : List (List Char)} (h : l ≠ []) :
    layout.size (listed l) + 1 = (l.map fun a => layout.size a + 1).sum := by
  have hne : spaced l ≠ [] := by
    cases l with
    | nil => exact absurd rfl h
    | cons a l => exact List.cons_ne_nil _ _
  have hsize : ∀ a, layout.size (' ' :: a) + 1 = layout.size a + 1 := fun a =>
    congrArg (· + 1) (alike_blank a).size
  rw [listed_eq, Layout.size_join hne, map_spaced hsize]

theorem sepAt_listed {l : List (List Char)} {d : ℤ}
    (hbalanced : ∀ a ∈ l.dropLast, layout.balance a = 0) :
    layout.SepAt d (listed l) ↔ (∃ a ∈ l, layout.SepAt d a) ∨ (d = 0 ∧ 2 ≤ l.length) := by
  rw [listed_eq, Layout.sepAt_join (balanced_spaced hbalanced),
    exists_spaced fun a => (alike_blank a).sepAt d, length_spaced]

/-- Texts that are listed are split again. -/
theorem pieces_listed {l : List (List Char)} (hne : l ≠ []) (hfree : ∀ a ∈ l, ¬ layout.SepAt 0 a)
    (hbalanced : ∀ a ∈ l.dropLast, layout.balance a = 0) :
    layout.pieces (listed l) = spaced l := by
  rw [listed_eq]
  refine Layout.pieces_join ?_ (fun a ha hsep => ?_) (balanced_spaced hbalanced)
  · cases l with
    | nil => exact absurd rfl hne
    | cons a l => exact List.cons_ne_nil _ _
  · obtain ⟨b, hb, hsep⟩ := (exists_spaced (fun a => (alike_blank a).sepAt 0) l).mp ⟨a, ha, hsep⟩
    exact hfree b hb hsep

theorem splitTop_listed {l : List (List Char)} (htrim : ∀ a ∈ l, layout.trim a = a)
    (hnil : ∀ a ∈ l, a ≠ []) (hfree : ∀ a ∈ l, ¬ layout.SepAt 0 a)
    (hbalanced : ∀ a ∈ l.dropLast, layout.balance a = 0) : splitTop (listed l) = l := by
  by_cases hne : l = []
  · subst hne
    rfl
  have hpieces : pieceTexts (listed l) = l := by
    rw [pieceTexts, pieces_listed hne hfree hbalanced, map_trim_spaced htrim]
  rcases splitTop_cases (listed l) with ⟨h, -⟩ | h
  · rw [h, hpieces]
  · rw [hpieces] at h
    exact absurd rfl (hnil [] (by rw [h]; simp))

end Listed

section Shape

theorem insertAll_entries (a : OrdMap String Value) :
    (∅ : OrdMap String Value).insertAll (a.entries.map fun e => (e.1, e.2)) = a := by
  have hkeys : ((a.entries.map fun e => (e.1, e.2)).map Prod.fst).Nodup := by
    rw [List.map_map]
    exact a.nodupKeys
  refine OrdMap.ext fun k => ?_
  ext v
  rw [OrdMap.get?_insertAll_empty hkeys, ← OrdMap.mem_entries, List.mem_map]
  constructor
  · rintro ⟨e, he, heq⟩
    cases heq
    exact he
  · exact fun h => ⟨⟨k, v⟩, h, rfl⟩

theorem argsOf_entries (a : OrdMap String Value) :
    argsOf (.map (a.entries.map fun e => (.text e.1, e.2))) = some a := by
  have hpairs : ∀ l : List ((_ : String) × Value),
      (l.map fun e => ((.text e.1 : Value), e.2)).mapM
        (fun e : Value × Value => e.1.asText.map fun k => (k, e.2)) =
          some (l.map fun e => (e.1, e.2)) := by
    intro l
    induction l with
    | nil => rfl
    | cons e l ih =>
        rw [List.map_cons, List.mapM_cons, ih]
        rfl
  rw [argsOf, hpairs]
  exact congrArg some (insertAll_entries a)

theorem predicateOf_encode (p : Predicate) : predicateOf (encode p) = some p := by
  obtain ⟨kind, name, args⟩ := p
  cases name with
  | none =>
      cases args with
      | none => simp [encode, predicateOf, fieldOnce, optional, Value.asText]
      | some a => simp [encode, predicateOf, fieldOnce, optional, Value.asText, argsOf_entries]
  | some n =>
      cases args with
      | none => simp [encode, predicateOf, fieldOnce, optional, Value.asText]
      | some a => simp [encode, predicateOf, fieldOnce, optional, Value.asText, argsOf_entries]

theorem subPreds_compound (kind : String) (preds : List Predicate) :
    subPreds (compound kind preds) = preds := by
  have harg : arg (compound kind preds) "preds" = some (.array (preds.map encode)) := by
    change ((∅ : OrdMap String Value).insert "preds" _).get? "preds" = _
    rw [OrdMap.get?_insert, if_pos rfl]
  have hdecode : ∀ l : List Predicate, (l.map encode).mapM predicateOf = some l := by
    intro l
    induction l with
    | nil => rfl
    | cons p l ih =>
        rw [List.map_cons, List.mapM_cons, predicateOf_encode, ih]
        rfl
  rw [subPreds, harg]
  simp only [hdecode, Option.getD_some]

theorem exists_shape_of {text : List Char} (hopen : '(' ∈ text) (hlast : text.getLast? = some ')') :
    ∃ kind inner, text = kind ++ '(' :: (inner ++ [')']) ∧ '(' ∉ kind := by
  have hsplit := split_first hopen
  have hkind : '(' ∉ text.takeWhile (· ≠ '(') := fun hmem => by
    simpa using List.mem_takeWhile_imp hmem
  generalize text.takeWhile (· ≠ '(') = kind at hsplit hkind
  generalize (text.dropWhile (· ≠ '(')).tail = rest at hsplit
  rw [hsplit] at hlast
  rcases List.eq_nil_or_concat' rest with rfl | ⟨inner, c, rfl⟩
  · rw [List.getLast?_concat] at hlast
    cases hlast
  · rw [← List.cons_append, ← List.append_assoc, List.getLast?_concat] at hlast
    cases hlast
    exact ⟨kind, inner, hsplit, hkind⟩

/-- A text that is read has a kind before its first parenthesis, and closes that at its end. -/
theorem exists_shape {fuel : ℕ} {text : List Char} {p : Predicate}
    (h : parsePredicateAt (fuel + 1) text = .ok p) :
    ∃ kind inner, layout.trim text = kind ++ '(' :: (inner ++ [')']) ∧ '(' ∉ kind := by
  rw [parsePredicateAt] at h
  split_ifs at h with hopen hclose
  exact exists_shape_of hopen (not_not.mp hclose)

theorem parse_of_shape {fuel : ℕ} {text kind inner : List Char}
    (hshape : layout.trim text = kind ++ '(' :: (inner ++ [')'])) (hkind : '(' ∉ kind) :
    parsePredicateAt (fuel + 1) text =
      parseInner (parsePredicateAt fuel) (String.ofList (layout.trim kind)) inner := by
  obtain ⟨hbefore, hafter⟩ := split_append (inner ++ [')']) hkind
  have hmem : '(' ∈ kind ++ '(' :: (inner ++ [')']) := by simp
  have hlast : (kind ++ '(' :: (inner ++ [')'])).getLast? = some ')' := by
    rw [← List.cons_append, ← List.append_assoc, List.getLast?_concat]
  rw [parsePredicateAt]
  simp only [hshape]
  rw [if_neg (not_not.mpr hmem), if_neg (not_not.mpr hlast), hbefore, hafter,
    List.dropLast_concat]

theorem parseInner_compound {parse : List Char → Except String Predicate} {kind : String}
    {inner : List Char} {p : Predicate} (hkind : kind ∈ compoundKinds) :
    parseInner parse kind inner = .ok p ↔ ∃ preds, List.Forall₂ (fun a q => parse a = .ok q)
      (splitTop inner) preds ∧ p = (compound kind preds) := by
  rw [parseInner, if_pos hkind]
  constructor
  · intro h
    cases hparts : (splitTop inner).mapM parse with
    | error e =>
        rw [hparts] at h
        cases h
    | ok preds =>
        rw [hparts] at h
        cases h
        exact ⟨preds, mapM_eq_ok.mp hparts, rfl⟩
  · rintro ⟨preds, hparts, rfl⟩
    rw [mapM_eq_ok.mpr hparts]
    rfl

theorem entries_eq_nil {a : OrdMap String Value} : a.entries = [] ↔ a = ∅ := by
  constructor
  · intro h
    cases a
    cases h
    rfl
  · rintro rfl
    rfl

theorem parseInner_plain {parse : List Char → Except String Predicate} {kind : String}
    {inner : List Char} {p : Predicate} (hkind : kind ∉ compoundKinds) :
    parseInner parse kind inner = .ok p ↔
      parseParts inner = .ok (partsOf p) ∧ p.kind = kind ∧ p.args ≠ some ∅ := by
  rw [parseInner, if_neg hkind]
  constructor
  · intro h
    cases hparts : parseParts inner with
    | error e =>
        rw [hparts] at h
        cases h
    | ok s =>
        rw [hparts] at h
        cases h
        by_cases hempty : s.2.entries = []
        · have hs : s = (s.1, ∅) := by rw [← entries_eq_nil.mp hempty]
          refine ⟨?_, rfl, by simp [hempty]⟩
          rw [hs]
          simp [partsOf]
          rfl
        · refine ⟨by simp [partsOf, hempty], rfl, ?_⟩
          rw [if_neg hempty]
          exact fun h => hempty (entries_eq_nil.mpr (Option.some.inj h))
  · rintro ⟨hparts, rfl, hargs⟩
    rw [hparts]
    change Except.ok _ = Except.ok p
    obtain ⟨kind, name, args⟩ := p
    cases args with
    | none => rfl
    | some a =>
        have hne : a.entries ≠ [] := fun h => hargs (congrArg some (entries_eq_nil.mp h))
        simp [hne]

end Shape

section Plain

theorem arg_eq (p : Predicate) (k : String) : arg p k = (partsOf p).2.get? k := by
  unfold arg partsOf
  cases p.args <;> rfl

theorem mem_items_arg {s : Option String × OrdMap String Value} {k : String} {v : Value} :
    .arg k v ∈ items s ↔ s.2.get? k = some v := by
  rw [items, List.mem_append, ← OrdMap.mem_entries]
  constructor
  · rintro (h | h)
    · obtain ⟨n, -, heq⟩ := List.mem_map.mp h
      cases heq
    · obtain ⟨e, he, heq⟩ := List.mem_map.mp h
      cases heq
      exact he
  · exact fun h => Or.inr (List.mem_map.mpr ⟨_, h, rfl⟩)

theorem mem_items_name {s : Option String × OrdMap String Value} {n : String} :
    .name n ∈ items s ↔ s.1 = some n := by
  rw [items, List.mem_append]
  constructor
  · rintro (h | h)
    · obtain ⟨n', hn', heq⟩ := List.mem_map.mp h
      cases heq
      exact Option.mem_toList.mp hn'
    · obtain ⟨e, -, heq⟩ := List.mem_map.mp h
      cases heq
  · exact fun h => Or.inl (List.mem_map.mpr ⟨n, Option.mem_toList.mpr h, rfl⟩)

variable {p : Predicate} {inner : List Char}

/-- Without nested predicates every item is printed as its text. -/
theorem printed_plain (hpreds : arg p "preds" = none) :
    printed p = (items (partsOf p)).map Item.text := by
  rw [printed, items, List.map_append, List.map_map, List.map_map]
  congr 1
  refine List.map_congr_left fun e he => if_neg fun hkey => ?_
  have hget := OrdMap.mem_entries.mp he
  rw [hkey, ← arg_eq, hpreds] at hget
  cases hget

theorem parseValue_ne_array {y : List Char} {l : List Value} : parseValue y ≠ .array l := by
  intro h
  unfold parseValue at h
  split_ifs at h
  cases hint : parseI64 (String.ofList y) with
  | none =>
      rw [hint] at h
      cases h
  | some n =>
      rw [hint] at h
      cases h

theorem subPreds_of_parsed (h : parseParts inner = .ok (partsOf p)) : subPreds p = [] := by
  unfold subPreds
  split
  · rename_i l harg
    rw [arg_eq] at harg
    obtain ⟨part, -, -, hitem⟩ := exists_part h (mem_items_arg.mpr harg)
    unfold itemOf at hitem
    split_ifs at hitem
    exact absurd (Item.arg.inj hitem).2 parseValue_ne_array
  · rfl

/-- What is printed of the items is no more than their texts, and less where an argument has
the key of the nested predicates. -/
theorem size_printed (hsubs : subPreds p = []) :
    ((printed p).map fun a => layout.size a + 1).sum ≤
        ((items (partsOf p)).map fun it => layout.size it.text + 1).sum ∧
      (arg p "preds" ≠ none → ((printed p).map fun a => layout.size a + 1).sum <
        ((items (partsOf p)).map fun it => layout.size it.text + 1).sum) := by
  have hnil : ∀ e : (_ : String) × Value, (if e.1 = "preds" then
      listed ((subPreds p).map fun q => (describe q).toList) else (Item.arg e.1 e.2).text) =
        if e.1 = "preds" then [] else (Item.arg e.1 e.2).text := by
    intro e
    rw [hsubs]
    rfl
  rw [printed, items, List.map_append, List.map_append, List.map_map, List.map_map, List.map_map,
    List.map_map, List.sum_append, List.sum_append]
  have hle : ∀ e ∈ (partsOf p).2.entries, ((fun a => layout.size a + 1) ∘ fun e =>
      if e.1 = "preds" then listed ((subPreds p).map fun q => (describe q).toList)
      else (Item.arg e.1 e.2).text) e ≤
        ((fun it : Item => layout.size it.text + 1) ∘ fun e : (_ : String) × Value =>
          Item.arg e.1 e.2) e := by
    intro e _
    simp only [Function.comp_apply, hnil]
    split_ifs
    · exact Nat.succ_le_succ (Nat.zero_le _)
    · exact le_rfl
  refine ⟨Nat.add_le_add_left (List.sum_le_sum hle) _, fun hpreds => ?_⟩
  obtain ⟨v, hv⟩ := Option.ne_none_iff_exists'.mp hpreds
  rw [arg_eq, ← OrdMap.mem_entries] at hv
  refine Nat.add_lt_add_left (List.sum_lt_sum _ _ hle ⟨_, hv, ?_⟩) _
  simp only [Function.comp_apply, hnil, if_pos]
  have hkey : layout.size "preds".toList = 5 := by decide
  rw [Item.text, Layout.size_append, hkey]
  exact Nat.succ_lt_succ (by rw [Layout.size_nil]; omega)

end Plain

section Again

variable {s : Option String × OrdMap String Value} {p : Predicate} {inner : List Char}

theorem foldlM_args : ∀ (l : List (String × Value)) (i : ℕ) (name : Option String)
    (a : OrdMap String Value), (∀ e ∈ l, itemOf (Item.arg e.1 e.2).text = .arg e.1 e.2 ∧
      layout.trim (Item.arg e.1 e.2).text = (Item.arg e.1 e.2).text ∧
        (Item.arg e.1 e.2).text ≠ []) →
    ((l.map fun e => (Item.arg e.1 e.2).text).zipIdx i).foldlM parsePart (name, a) =
      .ok (name, a.insertAll l)
  | [], _, _, _, _ => rfl
  | e :: l, i, name, a, h => by
      obtain ⟨hitem, htrim, hne⟩ := h e List.mem_cons_self
      rw [List.map_cons, List.zipIdx_cons, List.foldlM_cons, parsePart_eq htrim, if_neg hne, hitem]
      exact foldlM_args l (i + 1) name (a.insert e.1 e.2) fun e' he' =>
        h e' (List.mem_cons_of_mem e he')

/-- The texts of items, the name first, are read as the items. -/
theorem foldlM_items (hclean : ∀ it ∈ items s, itemOf it.text = it ∧
    layout.trim it.text = it.text ∧ it.text ≠ []) :
    ((items s).map Item.text).zipIdx.foldlM parsePart (none, ∅) = .ok s := by
  obtain ⟨name, a⟩ := s
  have hargs : ∀ i, ((a.entries.map fun e => (Item.arg e.1 e.2).text).zipIdx i).foldlM parsePart
      (name, ∅) = .ok (name, a) := by
    intro i
    have hall := foldlM_args (a.entries.map fun e => (e.1, e.2)) i name ∅ fun e he => by
      obtain ⟨e', he', rfl⟩ := List.mem_map.mp he
      exact hclean (.arg e'.1 e'.2) (mem_items_arg.mpr (OrdMap.mem_entries.mp he'))
    rwa [List.map_map, insertAll_entries] at hall
  rw [items, List.map_append, List.map_map, List.map_map]
  cases name with
  | none => exact hargs 0
  | some n =>
      obtain ⟨hitem, htrim, hne⟩ := hclean (.name n) (mem_items_name.mpr rfl)
      change ((Item.name n).text :: _).zipIdx.foldlM parsePart (none, ∅) = _
      rw [List.zipIdx_cons, List.foldlM_cons, parsePart_eq htrim, if_neg hne, hitem]
      exact hargs 1

/-- Items whose texts all but the last close what they open are read again. -/
theorem parseParts_items (h : parseParts inner = .ok s)
    (hbalanced : ∀ it ∈ (items s).dropLast, layout.balance it.text = 0) :
    parseParts (listed ((items s).map Item.text)) = .ok s := by
  have hclean : ∀ it ∈ items s, itemOf it.text = it ∧ layout.trim it.text = it.text ∧
      it.text ≠ [] := fun it hit => item_again h hit
  have hsplit : splitTop (listed ((items s).map Item.text)) = (items s).map Item.text := by
    refine splitTop_listed ?_ ?_ ?_ ?_
    · exact List.forall_mem_map.mpr fun it hit => (hclean it hit).2.1
    · exact List.forall_mem_map.mpr fun it hit => (hclean it hit).2.2
    · exact List.forall_mem_map.mpr fun it hit => free_item h hit
    · rw [← List.map_dropLast]
      exact List.forall_mem_map.mpr hbalanced
  rw [parseParts, hsplit, foldlM_items hclean]

end Again

section Lost

/-- A text that leaves a parenthesis open takes what is listed behind it with it. -/
theorem pieceTexts_unbalanced {before after : List (List Char)} {a : List Char}
    (hfree : ∀ b ∈ before, ¬ layout.SepAt 0 b) (hbalanced : ∀ b ∈ before, layout.balance b = 0)
    (ha : ¬ layout.SepAt 0 a) (hopen : layout.balance a ≠ 0) (htrim : layout.trim a = a)
    (hne : a ≠ []) (hafter : after ≠ []) :
    ∃ parts r rest, pieceTexts (listed (before ++ a :: after)) = parts ++ (a ++ ',' :: r) :: rest ∧
      parts.length = before.length := by
  obtain ⟨front, a', back, hspaced, hfront, hlength, halike, hblank, hback⟩ :
      ∃ front a' back, spaced (before ++ a :: after) = front ++ a' :: back ∧
        (∀ b ∈ front, ∃ c ∈ before, Alike b c) ∧ front.length = before.length ∧ Alike a' a ∧
        (a' = a ∨ a' = ' ' :: a) ∧ back ≠ [] := by
    cases before with
    | nil =>
        exact ⟨[], a, after.map (' ' :: ·), rfl, by simp, rfl, Alike.refl a, Or.inl rfl,
          by simpa using hafter⟩
    | cons b before =>
        refine ⟨b :: before.map (' ' :: ·), ' ' :: a, after.map (' ' :: ·), by simp [spaced], ?_,
          by simp, alike_blank a, Or.inr rfl, by simpa using hafter⟩
        intro c hc
        rcases List.mem_cons.mp hc with rfl | hc
        · exact ⟨c, List.mem_cons_self, Alike.refl c⟩
        · obtain ⟨d, hd, rfl⟩ := List.mem_map.mp hc
          exact ⟨d, List.mem_cons_of_mem b hd, alike_blank d⟩
  have hpieces : ∃ r rest, layout.pieces (listed (before ++ a :: after)) =
      front ++ (a' ++ ',' :: r) :: rest := by
    have hfree' : ∀ b ∈ front, ¬ layout.SepAt 0 b := fun b hb => by
      obtain ⟨c, hc, hbc⟩ := hfront b hb
      exact fun hsep => hfree c hc ((hbc.sepAt 0).mp hsep)
    have hbalanced' : ∀ b ∈ front, layout.balance b = 0 := fun b hb => by
      obtain ⟨c, hc, hbc⟩ := hfront b hb
      exact hbc.balance.trans (hbalanced c hc)
    obtain ⟨r, rest, heq⟩ := Layout.pieces_of_unbalanced (m := layout) (s := layout.join back)
      (fun hsep => ha ((halike.sepAt 0).mp hsep)) (halike.balance.trans_ne hopen)
    refine ⟨r, rest, ?_⟩
    rw [listed_eq, hspaced, Layout.join_append (List.cons_ne_nil a' back),
      Layout.pieces_join_append hfree' hbalanced', Layout.join_cons hback, heq]
    rfl
  obtain ⟨r, rest, hpieces⟩ := hpieces
  obtain ⟨r', hr'⟩ := Layout.trim_append_cons (m := layout) (x := ',') (t := r) htrim hne rfl
  have htrimmed : layout.trim (a' ++ ',' :: r) = a ++ ',' :: r' := by
    rcases hblank with rfl | rfl
    · exact hr'
    · exact (Layout.trim_cons (m := layout) (x := ' ') rfl).trans hr'
  refine ⟨front.map layout.trim, r', rest.map layout.trim, ?_, by rw [List.length_map, hlength]⟩
  rw [pieceTexts, hpieces, List.map_append, List.map_cons, htrimmed]

variable {p : Predicate} {inner : List Char}

theorem key_of_itemOf {part : List Char} {k : String} {v : Value} (h : itemOf part = .arg k v) :
    '=' ∉ k.toList ∧ layout.trim k.toList = k.toList := by
  unfold itemOf at h
  split_ifs at h
  obtain ⟨rfl, -⟩ := Item.arg.inj h
  rw [String.toList_ofList]
  refine ⟨fun hmem => ?_, Layout.trim_trim _⟩
  simpa using List.mem_takeWhile_imp (mem_trim hmem)

/-- A predicate whose printed arguments are read as the same closes in each but the last what
it opens. -/
theorem balanced_of_again (h : parseParts inner = .ok (partsOf p))
    (hagain : parseParts (listed ((items (partsOf p)).map Item.text)) = .ok (partsOf p)) :
    ∀ it ∈ (items (partsOf p)).dropLast, layout.balance it.text = 0 := by
  by_contra hnot
  obtain ⟨l₁, u, l₂, hitems, hbefore, hopen, hne⟩ := exists_first hnot
  have hmem : ∀ it ∈ l₁ ++ u :: l₂, it ∈ items (partsOf p) := fun it hit => hitems ▸ hit
  have hu := hmem u (by simp)
  obtain ⟨hitem, htrim, hnil⟩ := item_again h hu
  have hall : listed ((items (partsOf p)).map Item.text) =
      listed (l₁.map Item.text ++ u.text :: l₂.map Item.text) := by
    rw [hitems, List.map_append, List.map_cons]
  obtain ⟨parts, r, rest, hparts, hlength⟩ := pieceTexts_unbalanced
    (List.forall_mem_map.mpr fun it hit => free_item h (hmem it (List.mem_append_left _ hit)))
    (List.forall_mem_map.mpr hbefore) (free_item h hu) hopen htrim hnil
    (by simpa using hne : l₂.map Item.text ≠ [])
  rw [← hall] at hparts
  -- Nothing is lost, so what begins with this item and goes on is an item too.
  have hsize : layout.size (listed ((items (partsOf p)).map Item.text)) + 1 ≤
      ((items (partsOf p)).map fun it => layout.size it.text + 1).sum := by
    have hsum := size_listed (l := (items (partsOf p)).map Item.text) (by
      rw [hitems]
      simp)
    rw [hsum, List.map_map]
    exact le_rfl
  have hlong : itemOf (u.text ++ ',' :: r) ∈ items (partsOf p) :=
    itemOf_mem_items hagain hsize (by rw [hparts]; simp)
  cases u with
  | arg k v =>
      obtain ⟨hkey, hkeyTrim⟩ := key_of_itemOf hitem
      have hsplit : (Item.arg k v).text ++ ',' :: r =
          k.toList ++ '=' :: ((valueText v).toList ++ ',' :: r) := by
        rw [Item.text, List.append_assoc]
        rfl
      rw [hsplit, itemOf_append hkey, hkeyTrim, String.ofList_toList, mem_items_arg] at hlong
      have hvalue := Option.some.inj (hlong.symm.trans (mem_items_arg.mp hu))
      have halike := (parseValue_spec (Layout.trim_trim (m := layout)
        ((valueText v).toList ++ ',' :: r))).1.size
      rw [hvalue, Layout.size_trim, Layout.size_append, Layout.size_cons rfl] at halike
      omega
  | name n =>
      have hname := mem_items_name.mp hu
      by_cases heq : '=' ∈ (Item.name n).text ++ ',' :: r
      · have hfirst : l₁ = [] := by
          cases l₁ with
          | nil => rfl
          | cons b l₁ =>
              rw [items, hname] at hitems
              have hargs : ((partsOf p).2.entries.map fun e => Item.arg e.1 e.2) =
                l₁ ++ .name n :: l₂ := (List.cons.inj hitems).2
              have hbad : Item.name n ∈ (partsOf p).2.entries.map fun e => Item.arg e.1 e.2 := by
                rw [hargs]
                simp
              obtain ⟨e, -, hbad⟩ := List.mem_map.mp hbad
              cases hbad
        subst hfirst
        obtain rfl : parts = [] := List.eq_nil_of_length_eq_zero hlength
        have htail := none_notMem_tail hagain
        obtain ⟨part, hpart, hne', hitem'⟩ := exists_part hagain hu
        rw [hparts, List.nil_append] at hpart htail
        rcases List.mem_cons.mp hpart with rfl | hpart
        · rw [itemOf, if_pos heq] at hitem'
          cases hitem'
        · refine htail (List.mem_map.mpr ⟨.name n, ?_, rfl⟩)
          exact List.mem_map.mpr ⟨part, List.mem_filter.mpr ⟨hpart, decide_eq_true hne'⟩, hitem'⟩
      · rw [itemOf, if_neg heq, mem_items_name, hname] at hlong
        have hlength' := congrArg (fun s : String => s.toList.length) (Option.some.inj hlong)
        simp only [Item.text, String.toList_ofList, List.length_append,
          List.length_cons] at hlength'
        omega

end Lost

section Kept

variable {p : Predicate} {s : Option String × OrdMap String Value} {inner : List Char}

theorem exists_pieces (inner : List Char) :
    ∃ pieces last, layout.pieces inner = pieces ++ [last] := by
  obtain ⟨a, l, heq⟩ := Layout.exists_piecesFrom (m := layout) 0 inner
  rw [Layout.pieces, heq]
  obtain ⟨pieces, last, heq'⟩ :=
    (List.eq_nil_or_concat' (a :: l)).resolve_left (List.cons_ne_nil a l)
  exact ⟨pieces, last, heq'⟩

theorem balance_eq_last {pieces : List (List Char)} {last : List Char}
    (h : layout.pieces inner = pieces ++ [last]) :
    layout.balance inner = layout.balance last ∧ ∀ a ∈ pieces, layout.balance a = 0 := by
  have hbefore : ∀ a ∈ pieces, layout.balance a = 0 := fun a ha =>
    Layout.balance_of_mem_pieces (m := layout) (s := inner) (by
      rw [h, List.dropLast_concat]
      exact ha)
  have hjoin := Layout.join_piecesFrom (m := layout) 0 inner
  rw [← Layout.pieces, h] at hjoin
  refine ⟨?_, hbefore⟩
  rw [← hjoin, Layout.balance_join, List.map_append, List.sum_append,
    List.sum_eq_zero (List.forall_mem_map.mpr hbefore)]
  simp

/-- The items leave open what the text does. -/
theorem balance_items (h : parseParts inner = .ok s) :
    ((items s).map fun it => layout.balance it.text).sum = layout.balance inner := by
  obtain ⟨pieces, last, hpieces⟩ := exists_pieces inner
  obtain ⟨hlast, hbefore⟩ := balance_eq_last hpieces
  have htexts : pieceTexts inner = pieces.map layout.trim ++ [layout.trim last] := by
    rw [pieceTexts, hpieces, List.map_append]
    rfl
  have hzero : ∀ it ∈ said (pieces.map layout.trim), layout.balance it.text = 0 := by
    intro it hit
    obtain ⟨part, hpart, rfl⟩ := List.mem_map.mp hit
    obtain ⟨hmem, hne⟩ := List.mem_filter.mp hpart
    obtain ⟨piece, hpiece, rfl⟩ := List.mem_map.mp hmem
    rw [(itemOf_spec (Layout.trim_trim piece) (of_decide_eq_true hne)).1.balance,
      Layout.balance_trim, hbefore piece hpiece]
  have hsum : ∀ {its : List Item}, its.Sublist (said (pieces.map layout.trim)) →
      (its.map fun it => layout.balance it.text).sum = 0 := fun hsub =>
    List.sum_eq_zero (List.forall_mem_map.mpr fun it hit => hzero it (hsub.subset hit))
  rw [((items_perm h).map _).sum_eq, hlast, htexts]
  by_cases hblank : layout.trim last = []
  · have hsaid : said (pieces.map layout.trim ++ [layout.trim last]) =
        said (pieces.map layout.trim) := by
      rw [said, List.filter_append, hblank]
      simp [said]
    rw [hsaid, hsum (lastItems_sublist _), ← Layout.balance_trim last, hblank]
    rfl
  · have hsaid : said (pieces.map layout.trim ++ [layout.trim last]) =
        said (pieces.map layout.trim) ++ [itemOf (layout.trim last)] := by
      simp [said, hblank]
    obtain ⟨kept, hsub, hkept⟩ := lastItems_concat (said (pieces.map layout.trim))
      (itemOf (layout.trim last))
    rw [hsaid, hkept, List.map_append, List.sum_append, hsum hsub]
    have halike := (itemOf_spec (Layout.trim_trim (m := layout) last) hblank).1.balance
    simp [halike]

theorem length_items_le (h : parseParts inner = .ok s) :
    (items s).length ≤ (layout.pieces inner).length := by
  rw [(items_perm h).length_eq]
  refine (lastItems_sublist _).length_le.trans ?_
  rw [said, List.length_map]
  refine (List.length_filter_le _ _).trans ?_
  rw [pieceTexts, List.length_map]

theorem sepAt_of_pieces {d : ℤ} (h : (∃ piece ∈ layout.pieces inner, layout.SepAt d piece) ∨
    (d = 0 ∧ 2 ≤ (layout.pieces inner).length)) : layout.SepAt d inner := by
  have hjoin := Layout.join_piecesFrom (m := layout) 0 inner
  rw [← Layout.pieces] at hjoin
  rw [← hjoin]
  exact (Layout.sepAt_join fun a ha => Layout.balance_of_mem_pieces ha).mpr h

/-- The items, printed one after the other, have commas only as deep as the text has. -/
theorem sepAt_items (h : parseParts inner = .ok s)
    (hbalanced : ∀ it ∈ (items s).dropLast, layout.balance it.text = 0) {d : ℤ}
    (hsep : layout.SepAt d (listed ((items s).map Item.text))) : layout.SepAt d inner := by
  have hbalanced' : ∀ a ∈ ((items s).map Item.text).dropLast, layout.balance a = 0 := by
    rw [← List.map_dropLast]
    exact List.forall_mem_map.mpr hbalanced
  refine sepAt_of_pieces ?_
  rcases (sepAt_listed hbalanced').mp hsep with ⟨a, ha, hsep⟩ | ⟨hd, hlength⟩
  · obtain ⟨it, hit, rfl⟩ := List.mem_map.mp ha
    obtain ⟨piece, hpiece, halike⟩ := exists_piece h hit
    exact Or.inl ⟨piece, hpiece, (halike.sepAt d).mp hsep⟩
  · rw [List.length_map] at hlength
    exact Or.inr ⟨hd, hlength.trans (length_items_le h)⟩

end Kept

end Tessra.Oplog.Standard
