import Tessra.Data.Lists
import Tessra.Semantic.Imports

namespace Tessra.Semantic.Imports

/-! Where the expansion of braces goes out of range, and what it makes of use trees. -/

/-- Text where some group that the expansion comes to is closed before it is opened. -/
inductive Crossed : Text → Prop
  | here {a b : Text} (ha : '{' ∉ a) (ha' : '}' ∈ a) (hb : '}' ∉ b) (hb' : '{' ∈ b) :
      Crossed (a ++ b)
  | inside {front inner back item : Text} (hfront : '{' ∉ front) (hback : '}' ∉ back)
      (hitem : item ∈ splitTop 0 [] inner) (h : Crossed item) :
      Crossed (front ++ '{' :: (inner ++ '}' :: back))

variable {s a b tree front inner back item rest : Text} {c : Char} {depth : ℕ}

section Trimming

theorem exists_trim (s : Text) : ∃ front back, s = front ++ trim s ++ back ∧
    (∀ c ∈ front, isWhitespace c = true) ∧ ∀ c ∈ back, isWhitespace c = true := by
  refine ⟨s.takeWhile isWhitespace, (s.dropWhile isWhitespace).rtakeWhile isWhitespace, ?_,
    fun x hx => List.mem_takeWhile_imp hx, fun x hx => List.mem_rtakeWhile_imp hx⟩
  rw [List.append_assoc, trim, List.rdropWhile_append_rtakeWhile, List.takeWhile_append_dropWhile]

theorem mem_trim (hc : isWhitespace c = false) : c ∈ trim s ↔ c ∈ s := by
  obtain ⟨front, back, hs, hfront, hback⟩ := exists_trim s
  conv_rhs => rw [hs]
  have hf : c ∉ front := fun h => by simp [hfront c h] at hc
  have hb : c ∉ back := fun h => by simp [hback c h] at hc
  simp [hf, hb]

theorem dropWhile_append_cons (hc : isWhitespace c = false) (a b : Text) :
    (a ++ c :: b).dropWhile isWhitespace = a.dropWhile isWhitespace ++ c :: b := by
  induction a with
  | nil => simp [hc]
  | cons x a ih =>
      rw [List.cons_append, List.dropWhile_cons, List.dropWhile_cons]
      split_ifs
      · exact ih
      · rfl

theorem rdropWhile_append_cons (hc : isWhitespace c = false) (a b : Text) :
    (a ++ c :: b).rdropWhile isWhitespace = a ++ c :: b.rdropWhile isWhitespace := by
  rw [List.rdropWhile, List.reverse_append, List.reverse_cons, List.append_assoc,
    List.singleton_append, dropWhile_append_cons hc]
  simp [List.rdropWhile]

/-- Only what stands outside of two characters that are kept is trimmed. -/
theorem trim_between {d : Char} (hc : isWhitespace c = false) (hd : isWhitespace d = false)
    (front inner back : Text) :
    trim (front ++ c :: (inner ++ d :: back)) = front.dropWhile isWhitespace ++
      c :: (inner ++ d :: back.rdropWhile isWhitespace) := by
  rw [trim, dropWhile_append_cons hc, ← List.cons_append, ← List.append_assoc,
    rdropWhile_append_cons hd, List.append_assoc, List.cons_append]

theorem trim_dropWhile (s : Text) : trim (s.dropWhile isWhitespace) = trim s := by
  rw [trim, List.dropWhile_idempotent, trim]

end Trimming

section Expanding

theorem ne_of_notMem (h : c ∉ s) : ∀ x ∈ s, decide (x ≠ c) = true := by
  intro x hx
  refine decide_eq_true fun heq => h ?_
  rwa [← heq]

theorem group_append (hfront : '{' ∉ front) (hback : '}' ∉ back) :
    group (front ++ '{' :: (inner ++ '}' :: back)) = some (front, inner) := by
  have htake : (front ++ '{' :: (inner ++ '}' :: back)).takeWhile (· ≠ '{') = front := by
    rw [List.takeWhile_append_of_pos (ne_of_notMem hfront)]
    simp
  have hclosed : (front ++ '{' :: (inner ++ '}' :: back)).rdropWhile (· ≠ '}') =
      (front ++ '{' :: inner) ++ ['}'] := by
    rw [List.rdropWhile, show front ++ '{' :: (inner ++ '}' :: back) =
      ((front ++ '{' :: inner) ++ ['}']) ++ back by simp, List.reverse_append,
      List.dropWhile_append_of_pos (ne_of_notMem (by rwa [List.mem_reverse]))]
    simp
  rw [group, htake, hclosed]
  simp only [List.length_append, List.length_cons, List.length_nil, Nat.zero_add,
    Nat.add_sub_cancel]
  rw [if_pos (by omega)]
  congr 2
  rw [show front ++ '{' :: (inner ++ '}' :: back) =
    (front ++ '{' :: inner) ++ '}' :: back by simp,
    show front.length + (inner.length + 1) = (front ++ '{' :: inner).length by simp,
    List.take_left, show front ++ '{' :: inner = (front ++ ['{']) ++ inner by simp,
    show front.length + 1 = (front ++ ['{']).length by simp, List.drop_left]

theorem group_crossed (ha : '{' ∉ a) (hb : '}' ∉ b) :
    group (a ++ b) = none := by
  have htake : a.length ≤ ((a ++ b).takeWhile (· ≠ '{')).length := by
    rw [List.takeWhile_append_of_pos (ne_of_notMem ha), List.length_append]
    exact Nat.le_add_right _ _
  have hclosed : ((a ++ b).rdropWhile (· ≠ '}')).length ≤ a.length := by
    rw [List.rdropWhile, List.reverse_append,
      List.dropWhile_append_of_pos (ne_of_notMem (by rwa [List.mem_reverse])),
      List.length_reverse]
    exact (List.dropWhile_sublist _).length_le.trans (List.length_reverse).le
  rw [group, if_neg (by omega)]

/-- Text with both braces, at its first opening one and its last closing one. -/
theorem braces_cases (hopen : '{' ∈ s) (hclose : '}' ∈ s) :
    (∃ front inner back, s = front ++ '{' :: (inner ++ '}' :: back) ∧ '{' ∉ front ∧
      '}' ∉ back) ∨
    ∃ a b, s = a ++ b ∧ '{' ∉ a ∧ '}' ∈ a ∧ '}' ∉ b ∧ '{' ∈ b := by
  obtain ⟨front, rest, rfl, hfront⟩ := List.eq_append_cons_of_mem hopen
  by_cases hrest : '}' ∈ rest
  · obtain ⟨back, inner, hsplit, hback⟩ :=
      List.eq_append_cons_of_mem (List.mem_reverse.mpr hrest)
    rw [List.reverse_eq_iff] at hsplit
    simp only [List.reverse_append, List.reverse_cons, List.append_assoc,
      List.singleton_append] at hsplit
    exact .inl ⟨front, inner.reverse, back.reverse, by rw [hsplit], hfront, by simpa using hback⟩
  · refine .inr ⟨front, '{' :: rest, rfl, hfront, ?_, by simpa using hrest, List.mem_cons_self⟩
    rcases List.mem_append.mp hclose with h | h
    · exact h
    · exact absurd h (by simpa using hrest)

/-- What stands under a prefix. -/
def under (pre sub : Text) : Text := if pre = [] then sub else pre ++ text "::" ++ sub

theorem expandBraces_plain (h : '{' ∉ tree) : expandBraces tree =
    some (if trim (beforeAs (trim tree)) = [] then [] else [trim (beforeAs (trim tree))]) := by
  rw [expandBraces, if_pos]
  rwa [mem_trim (by decide)]

theorem expandBraces_unclosed (h : '{' ∈ tree) (h' : '}' ∉ tree) :
    expandBraces tree = some [] := by
  rw [expandBraces, if_neg, if_pos]
  · rwa [mem_trim (by decide)]
  · rwa [not_not, mem_trim (by decide)]

theorem expandBraces_none (h : '{' ∈ tree) (h' : '}' ∈ tree) (hgroup : group (trim tree) = none) :
    expandBraces tree = none := by
  rw [expandBraces, if_neg (by rwa [not_not, mem_trim (by decide)]),
    if_neg (by rwa [not_not, mem_trim (by decide)])]
  split
  · rfl
  · rename_i heq
    rw [hgroup] at heq
    cases heq

theorem expandBraces_group (hfront : '{' ∉ front) (hback : '}' ∉ back) :
    expandBraces (front ++ '{' :: (inner ++ '}' :: back)) =
      ((splitTop 0 [] inner).mapM expandBraces).map fun subs =>
        subs.flatten.map (under (trimColons (trim front))) := by
  have hgroup : group (trim (front ++ '{' :: (inner ++ '}' :: back))) =
      some (front.dropWhile isWhitespace, inner) := by
    rw [trim_between (by decide) (by decide)]
    exact group_append (fun h => hfront ((List.dropWhile_sublist _).subset h))
      (fun h => hback ((List.rdropWhile_prefix _ _).subset h))
  rw [expandBraces, if_neg (by rw [not_not, mem_trim (by decide)]; simp),
    if_neg (by rw [not_not, mem_trim (by decide)]; simp)]
  split
  · rename_i heq
    rw [hgroup] at heq
    cases heq
  · rename_i heq
    rw [hgroup] at heq
    cases heq
    have hattach : ((splitTop 0 [] inner).attach.mapM fun item => expandBraces item.1) =
        (splitTop 0 [] inner).mapM expandBraces := by
      conv_rhs => rw [← List.attach_map_subtype_val (splitTop 0 [] inner), List.mapM_map]
      rfl
    rw [trim_dropWhile, hattach]
    rfl

theorem mapM_eq_none {α β : Type} {f : α → Option β} {l : List α} :
    l.mapM f = none ↔ ∃ x ∈ l, f x = none := by
  induction l with
  | nil => simp
  | cons x l ih =>
      rw [List.mapM_cons]
      cases hx : f x with
      | none => simp [hx]
      | some y =>
          cases hl : l.mapM f with
          | none => simpa [hx, hl] using ih.mp hl
          | some ys =>
              refine iff_of_false (by simp) ?_
              rintro ⟨z, hz, hnone⟩
              rcases List.mem_cons.mp hz with rfl | hz
              · rw [hx] at hnone
                cases hnone
              · have hnil := ih.mpr ⟨z, hz, hnone⟩
                rw [hl] at hnil
                cases hnil

/-- The expansion is out of range just where the text is crossed. -/
theorem expandBraces_eq_none : expandBraces tree = none ↔ Crossed tree := by
  induction hn : tree.length using Nat.strong_induction_on generalizing tree with
  | _ n ih =>
    subst hn
    by_cases hopen : '{' ∈ tree
    swap
    · refine iff_of_false (by simp [expandBraces_plain hopen]) fun h => hopen ?_
      cases h with
      | here _ _ _ hb' => exact List.mem_append_right _ hb'
      | inside => simp
    by_cases hclose : '}' ∈ tree
    swap
    · refine iff_of_false (by simp [expandBraces_unclosed hopen hclose]) fun h => hclose ?_
      cases h with
      | here _ ha' => exact List.mem_append_left _ ha'
      | inside => simp
    obtain ⟨front, inner, back, rfl, hfront, hback⟩ | ⟨a, b, rfl, ha, ha', hb, hb'⟩ :=
      braces_cases hopen hclose
    · rw [expandBraces_group hfront hback, Option.map_eq_none_iff, mapM_eq_none]
      have hlt : ∀ item ∈ splitTop 0 [] inner, item.length <
          (front ++ '{' :: (inner ++ '}' :: back)).length := by
        intro item hitem
        have hle := length_splitTop hitem
        simp only [List.length_append, List.length_cons, List.length_nil] at hle ⊢
        omega
      constructor
      · rintro ⟨item, hitem, hnone⟩
        exact .inside hfront hback hitem ((ih _ (hlt item hitem) rfl).mp hnone)
      · intro h
        have hgroup : group (front ++ '{' :: (inner ++ '}' :: back)) = some (front, inner) :=
          group_append hfront hback
        generalize front ++ '{' :: (inner ++ '}' :: back) = tree at h hgroup
        cases h with
        | here ha _ hb _ =>
            rw [group_crossed ha hb] at hgroup
            cases hgroup
        | inside hfront' hback' hitem h =>
            rw [group_append hfront' hback'] at hgroup
            cases hgroup
            exact ⟨_, hitem, (ih _ (hlt _ hitem) rfl).mpr h⟩
    · refine iff_of_true (expandBraces_none hopen hclose ?_) (.here ha ha' hb hb')
      obtain ⟨a₁, a₂, rfl⟩ := List.append_of_mem ha'
      obtain ⟨b₁, b₂, rfl⟩ := List.append_of_mem hb'
      have htrim := trim_between (c := '}') (d := '{') (by decide) (by decide) a₁ (a₂ ++ b₁) b₂
      rw [show a₁ ++ '}' :: a₂ ++ (b₁ ++ '{' :: b₂) = a₁ ++ '}' :: (a₂ ++ b₁ ++ '{' :: b₂)
        by simp, htrim, show a₁.dropWhile isWhitespace ++ '}' :: (a₂ ++ b₁ ++ '{' ::
          b₂.rdropWhile isWhitespace) = (a₁.dropWhile isWhitespace ++ '}' :: a₂) ++
          (b₁ ++ '{' :: b₂.rdropWhile isWhitespace) by simp]
      refine group_crossed (fun h => ha ?_) fun h => hb ?_
      · exact List.Sublist.subset ((List.dropWhile_sublist _).append_right _) h
      · refine List.Sublist.subset (List.Sublist.append_left (List.Sublist.cons_cons _ ?_) _) h
        exact (List.rdropWhile_prefix _ _).sublist

end Expanding

section Trees

/-- A name of a path: nothing in it is blank or has a meaning in a use tree. -/
structure Segment where
  chars : Text
  nonempty : chars ≠ []
  plain : ∀ c ∈ chars, isWhitespace c = false ∧ c ∉ ['{', '}', ',', ':']

/-- White space. -/
structure Blank where
  chars : Text
  blank : ∀ c ∈ chars, isWhitespace c = true

mutual
/-- A path with the name it is given, or a group under a path. -/
inductive UseTree
  | path (first : Segment) (more : List Segment) (rename : Option Segment)
  | group (prefixed : List Segment) (items : UseItems)

/-- The items of a group, with the blanks around them, and a comma after the last or none. -/
inductive UseItems
  | done (trailing : Option Blank)
  | more (before : Blank) (tree : UseTree) (after : Blank) (items : UseItems)
end

def pathText (segments : List Segment) : Text :=
  (text "::").intercalate (segments.map Segment.chars)

mutual
def UseTree.text : UseTree → Text
  | .path first more rename => pathText (first :: more) ++
      (rename.elim [] fun n => Imports.text " as " ++ n.chars)
  | .group prefixed items =>
      (if prefixed = [] then [] else pathText prefixed ++ Imports.text "::") ++
        '{' :: (([','] : Text).intercalate items.pieces ++ ['}'])

def UseItems.pieces : UseItems → List Text
  | .done trailing => trailing.toList.map Blank.chars
  | .more before tree after items =>
      (before.chars ++ tree.text ++ after.chars) :: items.pieces
end

mutual
def UseTree.leaves : UseTree → List Text
  | .path first more _ => [pathText (first :: more)]
  | .group prefixed items => items.leaves.map (under (pathText prefixed))

def UseItems.leaves : UseItems → List Text
  | .done _ => []
  | .more _ tree _ items => tree.leaves ++ items.leaves
end

/-- A use tree as a statement has it, which may start at the root of all crates. -/
structure UseDecl where
  before : Blank
  global : Bool
  tree : UseTree
  after : Blank

def UseDecl.root (d : UseDecl) : Text := if d.global then text "::" else []

def UseDecl.text (d : UseDecl) : Text :=
  d.before.chars ++ (d.root ++ d.tree.text) ++ d.after.chars

def UseDecl.leaves (d : UseDecl) : List Text := d.tree.leaves.map (d.root ++ ·)

end Trees

section Splitting

/-- Text that is within one item of any group. -/
def Level (s : Text) : Prop := ∀ depth item rest,
  splitTop depth item (s ++ rest) = splitTop depth (item ++ s) rest

/-- Text that is within one item when it stands in braces. -/
def Nested (s : Text) : Prop := ∀ depth item rest,
  splitTop (depth + 1) item (s ++ rest) = splitTop (depth + 1) (item ++ s) rest

theorem Level.nested (h : Level s) : Nested s := fun depth => h (depth + 1)

theorem level_nil : Level [] := fun depth item rest => by rw [List.append_nil]; rfl

theorem Level.append (ha : Level a) (hb : Level b) : Level (a ++ b) := by
  intro depth item rest
  rw [List.append_assoc, ha, hb, List.append_assoc]

theorem Nested.append (ha : Nested a) (hb : Nested b) : Nested (a ++ b) := by
  intro depth item rest
  rw [List.append_assoc, ha, hb, List.append_assoc]

theorem nested_comma : Nested [','] := by
  intro depth item rest
  rw [List.singleton_append, splitTop, if_neg (by decide), if_neg (by decide),
    if_neg (by omega)]

theorem level_of_forall (h : ∀ c ∈ s, c ∉ ['{', '}', ',']) : Level s := by
  induction s with
  | nil => exact level_nil
  | cons c s ih =>
      obtain ⟨hc, hs⟩ := List.forall_mem_cons.mp h
      simp only [List.mem_cons, List.not_mem_nil, or_false, not_or] at hc
      intro depth item rest
      rw [List.cons_append, splitTop, if_neg hc.1, if_neg hc.2.1,
        if_neg fun h => hc.2.2 h.1, ih hs]
      simp

/-- Braces around what is nested make one item. -/
theorem Nested.braces (h : Nested s) : Level ('{' :: (s ++ ['}'])) := by
  intro depth item rest
  rw [List.cons_append, splitTop, if_pos rfl, List.append_assoc, h, List.singleton_append,
    splitTop, if_neg (by decide), if_pos rfl]
  simp

theorem Nested.intercalate {l : List Text} (h : ∀ s ∈ l, Level s) :
    Nested (([','] : Text).intercalate l) := by
  induction l with
  | nil => exact level_nil.nested
  | cons a l ih =>
      obtain ⟨ha, hl⟩ := List.forall_mem_cons.mp h
      cases l with
      | nil =>
          rw [List.intercalate_singleton]
          exact ha.nested
      | cons b l =>
          rw [List.intercalate_cons_cons]
          exact (ha.nested.append nested_comma).append (ih hl)

theorem splitTop_intercalate {l : List Text} (hne : l ≠ []) (h : ∀ s ∈ l, Level s) :
    splitTop 0 item (([','] : Text).intercalate l) =
      (item ++ l.head hne) :: l.tail := by
  induction l generalizing item with
  | nil => exact absurd rfl hne
  | cons a l ih =>
      obtain ⟨ha, hl⟩ := List.forall_mem_cons.mp h
      cases l with
      | nil =>
          rw [List.intercalate_singleton]
          have hend := ha 0 item []
          rw [List.append_nil] at hend
          rw [hend]
          rfl
      | cons b l =>
          rw [List.intercalate_cons_cons, List.append_assoc, ha, List.singleton_append, splitTop,
            if_neg (by decide), if_neg (by decide), if_pos ⟨rfl, rfl⟩, ih (by simp) hl]
          rfl

variable {segment : Segment} {segments : List Segment} {blank : Blank}

theorem Blank.not_mem (hc : isWhitespace c = false) : c ∉ blank.chars := fun h => by
  rw [blank.blank c h] at hc
  cases hc

theorem Blank.level (blank : Blank) : Level blank.chars := by
  refine level_of_forall fun c hc hmem => ?_
  have hblank := blank.blank c hc
  simp only [List.mem_cons, List.not_mem_nil, or_false] at hmem
  rcases hmem with rfl | rfl | rfl <;> exact absurd hblank (by decide)

theorem mem_pathText (h : c ∈ pathText segments) :
    isWhitespace c = false ∧ c ∉ ['{', '}', ','] := by
  induction segments with
  | nil => cases h
  | cons s segments ih =>
      have hs : ∀ c ∈ s.chars, isWhitespace c = false ∧ c ∉ ['{', '}', ','] := by
        intro c hc
        obtain ⟨hblank, hmem⟩ := s.plain c hc
        exact ⟨hblank, fun h => hmem (List.mem_append_left [':'] h)⟩
      cases segments with
      | nil =>
          rw [pathText, List.map_singleton, List.intercalate_singleton] at h
          exact hs c h
      | cons s' segments =>
          rw [pathText, List.map_cons, List.map_cons, List.intercalate_cons_cons] at h
          rcases List.mem_append.mp h with h | h
          · rcases List.mem_append.mp h with h | h
            · exact hs c h
            · have hcolon : c = ':' := by simpa [text] using h
              rw [hcolon]
              decide
          · exact ih h

theorem level_pathText (segments : List Segment) : Level (pathText segments) :=
  level_of_forall fun _ hc => (mem_pathText hc).2

theorem level_rename (rename : Option Segment) :
    Level (rename.elim [] fun n => text " as " ++ n.chars) := by
  cases rename with
  | none => exact level_nil
  | some n =>
      refine Level.append (level_of_forall (by simp [text])) (level_of_forall fun c hc h => ?_)
      exact (n.plain c hc).2 (List.mem_append_left [':'] h)

mutual
theorem UseTree.level : ∀ t : UseTree, Level t.text
  | .path first more rename => by
      rw [UseTree.text]
      exact (level_pathText _).append (level_rename rename)
  | .group prefixed items => by
      rw [UseTree.text]
      refine Level.append ?_ (Nested.intercalate items.level).braces
      split_ifs
      · exact level_nil
      · exact (level_pathText _).append (level_of_forall (by simp [Imports.text]))

theorem UseItems.level : ∀ (items : UseItems), ∀ s ∈ items.pieces, Level s
  | .done trailing => by
      rw [UseItems.pieces]
      intro s hs
      obtain ⟨b, -, rfl⟩ := List.mem_map.mp hs
      exact b.level
  | .more before tree after items => by
      rw [UseItems.pieces]
      exact List.forall_mem_cons.mpr
        ⟨(before.level.append tree.level).append after.level, items.level⟩
end

end Splitting

section Leaves

variable {p : Text} {segments : List Segment} {before after : Blank} {root : Text}

theorem trim_blank (before after : Blank) (hfirst : ∀ c ∈ s.head?, isWhitespace c = false)
    (hlast : ∀ c ∈ s.getLast?, isWhitespace c = false) :
    trim (before.chars ++ s ++ after.chars) = s := by
  rw [trim, List.append_assoc, List.dropWhile_append_of_pos before.blank]
  have hback : ∀ c ∈ after.chars.reverse, isWhitespace c = true := fun c hc =>
    after.blank c (List.mem_reverse.mp hc)
  cases s with
  | nil =>
      rw [List.nil_append, List.dropWhile_eq_nil_iff.mpr after.blank]
      rfl
  | cons c s =>
      rw [List.cons_append, List.dropWhile_cons_of_neg (by simp [hfirst c rfl]),
        ← List.cons_append, List.rdropWhile, List.reverse_append,
        List.dropWhile_append_of_pos hback]
      cases hrev : (c :: s).reverse with
      | nil => simp at hrev
      | cons d r =>
          have hd : (c :: s).getLast? = some d := by
            rw [List.getLast?_eq_head?_reverse, hrev]
            rfl
          rw [List.dropWhile_cons_of_neg (by simp [hlast d hd]), ← hrev, List.reverse_reverse]

theorem trim_nonblank (before after : Blank) (h : ∀ c ∈ s, isWhitespace c = false) :
    trim (before.chars ++ s ++ after.chars) = s :=
  trim_blank before after (fun c hc => h c (List.mem_of_mem_head? hc))
    fun c hc => h c (List.mem_of_mem_getLast? hc)

theorem splitOnce_as (hp : ∀ c ∈ p, isWhitespace c = false) (r : Text) :
    splitOnce (text " as ") (p ++ r) =
      (splitOnce (text " as ") r).map fun e => (p ++ e.1, e.2) := by
  induction p with
  | nil =>
      rw [List.nil_append]
      cases splitOnce (text " as ") r <;> rfl
  | cons c p ih =>
      obtain ⟨hc, hp⟩ := List.forall_mem_cons.mp hp
      have hne : c ≠ ' ' := by
        rintro rfl
        exact absurd hc (by decide)
      have hstart : (text " as ").isPrefixOf (c :: (p ++ r)) = false := by
        simp [text, List.isPrefixOf, Ne.symm hne]
      rw [List.cons_append, splitOnce, if_neg (by simp [hstart]), ih hp]
      cases splitOnce (text " as ") r <;> rfl

theorem beforeAs_nonblank (hp : ∀ c ∈ p, isWhitespace c = false) : beforeAs p = p := by
  have h := splitOnce_as hp []
  rw [List.append_nil] at h
  rw [beforeAs, h]
  rfl

theorem beforeAs_as (hp : ∀ c ∈ p, isWhitespace c = false) (n : Text) :
    beforeAs (p ++ (text " as " ++ n)) = p := by
  have hsplit : splitOnce (text " as ") (text " as " ++ n) = some ([], n) := by
    simp [text, splitOnce, List.isPrefixOf]
  rw [beforeAs, splitOnce_as hp, hsplit, Option.map_some, Option.map_some, Option.getD_some,
    List.append_nil]

theorem dropColons_of_head (h : ∀ c ∈ s.head?, c ≠ ':') : dropColons s = s := by
  cases s with
  | nil => rfl
  | cons c s =>
      have hc := h c rfl
      unfold dropColons
      split
      · rename_i heq
        exact absurd (List.cons.inj heq).1 hc
      · rfl

theorem trimColons_path (h : ∀ c ∈ p.getLast?, c ≠ ':') : trimColons (p ++ text "::") = p := by
  have hreverse : (p ++ text "::").reverse = ':' :: ':' :: p.reverse := by simp [text]
  rw [trimColons, hreverse, dropColons, dropColons_of_head, List.reverse_reverse]
  rwa [List.head?_reverse]

theorem pathText_cons_ne_nil (first : Segment) (more : List Segment) :
    pathText (first :: more) ≠ [] := by
  rw [pathText, List.map_cons]
  cases more with
  | nil =>
      rw [List.map_nil, List.intercalate_singleton]
      exact first.nonempty
  | cons s more =>
      rw [List.map_cons, List.intercalate_cons_cons]
      simp [first.nonempty]

theorem getLast_pathText (first : Segment) (more : List Segment) :
    ∀ c ∈ (pathText (first :: more)).getLast?, c ≠ ':' := by
  induction more generalizing first with
  | nil =>
      intro c hc
      rw [pathText, List.map_singleton, List.intercalate_singleton] at hc
      rintro rfl
      exact (first.plain _ (List.mem_of_mem_getLast? hc)).2 (by decide)
  | cons s more ih =>
      intro c hc
      rw [pathText, List.map_cons, List.map_cons, List.intercalate_cons_cons] at hc
      change c ∈ (first.chars ++ text "::" ++ pathText (s :: more)).getLast? at hc
      rw [List.getLast?_append_of_ne_nil _ (pathText_cons_ne_nil s more)] at hc
      exact ih s c hc

/-- What a path may start with. -/
def IsRoot (root : Text) : Prop := root = [] ∨ root = text "::"

theorem IsRoot.nonblank (h : IsRoot root) : ∀ c ∈ root, isWhitespace c = false ∧ c ≠ '{' := by
  rcases h with rfl | rfl
  · simp
  · have hcolon : ∀ c ∈ text "::", c = ':' := by simp [text]
    intro c hc
    rw [hcolon c hc]
    decide

theorem expandBraces_blank (b : Blank) : expandBraces b.chars = some [] := by
  have htrim := trim_nonblank (s := []) b ⟨[], by simp⟩ (by simp)
  rw [List.append_nil, List.append_nil] at htrim
  rw [expandBraces_plain (Blank.not_mem (by decide)), htrim]
  rfl

theorem expand_path (hroot : IsRoot root) (before after : Blank) (first : Segment)
    (more : List Segment) (rename : Option Segment) :
    expandBraces (before.chars ++ (root ++ (UseTree.path first more rename).text) ++
      after.chars) = some [root ++ pathText (first :: more)] := by
  have hpath : ∀ c ∈ root ++ pathText (first :: more), isWhitespace c = false := by
    intro c hc
    rcases List.mem_append.mp hc with hc | hc
    · exact (hroot.nonblank c hc).1
    · exact (mem_pathText hc).1
  have hopen : '{' ∉ root ++ pathText (first :: more) := by
    intro h
    rcases List.mem_append.mp h with h | h
    · exact (hroot.nonblank _ h).2 rfl
    · exact (mem_pathText h).2 (by decide)
  have hne : root ++ pathText (first :: more) ≠ [] := by simp [pathText_cons_ne_nil]
  have hself : trim (root ++ pathText (first :: more)) = root ++ pathText (first :: more) := by
    have h := trim_nonblank ⟨[], by simp⟩ ⟨[], by simp⟩ hpath
    rwa [List.nil_append, List.append_nil] at h
  rw [UseTree.text, ← List.append_assoc root]
  cases rename with
  | none =>
      rw [Option.elim_none, List.append_nil, expandBraces_plain, trim_nonblank _ _ hpath,
        beforeAs_nonblank hpath, hself, if_neg hne]
      simp only [List.mem_append, not_or] at hopen ⊢
      exact ⟨⟨Blank.not_mem (by decide), hopen⟩, Blank.not_mem (by decide)⟩
  | some n =>
      have hn : '{' ∉ n.chars := fun h => (n.plain _ h).2 (by decide)
      rw [Option.elim_some, expandBraces_plain, trim_blank, beforeAs_as hpath, hself, if_neg hne]
      · intro c hc
        rw [List.head?_append_of_ne_nil _ hne] at hc
        exact hpath c (List.mem_of_mem_head? hc)
      · intro c hc
        rw [List.getLast?_append_of_ne_nil _ (by simp [n.nonempty]),
          List.getLast?_append_of_ne_nil _ n.nonempty] at hc
        exact (n.plain c (List.mem_of_mem_getLast? hc)).1
      · simp only [List.mem_append, not_or] at hopen ⊢
        exact ⟨⟨Blank.not_mem (by decide), hopen, by simp [text], hn⟩,
          Blank.not_mem (by decide)⟩

/-- What a group stands under: the root alone is lost. -/
def groupPrefix (root : Text) (prefixed : List Segment) : Text :=
  if prefixed = [] then [] else root ++ pathText prefixed

theorem trimColons_front (hroot : IsRoot root) (before : Blank) (prefixed : List Segment) :
    trimColons (trim (before.chars ++ (root ++
      if prefixed = [] then [] else pathText prefixed ++ text "::"))) =
        groupPrefix root prefixed := by
  have hblank : ∀ c ∈ root ++ (if prefixed = [] then [] else pathText prefixed ++ text "::"),
      isWhitespace c = false := by
    intro c hc
    rcases List.mem_append.mp hc with hc | hc
    · exact (hroot.nonblank c hc).1
    · split_ifs at hc with hnil
      · cases hc
      · rcases List.mem_append.mp hc with hc | hc
        · exact (mem_pathText hc).1
        · exact ((show IsRoot (text "::") from .inr rfl).nonblank c hc).1
  have htrim := trim_nonblank before ⟨[], by simp⟩ hblank
  rw [List.append_nil] at htrim
  rw [htrim, groupPrefix]
  split_ifs with hnil
  · rw [List.append_nil]
    rcases hroot with rfl | rfl
    · rfl
    · exact trimColons_path (p := []) (by simp)
  · obtain ⟨first, more, rfl⟩ := List.exists_cons_of_ne_nil hnil
    rw [← List.append_assoc]
    refine trimColons_path fun c hc => ?_
    rw [List.getLast?_append_of_ne_nil _ (pathText_cons_ne_nil first more)] at hc
    exact getLast_pathText first more c hc

theorem expand_group (hroot : IsRoot root) (before after : Blank) (prefixed : List Segment)
    {items : UseItems} {subs : List (List Text)}
    (hsubs : items.pieces.mapM expandBraces = some subs)
    (hleaves : subs.flatten = items.leaves) :
    expandBraces (before.chars ++ (root ++ (UseTree.group prefixed items).text) ++
      after.chars) = some (items.leaves.map (under (groupPrefix root prefixed))) := by
  set front := before.chars ++ (root ++
    if prefixed = [] then [] else pathText prefixed ++ text "::") with hfront
  have hopen : '{' ∉ front := by
    rw [hfront]
    simp only [List.mem_append, not_or]
    refine ⟨Blank.not_mem (by decide), fun h => (hroot.nonblank _ h).2 rfl, fun h => ?_⟩
    split_ifs at h with hnil
    · cases h
    · rcases List.mem_append.mp h with h | h
      · exact (mem_pathText h).2 (by decide)
      · exact ((show IsRoot (text "::") from .inr rfl).nonblank _ h).2 rfl
  have htext : before.chars ++ (root ++ (UseTree.group prefixed items).text) ++ after.chars =
      front ++ '{' :: (([','] : Text).intercalate items.pieces ++ '}' :: after.chars) := by
    rw [UseTree.text, hfront]
    simp only [List.append_assoc, List.cons_append, List.nil_append]
  have hitems : ∃ subs', (splitTop 0 [] (([','] : Text).intercalate items.pieces)).mapM
      expandBraces = some subs' ∧ subs'.flatten = items.leaves := by
    by_cases hnil : items.pieces = []
    · rw [hnil] at hsubs ⊢
      cases hsubs
      have hempty := expandBraces_blank ⟨[], by simp⟩
      refine ⟨[[]], ?_, hleaves⟩
      rw [List.intercalate_nil, splitTop, List.mapM_cons, hempty]
      rfl
    · rw [splitTop_intercalate hnil items.level, List.nil_append, List.cons_head_tail]
      exact ⟨subs, hsubs, hleaves⟩
  obtain ⟨subs', hmap, hflat⟩ := hitems
  rw [htext, expandBraces_group hopen (Blank.not_mem (by decide)), hmap, Option.map_some, hflat,
    hfront, trimColons_front hroot]

theorem under_groupPrefix (prefixed : List Segment) (sub : Text) :
    under (groupPrefix [] prefixed) sub = under (pathText prefixed) sub := by
  rw [groupPrefix]
  split_ifs with hnil
  · rw [hnil]
    rfl
  · rfl

mutual
/-- The expansion of a use tree is its leaves. -/
theorem UseTree.expand : ∀ (t : UseTree) (before after : Blank),
    expandBraces (before.chars ++ t.text ++ after.chars) = some t.leaves
  | .path first more rename, before, after =>
      expand_path (.inl rfl) before after first more rename
  | .group prefixed items, before, after => by
      obtain ⟨subs, hsubs, hleaves⟩ := items.expand
      have h := expand_group (.inl rfl) before after prefixed hsubs hleaves
      rw [List.nil_append] at h
      rw [h, UseTree.leaves]
      exact congrArg some (List.map_congr_left fun sub _ => under_groupPrefix prefixed sub)

theorem UseItems.expand : ∀ items : UseItems, ∃ subs,
    items.pieces.mapM expandBraces = some subs ∧ subs.flatten = items.leaves
  | .done none => ⟨[], rfl, rfl⟩
  | .done (some b) => by
      refine ⟨[[]], ?_, rfl⟩
      rw [UseItems.pieces, Option.toList_some, List.map_singleton, List.mapM_cons,
        expandBraces_blank]
      rfl
  | .more before tree after items => by
      obtain ⟨subs, hsubs, hleaves⟩ := items.expand
      refine ⟨tree.leaves :: subs, ?_, ?_⟩
      · rw [UseItems.pieces, List.mapM_cons, tree.expand before after, hsubs]
        rfl
      · rw [List.flatten_cons, hleaves, UseItems.leaves]
end

end Leaves

section Results

/-- A group at the root of all crates, with nothing before it but `::`. -/
def UseDecl.Bare (d : UseDecl) : Prop :=
  d.global = true ∧ ∃ items, d.tree = .group [] items

theorem UseDecl.isRoot (d : UseDecl) : IsRoot d.root := by
  rw [UseDecl.root]
  split_ifs
  · exact .inr rfl
  · exact .inl rfl

theorem under_root (root : Text) {prefixed : List Segment} (h : prefixed ≠ []) (sub : Text) :
    under (groupPrefix root prefixed) sub = root ++ under (pathText prefixed) sub := by
  obtain ⟨first, more, rfl⟩ := List.exists_cons_of_ne_nil h
  have hne := pathText_cons_ne_nil first more
  rw [groupPrefix, if_neg h, under, under, if_neg hne, if_neg (by simp [hne])]
  simp only [List.append_assoc]

/-- A declaration expands to its leaves, unless it is a bare group that has some. -/
theorem UseDecl.expand_iff (d : UseDecl) :
    expandBraces d.text = some d.leaves ↔ ¬ (d.Bare ∧ d.leaves ≠ []) := by
  obtain ⟨before, global, tree, after⟩ := d
  cases tree with
  | path first more rename =>
      refine iff_of_true ?_ fun h => ?_
      · rw [UseDecl.text, expand_path (UseDecl.isRoot _), UseDecl.leaves, UseTree.leaves]
        rfl
      · obtain ⟨⟨-, items, hitems⟩, -⟩ := h
        cases hitems
  | group prefixed items =>
      obtain ⟨subs, hsubs, hleaves⟩ := items.expand
      rw [UseDecl.text, expand_group (UseDecl.isRoot _) before after prefixed hsubs hleaves,
        UseDecl.leaves, UseTree.leaves, List.map_map, Option.some.injEq]
      by_cases hnil : prefixed = []
      · subst hnil
        cases global with
        | false => exact iff_of_true rfl fun h => absurd h.1.1 (by simp)
        | true =>
            cases hitems : items.leaves with
            | nil => simp
            | cons sub subs =>
                refine iff_of_false (fun h => ?_) (not_not.mpr ⟨⟨rfl, items, rfl⟩, by simp⟩)
                have hhead := congrArg List.length (List.cons.inj h).1
                simp only [under, groupPrefix, UseDecl.root, pathText, if_true,
                  Function.comp_apply, List.map_nil, List.intercalate_nil, List.length_append]
                  at hhead
                have hroot : 0 < (Imports.text "::").length := by simp [Imports.text]
                omega
      · refine iff_of_true (List.map_congr_left fun sub _ => under_root _ hnil sub) fun h => ?_
        obtain ⟨⟨-, items', hitems⟩, -⟩ := h
        cases hitems
        exact hnil rfl

/-- Resolution panics on a statement of a Rust file whose tree is crossed, and on nothing
else. -/
theorem importedPaths_eq_none {path : Text} {statements : List Text} {exist : Text → Bool} :
    importedPaths path statements exist = none ↔
      fromPath path = some .rust ∧ ∃ s ∈ statements, ∃ tree ∈ useTree s, Crossed tree := by
  have hrust : ∀ s, rust path s exist = none ↔ ∃ tree ∈ useTree s, Crossed tree := by
    intro s
    rw [rust]
    cases useTree s with
    | none => simp
    | some tree => simp [expandBraces_eq_none]
  rw [importedPaths]
  cases fromPath path with
  | none => simp
  | some language =>
      cases language with
      | rust => simp only [Option.map_eq_none_iff, mapM_eq_none, hrust, true_and]
      | python => simp
      | javascript => simp
      | typeScript => simp
      | tsx => simp

/-- Import resolution returns, and a use tree expands to its leaves, just where no statement
of a Rust file is crossed and the tree is no bare group at the root of all crates. -/
theorem imports_exact_iff (path : Text) (statements : List Text) (exist : Text → Bool)
    (d : UseDecl) :
    ((∃ out, importedPaths path statements exist = some out) ∧
      expandBraces d.text = some d.leaves) ↔
    ¬ (fromPath path = some .rust ∧ ∃ s ∈ statements, ∃ tree ∈ useTree s, Crossed tree) ∧
      ¬ (d.Bare ∧ d.leaves ≠ []) := by
  rw [← importedPaths_eq_none, d.expand_iff, ← ne_eq, Option.ne_none_iff_exists']

section Samples

def noBlank : Blank := ⟨[], by simp⟩

def letterA : Segment := ⟨['a'], by simp, fun c hc => by
  rw [List.mem_singleton.mp hc]
  decide⟩

/-- `::{a}` -/
def bareDecl : UseDecl :=
  ⟨noBlank, true, .group [] (.more noBlank (.path letterA [] none) noBlank (.done none)), noBlank⟩

/-- A comment with braces after a path, as a Rust file may have it, and a bare group. -/
theorem crossed_statement :
    importedPaths ['a', '.', 'r', 's'] [text "use a::b /* \x7d\x7b */;"] (fun _ => false) = none ∧
    expandBraces bareDecl.text ≠ some bareDecl.leaves := by
  constructor
  · have hpath : fromPath ['a', '.', 'r', 's'] = some .rust := by decide +kernel
    have htree : useTree (text "use a::b /* \x7d\x7b */;") =
        some (text "a::b /* \x7d\x7b */") := rfl
    have hnone : expandBraces (text "a::b /* \x7d\x7b */") = none :=
      expandBraces_none (by decide +kernel) (by decide +kernel) (by decide +kernel)
    refine importedPaths_eq_none.mpr ⟨hpath, _, List.mem_singleton_self _, _, htree, ?_⟩
    exact expandBraces_eq_none.mp hnone
  · rw [ne_eq, bareDecl.expand_iff, not_not]
    exact ⟨⟨rfl, _, rfl⟩, by simp [bareDecl, UseDecl.leaves, UseTree.leaves, UseItems.leaves]⟩

end Samples

end Results

end Tessra.Semantic.Imports
