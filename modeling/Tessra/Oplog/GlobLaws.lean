import Tessra.Oplog.Glob

namespace Tessra.Oplog.Glob

/-! What patterns match, and which of the containments that `contained` finds
hold of every path. -/

section Segments

variable {p : List Char} {rest A B segs : List (List Char)}

theorem matchSegments_eq :
    matchSegments (p :: rest) segs =
      if p = ['*', '*'] then
        (List.range (segs.length + 1)).any fun i => matchSegments rest (segs.drop i)
      else
        match segs with
        | [] => false
        | s :: srest => matchChars p s && matchSegments rest srest := by
  cases segs <;> rfl

theorem matchSegments_stars :
    matchSegments (['*', '*'] :: rest) segs = true ↔
      ∃ s₁ s₂, segs = s₁ ++ s₂ ∧ matchSegments rest s₂ = true := by
  rw [matchSegments_eq, if_pos rfl, List.any_eq_true]
  constructor
  · intro h
    obtain ⟨i, _, h⟩ := h
    exact ⟨segs.take i, segs.drop i, (List.take_append_drop i segs).symm, h⟩
  · intro h
    obtain ⟨s₁, s₂, rfl, h⟩ := h
    refine ⟨s₁.length, ?_, ?_⟩
    · rw [List.mem_range, List.length_append]
      omega
    · rwa [List.drop_left]

theorem matchSegments_cons (hp : p ≠ ['*', '*']) :
    matchSegments (p :: rest) segs = true ↔
      ∃ s srest, segs = s :: srest ∧ matchChars p s = true ∧ matchSegments rest srest = true := by
  rw [matchSegments_eq, if_neg hp]
  cases segs with
  | nil => simp
  | cons s srest => simp

theorem matchSegments_append :
    matchSegments (A ++ B) segs = true ↔
      ∃ s₁ s₂, segs = s₁ ++ s₂ ∧ matchSegments A s₁ = true ∧ matchSegments B s₂ = true := by
  induction A generalizing segs with
  | nil => simp [matchSegments]
  | cons p rest ih =>
      rw [List.cons_append]
      by_cases hp : p = ['*', '*']
      · subst hp
        simp only [matchSegments_stars, ih]
        constructor
        · intro h
          obtain ⟨s₁, _, rfl, s₂, s₃, rfl, h₂, h₃⟩ := h
          exact ⟨s₁ ++ s₂, s₃, (List.append_assoc s₁ s₂ s₃).symm, ⟨s₁, s₂, rfl, h₂⟩, h₃⟩
        · intro h
          obtain ⟨_, s₃, rfl, ⟨s₁, s₂, rfl, h₂⟩, h₃⟩ := h
          exact ⟨s₁, s₂ ++ s₃, List.append_assoc s₁ s₂ s₃, s₂, s₃, rfl, h₂, h₃⟩
      · simp only [matchSegments_cons hp, ih]
        constructor
        · intro h
          obtain ⟨s, _, rfl, hs, s₁, s₂, rfl, h₁, h₂⟩ := h
          exact ⟨s :: s₁, s₂, rfl, ⟨s, s₁, rfl, hs, h₁⟩, h₂⟩
        · intro h
          obtain ⟨_, s₂, rfl, ⟨s, s₁, rfl, hs, h₁⟩, h₂⟩ := h
          exact ⟨s, s₁ ++ s₂, rfl, hs, s₁, s₂, rfl, h₁, h₂⟩

theorem matchSegments_last (hp : p ≠ ['*', '*']) :
    matchSegments [['*', '*'], p] segs = true ↔
      ∃ s₁ s, segs = s₁ ++ [s] ∧ matchChars p s = true := by
  rw [matchSegments_stars]
  constructor
  · intro h
    obtain ⟨s₁, s₂, rfl, h⟩ := h
    obtain ⟨s, srest, rfl, hs, hrest⟩ := (matchSegments_cons hp).mp h
    rw [matchSegments, List.isEmpty_iff] at hrest
    subst hrest
    exact ⟨s₁, s, rfl, hs⟩
  · intro h
    obtain ⟨s₁, s, rfl, hs⟩ := h
    exact ⟨s₁, [s], rfl, (matchSegments_cons hp).mpr ⟨s, [], rfl, hs, rfl⟩⟩

theorem matchSegments_all : matchSegments [['*', '*']] segs = true :=
  matchSegments_stars.mpr ⟨segs, [], (List.append_nil segs).symm, rfl⟩

theorem matchSegments_all_all : matchSegments [['*', '*'], ['*', '*']] segs = true :=
  matchSegments_stars.mpr ⟨[], segs, rfl, matchSegments_all⟩

/-- A segment that only its own text matches. -/
def IsLiteral (p : List Char) : Prop := '*' ∉ p ∧ '?' ∉ p

theorem matchChars_literal {s : List Char} (hp : IsLiteral p) (h : matchChars p s = true) :
    s = p := by
  induction p generalizing s with
  | nil => simpa [matchChars] using h
  | cons c rest ih =>
      obtain ⟨hstar, hmark⟩ := hp
      rw [List.mem_cons, not_or] at hstar hmark
      rw [matchChars, if_neg (Ne.symm hstar.1), if_neg (Ne.symm hmark.1)] at h
      cases s with
      | nil => simp at h
      | cons d s =>
          simp only [List.isEmpty_cons, Bool.not_false, Bool.true_and, List.head?_cons,
            Option.some.injEq, List.drop_succ_cons, List.drop_zero, Bool.and_eq_true,
            decide_eq_true_eq] at h
          rw [h.1, ih ⟨hstar.2, hmark.2⟩ h.2]

theorem IsLiteral.ne_stars (hp : IsLiteral p) : p ≠ ['*', '*'] := by
  rintro rfl
  exact hp.1 List.mem_cons_self

theorem matchSegments_literal (hA : ∀ p ∈ A, IsLiteral p) (h : matchSegments A segs = true) :
    segs = A := by
  induction A generalizing segs with
  | nil => simpa [matchSegments] using h
  | cons p rest ih =>
      have hp := hA p List.mem_cons_self
      obtain ⟨s, srest, rfl, hs, hrest⟩ := (matchSegments_cons hp.ne_stars).mp h
      rw [matchChars_literal hp hs, ih (fun q hq => hA q (List.mem_cons_of_mem p hq)) hrest]

end Segments

/-- The segments of a pattern that has a slash. -/
def segments (l : List Char) : List (List Char) := (l.splitOn '/').filter (· ≠ [])

theorem segments_append (u r : List Char) :
    segments (u ++ '/' :: r) = segments u ++ segments r := by
  rw [segments, List.splitOn_append_cons_self, List.filter_append, segments, segments]

/-- A path of named segments, as a tree has them. -/
def IsPath (path : String) : Prop := ∀ s ∈ path.toList.splitOn '/', s ≠ []

instance (path : String) : Decidable (IsPath path) :=
  inferInstanceAs (Decidable (∀ s ∈ path.toList.splitOn '/', s ≠ []))

theorem mem_intercalate {c x : Char} {s : List Char} {ls : List (List Char)} (hs : s ∈ ls)
    (hc : c ∈ s) : c ∈ [x].intercalate ls := by
  induction ls with
  | nil => cases hs
  | cons l rest ih =>
      cases rest with
      | nil =>
          rw [List.mem_singleton] at hs
          rwa [List.intercalate_singleton, ← hs]
      | cons l' rest =>
          rw [List.intercalate_cons_cons, List.mem_append, List.mem_append]
          rcases List.mem_cons.mp hs with rfl | hs
          · exact .inl (.inl hc)
          · exact .inr (ih hs)

theorem mem_of_mem_splitOn {l s : List Char} {c : Char} (hs : s ∈ l.splitOn '/') (hc : c ∈ s) :
    c ∈ l := by
  have hjoin : ['/'].intercalate (l.splitOn '/') = l := List.intercalate_splitOn '/'
  rw [← hjoin]
  exact mem_intercalate hs hc

section Paths

variable {path c p : String}

theorem trimSlashes_path (hpath : IsPath path) : trimSlashes path = path.toList := by
  unfold trimSlashes
  cases hl : path.toList with
  | nil => rfl
  | cons a l =>
      rw [List.dropWhile_cons_of_neg]
      intro ha
      have hnil : [] ∈ (a :: l).splitOn '/' := by
        rw [of_decide_eq_true ha]
        exact List.splitOn_append_cons_self (a := '/') [] l ▸ List.mem_cons_self
      exact hpath [] (hl ▸ hnil) rfl

theorem segments_path (hpath : IsPath path) : segments path.toList = path.toList.splitOn '/' :=
  List.filter_eq_self.mpr fun s hs => decide_eq_true (hpath s hs)

theorem matches_slash (hpath : IsPath path) (hc : '/' ∈ trimSlashes c) :
    «matches» c path = matchSegments (segments (trimSlashes c)) (path.toList.splitOn '/') := by
  rw [«matches», trimSlashes_path hpath]
  simp only [hc, not_true_eq_false, if_false]
  exact congrArg (matchSegments _) (segments_path hpath)

theorem matches_base (hpath : IsPath path) (hc : '/' ∉ trimSlashes c) :
    «matches» c path = matchSegments [['*', '*'], trimSlashes c] (path.toList.splitOn '/') := by
  rw [«matches», trimSlashes_path hpath]
  simp only [hc, not_false_eq_true, if_true]

end Paths

/-- The containments of `contained` that hold of every path: a final `**` has to
be a segment of its own, and a literal under a pattern with a slash has to have
one too. -/
def tight (child parent : String) : Bool :=
  let stem := parent.toList.take (parent.length - 2)
  child = parent ||
    (['*', '*'].isSuffixOf parent.toList && stem.isPrefixOf child.toList &&
      (stem.isEmpty || stem.getLast? = some '/')) ||
    (!child.toList.any (fun c => c = '*' || c = '?') && «matches» parent child &&
      if '/' ∈ trimSlashes parent then '/' ∈ trimSlashes child
      else (trimSlashes child).getLast? ≠ some '/')

theorem trim_append (u r : List Char) :
    (u ++ r).dropWhile (· = '/') =
      if u.dropWhile (· = '/') = [] then r.dropWhile (· = '/') else u.dropWhile (· = '/') ++ r := by
  rw [List.dropWhile_append]
  simp

section Tight

variable {child parent path : String}

theorem matches_stars (hpath : IsPath path) (hp : trimSlashes parent = ['*', '*']) :
    «matches» parent path = true := by
  rw [matches_base hpath (by simp [hp]), hp]
  exact matchSegments_all_all

theorem matches_of_stem (hpath : IsPath path) {u r : List Char}
    (hparent : parent.toList = u ++ '/' :: ['*', '*']) (hchild : child.toList = u ++ '/' :: r)
    (h : «matches» child path = true) : «matches» parent path = true := by
  by_cases hu : u.dropWhile (· = '/') = []
  · refine matches_stars hpath ?_
    rw [trimSlashes, hparent, trim_append, if_pos hu]
    rfl
  · have htrimP : trimSlashes parent = u.dropWhile (· = '/') ++ '/' :: ['*', '*'] := by
      rw [trimSlashes, hparent, trim_append, if_neg hu]
    have htrimC : trimSlashes child = u.dropWhile (· = '/') ++ '/' :: r := by
      rw [trimSlashes, hchild, trim_append, if_neg hu]
    rw [matches_slash hpath (by simp [htrimC]), htrimC, segments_append,
      matchSegments_append] at h
    obtain ⟨s₁, s₂, hsegs, h₁, _⟩ := h
    rw [matches_slash hpath (by simp [htrimP]), htrimP, segments_append, hsegs]
    exact matchSegments_append.mpr ⟨s₁, s₂, rfl, h₁, matchSegments_all⟩

theorem isLiteral_of_mem {l s : List Char} (hl : IsLiteral l) (hs : s ∈ l.splitOn '/') :
    IsLiteral s :=
  ⟨fun hc => hl.1 (mem_of_mem_splitOn hs hc), fun hc => hl.2 (mem_of_mem_splitOn hs hc)⟩

theorem exists_last_slash {l : List Char} (h : '/' ∈ l) :
    ∃ u r, l = u ++ '/' :: r ∧ '/' ∉ r := by
  obtain ⟨r, u, heq, hr⟩ := List.eq_append_cons_of_mem (List.mem_reverse.mpr h)
  refine ⟨u.reverse, r.reverse, ?_, by simpa using hr⟩
  simpa using congrArg List.reverse heq

/-- What a literal with a slash matches. -/
theorem path_of_literal (hpath : IsPath path) (hliteral : IsLiteral (trimSlashes child))
    (hslash : '/' ∈ trimSlashes child) (h : «matches» child path = true) :
    path.toList.splitOn '/' = segments (trimSlashes child) := by
  rw [matches_slash hpath hslash] at h
  exact matchSegments_literal
    (fun s hs => isLiteral_of_mem hliteral (List.mem_of_mem_filter hs)) h

theorem matches_of_literal (hpath : IsPath path) (hliteral : IsLiteral (trimSlashes child))
    (hparent : «matches» parent child = true)
    (hslash : if '/' ∈ trimSlashes parent then '/' ∈ trimSlashes child
      else (trimSlashes child).getLast? ≠ some '/')
    (h : «matches» child path = true) : «matches» parent path = true := by
  rw [«matches»] at hparent
  by_cases hparentSlash : '/' ∈ trimSlashes parent
  · simp only [hparentSlash, not_true_eq_false, if_false, if_true] at hparent hslash
    rw [matches_slash hpath hparentSlash, path_of_literal hpath hliteral hslash h]
    exact hparent
  · simp only [hparentSlash, not_false_eq_true, if_true, if_false] at hparent hslash
    by_cases hstars : trimSlashes parent = ['*', '*']
    · exact matches_stars hpath hstars
    obtain ⟨s₁, s, hsegs, hs⟩ := (matchSegments_last hstars).mp hparent
    rw [matches_base hpath hparentSlash, matchSegments_last hstars]
    by_cases hchildSlash : '/' ∈ trimSlashes child
    · obtain ⟨u, r, hchild, hr⟩ := exists_last_slash hchildSlash
      have hsplit : (trimSlashes child).splitOn '/' = u.splitOn '/' ++ [r] := by
        rw [hchild, List.splitOn_append_cons_self, List.splitOn_eq_singleton hr]
      obtain ⟨_, hsame⟩ := List.append_inj' (hsegs.symm.trans hsplit) rfl
      have hne : r ≠ [] := fun hnil => hslash (by simp [hchild, hnil])
      refine ⟨segments u, r, ?_, List.singleton_inj.mp hsame ▸ hs⟩
      rw [path_of_literal hpath hliteral hchildSlash h, hchild, segments_append]
      simp [segments, List.splitOn_eq_singleton hr, hne]
    · rw [List.splitOn_eq_singleton hchildSlash] at hsegs
      obtain ⟨_, hsame⟩ := List.append_inj' (hsegs.symm.trans (List.nil_append _).symm) rfl
      rw [matches_base hpath hchildSlash, matchSegments_last hliteral.ne_stars] at h
      obtain ⟨t₁, t, ht, hmatch⟩ := h
      rw [matchChars_literal hliteral hmatch] at ht
      exact ⟨t₁, _, ht, List.singleton_inj.mp hsame ▸ hs⟩

/-- A tight containment holds of every path. -/
theorem matches_of_tight (hpath : IsPath path) (htight : tight child parent = true)
    (h : «matches» child path = true) : «matches» parent path = true := by
  simp only [tight, Bool.or_eq_true, Bool.and_eq_true, decide_eq_true_eq] at htight
  rcases htight with (rfl | ⟨⟨hstars, hstem⟩, hwhole⟩) | ⟨⟨hliteral, hmatch⟩, hslash⟩
  · exact h
  · obtain ⟨stem, hparent⟩ := List.isSuffixOf_iff_suffix.mp hstars
    have htake : parent.toList.take (parent.length - 2) = stem := by
      rw [← String.length_toList, ← hparent]
      simp
    rw [htake] at hstem hwhole
    obtain ⟨r, hchild⟩ := List.isPrefixOf_iff_prefix.mp hstem
    rcases hwhole with hnil | hlast
    · rw [List.isEmpty_iff] at hnil
      subst hnil
      exact matches_stars hpath (by rw [trimSlashes, ← hparent]; rfl)
    · obtain ⟨u, rfl⟩ := List.getLast?_eq_some_iff.mp hlast
      exact matches_of_stem (u := u) (r := r) hpath (by rw [← hparent]; simp)
        (by rw [← hchild]; simp) h
  · have hchild : IsLiteral (trimSlashes child) := by
      have hnone : ∀ c ∈ child.toList, c ≠ '*' ∧ c ≠ '?' := by simpa using hliteral
      have hmem : ∀ c ∈ trimSlashes child, c ∈ child.toList := fun c hc =>
        (List.dropWhile_sublist _).subset hc
      exact ⟨fun hc => (hnone _ (hmem _ hc)).1 rfl, fun hc => (hnone _ (hmem _ hc)).2 rfl⟩
    refine matches_of_literal hpath hchild hmatch ?_ h
    split_ifs at hslash ⊢ with hparent
    · exact of_decide_eq_true hslash
    · exact of_decide_eq_true hslash

end Tight

end Tessra.Oplog.Glob
