import Tessra.Oplog.GlobInclusion

namespace Tessra.Oplog.Glob

open Tessra.Data

/-! When a pattern that `contained` finds in another is in it: on every path. -/

/-- The last piece of a path, which is empty after a final slash. -/
def baseName (path : String) : List Char := ((trimSlashes path).splitOn '/').getLastD []

/-- The path of some names. -/
def pathOf (names : List (List Char)) : String := String.ofList (['/'].intercalate names)

section Paths

variable {path : String} {c p : List Char} {names : List (List Char)}

theorem isName_of_mem_segments {l s : List Char} (hs : s ∈ segments l) : IsName s := by
  obtain ⟨hmem, hne⟩ := List.mem_filter.mp hs
  exact ⟨of_decide_eq_true hne, notMem_of_mem_splitOn hmem⟩

theorem splitOn_ne_nil (l : List Char) : l.splitOn '/' ≠ [] := List.splitOn_ne_nil '/' l

theorem splitOn_eq_base (path : String) :
    (trimSlashes path).splitOn '/' =
      ((trimSlashes path).splitOn '/').dropLast ++ [baseName path] := by
  rw [baseName, List.getLastD_eq_getLast?,
    List.getLast?_eq_getLast_of_ne_nil (splitOn_ne_nil _), Option.getD_some,
    List.dropLast_append_getLast]

/-- The segments of a path, by its last piece. -/
theorem segments_eq_base (path : String) : ∃ above, (∀ s ∈ above, IsName s) ∧
    segments (trimSlashes path) =
      above ++ if baseName path = [] then [] else [baseName path] := by
  refine ⟨(((trimSlashes path).splitOn '/').dropLast).filter (· ≠ []), fun s hs => ?_, ?_⟩
  · obtain ⟨hmem, hne⟩ := List.mem_filter.mp hs
    exact ⟨of_decide_eq_true hne, notMem_of_mem_splitOn (List.mem_of_mem_dropLast hmem)⟩
  · have hbase : [baseName path].filter (· ≠ []) =
        if baseName path = [] then [] else [baseName path] := by
      split_ifs with h <;> simp [h]
    have hsplit := congrArg (List.filter (· ≠ [])) (splitOn_eq_base path)
    rwa [List.filter_append, hbase] at hsplit

theorem splitOn_pathOf (hne : names ≠ []) (hnames : ∀ s ∈ names, IsName s) :
    (pathOf names).toList.splitOn '/' = names := by
  rw [pathOf, String.toList_ofList]
  exact List.splitOn_intercalate '/' (fun s hs => (hnames s hs).2) hne

theorem isPath_pathOf (hne : names ≠ []) (hnames : ∀ s ∈ names, IsName s) :
    IsPath (pathOf names) := by
  intro s hs
  rw [splitOn_pathOf hne hnames] at hs
  exact (hnames s hs).1

theorem trimSlashes_pathOf (hne : names ≠ []) (hnames : ∀ s ∈ names, IsName s) :
    trimSlashes (pathOf names) = (pathOf names).toList :=
  trimSlashes_path (isPath_pathOf hne hnames)

theorem segments_pathOf (hnames : ∀ s ∈ names, IsName s) :
    segments (trimSlashes (pathOf names)) = names := by
  by_cases hne : names = []
  · subst hne
    rfl
  · rw [trimSlashes_pathOf hne hnames, segments_path (isPath_pathOf hne hnames),
      splitOn_pathOf hne hnames]

theorem baseName_pathOf (hnames : ∀ s ∈ names, IsName s) {s : List Char} (hs : IsName s) :
    baseName (pathOf (names ++ [s])) = s := by
  have hall : ∀ s' ∈ names ++ [s], IsName s' := by
    intro s' hs'
    rcases List.mem_append.mp hs' with hs' | hs'
    · exact hnames s' hs'
    · exact List.mem_singleton.mp hs' ▸ hs
  rw [baseName, trimSlashes_pathOf (by simp) hall, splitOn_pathOf (by simp) hall]
  simp

theorem toList_pathOf_ne_nil (hne : names ≠ []) (hnames : ∀ s ∈ names, IsName s) :
    (pathOf names).toList ≠ [] := by
  intro hnil
  have hsplit := splitOn_pathOf hne hnames
  rw [hnil] at hsplit
  exact (hnames [] (hsplit ▸ List.mem_singleton_self [])).1 rfl

/-- The path of some names with a slash after it. -/
def closed (names : List (List Char)) : String := pathOf names ++ "/"

theorem trimSlashes_closed (hne : names ≠ []) (hnames : ∀ s ∈ names, IsName s) :
    trimSlashes (closed names) = (pathOf names).toList ++ ['/'] := by
  have htrim := trimSlashes_pathOf hne hnames
  have hpath := toList_pathOf_ne_nil hne hnames
  unfold trimSlashes at *
  rw [closed, String.toList_append, trim_append, htrim, if_neg hpath]
  rfl

theorem segments_closed (hne : names ≠ []) (hnames : ∀ s ∈ names, IsName s) :
    segments (trimSlashes (closed names)) = names := by
  have hsegs := segments_pathOf hnames
  rw [trimSlashes_pathOf hne hnames] at hsegs
  rw [trimSlashes_closed hne hnames, segments_append, hsegs]
  exact List.append_nil names

theorem baseName_closed (hne : names ≠ []) (hnames : ∀ s ∈ names, IsName s) :
    baseName (closed names) = [] := by
  rw [baseName, trimSlashes_closed hne hnames, List.splitOn_append_cons_self]
  simp

/-- A pattern without a slash goes by the last piece. -/
theorem matches_flat {pattern : String} (h : '/' ∉ trimSlashes pattern) :
    «matches» pattern path = true ↔ trimSlashes pattern = stars ∨
      matchChars (trimSlashes pattern) (baseName path) = true := by
  rw [«matches»]
  simp only [h, not_false_eq_true, if_true]
  by_cases hstars : trimSlashes pattern = stars
  · rw [hstars]
    simp [matchSegments_all_all]
  · rw [matchSegments_last hstars]
    constructor
    · rintro ⟨s₁, s, heq, hs⟩
      obtain ⟨-, hsame⟩ := List.append_inj' ((splitOn_eq_base path).symm.trans heq) rfl
      exact .inr (List.singleton_inj.mp hsame ▸ hs)
    · intro hmatch
      exact ⟨_, _, splitOn_eq_base path, hmatch.resolve_left hstars⟩

/-- A pattern with a slash goes by the segments. -/
theorem matches_deep {pattern : String} (h : '/' ∈ trimSlashes pattern) :
    «matches» pattern path =
      matchSegments (segments (trimSlashes pattern)) (segments (trimSlashes path)) := by
  rw [«matches»]
  simp only [h, not_true_eq_false, if_false]
  rfl

end Paths

section Endings

variable (P : List (List Char))

/-- The segments of a pattern up to its last `**`. -/
def above : List (List Char) := (P.reverse.dropWhile (· ≠ stars)).reverse

/-- The segments of a pattern after its last `**`. -/
def ending : List (List Char) := (P.reverse.takeWhile (· ≠ stars)).reverse

theorem above_append_ending : above P ++ ending P = P := by
  rw [above, ending, ← List.reverse_append, List.takeWhile_append_dropWhile, List.reverse_reverse]

theorem ending_ne_stars : ∀ q ∈ ending P, q ≠ stars := by
  intro q hq
  have hplain := List.mem_takeWhile_imp (List.mem_reverse.mp hq)
  simpa using hplain

theorem above_eq (h : above P ≠ []) : ∃ P₀, above P = P₀ ++ [stars] := by
  have hne : P.reverse.dropWhile (· ≠ stars) ≠ [] := fun hnil => h (by rw [above, hnil]; rfl)
  obtain ⟨q, rest, hrest⟩ := List.exists_cons_of_ne_nil hne
  have hq : q = stars := by
    have hhead := List.head_dropWhile_not (fun q => decide (q ≠ stars)) hne
    simp only [hrest, List.head_cons] at hhead
    simpa using hhead
  exact ⟨rest.reverse, by rw [above, hrest, hq, List.reverse_cons]⟩

variable {P} {q : List Char}

theorem above_concat (hq : q ≠ stars) : above (P ++ [q]) = above P := by
  simp [above, hq]

theorem ending_concat (hq : q ≠ stars) : ending (P ++ [q]) = ending P ++ [q] := by
  simp [ending, hq]

end Endings

/-- The segments of the child come to lie on those of the parent. -/
def Within (C P : List (List Char)) : Prop :=
  if above P = [] then Alongside C P
  else Starts (C.drop (above P).length).reverse (ending P).reverse

theorem covers_iff_within {U T : List (List Char)} {q : List Char} (hU : ∀ s ∈ U, IsName s)
    (hT : ∀ s ∈ T, IsName s) :
    Covers (U ++ T) (U ++ [q ++ stars]) ↔ Within (U ++ T) (U ++ [q ++ stars]) := by
  by_cases hq : q = []
  · subst hq
    have habove : above (U ++ [stars]) ≠ [] := by simp [above]
    refine iff_of_true (fun segs _ hmatch => ?_) ?_
    · obtain ⟨X, Y, rfl, hX, -⟩ := matchSegments_append.mp hmatch
      exact matchSegments_append.mpr ⟨X, Y, rfl, hX, matchSegments_all⟩
    · rw [List.nil_append, Within, if_neg habove]
      simp [ending, Starts]
  · have hlast : q ++ stars ≠ stars := fun h => hq (List.self_eq_append_left.mp h.symm)
    have hplain := ending_ne_stars (U ++ [q ++ stars])
    rw [Within, above_concat hlast]
    split_ifs with habove
    · have hwhole : ending (U ++ [q ++ stars]) = U ++ [q ++ stars] := by
        have hsplit := above_append_ending (U ++ [q ++ stars])
        rwa [above_concat hlast, habove] at hsplit
      rw [hwhole] at hplain
      exact covers_closed (fun s hs => (List.mem_append.mp hs).elim (hU s) (hT s)) hplain
    · obtain ⟨P₀, hP₀⟩ := above_eq U habove
      have hsplit := above_append_ending U
      have hP : ∀ s ∈ P₀, IsName s := fun s hs => hU s (by
        rw [← hsplit, hP₀]
        simp [hs])
      have hend : ∀ s ∈ ending U, IsName s := fun s hs => hU s (by
        rw [← hsplit]
        exact List.mem_append_right _ hs)
      have hdrop : (U ++ T).drop (above U).length = ending U ++ T := by
        have hwhole : U ++ T = above U ++ (ending U ++ T) := by rw [← List.append_assoc, hsplit]
        rw [hwhole, List.drop_left]
      rw [hdrop]
      rw [ending_concat hlast] at hplain ⊢
      rw [← covers_open hP (fun s hs => (List.mem_append.mp hs).elim (hend s) (hT s)) hplain,
        ← hP₀, ← List.append_assoc, ← List.append_assoc, hsplit]

theorem segments_trim_ne_nil {path : String} (h : trimSlashes path ≠ []) :
    segments (trimSlashes path) ≠ [] := by
  obtain ⟨a, l, htrim⟩ := List.exists_cons_of_ne_nil h
  have ha : a ≠ '/' := by
    have hhead := List.head?_dropWhile_not (fun c => decide (c = '/')) path.toList
    unfold trimSlashes at htrim
    rw [htrim] at hhead
    simpa using hhead
  obtain ⟨first, rest, hsplit⟩ := List.exists_cons_of_ne_nil (splitOn_ne_nil l)
  rw [htrim, segments, List.splitOn_cons_eq_if_modifyHead, if_neg (by simpa using ha), hsplit]
  simp

/-- Every path that the child matches, the parent matches. -/
def Sound (child parent : String) : Prop :=
  ∀ path, «matches» child path = true → «matches» parent path = true

theorem matchChars_self {p : List Char} (hp : IsLiteral p) : matchChars p p = true := by
  have hsame : sample p = p := by
    rw [sample, List.map_congr_left (g := fun c => c) fun c hc => ?_, List.map_id']
    rw [if_neg]
    rintro (rfl | rfl)
    · exact hp.1 hc
    · exact hp.2 hc
  have hmatch := matchChars_sample (p := p)
  rwa [hsame] at hmatch

section Contained

variable {child parent path : String}

/-- A pattern without wildcards. -/
def Literal (pattern : String) : Prop := ∀ c ∈ pattern.toList, c ≠ '*' ∧ c ≠ '?'

theorem Literal.trim (h : Literal child) : IsLiteral (trimSlashes child) := by
  have hmem : ∀ c ∈ trimSlashes child, c ∈ child.toList := fun c hc =>
    (List.dropWhile_sublist _).subset hc
  exact ⟨fun hc => (h _ (hmem _ hc)).1 rfl, fun hc => (h _ (hmem _ hc)).2 rfl⟩

theorem contained_cases (h : contained child parent = true) : child = parent ∨
    (∃ u r, parent.toList = u ++ stars ∧ child.toList = u ++ r) ∨
      Literal child ∧ «matches» parent child = true := by
  simp only [contained, Bool.or_eq_true, Bool.and_eq_true, decide_eq_true_eq] at h
  rcases h with (h | ⟨hstars, hstem⟩) | ⟨hliteral, hmatch⟩
  · exact .inl h
  · obtain ⟨u, hparent⟩ := List.isSuffixOf_iff_suffix.mp hstars
    have htake : parent.toList.take (parent.length - 2) = u := by
      rw [← String.length_toList, ← hparent]
      simp
    rw [htake] at hstem
    obtain ⟨r, hchild⟩ := List.isPrefixOf_iff_prefix.mp hstem
    exact .inr (.inl ⟨u, r, hparent.symm, hchild.symm⟩)
  · exact .inr (.inr ⟨by simpa [Literal] using hliteral, hmatch⟩)

/-- The trimmed patterns share their stem. -/
theorem trim_stem {u r : List Char} (hparent : parent.toList = u ++ stars)
    (hchild : child.toList = u ++ r) : trimSlashes parent = stars ∨
      ∃ v, v ≠ [] ∧ trimSlashes parent = v ++ stars ∧ trimSlashes child = v ++ r := by
  by_cases hu : u.dropWhile (· = '/') = []
  · left
    rw [trimSlashes, hparent, trim_append, if_pos hu]
    rfl
  · right
    refine ⟨_, hu, ?_, ?_⟩
    · rw [trimSlashes, hparent, trim_append, if_neg hu]
    · rw [trimSlashes, hchild, trim_append, if_neg hu]

theorem matches_all (hp : trimSlashes parent ≠ []) (h : ∀ c ∈ trimSlashes parent, c = '*') :
    «matches» parent path = true := by
  have hslash : '/' ∉ trimSlashes parent := fun hmem => absurd (h _ hmem) (by decide)
  exact (matches_flat hslash).mpr (.inr (matchChars_wild hp h))

theorem matches_literal_flat (hliteral : Literal child) (hc : '/' ∉ trimSlashes child) :
    «matches» child path = true ↔ baseName path = trimSlashes child := by
  rw [matches_flat hc]
  constructor
  · intro h
    exact matchChars_literal hliteral.trim (h.resolve_left hliteral.trim.ne_stars)
  · intro h
    rw [h]
    exact .inr (matchChars_self hliteral.trim)

theorem literal_of_contained_flat (h : contained child parent = true)
    (hc : '/' ∉ trimSlashes child) (hp : '/' ∈ trimSlashes parent) :
    Literal child ∧ «matches» parent child = true := by
  rcases contained_cases h with rfl | ⟨u, r, hparent, hchild⟩ | hliteral
  · exact absurd hp hc
  · rcases trim_stem hparent hchild with hstars | ⟨v, -, hp', hc'⟩
    · rw [hstars] at hp
      exact absurd hp (by decide)
    · rw [hp', List.mem_append] at hp
      rw [hc', List.mem_append, not_or] at hc
      exact absurd (hp.resolve_right (by decide)) hc.1
  · exact hliteral

/-- Patterns without a slash. -/
theorem sound_of_flat (h : contained child parent = true) (hc : '/' ∉ trimSlashes child)
    (hp : '/' ∉ trimSlashes parent) : Sound child parent := by
  intro path hmatch
  rcases contained_cases h with rfl | ⟨u, r, hparent, hchild⟩ | ⟨hliteral, hwhole⟩
  · exact hmatch
  · rcases trim_stem hparent hchild with hstars | ⟨v, -, hp', hc'⟩
    · exact (matches_flat hp).mpr (.inl hstars)
    · rcases (matches_flat hc).mp hmatch with hstars | hbase
      · refine matches_all (by simp [hp']) fun c hmem => ?_
        have hall : ∀ c ∈ v ++ r, c = '*' := by
          rw [← hc', hstars]
          simp
        rw [hp', List.mem_append] at hmem
        rcases hmem with hv | hstar
        · exact hall c (List.mem_append_left r hv)
        · simpa using hstar
      · rw [hc', matchChars_append] at hbase
        obtain ⟨s₁, s₂, heq, hv, -⟩ := hbase
        rw [matches_flat hp, hp', heq]
        exact .inr (matchChars_append.mpr ⟨s₁, s₂, rfl, hv, matchChars_wild (by simp) (by simp)⟩)
  · rw [matches_flat hp] at hwhole ⊢
    rw [matches_literal_flat hliteral hc] at hmatch
    have hself : baseName child = trimSlashes child := by
      rw [baseName, List.splitOn_eq_singleton hc]
      rfl
    rwa [hself, ← hmatch] at hwhole

/-- A pattern with a slash matches paths with and without a final slash. -/
theorem sound_deep_flat_iff (hc : '/' ∈ trimSlashes child) (hp : '/' ∉ trimSlashes parent) :
    Sound child parent ↔ trimSlashes parent ≠ [] ∧ ∀ c ∈ trimSlashes parent, c = '*' := by
  refine ⟨fun h => ?_, fun h path _ => matches_all h.1 h.2⟩
  let names := (segments (trimSlashes child)).map sample
  have hnames : ∀ s ∈ names, IsName s := by
    intro s hs
    obtain ⟨p, hp, rfl⟩ := List.mem_map.mp hs
    exact isName_sample (isName_of_mem_segments hp)
  have hne : names ≠ [] := by
    have hsegs := segments_trim_ne_nil (List.ne_nil_of_mem hc)
    simpa [names] using hsegs
  have hopen := h (pathOf names) (by
    rw [matches_deep hc, segments_pathOf hnames]
    exact matchSegments_samples _)
  have hclosed := h (closed names) (by
    rw [matches_deep hc, segments_closed hne hnames]
    exact matchSegments_samples _)
  rw [matches_flat hp] at hopen hclosed
  rw [baseName_closed hne hnames, matchChars_nil] at hclosed
  refine ⟨fun hnil => ?_, ?_⟩
  · rw [hnil] at hopen
    have hbase : baseName (pathOf names) = [] := by
      simpa [matchChars] using hopen.resolve_left (by decide)
    rw [← List.dropLast_append_getLast hne] at hbase hnames
    have hlast := hnames (names.getLast hne) (by simp)
    rw [baseName_pathOf (fun s hs => hnames s (List.mem_append_left _ hs)) hlast] at hbase
    exact hlast.1 hbase
  · rcases hclosed with hstars | hall
    · simp [hstars]
    · exact hall

theorem sound_flat_deep_iff (h : contained child parent = true) (hc : '/' ∉ trimSlashes child)
    (hp : '/' ∈ trimSlashes parent) : Sound child parent ↔
      (segments (trimSlashes parent)).head? = some stars ∨
        ∃ q rest, segments (trimSlashes parent) = q :: rest ∧ rest ≠ [] ∧ Universal q := by
  obtain ⟨hliteral, hwhole⟩ := literal_of_contained_flat h hc hp
  have hself : baseName child = trimSlashes child := by
    rw [baseName, List.splitOn_eq_singleton hc]
    rfl
  rw [matches_deep hp] at hwhole
  obtain ⟨q, rest, hsegs⟩ :=
    List.exists_cons_of_ne_nil (segments_trim_ne_nil (List.ne_nil_of_mem hp))
  have hchild : segments (trimSlashes child) =
      if trimSlashes child = [] then [] else [trimSlashes child] := by
    rw [segments, List.splitOn_eq_singleton hc]
    split_ifs with hnil <;> simp [hnil]
  rw [hsegs]
  constructor
  · intro hsound
    by_cases hq : q = stars
    · exact .inl (congrArg some hq)
    · right
      rw [hsegs, matchSegments_cons hq] at hwhole
      obtain ⟨s, srest, hs, -, -⟩ := hwhole
      have hname : IsName (trimSlashes child) := by
        refine ⟨fun hnil => ?_, hc⟩
        rw [hchild, if_pos hnil] at hs
        cases hs
      have hafter : ∀ x, IsName x → matchChars q x = true ∧
          matchSegments rest [trimSlashes child] = true := by
        intro x hx
        have hnames : ∀ s ∈ [x], IsName s := fun s hs => List.mem_singleton.mp hs ▸ hx
        have hall : ∀ s ∈ [x] ++ [trimSlashes child], IsName s := by
          simp [hx, hname]
        have hpath := hsound (pathOf ([x] ++ [trimSlashes child]))
          ((matches_literal_flat hliteral hc).mpr (baseName_pathOf hnames hname))
        rw [matches_deep hp, segments_pathOf hall, hsegs, matchSegments_cons hq] at hpath
        obtain ⟨s, srest, heq, hx, hrest⟩ := hpath
        cases heq
        exact ⟨hx, hrest⟩
      refine ⟨q, rest, rfl, ?_, universal_iff.mpr fun x hx => (hafter x hx).1⟩
      rintro rfl
      have hrest := (hafter ['a'] ⟨by simp, by decide⟩).2
      simp [matchSegments] at hrest
  · intro hends path hmatch
    rw [matches_literal_flat hliteral hc] at hmatch
    obtain ⟨front, hfront, hpath⟩ := segments_eq_base path
    rw [hmatch, ← hchild] at hpath
    rw [matches_deep hp, hpath, hsegs]
    rw [hsegs] at hwhole
    by_cases hq : q = stars
    · subst hq
      obtain ⟨s₁, s₂, heq, hrest⟩ := matchSegments_stars.mp hwhole
      refine matchSegments_stars.mpr ⟨front ++ s₁, s₂, ?_, hrest⟩
      rw [heq, List.append_assoc]
    · obtain ⟨q', rest', hcons, hrest, huniversal⟩ :=
        hends.resolve_left fun hhead => hq (Option.some.inj hhead)
      cases hcons
      -- The parent has one more name at most, so the rest of it stands for nothing.
      obtain ⟨s, srest, hs, hmatchs, hnil⟩ := (matchSegments_cons hq).mp hwhole
      rw [hchild] at hs
      split_ifs at hs
      cases hs
      have hname : IsName (trimSlashes child) := ⟨by assumption, hc⟩
      cases front with
      | nil => rwa [List.nil_append]
      | cons x front =>
          refine (matchSegments_cons hq).mpr ⟨x, _, rfl, ?_, ?_⟩
          · exact universal_iff.mp huniversal x (hfront x List.mem_cons_self)
          · obtain ⟨r, rest, rfl⟩ := List.exists_cons_of_ne_nil hrest
            by_cases hr : r = stars
            · subst hr
              obtain ⟨s₁, s₂, heq, htail⟩ := matchSegments_stars.mp hnil
              obtain ⟨-, rfl⟩ := List.append_eq_nil_iff.mp heq.symm
              exact matchSegments_stars.mpr ⟨_, [], (List.append_nil _).symm, htail⟩
            · obtain ⟨s, srest, heq, -, -⟩ := (matchSegments_cons hr).mp hnil
              cases heq

/-- A literal under a pattern with a slash. -/
theorem sound_of_literal (hliteral : Literal child) (hc : '/' ∈ trimSlashes child)
    (hp : '/' ∈ trimSlashes parent) (hwhole : «matches» parent child = true) :
    Sound child parent := by
  intro path hmatch
  rw [matches_deep hc] at hmatch
  rw [matches_deep hp] at hwhole ⊢
  rwa [matchSegments_literal (fun s hs => isLiteral_of_mem hliteral.trim
    (List.mem_of_mem_filter hs)) hmatch]

theorem sound_iff_covers (hc : '/' ∈ trimSlashes child) (hp : '/' ∈ trimSlashes parent) :
    Sound child parent ↔ Covers (segments (trimSlashes child)) (segments (trimSlashes parent)) := by
  constructor
  · intro h segs hsegs hmatch
    have hpath := h (pathOf segs) (by rwa [matches_deep hc, segments_pathOf hsegs])
    rwa [matches_deep hp, segments_pathOf hsegs] at hpath
  · intro h path hmatch
    rw [matches_deep hc] at hmatch
    rw [matches_deep hp]
    exact h _ (fun s hs => isName_of_mem_segments hs) hmatch

theorem sound_deep_iff (h : contained child parent = true) (hc : '/' ∈ trimSlashes child)
    (hp : '/' ∈ trimSlashes parent) : Sound child parent ↔
      child = parent ∨ (Literal child ∧ «matches» parent child = true) ∨
        Within (segments (trimSlashes child)) (segments (trimSlashes parent)) := by
  rcases contained_cases h with rfl | ⟨u, r, hparent, hchild⟩ | ⟨hliteral, hwhole⟩
  · exact iff_of_true (fun path hmatch => hmatch) (.inl rfl)
  · rcases trim_stem hparent hchild with hstars | ⟨v, -, hp', hc'⟩
    · rw [hstars] at hp
      exact absurd hp (by decide)
    · have hv : '/' ∈ v := by
        rw [hp', List.mem_append] at hp
        exact hp.resolve_right (by decide)
      obtain ⟨w, g, rfl, hg⟩ := exists_last_slash hv
      have hlast : segments (g ++ stars) = [g ++ stars] := by
        rw [segments, List.splitOn_eq_singleton (by simpa using hg)]
        simp
      have hparentSegs : segments (trimSlashes parent) = segments w ++ [g ++ stars] := by
        rw [hp', List.append_assoc, List.cons_append, segments_append, hlast]
      have hchildSegs : segments (trimSlashes child) = segments w ++ segments (g ++ r) := by
        rw [hc', List.append_assoc, List.cons_append, segments_append]
      have hwithin := covers_iff_within (q := g) (fun s hs => isName_of_mem_segments (l := w) hs)
        (fun s hs => isName_of_mem_segments (l := g ++ r) hs)
      rw [← hparentSegs, ← hchildSegs] at hwithin
      rw [← hwithin, ← sound_iff_covers hc hp]
      refine ⟨fun hsound => .inr (.inr hsound), ?_⟩
      rintro (rfl | ⟨hliteral, hwhole⟩ | hsound)
      · exact fun path hmatch => hmatch
      · exact sound_of_literal hliteral hc hp hwhole
      · exact hsound
  · exact iff_of_true (sound_of_literal hliteral hc hp hwhole) (.inr (.inl ⟨hliteral, hwhole⟩))

/-- What the parent of a contained pattern must be for the containment to hold of
every path. -/
structure Holds (child parent : String) : Prop where
  /-- A parent without a slash goes by the last piece, and a child with one does not. -/
  flat : '/' ∈ trimSlashes child → '/' ∉ trimSlashes parent →
    trimSlashes parent ≠ [] ∧ ∀ c ∈ trimSlashes parent, c = '*'
  /-- A child without a slash is found at any depth. -/
  deep : '/' ∉ trimSlashes child → '/' ∈ trimSlashes parent →
    (segments (trimSlashes parent)).head? = some stars ∨
      ∃ q rest, segments (trimSlashes parent) = q :: rest ∧ rest ≠ [] ∧ Universal q
  both : '/' ∈ trimSlashes child → '/' ∈ trimSlashes parent →
    child = parent ∨ (Literal child ∧ «matches» parent child = true) ∨
      Within (segments (trimSlashes child)) (segments (trimSlashes parent))

theorem contained_sound_iff (h : contained child parent = true) :
    Sound child parent ↔ Holds child parent := by
  by_cases hc : '/' ∈ trimSlashes child <;> by_cases hp : '/' ∈ trimSlashes parent
  · rw [sound_deep_iff h hc hp]
    exact ⟨fun hboth => ⟨fun _ hnot => absurd hp hnot, fun hnot => absurd hc hnot,
      fun _ _ => hboth⟩, fun hholds => hholds.both hc hp⟩
  · rw [sound_deep_flat_iff hc hp]
    exact ⟨fun hflat => ⟨fun _ _ => hflat, fun hnot => absurd hc hnot,
      fun _ hmem => absurd hmem hp⟩, fun hholds => hholds.flat hc hp⟩
  · rw [sound_flat_deep_iff h hc hp]
    exact ⟨fun hdeep => ⟨fun hmem => absurd hmem hc, fun _ _ => hdeep,
      fun hmem => absurd hmem hc⟩, fun hholds => hholds.deep hc hp⟩
  · exact iff_of_true (sound_of_flat h hc hp) ⟨fun hmem => absurd hmem hc,
      fun _ hmem => absurd hmem hp, fun hmem => absurd hmem hc⟩

theorem contained_sound_under_src :
    Sound "src/auth/**" "src/**" ↔ Holds "src/auth/**" "src/**" :=
  contained_sound_iff (by decide +kernel)

/-- The stem of a parent without a slash runs into a longer path. -/
theorem contained_unsound :
    contained "src/main.rs" "src**" = true ∧ ¬ Sound "src/main.rs" "src**" := by
  refine ⟨by decide +kernel, fun h => ?_⟩
  have hmatch := h "src/main.rs" (by decide +kernel)
  exact absurd hmatch (by decide +kernel)

end Contained

end Tessra.Oplog.Glob
