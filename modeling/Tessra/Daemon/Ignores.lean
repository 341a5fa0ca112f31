import Tessra.Oplog.GlobContained
import Tessra.Semantic.Imports

namespace Tessra.Daemon.Ignores

open Tessra.Oplog.Glob

/-! The ignore rules of a directory tree, gathered into one list over paths from the root, and
the walk that leaves out what they ignore, beside what git does with the same files. -/

section Rules

structure Rule where
  pattern : String
  «class» : ℕ
deriving DecidableEq

def trimEnd (s : String) : List Char := (s.toList.reverse.dropWhile (· = '/')).reverse

def dirOnly (s : String) : Bool := s.toList.getLast? = some '/'

/-- Does a rule speak of a path? -/
def Rule.hits (r : Rule) (rel : String) (isDir : Bool) : Bool :=
  (!dirOnly r.pattern || isDir) && «matches» (String.ofList (trimEnd r.pattern)) rel

def ignored (rules : List Rule) (rel : String) (isDir : Bool) : Bool :=
  rules.foldl (fun c r => if r.hits rel isDir then r.«class» else c) 0 = 1

/-- A pattern read in a directory, as one over paths from the root. -/
def scopePattern (dir p : String) : String :=
  if dir = "" then p
  else
    let body := trimEnd p
    let wide :=
      if '/' ∈ body then dir ++ "/" ++ String.ofList (body.dropWhile (· = '/'))
      else dir ++ "/**/" ++ String.ofList body
    if dirOnly p then wide ++ "/" else wide

def trim (line : String) : List Char := Semantic.Imports.trim line.toList

def readLine (dir : String) (line : String) : Option Rule :=
  match trim line with
  | [] => none
  | '#' :: _ => none
  | '!' :: p => some ⟨scopePattern dir (String.ofList p), 0⟩
  | p => some ⟨scopePattern dir (String.ofList p), 1⟩

def pushIgnoreFile (rules : List Rule) (dir : String) (lines : List String) : List Rule :=
  rules ++ lines.filterMap (readLine dir)

end Rules

section Trees

abbrev Name := List Char

mutual

/-- A directory: the lines of its ignore file, and what else is in it. -/
inductive Dir
  | mk (lines : List String) (entries : Entries)

inductive Entries
  | nil
  | file (name : Name) (rest : Entries)
  | dir (name : Name) (below : Dir) (rest : Entries)

end

def Dir.lines : Dir → List String
  | .mk lines _ => lines

def Entries.names : Entries → List Name
  | .nil => []
  | .file name rest => name :: rest.names
  | .dir name _ rest => name :: rest.names

def alwaysSkip : List Name := [".git".toList, ".tessra".toList]

mutual

/-- The rules of the ignore files below a directory: none is read below what the rules so far
ignore. -/
def nestedIgnoreFiles (rules : List Rule) (dir : List Name) : Dir → List Rule
  | .mk _ entries => nestedEntries rules rules dir entries

def nestedEntries (seen rules : List Rule) (dir : List Name) : Entries → List Rule
  | .nil => rules
  | .file _ rest => nestedEntries seen rules dir rest
  | .dir name below rest =>
      let rel := dir ++ [name]
      if alwaysSkip.contains name || ignored seen (pathOf rel) true then
        nestedEntries seen rules dir rest
      else
        nestedEntries seen
          (nestedIgnoreFiles (pushIgnoreFile rules (pathOf rel) below.lines) rel below) dir rest

end

def trackingRules (root : Dir) : List Rule :=
  nestedIgnoreFiles (pushIgnoreFile [] "" root.lines) [] root

def skipped (name : Name) : Bool :=
  alwaysSkip.contains name || ".tessra-conflict".toList.isSuffixOf name

mutual

/-- The files that a walk keeps. -/
def walkDir (rules : List Rule) (dir : List Name) : Dir → List (List Name)
  | .mk _ entries => walkEntries rules dir entries

def walkEntries (rules : List Rule) (dir : List Name) : Entries → List (List Name)
  | .nil => []
  | .file name rest =>
      let rel := dir ++ [name]
      if skipped name || ignored rules (pathOf rel) false then walkEntries rules dir rest
      else rel :: walkEntries rules dir rest
  | .dir name below rest =>
      let rel := dir ++ [name]
      if skipped name || ignored rules (pathOf rel) true then walkEntries rules dir rest
      else walkDir rules rel below ++ walkEntries rules dir rest

end

end Trees

section Git

/-- A line of an ignore file as git reads it: negated or not, for directories only or not, and
the pattern. -/
structure Pattern where
  negated : Bool
  dirOnly : Bool
  body : List Char

def Pattern.of (negated : Bool) (p : List Char) : Pattern :=
  if p.getLast? = some '/' then ⟨negated, true, p.dropLast⟩ else ⟨negated, false, p⟩

def trimSpaces (s : String) : List Char := (s.toList.reverse.dropWhile (· = ' ')).reverse

def gitLine (line : String) : Option Pattern :=
  match trimSpaces line with
  | [] => none
  | '#' :: _ => none
  | '!' :: p => some (Pattern.of true p)
  | p => some (Pattern.of false p)

/-- Segments against a pattern with slashes: `**` is any number of directories, and at the end
everything below one. -/
def wildmatch : List (List Char) → List Name → Bool
  | [], rel => rel.isEmpty
  | p :: rest, rel =>
      if p = stars then
        if rest = [] then !rel.isEmpty
        else (List.range (rel.length + 1)).any fun i => wildmatch rest (rel.drop i)
      else
        match rel with
        | [] => false
        | s :: below => matchChars p s && wildmatch rest below

/-- The pieces of a pattern, without the slash that anchors it. -/
def pieces (body : List Char) : List (List Char) :=
  (if body.head? = some '/' then body.tail else body).splitOn '/'

/-- Does a pattern speak of a path from the directory of its file? -/
def Pattern.hits (p : Pattern) (rel : List Name) (isDir : Bool) : Bool :=
  (!p.dirOnly || isDir) &&
    if '/' ∈ p.body then wildmatch (pieces p.body) rel
    else matchChars p.body (rel.getLastD [])

/-- The last pattern of a file that speaks of a path. -/
def gitFile (lines : List String) (rel : List Name) (isDir : Bool) : Option Bool :=
  (lines.filterMap gitLine).reverse.findSome? fun p =>
    if p.hits rel isDir then some !p.negated else none

/-- The files from the deepest directory up, each with its directory. -/
abbrev Files := List (List Name × List String)

/-- The deepest file that speaks of a path. -/
def gitVerdict (files : Files) (path : List Name) (isDir : Bool) : Option Bool :=
  files.findSome? fun f => gitFile f.2 (path.drop f.1.length) isDir

mutual

/-- The files that git does not ignore. -/
def gitDir (files : Files) (dir : List Name) : Dir → List (List Name)
  | .mk lines entries => gitEntries ((dir, lines) :: files) dir entries

def gitEntries (files : Files) (dir : List Name) : Entries → List (List Name)
  | .nil => []
  | .file name rest =>
      let rel := dir ++ [name]
      if gitVerdict files rel false = some true then gitEntries files dir rest
      else rel :: gitEntries files dir rest
  | .dir name below rest =>
      let rel := dir ++ [name]
      if gitVerdict files rel true = some true then gitEntries files dir rest
      else gitDir files rel below ++ gitEntries files dir rest

end

end Git

section Plain

/-- A pattern that both read alike: its slashes stand alone, a slash that anchors it in the root
is not its only one, and it does not end in `**` after a slash, or below the root at all. -/
def PlainBody (root : Bool) (body : List Char) : Prop :=
  (∀ s ∈ pieces body, s ≠ []) ∧
    if '/' ∈ body then (pieces body).getLast? ≠ some stars ∧ (root → 2 ≤ (pieces body).length)
    else root ∨ body ≠ stars

/-- A line without blanks but spaces at its end, without brackets and escapes, whose pattern is
plain if it has one. -/
def PlainLine (root : Bool) (line : String) : Prop :=
  (trim line = trimSpaces line ∧ '[' ∉ line.toList ∧ '\\' ∉ line.toList) ∧
    ∀ p ∈ gitLine line, PlainBody root p.body

mutual

/-- A tree whose lines are plain, with distinct names, none of which the walk skips, and
directories whose names are no patterns. -/
def Dir.Plain (root : Bool) : Dir → Prop
  | .mk lines entries => (∀ line ∈ lines, PlainLine root line) ∧ entries.Plain

def Entries.Plain : Entries → Prop
  | .nil => True
  | .file name rest => IsName name ∧ skipped name = false ∧ name ∉ rest.names ∧ rest.Plain
  | .dir name below rest =>
      (IsName name ∧ IsLiteral name) ∧ skipped name = false ∧ name ∉ rest.names ∧
        below.Plain false ∧ rest.Plain

end

end Plain

section Patterns

variable {p q s : List Char} {A B q x r : List (List Char)} {root : Bool} {body : List Char}

theorem matchSegments_self (hA : ∀ p ∈ A, IsLiteral p) : matchSegments A A = true := by
  induction A with
  | nil => rfl
  | cons p A ih =>
      have hp := hA p List.mem_cons_self
      exact (matchSegments_cons hp.ne_stars).mpr
        ⟨p, A, rfl, matchChars_self hp, ih fun p' hp' => hA p' (List.mem_cons_of_mem p hp')⟩

/-- A pattern below a literal directory matches the paths below it only. -/
theorem matchSegments_below (hA : ∀ p ∈ A, IsLiteral p) :
    matchSegments (A ++ B) x = true ↔ ∃ r, x = A ++ r ∧ matchSegments B r = true := by
  rw [matchSegments_append]
  constructor
  · rintro ⟨s₁, s₂, rfl, h₁, h₂⟩
    exact ⟨s₂, by rw [matchSegments_literal hA h₁], h₂⟩
  · rintro ⟨r, rfl, h⟩
    exact ⟨A, r, rfl, matchSegments_self hA, h⟩

theorem matchSegments_nil (hB : B ≠ []) (hlast : B.getLast? ≠ some stars) :
    matchSegments B [] = false := by
  rcases List.eq_nil_or_concat B with rfl | ⟨B, p, rfl⟩
  · exact absurd rfl hB
  · rw [List.concat_eq_append] at *
    rw [List.getLast?_concat] at hlast
    rw [Bool.eq_false_iff]
    intro h
    obtain ⟨s₁, s₂, hnil, -, h₂⟩ := matchSegments_append.mp h
    obtain ⟨s, srest, rfl, -⟩ :=
      (matchSegments_cons fun hp => hlast (congrArg some hp)).mp h₂
    exact List.append_ne_nil_of_right_ne_nil s₁ (List.cons_ne_nil s srest) hnil.symm

theorem wildmatch_eq (hlast : B.getLast? ≠ some stars) : wildmatch B r = matchSegments B r := by
  induction B generalizing r with
  | nil => rfl
  | cons p B ih =>
      have ih' : B ≠ [] → ∀ r, wildmatch B r = matchSegments B r := by
        intro hne r
        refine ih ?_
        rwa [List.getLast?_cons_of_ne_nil hne] at hlast
      rw [matchSegments_eq]
      unfold wildmatch
      by_cases hp : p = stars
      · have hne : B ≠ [] := by
          rintro rfl
          exact hlast (congrArg some hp)
        rw [if_pos hp, if_neg hne, if_pos hp]
        simp only [ih' hne]
      · rw [if_neg hp, if_neg hp]
        cases r with
        | nil => rfl
        | cons s r =>
            rcases eq_or_ne B [] with rfl | hne
            · rfl
            · dsimp only
              rw [ih' hne]

/-- A pattern without the slash that anchors it. -/
def strip (body : List Char) : List Char := if body.head? = some '/' then body.tail else body

theorem strip_head (h : ∀ s ∈ pieces body, s ≠ []) : (strip body).head? ≠ some '/' ∧
    strip body ≠ [] := by
  have hpieces : pieces body = (strip body).splitOn '/' := rfl
  rw [hpieces] at h
  constructor
  · intro hhead
    obtain ⟨t, ht⟩ : ∃ t, strip body = '/' :: t := by
      cases hs : strip body with
      | nil => rw [hs] at hhead; cases hhead
      | cons c t =>
          rw [hs] at hhead
          exact ⟨t, by rw [Option.some.inj hhead]⟩
    rw [ht] at h
    refine h [] ?_ rfl
    exact List.splitOn_append_cons_self (a := '/') [] t ▸ List.mem_cons_self
  · intro hnil
    rw [hnil] at h
    exact h [] (by simp) rfl

theorem dropWhile_slash (h : ∀ s ∈ pieces body, s ≠ []) :
    body.dropWhile (· = '/') = strip body := by
  obtain ⟨hhead, hne⟩ := strip_head h
  have hstop : (strip body).dropWhile (· = '/') = strip body := by
    cases hs : strip body with
    | nil => rfl
    | cons c t =>
        rw [hs] at hhead
        rw [List.dropWhile_cons_of_neg]
        intro hc
        exact hhead (congrArg some (of_decide_eq_true hc))
  by_cases hanchor : body.head? = some '/'
  · cases body with
    | nil => cases hanchor
    | cons c t =>
        have hc : c = '/' := Option.some.inj hanchor
        have hstrip : strip (c :: t) = t := if_pos hanchor
        rw [hstrip] at hstop ⊢
        rw [hc]
        exact hstop
  · have hstrip : strip body = body := if_neg hanchor
    rwa [hstrip] at hstop ⊢

theorem segments_strip (h : ∀ s ∈ pieces body, s ≠ []) : segments (strip body) = pieces body :=
  List.filter_eq_self.mpr fun s hs => decide_eq_true (h s hs)

theorem slash_notMem_strip (hslash : '/' ∉ body) : strip body = body := by
  refine if_neg fun hhead => hslash ?_
  exact List.mem_of_mem_head? hhead

/-- What a rule of the root matches. -/
theorem matches_root (hbody : PlainBody true body) (hx : ∀ s ∈ x, IsName s) (hne : x ≠ []) :
    «matches» (String.ofList body) (pathOf x) =
      if '/' ∈ body then wildmatch (pieces body) x else matchChars body (x.getLastD []) := by
  obtain ⟨hpieces, hshape⟩ := hbody
  have htrim : trimSlashes (String.ofList body) = strip body := by
    rw [trimSlashes, String.toList_ofList, dropWhile_slash hpieces]
  by_cases hslash : '/' ∈ body
  · rw [if_pos hslash] at hshape ⊢
    have hdeep : '/' ∈ trimSlashes (String.ofList body) := by
      rw [htrim]
      by_contra hnone
      have hlong := hshape.2 rfl
      have hone : pieces body = [strip body] := List.splitOn_eq_singleton hnone
      rw [hone] at hlong
      exact absurd hlong (Nat.not_succ_le_self 1)
    rw [matches_deep hdeep, htrim, segments_strip hpieces, segments_pathOf hx,
      wildmatch_eq hshape.1]
  · rw [if_neg hslash]
    rw [slash_notMem_strip hslash] at htrim
    have hflat : '/' ∉ trimSlashes (String.ofList body) := by rwa [htrim]
    obtain ⟨x, s, rfl⟩ := (List.eq_nil_or_concat x).resolve_left hne
    rw [List.concat_eq_append] at hx ⊢
    have hbase := baseName_pathOf (fun s' hs' => hx s' (List.mem_append_left _ hs'))
      (hx s (List.mem_append_right _ (List.mem_singleton_self s)))
    have hmatch : «matches» (String.ofList body) (pathOf (x ++ [s])) = true ↔ _ :=
      matches_flat hflat
    rw [htrim, hbase] at hmatch
    rw [List.getLastD_concat, Bool.eq_iff_iff, hmatch]
    refine ⟨fun h => h.elim (fun hstars => ?_) id, Or.inr⟩
    rw [hstars]
    exact matchChars_wild (List.cons_ne_nil _ _) fun c hc => by simpa using hc

/-- A pattern read below a directory, over paths from the root. -/
def wide (q : List (List Char)) (body : List Char) : List Char :=
  if '/' ∈ body then (pathOf q).toList ++ '/' :: strip body
  else (pathOf q).toList ++ '/' :: '*' :: '*' :: '/' :: body

/-- The segments of a pattern read below a directory. -/
def below (body : List Char) : List (List Char) :=
  if '/' ∈ body then pieces body else [stars, body]

theorem segments_wide (hbody : PlainBody root body) (hq : ∀ s ∈ q, IsName s) (hne : q ≠ []) :
    segments (wide q body) = q ++ below body := by
  have hnames := segments_pathOf hq
  rw [trimSlashes_pathOf hne hq] at hnames
  unfold wide below
  by_cases hslash : '/' ∈ body
  · rw [if_pos hslash, if_pos hslash, segments_append, hnames, segments_strip hbody.1]
  · rw [if_neg hslash, if_neg hslash, segments_append, hnames]
    have hstars := segments_append ['*', '*'] body
    have hone := segments_strip hbody.1
    have hsingle : pieces body = [strip body] := by
      rw [slash_notMem_strip hslash]
      unfold pieces
      rw [show (if body.head? = some '/' then body.tail else body) = strip body from rfl,
        slash_notMem_strip hslash, List.splitOn_eq_singleton hslash]
    rw [hsingle, slash_notMem_strip hslash] at hone
    rw [hone] at hstars
    exact congrArg (q ++ ·) hstars

theorem trimSlashes_wide (body : List Char) (hq : ∀ s ∈ q, IsName s) (hne : q ≠ []) :
    trimSlashes (String.ofList (wide q body)) = wide q body := by
  have htrim := trimSlashes_pathOf hne hq
  have hpath := toList_pathOf_ne_nil hne hq
  unfold trimSlashes at *
  rw [String.toList_ofList]
  unfold wide
  split_ifs <;> rw [trim_append, htrim, if_neg hpath]

/-- What a rule from below the root matches: what its pattern does, of the paths below. -/
theorem matches_wide (hbody : PlainBody false body) (hq : ∀ s ∈ q, IsName s ∧ IsLiteral s)
    (hne : q ≠ []) (hx : ∀ s ∈ x, IsName s) :
    «matches» (String.ofList (wide q body)) (pathOf x) = true ↔ ∃ r, r ≠ [] ∧ x = q ++ r ∧
      (if '/' ∈ body then wildmatch (pieces body) r
        else matchChars body (r.getLastD [])) = true := by
  have hnames : ∀ s ∈ q, IsName s := fun s hs => (hq s hs).1
  have htrim := trimSlashes_wide body hnames hne
  have hdeep : '/' ∈ trimSlashes (String.ofList (wide q body)) := by
    rw [htrim]
    unfold wide
    split_ifs <;> simp
  rw [matches_deep hdeep, htrim, segments_wide hbody hnames hne, segments_pathOf hx,
    matchSegments_below fun s hs => (hq s hs).2]
  obtain ⟨hpieces, hshape⟩ := hbody
  unfold below
  by_cases hslash : '/' ∈ body
  · rw [if_pos hslash] at hshape
    simp only [if_pos hslash]
    constructor
    · rintro ⟨r, rfl, h⟩
      refine ⟨r, ?_, rfl, (wildmatch_eq hshape.1).trans h⟩
      rintro rfl
      have hsome : pieces body ≠ [] := List.splitOn_ne_nil _ _
      rw [matchSegments_nil hsome hshape.1] at h
      cases h
    · rintro ⟨r, -, rfl, h⟩
      exact ⟨r, rfl, (wildmatch_eq hshape.1).symm.trans h⟩
  · rw [if_neg hslash] at hshape
    have hstars : body ≠ stars := hshape.resolve_left (by decide)
    simp only [if_neg hslash]
    constructor
    · rintro ⟨r, rfl, h⟩
      obtain ⟨r, s, rfl, hs⟩ := (matchSegments_last hstars).mp h
      exact ⟨r ++ [s], by simp, rfl, by rwa [List.getLastD_concat]⟩
    · rintro ⟨r, hr, rfl, h⟩
      obtain ⟨r, s, rfl⟩ := (List.eq_nil_or_concat r).resolve_left hr
      rw [List.concat_eq_append] at h ⊢
      rw [List.getLastD_concat] at h
      exact ⟨r ++ [s], rfl, (matchSegments_last hstars).mpr ⟨r, s, rfl, h⟩⟩

end Patterns

section Lines

variable {p q w body : List Char} {x r : List Name} {dir rel : String} {isDir root : Bool}

/-- A pattern as it is written, without its negation. -/
def Pattern.text (p : Pattern) : List Char := p.body ++ if p.dirOnly then ['/'] else []

theorem Pattern.text_of (negated : Bool) (p : List Char) : (Pattern.of negated p).text = p := by
  unfold Pattern.of
  split_ifs with h
  · obtain ⟨v, rfl⟩ := List.getLast?_eq_some_iff.mp h
    rw [List.dropLast_concat]
    rfl
  · exact List.append_nil p

theorem last_strip (h : strip body ≠ []) : (strip body).getLast? = body.getLast? := by
  unfold strip at *
  split_ifs at h ⊢ with hhead
  · cases body with
    | nil => rfl
    | cons c t =>
        exact (List.getLast?_cons_of_ne_nil h).symm
  · rfl

/-- The body of a plain pattern ends in no slash. -/
theorem last_ne_slash (h : ∀ s ∈ pieces body, s ≠ []) : body.getLast? ≠ some '/' := by
  rw [← last_strip (strip_head h).2]
  intro hlast
  obtain ⟨v, hv⟩ := List.getLast?_eq_some_iff.mp hlast
  have hpieces : pieces body = (strip body).splitOn '/' := rfl
  rw [hpieces, hv, List.splitOn_append_cons_self] at h
  exact h [] (List.mem_append_right _ (by simp)) rfl

theorem trimEnd_append (hw : w.getLast? ≠ some '/') (b : Bool) :
    trimEnd (String.ofList (w ++ if b then ['/'] else [])) = w := by
  have hstop : w.reverse.dropWhile (· = '/') = w.reverse := by
    cases hr : w.reverse with
    | nil => rfl
    | cons c t =>
        rw [← List.head?_reverse, hr] at hw
        rw [List.dropWhile_cons_of_neg]
        intro hc
        exact hw (congrArg some (of_decide_eq_true hc))
  rw [trimEnd, String.toList_ofList, List.reverse_append]
  cases b with
  | true =>
      rw [List.dropWhile_append_of_pos (by simp), hstop, List.reverse_reverse]
  | false =>
      exact (congrArg List.reverse hstop).trans w.reverse_reverse

theorem dirOnly_append (hw : w.getLast? ≠ some '/') (b : Bool) :
    dirOnly (String.ofList (w ++ if b then ['/'] else [])) = b := by
  rw [dirOnly, String.toList_ofList]
  cases b with
  | true => simp
  | false =>
      rw [if_neg Bool.false_ne_true, List.append_nil]
      exact decide_eq_false hw

theorem hits_append (hw : w.getLast? ≠ some '/') (b : Bool) (c : ℕ) :
    (Rule.mk (String.ofList (w ++ if b then ['/'] else [])) c).hits rel isDir =
      ((!b || isDir) && «matches» (String.ofList w) rel) := by
  rw [Rule.hits, trimEnd_append hw, dirOnly_append hw]

theorem last_wide {q : List Name} (h : ∀ s ∈ pieces body, s ≠ []) :
    (wide q body).getLast? ≠ some '/' := by
  have hlast := last_ne_slash h
  have hstrip := (strip_head h).2
  have hbody : body ≠ [] := by
    rintro rfl
    exact hstrip rfl
  unfold wide
  split_ifs
  · rw [List.getLast?_append_of_ne_nil _ (List.cons_ne_nil _ _),
      List.getLast?_cons_of_ne_nil hstrip, last_strip hstrip]
    exact hlast
  · rw [List.getLast?_append_of_ne_nil _ (List.cons_ne_nil _ _),
      List.getLast?_cons_of_ne_nil (List.cons_ne_nil _ _),
      List.getLast?_cons_of_ne_nil (List.cons_ne_nil _ _),
      List.getLast?_cons_of_ne_nil (List.cons_ne_nil _ _), List.getLast?_cons_of_ne_nil hbody]
    exact hlast

theorem scopePattern_below {q : List Name} {p : Pattern} (h : ∀ s ∈ pieces p.body, s ≠ [])
    (hq : pathOf q ≠ "") : scopePattern (pathOf q) (String.ofList p.text) =
      String.ofList (wide q p.body ++ if p.dirOnly then ['/'] else []) := by
  have hlast := last_ne_slash h
  rw [scopePattern, if_neg hq, Pattern.text, trimEnd_append hlast, dirOnly_append hlast]
  dsimp only
  rw [dropWhile_slash h]
  refine String.toList_injective ?_
  unfold wide
  split_ifs <;> simp

end Lines

section Verdicts

variable {lines : List String} {q x r : List Name} {dir : String} {isDir root : Bool}
  {rules A B : List Rule} {files : Files}

/-- The class of the last rule that speaks of a path. -/
def lastClass (rules : List Rule) (x : List Name) (isDir : Bool) : Option ℕ :=
  rules.reverse.findSome? fun r => if r.hits (pathOf x) isDir then some r.«class» else none

theorem lastClass_append (A B : List Rule) :
    lastClass (A ++ B) x isDir = (lastClass B x isDir).or (lastClass A x isDir) := by
  rw [lastClass, List.reverse_append, List.findSome?_append]
  rfl

theorem foldl_class (rules : List Rule) (c : ℕ) :
    rules.foldl (fun c r => if r.hits (pathOf x) isDir then r.«class» else c) c =
      (lastClass rules x isDir).getD c := by
  induction rules generalizing c with
  | nil => rfl
  | cons r rules ih =>
      rw [List.foldl_cons, ih, ← List.singleton_append, lastClass_append]
      cases lastClass rules x isDir with
      | some n => rfl
      | none =>
          rw [Option.none_or, lastClass, List.reverse_singleton, List.findSome?_singleton]
          cases r.hits (pathOf x) isDir <;> rfl

theorem ignored_iff : ignored rules (pathOf x) isDir = true ↔
    lastClass rules x isDir = some 1 := by
  rw [ignored, foldl_class, decide_eq_true_eq]
  cases lastClass rules x isDir with
  | none => simp
  | some n => simp

def toClass (ignore : Bool) : ℕ := if ignore then 1 else 0

theorem ignored_iff_git
    (h : lastClass rules x isDir = (gitVerdict files x isDir).map toClass) :
    ignored rules (pathOf x) isDir = true ↔ gitVerdict files x isDir = some true := by
  rw [ignored_iff, h]
  cases gitVerdict files x isDir with
  | none => simp
  | some b => cases b <;> simp [toClass]

/-- The rule of a pattern. -/
def ruleOf (dir : String) (p : Pattern) : Rule :=
  ⟨scopePattern dir (String.ofList p.text), toClass !p.negated⟩

theorem ruleOf_of (dir : String) (negated : Bool) (p : List Char) :
    ruleOf dir (Pattern.of negated p) =
      ⟨scopePattern dir (String.ofList p), toClass !negated⟩ := by
  have hnegated : (Pattern.of negated p).negated = negated := by
    unfold Pattern.of
    split_ifs <;> rfl
  rw [ruleOf, Pattern.text_of, hnegated]

theorem readLine_eq {line : String} (h : PlainLine root line) :
    readLine dir line = (gitLine line).map (ruleOf dir) := by
  unfold readLine gitLine
  rw [h.1.1]
  split
  · rfl
  · rfl
  · exact congrArg some (ruleOf_of dir true _).symm
  · exact congrArg some (ruleOf_of dir false _).symm

theorem findSome?_of_forall {α β : Type} {f g : α → Option β} :
    ∀ {l : List α}, (∀ a ∈ l, f a = g a) → l.findSome? f = l.findSome? g
  | [], _ => rfl
  | a :: l, h => by
      rw [List.findSome?_cons, List.findSome?_cons, h a List.mem_cons_self,
        findSome?_of_forall fun b hb => h b (List.mem_cons_of_mem a hb)]

/-- The last rule of a file, by what its patterns match. -/
theorem lastClass_file {v : Pattern → Bool} (hlines : ∀ line ∈ lines, PlainLine root line)
    (hsame : ∀ p, PlainBody root p.body → (ruleOf dir p).hits (pathOf x) isDir = v p) :
    lastClass (lines.filterMap (readLine dir)) x isDir =
      ((lines.filterMap gitLine).reverse.findSome? fun p =>
        if v p then some !p.negated else none).map toClass := by
  have hrules : lines.filterMap (readLine dir) = (lines.filterMap gitLine).map (ruleOf dir) := by
    rw [List.map_filterMap]
    exact List.filterMap_congr fun line hline => readLine_eq (hlines line hline)
  rw [lastClass, hrules, ← List.map_reverse, List.findSome?_map, List.map_findSome?]
  refine findSome?_of_forall fun p hp => ?_
  obtain ⟨line, hline, hread⟩ := List.mem_filterMap.mp (List.mem_reverse.mp hp)
  have hhits := hsame p ((hlines line hline).2 p hread)
  rw [Function.comp_apply, Function.comp_apply, hhits]
  cases v p <;> rfl

theorem lastClass_root (hlines : ∀ line ∈ lines, PlainLine true line)
    (hx : ∀ s ∈ x, IsName s) (hne : x ≠ []) :
    lastClass (lines.filterMap (readLine "")) x isDir = (gitFile lines x isDir).map toClass := by
  refine lastClass_file (v := fun p => p.hits x isDir) hlines fun p hp => ?_
  have hlast := last_ne_slash hp.1
  rw [ruleOf, scopePattern, if_pos rfl, Pattern.text, hits_append hlast, matches_root hp hx hne]
  rfl

theorem ruleOf_hits_below {p : Pattern} (hp : PlainBody false p.body)
    (hq : ∀ s ∈ q, IsName s ∧ IsLiteral s) (hne : q ≠ []) (hx : ∀ s ∈ x, IsName s) :
    (ruleOf (pathOf q) p).hits (pathOf x) isDir = true ↔
      ∃ r, r ≠ [] ∧ x = q ++ r ∧ p.hits r isDir = true := by
  have hpath := toList_pathOf_ne_nil hne fun s hs => (hq s hs).1
  rw [ruleOf, scopePattern_below hp.1 fun hempty => hpath (congrArg String.toList hempty),
    hits_append (last_wide hp.1), Bool.and_eq_true, matches_wide hp hq hne hx]
  constructor
  · rintro ⟨hdir, r, hr, hrx, h⟩
    exact ⟨r, hr, hrx, Bool.and_eq_true_iff.mpr ⟨hdir, h⟩⟩
  · rintro ⟨r, hr, hrx, h⟩
    obtain ⟨hdir, h⟩ := Bool.and_eq_true_iff.mp h
    exact ⟨hdir, r, hr, hrx, h⟩

/-- The rules of a directory speak of the paths below it as its file does. -/
theorem lastClass_below (hlines : ∀ line ∈ lines, PlainLine false line)
    (hq : ∀ s ∈ q, IsName s ∧ IsLiteral s) (hne : q ≠ []) (hx : ∀ s ∈ q ++ r, IsName s)
    (hr : r ≠ []) : lastClass (lines.filterMap (readLine (pathOf q))) (q ++ r) isDir =
      (gitFile lines r isDir).map toClass := by
  refine lastClass_file (v := fun p => p.hits r isDir) hlines fun p hp => ?_
  rw [Bool.eq_iff_iff, ruleOf_hits_below hp hq hne hx]
  constructor
  · rintro ⟨r', -, heq, h⟩
    rwa [List.append_cancel_left heq]
  · intro h
    exact ⟨r, hr, rfl, h⟩

/-- They speak of no other path. -/
theorem lastClass_outside (hlines : ∀ line ∈ lines, PlainLine false line)
    (hq : ∀ s ∈ q, IsName s ∧ IsLiteral s) (hne : q ≠ []) (hx : ∀ s ∈ x, IsName s)
    (hout : ∀ r, r ≠ [] → x ≠ q ++ r) :
    lastClass (lines.filterMap (readLine (pathOf q))) x isDir = none := by
  have hmiss : ∀ p, PlainBody false p.body →
      (ruleOf (pathOf q) p).hits (pathOf x) isDir = false := by
    intro p hp
    rw [Bool.eq_false_iff]
    intro h
    obtain ⟨r, hr, heq, -⟩ := (ruleOf_hits_below hp hq hne hx).mp h
    exact hout r hr heq
  rw [lastClass_file (v := fun _ => false) hlines hmiss]
  exact Option.map_eq_none_iff.mpr (List.findSome?_eq_none_iff.mpr fun _ _ => rfl)

theorem gitVerdict_cons (q r : List Name) : gitVerdict ((q, lines) :: files) (q ++ r) isDir =
    (gitFile lines r isDir).or (gitVerdict files (q ++ r) isDir) := by
  rw [gitVerdict, List.findSome?_cons, List.drop_left]
  cases gitFile lines r isDir <;> rfl

end Verdicts

section Walks

variable {q x : List Name} {rules seen : List Rule} {files : Files}

/-- The rules speak of the paths below a directory as git's files do. -/
def Agrees (rules : List Rule) (files : Files) (q : List Name) : Prop :=
  ∀ r isDir, r ≠ [] → (∀ s ∈ q ++ r, IsName s) →
    lastClass rules (q ++ r) isDir = (gitVerdict files (q ++ r) isDir).map toClass

/-- The rules speak alike of the paths at and below some names in a directory. -/
def Alike (q : List Name) (names : List Name) (A B : List Rule) : Prop :=
  ∀ n ∈ names, ∀ r isDir, (∀ s ∈ q ++ n :: r, IsName s) →
    lastClass A (q ++ n :: r) isDir = lastClass B (q ++ n :: r) isDir

/-- The rules speak alike of all but the paths inside the directories of some names. -/
def Outside (q : List Name) (names : List Name) (A B : List Rule) : Prop :=
  ∀ x isDir, (∀ s ∈ x, IsName s) → (∀ n ∈ names, ∀ r, r ≠ [] → x ≠ q ++ n :: r) →
    lastClass A x isDir = lastClass B x isDir

theorem Outside.mono {names names' : List Name} {A B : List Rule} (h : Outside q names A B)
    (hsub : ∀ n ∈ names, n ∈ names') : Outside q names' A B :=
  fun x isDir hx hout => h x isDir hx fun n hn => hout n (hsub n hn)

/-- Rules that speak alike of all but what is inside other names speak alike of a name. -/
theorem Outside.at {n : Name} {names r : List Name} {A B : List Rule} {isDir : Bool}
    (h : Outside q names A B) (hn : n ∉ names) (hx : ∀ s ∈ q ++ n :: r, IsName s) :
    lastClass A (q ++ n :: r) isDir = lastClass B (q ++ n :: r) isDir := by
  refine h _ isDir hx fun m hm r' _ heq => ?_
  obtain ⟨rfl, -⟩ := List.cons.inj (List.append_cancel_left heq)
  exact hn hm

theorem Outside.name {n : Name} {names : List Name} {A B : List Rule} {isDir : Bool}
    (h : Outside q names A B) (hx : ∀ s ∈ q ++ [n], IsName s) :
    lastClass A (q ++ [n]) isDir = lastClass B (q ++ [n]) isDir := by
  refine h _ isDir hx fun m _ r hr heq => ?_
  obtain ⟨-, hnil⟩ := List.cons.inj (List.append_cancel_left heq)
  exact hr hnil.symm

theorem Agrees.push {lines : List String} {n : Name}
    (hlines : ∀ line ∈ lines, PlainLine false line)
    (hqn : ∀ s ∈ q ++ [n], IsName s ∧ IsLiteral s)
    (hbase : ∀ r isDir, (∀ s ∈ q ++ n :: r, IsName s) → lastClass rules (q ++ n :: r) isDir =
      (gitVerdict files (q ++ n :: r) isDir).map toClass) :
    Agrees (pushIgnoreFile rules (pathOf (q ++ [n])) lines) ((q ++ [n], lines) :: files)
      (q ++ [n]) := by
  intro r isDir hr hx
  have hpath : (q ++ [n]) ++ r = q ++ n :: r := List.append_assoc q [n] r
  have hrules := hbase r isDir (hpath ▸ hx)
  rw [← hpath] at hrules
  rw [pushIgnoreFile, lastClass_append, lastClass_below hlines hqn
    (List.append_ne_nil_of_right_ne_nil q (List.cons_ne_nil n [])) hx hr, hrules, gitVerdict_cons]
  cases gitFile lines r isDir <;> rfl

/-- The file of a directory adds nothing that speaks of a path that is not below it. -/
theorem lastClass_push {lines : List String} {isDir : Bool}
    (hlines : ∀ line ∈ lines, PlainLine false line) (hq : ∀ s ∈ q, IsName s ∧ IsLiteral s)
    (hne : q ≠ []) (hx : ∀ s ∈ x, IsName s) (hout : ∀ r, r ≠ [] → x ≠ q ++ r) :
    lastClass (pushIgnoreFile rules (pathOf q) lines) x isDir = lastClass rules x isDir := by
  rw [pushIgnoreFile, lastClass_append, lastClass_outside hlines hq hne hx hout, Option.none_or]

theorem Dir.Plain.lines {d : Dir} {root : Bool} (h : d.Plain root) :
    ∀ line ∈ d.lines, PlainLine root line := by
  cases d with
  | mk lines entries => exact h.1

/-- The rules say what git says of the paths at and below some names in a directory. -/
def Follows (q : List Name) (names : List Name) (rules : List Rule) (files : Files) : Prop :=
  ∀ n ∈ names, ∀ r isDir, (∀ s ∈ q ++ n :: r, IsName s) → lastClass rules (q ++ n :: r) isDir =
    (gitVerdict files (q ++ n :: r) isDir).map toClass

/-- The rules gathered below a directory speak only of what is in its directories, and with them
the walk keeps there what git does. -/
def Dir.Walked (d : Dir) (q : List Name) (rules : List Rule) (files : Files) : Prop :=
  (∀ x isDir, (∀ s ∈ x, IsName s) → (∀ n r, r ≠ [] → x ≠ q ++ n :: r) →
    lastClass (nestedIgnoreFiles rules q d) x isDir = lastClass rules x isDir) ∧
  ∀ R, (∀ r isDir, r ≠ [] → (∀ s ∈ q ++ r, IsName s) → lastClass R (q ++ r) isDir =
    lastClass (nestedIgnoreFiles rules q d) (q ++ r) isDir) → walkDir R q d = gitDir files q d

/-- The same of some entries of a directory. -/
def Entries.Walked (entries : Entries) (q : List Name) (seen rules : List Rule) (files : Files) :
    Prop :=
  Outside q entries.names (nestedEntries seen rules q entries) rules ∧
  ∀ R, Alike q entries.names R (nestedEntries seen rules q entries) →
    walkEntries R q entries = gitEntries files q entries

section Entries

variable {name : Name} {below : Dir} {rest : Entries} {seen : List Rule}

theorem Follows.tail {names : List Name} (h : Follows q (name :: names) rules files) :
    Follows q names rules files :=
  fun n hn => h n (List.mem_cons_of_mem name hn)

theorem isName_append (hq : ∀ s ∈ q, IsName s ∧ IsLiteral s) (hname : IsName name) :
    ∀ s ∈ q ++ [name], IsName s := by
  intro s hs
  rcases List.mem_append.mp hs with hs | hs
  · exact (hq s hs).1
  · exact List.mem_singleton.mp hs ▸ hname

/-- What the rules say of a name after the entries behind it is what git says. -/
theorem Follows.ignored {names : List Name} {A R : List Rule}
    (hbase : Follows q (name :: names) rules files) (isDir : Bool)
    (hx : ∀ s ∈ q ++ [name], IsName s)
    (hA : lastClass A (q ++ [name]) isDir = lastClass rules (q ++ [name]) isDir)
    (hR : Alike q (name :: names) R A) :
    ignored R (pathOf (q ++ [name])) isDir = true ↔
      gitVerdict files (q ++ [name]) isDir = some true :=
  ignored_iff_git (((hR name List.mem_cons_self [] isDir hx).trans hA).trans
    (hbase name List.mem_cons_self [] isDir hx))

theorem Entries.Walked.file (hname : IsName name) (hskip : skipped name = false)
    (hq : ∀ s ∈ q, IsName s ∧ IsLiteral s)
    (hbase : Follows q (name :: rest.names) rules files) (h : rest.Walked q seen rules files) :
    (Entries.file name rest).Walked q seen rules files := by
  obtain ⟨hout, hwalk⟩ := h
  have hx := isName_append hq hname
  refine ⟨hout.mono fun n hn => List.mem_cons_of_mem name hn, fun R hR => ?_⟩
  have hverdict := hbase.ignored false hx (hout.name hx) hR
  have hmore := hwalk R fun n hn => hR n (List.mem_cons_of_mem name hn)
  rw [walkEntries, gitEntries]
  simp only [hskip, Bool.false_or, hverdict, hmore]

/-- Neither reads the files below a directory that is ignored. -/
theorem Entries.Walked.dir_ignored (hname : IsName name) (hskip : skipped name = false)
    (hq : ∀ s ∈ q, IsName s ∧ IsLiteral s) (hseen : Agrees seen files q)
    (hgit : gitVerdict files (q ++ [name]) true = some true)
    (hbase : Follows q (name :: rest.names) rules files) (h : rest.Walked q seen rules files) :
    (Entries.dir name below rest).Walked q seen rules files := by
  obtain ⟨hout, hwalk⟩ := h
  have hx := isName_append hq hname
  have hdecision := ignored_iff_git (hseen [name] true (List.cons_ne_nil _ _) hx)
  have hnested : nestedEntries seen rules q (.dir name below rest) =
      nestedEntries seen rules q rest := by
    rw [nestedEntries]
    exact if_pos (Bool.or_eq_true_iff.mpr (Or.inr (hdecision.mpr hgit)))
  unfold Entries.Walked
  rw [hnested]
  refine ⟨hout.mono fun n hn => List.mem_cons_of_mem name hn, fun R hR => ?_⟩
  have hverdict := hbase.ignored true hx (hout.name hx) hR
  have hmore := hwalk R fun n hn => hR n (List.mem_cons_of_mem name hn)
  rw [walkEntries, gitEntries]
  simp only [hskip, Bool.false_or, hverdict, hgit, if_true, hmore]

/-- What is gathered in a directory changes nothing for what is not in it. -/
theorem Dir.Walked.lastClass_eq {x : List Name} {isDir : Bool} (hbelow : below.Plain false)
    (hq : ∀ s ∈ q, IsName s ∧ IsLiteral s) (hne : q ≠ [])
    (h : below.Walked q (pushIgnoreFile rules (pathOf q) below.lines) files)
    (hx : ∀ s ∈ x, IsName s) (hout : ∀ r, r ≠ [] → x ≠ q ++ r) :
    lastClass (nestedIgnoreFiles (pushIgnoreFile rules (pathOf q) below.lines) q below) x isDir =
      lastClass rules x isDir := by
  rw [h.1 x isDir hx fun n r _ => hout (n :: r) (List.cons_ne_nil n r),
    lastClass_push hbelow.lines hq hne hx hout]

/-- A directory that is not ignored is read, and the entries behind it with its rules. -/
theorem Entries.Walked.dir_read (hskip : skipped name = false)
    (hqn : ∀ s ∈ q ++ [name], IsName s ∧ IsLiteral s) (hfresh : name ∉ rest.names)
    (hbelow : below.Plain false) (hseen : Agrees seen files q)
    (hgit : gitVerdict files (q ++ [name]) true ≠ some true)
    (hbase : Follows q (name :: rest.names) rules files) {rules₁ rules₂ : List Rule}
    (hrules₁ : rules₁ = pushIgnoreFile rules (pathOf (q ++ [name])) below.lines)
    (hrules₂ : rules₂ = nestedIgnoreFiles rules₁ (q ++ [name]) below)
    (hdir : below.Walked (q ++ [name]) rules₁ files)
    (h : Follows q rest.names rules₂ files → rest.Walked q seen rules₂ files) :
    (Entries.dir name below rest).Walked q seen rules files := by
  have hpath : ∀ r, (q ++ [name]) ++ r = q ++ name :: r := fun r => List.append_assoc q [name] r
  have hx : ∀ s ∈ q ++ [name], IsName s := fun s hs => (hqn s hs).1
  have hne : q ++ [name] ≠ [] := List.append_ne_nil_of_right_ne_nil q (List.cons_ne_nil _ _)
  have halways : alwaysSkip.contains name = false := (Bool.or_eq_false_iff.mp hskip).1
  have hdecision := ignored_iff_git (hseen [name] true (List.cons_ne_nil _ _) hx)
  have hnested : nestedEntries seen rules q (.dir name below rest) =
      nestedEntries seen rules₂ q rest := by
    rw [nestedEntries, hrules₂, hrules₁]
    refine if_neg ?_
    rw [halways, Bool.false_or]
    exact mt hdecision.mp hgit
  have hsame : ∀ x isDir, (∀ s ∈ x, IsName s) → (∀ r, r ≠ [] → x ≠ (q ++ [name]) ++ r) →
      lastClass rules₂ x isDir = lastClass rules x isDir := by
    intro x isDir hx hout
    subst hrules₂ hrules₁
    exact hdir.lastClass_eq hbelow hqn hne hx hout
  obtain ⟨hout, hwalk⟩ := h fun n hn r isDir hx => (hsame _ isDir hx fun r' _ heq => by
    rw [hpath] at heq
    obtain ⟨rfl, -⟩ := List.cons.inj (List.append_cancel_left heq)
    exact hfresh hn).trans (hbase.tail n hn r isDir hx)
  unfold Entries.Walked
  rw [hnested]
  refine ⟨fun x isDir hx hinside => ?_, fun R hR => ?_⟩
  · refine (hout x isDir hx fun n hn => hinside n (List.mem_cons_of_mem name hn)).trans
      (hsame x isDir hx fun r hr heq => ?_)
    exact hinside name List.mem_cons_self r hr (heq.trans (hpath r))
  · have hself : lastClass rules₂ (q ++ [name]) true = lastClass rules (q ++ [name]) true :=
      hsame _ true hx fun r hr heq => hr (List.self_eq_append_right.mp heq)
    have hverdict := hbase.ignored true hx ((hout.name hx).trans hself) hR
    have hmore := hwalk R fun n hn => hR n (List.mem_cons_of_mem name hn)
    have hinto := hdir.2 R fun r isDir hr hxr => by
      rw [hpath] at hxr ⊢
      rw [← hrules₂]
      exact (hR name List.mem_cons_self r isDir hxr).trans (hout.at hfresh hxr)
    rw [walkEntries, gitEntries]
    simp only [hskip, Bool.false_or, hverdict, hgit, if_false, hmore, hinto]

end Entries

mutual

theorem Dir.walk_eq : ∀ (d : Dir) {root : Bool}, d.Plain root → ∀ (q : List Name)
    (rules : List Rule) (files : Files), (∀ s ∈ q, IsName s ∧ IsLiteral s) →
    Agrees rules ((q, d.lines) :: files) q → d.Walked q rules files
  | .mk lines entries, _, hplain, q, rules, files, hq, hagrees => by
      obtain ⟨hout, hwalk⟩ := entries.walk_eq hplain.2 q rules rules ((q, lines) :: files) hq
        hagrees fun n _ r isDir hx => hagrees (n :: r) isDir (List.cons_ne_nil n r) hx
      refine ⟨fun x isDir hx hinside => hout x isDir hx fun n _ => hinside n, fun R hR => ?_⟩
      exact hwalk R fun n _ r isDir hx => hR (n :: r) isDir (List.cons_ne_nil n r) hx

theorem Entries.walk_eq : ∀ (entries : Entries), entries.Plain → ∀ (q : List Name)
    (seen rules : List Rule) (files : Files), (∀ s ∈ q, IsName s ∧ IsLiteral s) →
    Agrees seen files q → Follows q entries.names rules files → entries.Walked q seen rules files
  | .nil, _, _, _, _, _, _, _, _ => ⟨fun _ _ _ _ => rfl, fun _ _ => rfl⟩
  | .file name rest, hplain, q, seen, rules, files, hq, hseen, hbase => by
      obtain ⟨hname, hskip, -, hrest⟩ := hplain
      exact .file hname hskip hq hbase (rest.walk_eq hrest q seen rules files hq hseen hbase.tail)
  | .dir name below rest, hplain, q, seen, rules, files, hq, hseen, hbase => by
      obtain ⟨⟨hname, hliteral⟩, hskip, hfresh, hbelow, hrest⟩ := hplain
      by_cases hgit : gitVerdict files (q ++ [name]) true = some true
      · exact .dir_ignored hname hskip hq hseen hgit hbase
          (rest.walk_eq hrest q seen rules files hq hseen hbase.tail)
      · have hqn : ∀ s ∈ q ++ [name], IsName s ∧ IsLiteral s := by
          intro s hs
          rcases List.mem_append.mp hs with hs | hs
          · exact hq s hs
          · exact List.mem_singleton.mp hs ▸ ⟨hname, hliteral⟩
        exact .dir_read hskip hqn hfresh hbelow hseen hgit hbase rfl rfl
          (below.walk_eq hbelow (q ++ [name]) _ files hqn
            (.push hbelow.lines hqn (hbase name List.mem_cons_self)))
          (rest.walk_eq hrest q seen _ files hq hseen)

end

instance (root : Bool) (body : List Char) : Decidable (PlainBody root body) :=
  inferInstanceAs (Decidable (_ ∧ _))

instance (root : Bool) (line : String) : Decidable (PlainLine root line) :=
  inferInstanceAs (Decidable (_ ∧ _))

/-- Logs are ignored but one, which the file of its directory takes back. -/
def project : Dir :=
  .mk ["*.log", "", "# output", "build/"]
    (.dir "docs".toList (.mk ["!/keep.log"]
      (.file "keep.log".toList (.file "old.log".toList .nil))) .nil)

example : gitDir [] [] project = [["docs".toList, "keep.log".toList]] := by decide +kernel

/-- A pattern anchored in the root that has no other slash. -/
def anchored : Dir := .mk ["/foo"] (.dir "a".toList (.mk [] (.file "foo".toList .nil)) .nil)

/-- A pattern for what is below a directory, and a file of its name. -/
def belowOnly : Dir := .mk ["foo/**"] (.file "foo".toList .nil)

/-- A directory whose name is a pattern, and one that it matches. -/
def wildName : Dir :=
  .mk [] (.dir "a*".toList (.mk ["x"] .nil)
    (.dir "ab".toList (.mk [] (.file "x".toList .nil)) .nil))

end Walks

end Tessra.Daemon.Ignores
