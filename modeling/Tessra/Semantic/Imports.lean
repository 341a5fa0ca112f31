import Mathlib.Data.List.DropRight
import Mathlib.Data.List.Sort
import Tessra.Data.OrdMap

namespace Tessra.Semantic.Imports

open Tessra.Data

/-! The files that the import statements of a file name. Texts are lists of characters,
and a slice out of range ends in no result. -/

abbrev Text := List Char

inductive Language
  | rust
  | python
  | javascript
  | typeScript
  | tsx
deriving DecidableEq

section Texts

/-- The characters that Unicode counts as white space. -/
def isWhitespace (c : Char) : Bool :=
  let n := c.toNat
  (9 ≤ n && n ≤ 13) || (0x2000 ≤ n && n ≤ 0x200a) ||
    n ∈ [0x20, 0x85, 0xa0, 0x1680, 0x2028, 0x2029, 0x202f, 0x205f, 0x3000]

def trim (s : Text) : Text := (s.dropWhile isWhitespace).rdropWhile isWhitespace

def words (s : Text) : List Text := (s.splitOnP isWhitespace).filter (· ≠ [])

def stripPrefix (pre s : Text) : Option Text :=
  if pre.isPrefixOf s then some (s.drop pre.length) else none

def stripSuffix (suf s : Text) : Option Text :=
  if suf.isSuffixOf s then some (s.take (s.length - suf.length)) else none

/-- The text before a separator and the text after it, where it is first found. -/
def splitOnce (sep : Text) : Text → Option (Text × Text)
  | [] => none
  | c :: s =>
      if sep.isPrefixOf (c :: s) then some ([], (c :: s).drop sep.length)
      else (splitOnce sep s).map fun e => (c :: e.1, e.2)

def rsplitOnce (c : Char) (s : Text) : Option (Text × Text) :=
  if c ∈ s then
    some ((s.reverse.dropWhile (· ≠ c)).tail.reverse, (s.reverse.takeWhile (· ≠ c)).reverse)
  else none

/-- A text split at a separator of more than one character. -/
def splitAll : ℕ → Text → Text → List Text
  | 0, _, s => [s]
  | fuel + 1, sep, s =>
      match splitOnce sep s with
      | none => [s]
      | some (a, b) => a :: splitAll fuel sep b

def text (s : String) : Text := s.toList

def asciiLower (c : Char) : Char := if 'A' ≤ c ∧ c ≤ 'Z' then Char.ofNat (c.toNat + 32) else c

def fromPath (path : Text) : Option Language :=
  let ext := (((path.splitOn '.').getLast?.getD []).map asciiLower)
  if ext = text "rs" then some .rust
  else if ext ∈ [text "py", text "pyi"] then some .python
  else if ext ∈ [text "js", text "mjs", text "cjs", text "jsx"] then some .javascript
  else if ext ∈ [text "ts", text "mts", text "cts"] then some .typeScript
  else if ext = text "tsx" then some .tsx
  else none

def dirOf (path : Text) : Text := ((rsplitOnce '/' path).map Prod.fst).getD []

def join (dir name : Text) : Text :=
  if dir = [] then name else if name = [] then dir else dir ++ '/' :: name

/-- `.` and `..` resolved; none when `..` would leave the tree. -/
def relative (dir rel : Text) : Option Text :=
  ((rel.splitOn '/').foldlM (fun parts seg =>
    if seg = [] ∨ seg = text "." then some parts
    else if seg = text ".." then if parts = [] then none else some parts.dropLast
    else some (parts ++ [seg])) ((dir.splitOn '/').filter (· ≠ []))).map (['/'].intercalate ·)

theorem length_dirOf_lt {d : Text} (h : d ≠ []) : (dirOf d).length < d.length := by
  rw [dirOf, rsplitOnce]
  split_ifs
  · have hdrop := (List.dropWhile_sublist (fun x => decide (x ≠ '/')) (l := d.reverse)).length_le
    rw [List.length_reverse] at hdrop
    have hpos := List.length_pos_iff.mpr h
    rw [Option.map_some, Option.getD_some, List.length_reverse, List.length_tail]
    omega
  · exact List.length_pos_iff.mpr h

/-- The directory and its ancestors, nearest first. -/
def ancestors (dir : Text) : List Text :=
  if dir = [] then [dir] else dir :: ancestors (dirOf dir)
termination_by dir.length
decreasing_by exact length_dirOf_lt ‹_›

end Texts

section JavaScript

def jsExtensions : List Text :=
  ["ts", "tsx", "js", "jsx", "mts", "cts", "mjs", "cjs", "d.ts", "svelte", "vue", "json"].map text

def isQuote (c : Char) : Bool := c = '\'' || c = '"' || c = Char.ofNat 0x60

/-- The quoted strings of a statement. -/
def quoted : ℕ → Text → List Text
  | 0, _ => []
  | fuel + 1, stmt =>
      match stmt.dropWhile fun c => !isQuote c with
      | [] => []
      | q :: after =>
          if q ∈ after then
            after.takeWhile (· ≠ q) :: quoted fuel (after.dropWhile (· ≠ q)).tail
          else []

def jsFile (base : Text) (exist : Text → Bool) : Option Text :=
  if (jsExtensions.any fun e => ('.' :: e).isSuffixOf base) ∧ exist base then some base
  else
    let swapped := [("js", ["ts", "tsx"]), ("jsx", ["tsx"]), ("mjs", ["mts"]), ("cjs", ["cts"])]
    ((jsExtensions.map fun e => base ++ '.' :: e) ++
      (jsExtensions.map fun e => base ++ text "/index." ++ e) ++
      swapped.flatMap fun e =>
        match stripSuffix ('.' :: text e.1) base with
        | some stem => e.2.map fun ext => stem ++ '.' :: text ext
        | none => []).find? exist

def jsBases (dir spec : Text) : List Text :=
  if spec = text "." ∨ spec = text ".." ∨ (text "./").isPrefixOf spec ∨
      (text "../").isPrefixOf spec then (relative dir spec).toList
  else
    match stripPrefix (text "$lib/") spec with
    | some rest => (ancestors dir).map fun a => join (join a (text "src/lib")) rest
    | none =>
        match (stripPrefix (text "@/") spec).or (stripPrefix (text "~/") spec) with
        | some rest => (ancestors dir).map fun a => join (join a (text "src")) rest
        | none => []

def javascript (path stmt : Text) (exist : Text → Bool) : List Text :=
  (quoted stmt.length stmt).filterMap fun spec =>
    (jsBases (dirOf path) spec).findSome? (jsFile · exist)

end JavaScript

section Python

def dotToSlash (s : Text) : Text := s.map fun c => if c = '.' then '/' else c

def moduleBases (dir module : Text) : List Text :=
  let dots := (module.takeWhile (· = '.')).length
  let rel := dotToSlash (module.drop dots)
  if 0 < dots then [join (dirOf^[dots - 1] dir) rel]
  else (ancestors dir).map (join · rel)

/-- What a module and the names taken from it name under one base. -/
def underBase (asked : Bool) (names : List Text) (exist : Text → Bool) (base : Text) :
    List Text :=
  ((if asked then
      (if base ≠ [] then [base ++ text ".py"] else []) ++ [join base (text "__init__.py")]
    else []) ++
    names.flatMap fun name => [join base (name ++ text ".py"),
      join (join base name) (text "__init__.py")]).filter exist

def pythonModule (dir module : Text) (names : List Text) (exist : Text → Bool) : List Text :=
  let dots := (module.takeWhile (· = '.')).length
  let asked := module.drop dots ≠ [] ∨ 0 < dots
  (((moduleBases dir module).map (underBase asked names exist)).find? (· ≠ [])).getD []

def python (path stmt : Text) (exist : Text → Bool) : List Text :=
  let dir := dirOf path
  let stmt := trim ((trim stmt).rdropWhile (· = ';'))
  match stripPrefix (text "from ") stmt with
  | some rest =>
      match words rest with
      | [] => []
      | module :: _ =>
          let names := match splitOnce (text " import ") rest with
            | some (_, list) =>
                let list := (list.dropWhile fun c => c = '(' || c = ')').rdropWhile
                  fun c => c = '(' || c = ')'
                ((list.splitOn ',').filterMap fun n => (words n).head?).filter (· ≠ text "*")
            | none => []
          pythonModule dir module names exist
  | none =>
      match stripPrefix (text "import ") stmt with
      | some rest => (rest.splitOn ',').flatMap fun m =>
          match (words m).head? with
          | some module => pythonModule dir module [] exist
          | none => []
      | none => []

end Python

section Rust

/-- The text before the first ` as `. -/
def beforeAs (s : Text) : Text := ((splitOnce (text " as ") s).map Prod.fst).getD s

def dropColons : Text → Text
  | ':' :: ':' :: s => dropColons s
  | s => s

/-- Without the `::` that it ends in. -/
def trimColons (s : Text) : Text := (dropColons s.reverse).reverse

/-- A group split on the commas at depth zero. -/
def splitTop (depth : ℕ) (item : Text) : Text → List Text
  | [] => [item]
  | c :: s =>
      if c = '{' then splitTop (depth + 1) (item ++ [c]) s
      else if c = '}' then splitTop (depth - 1) (item ++ [c]) s
      else if c = ',' ∧ depth = 0 then item :: splitTop 0 [] s
      else splitTop depth (item ++ [c]) s

/-- What stands between the first opening brace and the last closing one, and what stands
before it; none where the slice is out of range. -/
def group (tree : Text) : Option (Text × Text) :=
  let front := tree.takeWhile (· ≠ '{')
  let closed := tree.rdropWhile (· ≠ '}')
  if front.length + 1 ≤ closed.length - 1 then
    some (front, (tree.take (closed.length - 1)).drop (front.length + 1))
  else none

theorem length_splitTop {depth : ℕ} {item s piece : Text}
    (h : piece ∈ splitTop depth item s) : piece.length ≤ item.length + s.length := by
  induction s generalizing depth item with
  | nil =>
      rw [splitTop, List.mem_singleton] at h
      rw [h]
      exact Nat.le_add_right _ _
  | cons c s ih =>
      rw [splitTop] at h
      rw [List.length_cons]
      split_ifs at h
      · have hle := ih h
        rw [List.length_append, List.length_singleton] at hle
        omega
      · have hle := ih h
        rw [List.length_append, List.length_singleton] at hle
        omega
      · rcases List.mem_cons.mp h with rfl | h
        · exact Nat.le_add_right _ _
        · have hle := ih h
          rw [List.length_nil] at hle
          omega
      · have hle := ih h
        rw [List.length_append, List.length_singleton] at hle
        omega

theorem length_trim_le (s : Text) : (trim s).length ≤ s.length :=
  (List.rdropWhile_prefix _ _).length_le.trans (List.dropWhile_sublist _).length_le

theorem length_group {tree front inner : Text} (h : group tree = some (front, inner)) :
    inner.length < tree.length := by
  rw [group] at h
  split_ifs at h with hle
  cases h
  have hclosed := (List.rdropWhile_prefix (fun c => decide (c ≠ '}')) tree).length_le
  rw [List.length_drop, List.length_take]
  omega

/-- `use a::{b, c::{d, e}}` as the paths `a::b`, `a::c::d`, `a::c::e`; none where a slice is
out of range. -/
def expandBraces (tree : Text) : Option (List Text) :=
  if '{' ∉ trim tree then
    let one := trim (beforeAs (trim tree))
    some (if one = [] then [] else [one])
  else if '}' ∉ trim tree then some []
  else
    match _h : group (trim tree) with
    | none => none
    | some (front, inner) =>
        let pre := trimColons (trim front)
        ((splitTop 0 [] inner).attach.mapM fun item => expandBraces item.1).map fun subs =>
          subs.flatten.map fun sub => if pre = [] then sub else pre ++ text "::" ++ sub
termination_by tree.length
decreasing_by
  have hitem := length_splitTop item.2
  have hinner := length_group _h
  have htrim := length_trim_le tree
  rw [List.length_nil] at hitem
  omega

/-- The directory a file's module owns its children in. -/
def moduleDir (path : Text) : Text :=
  if ((path.splitOn '/').getLast?.getD []) ∈ ["mod.rs", "lib.rs", "main.rs"].map text then
    dirOf path
  else (stripSuffix (text ".rs") path).getD path

/-- The directory of the crate's root module. -/
def crateSrc (path : Text) (exist : Text → Bool) : Text :=
  let dirs := ancestors (dirOf path)
  (dirs.find? fun a => exist (join a (text "lib.rs")) || exist (join a (text "main.rs"))).getD
    ((dirs.find? fun a => a = text "src" || (text "/src").isSuffixOf a).getD (dirOf path))

def crateDirsNamed (path name : Text) (exist : Text → Bool) : List Text :=
  let spellings := [name, name.map fun c => if c = '_' then '-' else c]
  let out := (spellings.flatMap fun n =>
    [text "crates/" ++ n ++ text "/src", n ++ text "/src"]).filter fun base =>
      exist (join base (text "lib.rs"))
  let own := crateSrc path exist
  let crateName := ((dirOf own).splitOn '/').getLast?.getD []
  let inTests := (text "tests/").isPrefixOf path ∨ (splitOnce (text "/tests/") path).isSome
  if (crateName ∈ spellings ∨ inTests) ∧ own ∉ out then out ++ [own] else out

def rustWalk (base : Text) (segments : List Text) (exist : Text → Bool) : List Text :=
  let roots := ["lib.rs", "main.rs", "mod.rs"].map fun r => join base (text r)
  let own := if base ≠ [] then [base ++ text ".rs"] else []
  let walked := (segments.takeWhile (· ∉ [text "*", text "self"])).foldl
    (fun (dir, out) s => (join dir s,
      out ++ [join dir (s ++ text ".rs"), join (join dir s) (text "mod.rs")]))
    (base, ([] : List Text))
  (roots ++ own ++ walked.2).filter exist

/-- Where a `use` path starts, and what it names from there. -/
def rustBases (path p : Text) (exist : Text → Bool) : List Text × List Text :=
  match (splitAll p.length (text "::") p).map trim with
  | [] => ([], [])
  | first :: rest =>
      if first = text "crate" then ([crateSrc path exist], rest)
      else if first = text "self" then ([moduleDir path], rest)
      else if first = text "super" then
        let more := (rest.takeWhile (· = text "super")).length
        ([dirOf^[more + 1] (moduleDir path)], rest.drop more)
      else if first ∈ ["std", "core", "alloc"].map text then ([], [])
      else (crateDirsNamed path first exist, rest)

/-- The tree of a `use` statement. -/
def useTree (stmt : Text) : Option Text :=
  (splitOnce (text "use ") (trim stmt)).map fun e => trim ((trim e.2).rdropWhile (· = ';'))

def rust (path stmt : Text) (exist : Text → Bool) : Option (List Text) :=
  match useTree stmt with
  | none => some []
  | some body => (expandBraces body).map fun paths => paths.flatMap fun p =>
      let (bases, rest) := rustBases path p exist
      bases.flatMap fun base => rustWalk base rest exist

end Rust

/-- Sorted, without duplicates, and never the file itself. -/
def tidy (path : Text) (out : List Text) : List Text := sortedDedup (out.filter (· ≠ path))

/-- The paths that the import statements of a file name; none where that panics. -/
def importedPaths (path : Text) (statements : List Text) (exist : Text → Bool) :
    Option (List Text) :=
  match fromPath path with
  | some .rust => (statements.mapM fun s => rust path s exist).map fun out =>
      tidy path out.flatten
  | some .python => some (tidy path (statements.flatMap fun s => python path s exist))
  | some _ => some (tidy path (statements.flatMap fun s => javascript path s exist))
  | none => some (tidy path [])

end Tessra.Semantic.Imports
