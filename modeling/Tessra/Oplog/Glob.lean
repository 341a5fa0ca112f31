import Mathlib

namespace Tessra.Oplog.Glob

/-! Path patterns for scopes and tracking rules. -/

def matchChars : List Char → List Char → Bool
  | [], s => s.isEmpty
  | c :: rest, s =>
      if c = '*' then (List.range (s.length + 1)).any fun i => matchChars rest (s.drop i)
      else if c = '?' then !s.isEmpty && matchChars rest (s.drop 1)
      else !s.isEmpty && s.head? = some c && matchChars rest (s.drop 1)

def matchSegments : List (List Char) → List (List Char) → Bool
  | [], segs => segs.isEmpty
  | p :: rest, segs =>
      if p = ['*', '*'] then
        -- Try consuming zero or more segments.
        (List.range (segs.length + 1)).any fun i => matchSegments rest (segs.drop i)
      else
        match segs with
        | [] => false
        | s :: srest => matchChars p s && matchSegments rest srest

def trimSlashes (s : String) : List Char := s.toList.dropWhile (· = '/')

/-- Does `path` match `pattern`? -/
def «matches» (pattern path : String) : Bool :=
  let pattern := trimSlashes pattern
  let path := trimSlashes path
  if '/' ∉ pattern then matchSegments [['*', '*'], pattern] (path.splitOn '/')
  else
    matchSegments ((pattern.splitOn '/').filter (· ≠ []))
      ((path.splitOn '/').filter (· ≠ []))

/-- Does every path that `child` can match also match `parent`?  Conservative. -/
def contained (child parent : String) : Bool :=
  child = parent ||
    (['*', '*'].isSuffixOf parent.toList &&
      (parent.toList.take (parent.length - 2)).isPrefixOf child.toList) ||
    (!child.toList.any (fun c => c = '*' || c = '?') && «matches» parent child)

/-- Is `path` inside any of the patterns? -/
def anyMatch (patterns : List String) (path : String) : Bool :=
  patterns.any fun p => «matches» p path

example : [«matches» "src/**/*.rs" "src/c.rs", «matches» "*.md" "docs/README.md",
    «matches» "a/?/c" "a/bb/c", contained "src/**" "src/auth/**"] =
      [true, true, false, false] := by decide +kernel

end Tessra.Oplog.Glob
