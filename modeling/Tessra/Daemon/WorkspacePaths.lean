import Tessra.Core.Store

namespace Tessra.Daemon.WorkspacePaths

open Tessra.Core

/-! Which files the edit and try verbs touch: paths are joined as the library joins them, so an
absolute argument replaces the directory. -/

section Paths

/-- The names on the way from the root of the file system. -/
abbrev Path := List String

def segments (path : String) : List String := (path.toList.splitOn '/').map String.ofList

/-- Empty names and single dots do not count. -/
def components (path : String) : Path := (segments path).filter fun s => s ≠ "" ∧ s ≠ "."

/-- A path with a separator or a single dot at its end only opens a directory. -/
def asDir (path : String) : Bool :=
  match (segments path).getLast? with
  | some s => s = "" || s = "."
  | none => true

def join (base : Path) (path : String) : Path :=
  if path.toList.head? = some '/' then components path else base ++ components path

/-- The record of a conflict beside a file. -/
def sidecar (full : Path) : Path :=
  full.dropLast ++ [full.getLast?.getD "" ++ ".tessra-conflict"]

def hasDots (path : String) : Bool := decide (['.', '.'] <:+: path.toList)

end Paths

section Disk

inductive Node
  | dir
  | text (s : String)
  | binary (b : Bytes)
deriving DecidableEq

/-- The file system, and what was created, changed or removed in it. -/
structure World where
  disk : Path → Option Node
  touched : List Path

def isFile : Option Node → Bool
  | none | some .dir => false
  | _ => true

def createDirAll (p : Path) (W : World) : Option World :=
  if p.inits.any fun q => isFile (W.disk q) then none
  else some ⟨fun q => if q <+: p ∧ W.disk q = none then some .dir else W.disk q,
    W.touched ++ p.inits.filter fun q => W.disk q = none⟩

def writeFile (p : Path) (slash : Bool) (text : String) (W : World) : Option World :=
  if slash ∨ W.disk p = some .dir ∨ W.disk p.dropLast ≠ some .dir then none
  else some ⟨Function.update W.disk p (some (.text text)), W.touched ++ [p]⟩

def removeFile (p : Path) (slash : Bool) (W : World) : Option World :=
  if !slash && isFile (W.disk p) then some ⟨Function.update W.disk p none, W.touched ++ [p]⟩
  else none

def readToString (p : Path) (slash : Bool) (W : World) : Option String :=
  match slash, W.disk p with
  | false, some (.text s) => some s
  | _, _ => none

end Disk

section Matches

def splitGo (old : List Char) : List Char → ℕ → List Char → List (List Char)
  | cur, _, [] => [cur]
  | cur, skip + 1, _ :: s => splitGo old cur skip s
  | cur, 0, c :: s =>
      if old.isPrefixOf (c :: s) then cur :: splitGo old [] (old.length - 1) s
      else splitGo old (cur ++ [c]) 0 s

/-- The text between the matches of another, which do not overlap. -/
def pieces (old s : String) : List (List Char) :=
  if old.toList = [] then [] :: s.toList.map (fun c => [c]) ++ [[]]
  else splitGo old.toList [] 0 s.toList

def matchCount (old s : String) : ℕ := (pieces old s).length - 1

def replaceAll (old new s : String) : String :=
  String.ofList (new.toList.intercalate (pieces old s))

def replaceFirst (old new s : String) : String :=
  match pieces old s with
  | first :: second :: rest =>
      String.ofList (first ++ new.toList ++ old.toList.intercalate (second :: rest))
  | _ => s

end Matches

section Verbs

structure EditArgs where
  path : Option String
  delete : Bool
  content : Option String
  old : Option String
  new : Option String
  all : Bool
  resolve : Bool

/-- What an edit puts in the file. -/
def newText (a : EditArgs) (path : String) (full : Path) (W : World) : Except Error String :=
  match a.content, a.old, a.new with
  | some content, _, _ => .ok content
  | none, some old, some new =>
      match readToString full (asDir path) W with
      | none => .error (.verb "EDIT" s!"{path}: not read")
      | some cur =>
          let n := matchCount old cur
          if n = 0 then .error (.verb "EDIT" s!"old text not found in {path}")
          else if n > 1 ∧ !a.all then
            .error (.verb "EDIT"
              s!"old text occurs {n} times in {path}; pass all=true or make it unique")
          else .ok (replaceAll old new cur)
  | none, _, _ => .error (.verb "ARGS" "edit needs content, or old and new")

/-- The edit of one file, up to what it says about claims. -/
def edit (base : Path) (a : EditArgs) (W : World) : Except Error Unit × World :=
  match a.path with
  | none => (.error (.verb "ARGS" "edit needs path"), W)
  | some path =>
      if hasDots path then (.error (.verb "ARGS" "path may not contain .."), W)
      else
        let full := join base path
        match createDirAll full.dropLast W with
        | none => (.error (.other "create_dir_all"), W)
        | some W =>
            if a.delete then
              let W := (removeFile full (asDir path) W).getD W
              (.ok (), (removeFile (sidecar full) false W).getD W)
            else
              match newText a path full W with
              | .error e => (.error e, W)
              | .ok text =>
                  match writeFile full (asDir path) text W with
                  | none => (.error (.other "write"), W)
                  | some W =>
                      (.ok (), if a.resolve then (removeFile (sidecar full) false W).getD W else W)

end Verbs

section Tries

structure Candidate where
  path : Option String
  content : Option String
  old : Option String
  new : Option String

/-- What a candidate puts in its file, if it finds the text it replaces. -/
def candidateText (c : Candidate) (i : ℕ) (path : String) (full : Path) (W : World) :
    Except Error (Option String) :=
  match c.content, c.old, c.new with
  | some content, _, _ => .ok (some content)
  | none, some old, some new =>
      match readToString full (asDir path) W with
      | none => .error (.verb "EDIT" s!"{path}: not read")
      | some text => .ok (if matchCount old text = 0 then none else some (replaceFirst old new text))
  | none, _, _ => .error (.verb "ARGS" s!"candidate {i} needs content, or old and new")

/-- A directory with all below it, put anew or, without a tree, removed. -/
def replaceDir (dir : Path) (tree : Path → Option Node) (W : World) : World :=
  ⟨fun q => if dir <+: q then tree (q.drop dir.length) else W.disk q, W.touched ++ [dir]⟩

/-- Write a file, after the directories it lies in. -/
def putFile (full : Path) (slash : Bool) (text : String) (W : World) : Except Error Unit × World :=
  match createDirAll full.dropLast W with
  | none => (.error (.other "create_dir_all"), W)
  | some W =>
      match writeFile full slash text W with
      | none => (.error (.other "write"), W)
      | some W => (.ok (), W)

/-- One candidate in its scratch directory, up to its revision. -/
def tryCandidate (dir : Path) (tree : Path → Option Node) (c : Candidate) (i : ℕ) (W : World) :
    Except Error (Option (String × String)) × World :=
  let W := replaceDir dir tree W
  match c.path with
  | none => (.error (.verb "ARGS" s!"candidate {i} needs path"), W)
  | some path =>
      if hasDots path then (.error (.verb "ARGS" "path may not contain .."), W)
      else
        match candidateText c i path (join dir path) W with
        | .error e => (.error e, W)
        | .ok none => (.ok none, replaceDir dir (fun _ => none) W)
        | .ok (some text) =>
            match putFile (join dir path) (asDir path) text W with
            | (.error e, W) => (.error e, W)
            | (.ok _, W) => (.ok (some (path, text)), replaceDir dir (fun _ => none) W)

/-- The scratch directory of a candidate, among the workspaces. -/
def scratch (workspaces : Path) (ws : String) (i : ℕ) : Path := workspaces ++ [s!"try-{ws}-{i}"]

/-- The candidates in turn, each in a directory of its own, and what they put in which file. -/
def tryCandidates (workspaces : Path) (ws : String) (tree : Path → Option Node) :
    List Candidate → ℕ → World → Except Error (List (Option (String × String))) × World
  | [], _, W => (.ok [], W)
  | c :: rest, i, W =>
      match tryCandidate (scratch workspaces ws i) tree c i W with
      | (.error e, W) => (.error e, W)
      | (.ok edited, W) =>
          match tryCandidates workspaces ws tree rest (i + 1) W with
          | (.error e, W) => (.error e, W)
          | (.ok edits, W) => (.ok (edited :: edits), W)

/-- Write a candidate's file into the workspace. -/
def keepCandidate (base : Path) (edits : List (Option (String × String))) (keep : Option ℕ)
    (W : World) : Except Error Unit × World :=
  match keep.bind fun k => (edits[k]?).join with
  | none => (.ok (), W)
  | some (path, text) => putFile (join base path) (asDir path) text W

def tryVerb (base workspaces : Path) (ws : String) (tree : Path → Option Node)
    (candidates : List Candidate) (keep : Option ℕ) (W : World) : Except Error Unit × World :=
  if candidates = [] then
    (.error (.verb "ARGS"
      "try needs candidates: [\x7bpath, content\x7d | \x7bpath, old, new\x7d, ...]"), W)
  else
    match tryCandidates workspaces ws tree candidates 0 W with
    | (.error e, W) => (.error e, W)
    | (.ok edits, W) => keepCandidate base edits keep W

end Tries

section Containment

/-- Neither at or below one of the directories, nor one of those they lie in. -/
def Escapes (roots : List Path) (p : Path) : Prop := ∀ b ∈ roots, ¬ b <+: p ∧ ¬ p <+: b

/-- The directories and those they lie in are there. -/
def OnDirs (roots : List Path) (disk : Path → Option Node) : Prop :=
  ∀ b ∈ roots, ∀ q, q <+: b → disk q = some .dir

def Below (roots : List Path) (p : Path) : Prop := ∃ b ∈ roots, b <+: p

/-- The edit touches only what is at or below the directory, on every disk. -/
def EditContained (base : Path) (a : EditArgs) : Prop :=
  ∀ disk, OnDirs [base] disk → ∀ p ∈ (edit base a ⟨disk, []⟩).2.touched, base <+: p

def EditArgs.writes (a : EditArgs) : Prop :=
  a.delete = true ∨ a.content ≠ none ∨ a.old ≠ none ∧ a.new ≠ none

/-- The path is refused, or it leads nowhere else: not the directory of the file, not the file,
unless its path only opens a directory, and for a deletion not the record beside it. -/
def Stays (base : Path) (a : EditArgs) : Prop :=
  ∀ path, a.path = some path → hasDots path = false →
    ¬ Escapes [base] (join base path).dropLast ∧
    (a.writes → asDir path = false → ¬ Escapes [base] (join base path)) ∧
    (a.delete = true → ¬ Escapes [base] (sidecar (join base path)))

/-- Joined to a directory, the path of a candidate is refused or leads to no file elsewhere. -/
def CandidateStays (roots : List Path) (dir : Path) (c : Candidate) : Prop :=
  ∀ path, c.path = some path → hasDots path = false →
    ¬ Escapes roots (join dir path).dropLast ∧
    (asDir path = false → ¬ Escapes roots (join dir path))

/-- The directories are there, and what is below them may be touched. -/
structure Inside (roots : List Path) (Allowed : Path → Prop) (W : World) : Prop where
  dirs : OnDirs roots W.disk
  touched : ∀ p ∈ W.touched, Allowed p
  below : ∀ p, Below roots p → Allowed p

variable {base p q : Path} {roots : List Path} {W W' : World} {slash : Bool} {text : String}
  {Allowed : Path → Prop}

theorem below_of_not_escapes (h : ¬ Escapes roots p) (hdirs : OnDirs roots W.disk)
    (hp : W.disk p ≠ some .dir) : Below roots p := by
  by_contra hbelow
  refine h fun b hb => ⟨fun hfront => hbelow ⟨b, hb, hfront⟩, fun hfront => ?_⟩
  exact hp (hdirs b hb p hfront)

theorem Inside.createDirAll (h : Inside roots Allowed W) (hp : ¬ Escapes roots p)
    (hW : createDirAll p W = some W') : Inside roots Allowed W' := by
  unfold WorkspacePaths.createDirAll at hW
  split_ifs at hW
  obtain rfl := Option.some.inj hW
  refine ⟨fun b hb q hq => ?_, fun q hq => ?_, h.below⟩
  · have hdir := h.dirs b hb q hq
    simp [hdir]
  · rcases List.mem_append.mp hq with hq | hq
    · exact h.touched q hq
    · obtain ⟨hfront, hnone⟩ := List.mem_filter.mp hq
      rw [List.mem_inits] at hfront
      refine h.below q (below_of_not_escapes (fun hescapes => hp fun b hb => ?_) h.dirs fun hdir => by
        simp [hdir] at hnone)
      obtain ⟨hbq, hqb⟩ := hescapes b hb
      refine ⟨fun hbp => ?_, fun hpb => hqb (hfront.trans hpb)⟩
      exact (List.prefix_or_prefix_of_prefix hbp hfront).elim hbq hqb

theorem Inside.put (h : Inside roots Allowed W) (hp : Below roots p) (hne : W.disk p ≠ some .dir)
    (n : Option Node) : Inside roots Allowed ⟨Function.update W.disk p n, W.touched ++ [p]⟩ := by
  refine ⟨fun b hb q hq => ?_, fun q hq => ?_, h.below⟩
  · have hqp : q ≠ p := by
      rintro rfl
      exact hne (h.dirs b hb q hq)
    exact (Function.update_of_ne hqp _ _).trans (h.dirs b hb q hq)
  · rcases List.mem_append.mp hq with hq | hq
    · exact h.touched q hq
    · obtain rfl := List.mem_singleton.mp hq
      exact h.below q hp

theorem Inside.writeFile (h : Inside roots Allowed W) (hp : slash = false → ¬ Escapes roots p)
    (hW : writeFile p slash text W = some W') :
    Inside roots Allowed W' ∧ ∃ b ∈ roots, b <+: p ∧ b ≠ p := by
  unfold WorkspacePaths.writeFile at hW
  split_ifs at hW with hbad
  obtain rfl := Option.some.inj hW
  push Not at hbad
  obtain ⟨b, hb, hfront⟩ : Below roots p :=
    below_of_not_escapes (hp (Bool.eq_false_iff.mpr hbad.1)) h.dirs hbad.2.1
  refine ⟨h.put ⟨b, hb, hfront⟩ hbad.2.1 _, b, hb, hfront, ?_⟩
  rintro rfl
  exact hbad.2.1 (h.dirs b hb b (List.prefix_refl b))

theorem Inside.removeFile (h : Inside roots Allowed W) (hp : slash = false → ¬ Escapes roots p) :
    Inside roots Allowed ((removeFile p slash W).getD W) := by
  unfold WorkspacePaths.removeFile
  split_ifs with hfile
  · rw [Bool.and_eq_true, Bool.not_eq_true'] at hfile
    have hne : W.disk p ≠ some .dir := by
      intro hdir
      rw [hdir] at hfile
      exact absurd hfile.2 (by decide)
    exact h.put (below_of_not_escapes (hp hfile.1) h.dirs hne) hne _
  · exact h

/-- What stands beside a file below the directory is below it too. -/
theorem prefix_sidecar (h : base <+: p) (hne : base ≠ p) : base <+: sidecar p := by
  obtain ⟨rest, rfl⟩ := h
  have hrest : rest ≠ [] := by
    rintro rfl
    exact hne (List.append_nil base).symm
  rw [sidecar, List.dropLast_append_of_ne_nil hrest, List.append_assoc]
  exact List.prefix_append _ _

theorem editContained_of_stays {a : EditArgs} (h : Stays base a) : EditContained base a := by
  intro disk hdirs p hp
  have hstart : Inside [base] (Below [base]) ⟨disk, []⟩ :=
    ⟨hdirs, fun p hp => absurd hp List.not_mem_nil, fun p hp => hp⟩
  suffices hinside : Inside [base] (Below [base]) (edit base a ⟨disk, []⟩).2 by
    obtain ⟨b, hb, hfront⟩ := hinside.touched p hp
    exact List.mem_singleton.mp hb ▸ hfront
  clear hp
  unfold edit
  split
  · exact hstart
  rename_i path hpath
  split
  · exact hstart
  rename_i hdots
  obtain ⟨hparent, hfile, hdelete⟩ := h path hpath (Bool.eq_false_iff.mpr hdots)
  dsimp only
  split
  · exact hstart
  rename_i W hW
  have hmade := hstart.createDirAll hparent hW
  split
  · rename_i hdel
    exact (hmade.removeFile (hfile (Or.inl hdel))).removeFile fun _ => hdelete hdel
  split
  · exact hmade
  rename_i text htext
  have hwrites : a.writes := by
    unfold newText at htext
    split at htext
    · rename_i hcontent
      exact Or.inr (Or.inl (by simp [hcontent]))
    · rename_i hold hnew
      exact Or.inr (Or.inr (by simp [hold, hnew]))
    · cases htext
  split
  · exact hmade
  rename_i W₂ hW₂
  obtain ⟨hinside, b, hb, hbase, hne⟩ := hmade.writeFile (hfile hwrites) hW₂
  split
  · exact hinside.removeFile fun _ hescapes => (hescapes b hb).1 (prefix_sidecar hbase hne)
  · exact hinside

theorem Inside.putFile (h : Inside roots Allowed W) (hparent : ¬ Escapes roots p.dropLast)
    (hp : slash = false → ¬ Escapes roots p) :
    Inside roots Allowed (putFile p slash text W).2 := by
  unfold WorkspacePaths.putFile
  split
  · exact h
  rename_i W₁ hW₁
  have hmade := h.createDirAll hparent hW₁
  split
  · exact hmade
  rename_i W₂ hW₂
  exact (hmade.writeFile hp hW₂).1

end Containment

section Candidates

variable {base workspaces p : Path} {ws : String} {tree : Path → Option Node} {c : Candidate}
  {i : ℕ} {W : World} {keep : Option ℕ} {candidates : List Candidate}

/-- Below the workspace or below a scratch directory. -/
def TryAllowed (base workspaces : Path) (ws : String) (p : Path) : Prop :=
  base <+: p ∨ ∃ i, scratch workspaces ws i <+: p

structure TryInside (base workspaces : Path) (ws : String) (W : World) : Prop where
  dirs : OnDirs [base, workspaces] W.disk
  touched : ∀ p ∈ W.touched, TryAllowed base workspaces ws p

theorem scratch_not_above (h : p <+: workspaces) : ¬ scratch workspaces ws i <+: p := by
  intro hfront
  have hlength := (hfront.trans h).length_le
  rw [scratch, List.length_append, List.length_singleton] at hlength
  omega

/-- A scratch directory that is put anew is there, with the workspace. -/
theorem TryInside.replaceDir (h : TryInside base workspaces ws W)
    (hbase : ¬ scratch workspaces ws i <+: base) (htree : tree [] = some .dir) :
    Inside [base, scratch workspaces ws i] (TryAllowed base workspaces ws)
      (replaceDir (scratch workspaces ws i) tree W) := by
  refine ⟨fun b hb q hq => ?_, fun q hq => ?_, ?_⟩
  · rcases List.mem_pair.mp hb with rfl | rfl
    · have hout : ¬ scratch workspaces ws i <+: q := fun hfront => hbase (hfront.trans hq)
      exact (if_neg hout).trans (h.dirs _ List.mem_cons_self q hq)
    · rcases List.prefix_concat_iff.mp hq with rfl | hq
      · refine (if_pos (List.prefix_refl _)).trans ?_
        rw [scratch, List.drop_length]
        exact htree
      · exact (if_neg (scratch_not_above hq)).trans
          (h.dirs workspaces (List.mem_cons_of_mem _ List.mem_cons_self) q hq)
  · rcases List.mem_append.mp hq with hq | hq
    · exact h.touched q hq
    · obtain rfl := List.mem_singleton.mp hq
      exact Or.inr ⟨i, List.prefix_refl _⟩
  · rintro q ⟨b, hb, hq⟩
    rcases List.mem_pair.mp hb with rfl | rfl
    · exact Or.inl hq
    · exact Or.inr ⟨i, hq⟩

theorem TryInside.of_inside (h : Inside [base, scratch workspaces ws i]
    (TryAllowed base workspaces ws) W) : TryInside base workspaces ws W := by
  refine ⟨fun b hb q hq => ?_, h.touched⟩
  rcases List.mem_pair.mp hb with rfl | rfl
  · exact h.dirs _ List.mem_cons_self q hq
  · exact h.dirs (scratch b ws i) (List.mem_cons_of_mem _ List.mem_cons_self) q
      (hq.trans (List.prefix_append _ _))

theorem TryInside.remove (h : TryInside base workspaces ws W)
    (hbase : ¬ scratch workspaces ws i <+: base) :
    TryInside base workspaces ws
      (WorkspacePaths.replaceDir (scratch workspaces ws i) (fun _ => none) W) := by
  refine ⟨fun b hb q hq => ?_, fun q hq => ?_⟩
  · have hout : ¬ scratch workspaces ws i <+: q := by
      rcases List.mem_pair.mp hb with rfl | rfl
      · exact fun hfront => hbase (hfront.trans hq)
      · exact scratch_not_above hq
    exact (if_neg hout).trans (h.dirs b hb q hq)
  · rcases List.mem_append.mp hq with hq | hq
    · exact h.touched q hq
    · obtain rfl := List.mem_singleton.mp hq
      exact Or.inr ⟨i, List.prefix_refl _⟩

theorem TryInside.tryCandidate (h : TryInside base workspaces ws W)
    (hbase : ¬ scratch workspaces ws i <+: base) (htree : tree [] = some .dir)
    (hc : CandidateStays [base, scratch workspaces ws i] (scratch workspaces ws i) c) :
    TryInside base workspaces ws (tryCandidate (scratch workspaces ws i) tree c i W).2 := by
  have hput := h.replaceDir hbase htree
  unfold WorkspacePaths.tryCandidate
  dsimp only
  split
  · exact .of_inside hput
  rename_i path hpath
  split
  · exact .of_inside hput
  rename_i hdots
  obtain ⟨hparent, hfile⟩ := hc path hpath (Bool.eq_false_iff.mpr hdots)
  split
  · exact .of_inside hput
  · exact (TryInside.of_inside hput).remove hbase
  rename_i text htext
  have hwritten : Inside [base, scratch workspaces ws i] (TryAllowed base workspaces ws)
      (WorkspacePaths.putFile (join (scratch workspaces ws i) path) (asDir path) text
        (WorkspacePaths.replaceDir (scratch workspaces ws i) tree W)).2 :=
    hput.putFile hparent hfile
  split
  · rename_i W₁ hW₁
    rw [hW₁] at hwritten
    exact .of_inside hwritten
  · rename_i W₁ hW₁
    rw [hW₁] at hwritten
    exact (TryInside.of_inside hwritten).remove hbase

theorem path_of_tryCandidate {path text : String} {dir : Path}
    (h : (tryCandidate dir tree c i W).1 = .ok (some (path, text))) :
    c.path = some path ∧ hasDots path = false := by
  unfold tryCandidate at h
  dsimp only at h
  split at h
  · cases h
  rename_i found hfound
  split at h
  · cases h
  rename_i hdots
  split at h
  · cases h
  · cases h
  split at h
  · cases h
  · cases h
    exact ⟨hfound, Bool.eq_false_iff.mpr hdots⟩

theorem TryInside.tryCandidates : ∀ (candidates : List Candidate) (i : ℕ) {W : World},
    TryInside base workspaces ws W → (∀ i, ¬ scratch workspaces ws i <+: base) →
    tree [] = some .dir →
    (∀ j c, candidates[j]? = some c →
      CandidateStays [base, scratch workspaces ws (i + j)] (scratch workspaces ws (i + j)) c) →
    TryInside base workspaces ws (tryCandidates workspaces ws tree candidates i W).2
  | [], _, _, h, _, _, _ => h
  | c :: rest, i, W, h, hbase, htree, hall => by
      have hfirst := h.tryCandidate (hbase i) htree (hall 0 c rfl)
      unfold WorkspacePaths.tryCandidates
      split
      · rename_i e W₁ hW₁
        rw [hW₁] at hfirst
        exact hfirst
      · rename_i edited W₁ hW₁
        rw [hW₁] at hfirst
        have hrest := TryInside.tryCandidates rest (i + 1) hfirst hbase htree fun j c hc => by
          have hstays := hall (j + 1) c hc
          rwa [← Nat.add_assoc, Nat.add_right_comm] at hstays
        split
        · rename_i e W₂ hW₂
          rw [hW₂] at hrest
          exact hrest
        · rename_i edits W₂ hW₂
          rw [hW₂] at hrest
          exact hrest

theorem path_of_tryCandidates : ∀ (candidates : List Candidate) (i : ℕ) {W : World}
    {edits : List (Option (String × String))} {path text : String},
    (tryCandidates workspaces ws tree candidates i W).1 = .ok edits → some (path, text) ∈ edits →
    ∃ c ∈ candidates, c.path = some path ∧ hasDots path = false
  | [], _, _, _, _, _, h, hmem => by
      obtain rfl := Except.ok.inj h
      exact absurd hmem List.not_mem_nil
  | c :: rest, i, W, edits, path, text, h, hmem => by
      unfold tryCandidates at h
      split at h
      · cases h
      rename_i edited W₁ hW₁
      split at h
      · cases h
      rename_i later W₂ hW₂
      obtain rfl := Except.ok.inj h
      rcases List.mem_cons.mp hmem with heq | hmem
      · have hfirst : (tryCandidate (scratch workspaces ws i) tree c i W).1 =
            .ok (some (path, text)) :=
          (congrArg Prod.fst hW₁).trans (congrArg Except.ok heq.symm)
        exact ⟨c, List.mem_cons_self, path_of_tryCandidate hfirst⟩
      · obtain ⟨c', hc', hpath⟩ := path_of_tryCandidates rest (i + 1) (congrArg Prod.fst hW₂) hmem
        exact ⟨c', List.mem_cons_of_mem _ hc', hpath⟩

/-- The try touches only what is below the workspace or a scratch directory, on every disk. -/
def TryContained (base workspaces : Path) (ws : String) (candidates : List Candidate)
    (keep : Option ℕ) : Prop :=
  ∀ tree disk, tree [] = some .dir → OnDirs [base, workspaces] disk →
    ∀ p ∈ (tryVerb base workspaces ws tree candidates keep ⟨disk, []⟩).2.touched,
      TryAllowed base workspaces ws p

theorem tryContained_of_stays (hbase : ∀ i, ¬ scratch workspaces ws i <+: base)
    (hall : ∀ i c, candidates[i]? = some c →
      CandidateStays [base, scratch workspaces ws i] (scratch workspaces ws i) c)
    (hkeep : ∀ c ∈ candidates, keep ≠ none → CandidateStays [base] base c) :
    TryContained base workspaces ws candidates keep := by
  intro tree disk htree hdirs
  have hstart : TryInside base workspaces ws ⟨disk, []⟩ :=
    ⟨hdirs, fun p hp => absurd hp List.not_mem_nil⟩
  unfold tryVerb
  split
  · exact hstart.touched
  have htried := hstart.tryCandidates candidates 0 hbase htree fun j c hc => by
    rw [Nat.zero_add]
    exact hall j c hc
  split
  · rename_i e W hW
    rw [hW] at htried
    exact htried.touched
  rename_i edits W hW
  rw [hW] at htried
  unfold keepCandidate
  split
  · exact htried.touched
  rename_i path text hkept
  obtain ⟨k, rfl, hk⟩ := Option.bind_eq_some_iff.mp hkept
  have hmem : some (path, text) ∈ edits :=
    List.mem_of_getElem? (Option.join_eq_some_iff.mp hk)
  obtain ⟨c, hc, hpath, hdots⟩ := path_of_tryCandidates candidates 0 (congrArg Prod.fst hW) hmem
  obtain ⟨hparent, hfile⟩ := hkeep c hc (Option.some_ne_none k) path hpath hdots
  have hinside : Inside [base] (TryAllowed base workspaces ws) W := by
    refine ⟨fun b hb => ?_, htried.touched, ?_⟩
    · obtain rfl := List.mem_singleton.mp hb
      exact htried.dirs b List.mem_cons_self
    · rintro q ⟨b, hb, hq⟩
      exact Or.inl (List.mem_singleton.mp hb ▸ hq)
  exact (hinside.putFile hparent hfile).touched

end Candidates

section Escaping

variable {base p q : Path} {W W' : World} {slash : Bool} {text path : String} {a : EditArgs}

/-- A disk with a node at a place and the directories that it and the base lie in. -/
def diskWith (base p : Path) (n : Option Node) : Path → Option Node := fun q =>
  if q = p then n else if q <+: base ∨ q <+: p then some .dir else none

theorem onDirs_diskWith (h : Escapes [base] p) (n : Option Node) :
    OnDirs [base] (diskWith base p n) := by
  intro b hb q hq
  obtain rfl := List.mem_singleton.mp hb
  have hne : q ≠ p := by
    rintro rfl
    exact (h b (List.mem_singleton_self b)).2 hq
  rw [diskWith, if_neg hne, if_pos (Or.inl hq)]

theorem diskWith_above (n : Option Node) (h : q <+: p) (hne : q ≠ p) :
    diskWith base p n q = some .dir := by
  rw [diskWith, if_neg hne, if_pos (Or.inr h)]

theorem exists_createDirAll (h : ∀ q, q <+: p → isFile (W.disk q) = false) :
    ∃ W', createDirAll p W = some W' ∧ (∀ q, q <+: p → W.disk q = none → q ∈ W'.touched) ∧
      ∀ q n, W.disk q = some n → W'.disk q = some n := by
  unfold createDirAll
  rw [if_neg]
  · refine ⟨_, rfl, fun q hq hnone => ?_, fun q n hn => ?_⟩
    · refine List.mem_append_right _ (List.mem_filter.mpr ⟨(List.mem_inits _ _).mpr hq, ?_⟩)
      exact decide_eq_true hnone
    · simp [hn]
  · rw [Bool.not_eq_true, List.any_eq_false]
    intro q hq
    rw [h q ((List.mem_inits _ _).mp hq)]
    exact Bool.false_ne_true

theorem mem_removeFile (h : q ∈ W.touched) : q ∈ ((removeFile p slash W).getD W).touched := by
  unfold removeFile
  split_ifs
  · exact List.mem_append_left _ h
  · exact h

theorem removed (h : isFile (W.disk p) = true) :
    p ∈ ((removeFile p false W).getD W).touched := by
  unfold removeFile
  rw [h]
  exact List.mem_append_right _ (List.mem_singleton_self p)

/-- What was touched before the file stays touched. -/
theorem mem_edit (hpath : a.path = some path) (hdots : hasDots path = false)
    (hW : createDirAll (join base path).dropLast W = some W') (h : q ∈ W'.touched) :
    q ∈ (edit base a W).2.touched := by
  unfold edit
  simp only [hpath, hdots, Bool.false_eq_true, if_false, hW]
  split
  · exact mem_removeFile (mem_removeFile h)
  split
  · exact h
  split
  · exact h
  rename_i W₂ hW₂
  have hwritten : q ∈ W₂.touched := by
    unfold writeFile at hW₂
    split_ifs at hW₂
    obtain rfl := Option.some.inj hW₂
    exact List.mem_append_left _ h
  split
  · exact mem_removeFile hwritten
  · exact hwritten

theorem splitGo_skip (old : List Char) : ∀ cur s : List Char, splitGo old cur s.length s = [cur]
  | _, [] => rfl
  | cur, _ :: s => splitGo_skip old cur s

/-- A text occurs in itself once. -/
theorem matchCount_self (old : String) : matchCount old old = 1 := by
  unfold matchCount pieces
  split_ifs with hnil
  · rw [hnil]
    rfl
  · obtain ⟨c, s, hold⟩ := List.exists_cons_of_ne_nil hnil
    have hskip : splitGo (c :: s) [] ((c :: s).length - 1) s = [[]] := splitGo_skip _ _ _
    rw [hold, splitGo, if_pos (List.isPrefixOf_iff_prefix.mpr (List.prefix_refl _)), hskip]
    rfl

theorem ne_nil_of_escapes (h : Escapes [base] p) : p ≠ [] := by
  rintro rfl
  exact (h base (List.mem_singleton_self base)).2 List.nil_prefix

/-- A file elsewhere is touched on some disk. -/
theorem touched_file (hpath : a.path = some path) (hdots : hasDots path = false)
    (hwrites : a.writes) (hslash : asDir path = false) (h : Escapes [base] (join base path)) :
    ∃ disk, OnDirs [base] disk ∧ join base path ∈ (edit base a ⟨disk, []⟩).2.touched := by
  refine ⟨diskWith base (join base path) (some (.text (a.old.getD ""))), onDirs_diskWith h _, ?_⟩
  have hne := ne_nil_of_escapes h
  have hlt : (join base path).dropLast.length < (join base path).length := by
    rw [List.length_dropLast]
    exact Nat.sub_lt (List.length_pos_of_ne_nil hne) Nat.one_pos
  have hparents : ∀ q, q <+: (join base path).dropLast →
      diskWith base (join base path) (some (.text (a.old.getD ""))) q = some .dir := by
    intro q hq
    refine diskWith_above _ (hq.trans (List.dropLast_prefix _)) ?_
    rintro rfl
    exact absurd hq.length_le (Nat.not_le.mpr hlt)
  obtain ⟨W, hW, -, hkeep⟩ := exists_createDirAll
    (W := ⟨diskWith base (join base path) (some (.text (a.old.getD ""))), []⟩)
    fun q hq => congrArg isFile (hparents q hq)
  have hfile : W.disk (join base path) = some (.text (a.old.getD "")) :=
    hkeep _ _ (if_pos rfl)
  have hdir : W.disk (join base path).dropLast = some .dir :=
    hkeep _ _ (hparents _ (List.prefix_refl _))
  have hwrite : ∀ text, ∃ W', writeFile (join base path) false text W = some W' ∧
      join base path ∈ W'.touched := by
    intro text
    unfold writeFile
    rw [if_neg (by simp [hfile, hdir])]
    exact ⟨_, rfl, List.mem_append_right _ (List.mem_singleton_self _)⟩
  unfold edit
  simp only [hpath, hdots, Bool.false_eq_true, if_false, hW, hslash]
  by_cases hdelete : a.delete = true
  · rw [if_pos hdelete]
    exact mem_removeFile (removed (by rw [hfile]; rfl))
  rw [if_neg hdelete]
  have htext : ∃ text, newText a path (join base path) W = .ok text := by
    unfold newText
    rcases hwrites with h' | hcontent | ⟨hold, hnew⟩
    · exact absurd h' hdelete
    · obtain ⟨content, hcontent⟩ := Option.ne_none_iff_exists'.mp hcontent
      exact ⟨content, by rw [hcontent]⟩
    · obtain ⟨old, hold⟩ := Option.ne_none_iff_exists'.mp hold
      obtain ⟨new, hnew⟩ := Option.ne_none_iff_exists'.mp hnew
      cases hcontent : a.content with
      | some content => exact ⟨content, rfl⟩
      | none =>
          rw [hold, Option.getD_some] at hfile
          simp [hold, hnew, readToString, hslash, hfile, matchCount_self]
  obtain ⟨text, htext⟩ := htext
  obtain ⟨W', hW', hmem⟩ := hwrite text
  simp only [htext, hW']
  split
  · exact mem_removeFile hmem
  · exact hmem

theorem sidecar_ne (p : Path) : sidecar p ≠ p := by
  intro h
  have hlength := congrArg List.length h
  rcases p.eq_nil_or_concat with rfl | ⟨front, last, rfl⟩
  · simp [sidecar] at hlength
  · simp only [sidecar, List.concat_eq_append, List.dropLast_concat, List.getLast?_concat,
      Option.getD_some, List.append_cancel_left_eq, List.cons.injEq, and_true] at h
    have hchars := congrArg (fun s : String => s.toList.length) h
    simp at hchars

/-- The record beside a file is touched on some disk if the file is deleted. -/
theorem touched_sidecar (hpath : a.path = some path) (hdots : hasDots path = false)
    (hdelete : a.delete = true) (h : Escapes [base] (sidecar (join base path))) :
    ∃ disk, OnDirs [base] disk ∧
      sidecar (join base path) ∈ (edit base a ⟨disk, []⟩).2.touched := by
  refine ⟨diskWith base (sidecar (join base path)) (some (.text "")), onDirs_diskWith h _, ?_⟩
  have hparents : ∀ q, q <+: (join base path).dropLast →
      diskWith base (sidecar (join base path)) (some (.text "")) q = some .dir := by
    intro q hq
    refine diskWith_above _ (hq.trans (List.prefix_append _ _)) ?_
    rintro rfl
    have hlength := hq.length_le
    rw [sidecar, List.length_append, List.length_singleton] at hlength
    omega
  obtain ⟨W, hW, -, hkeep⟩ := exists_createDirAll
    (W := ⟨diskWith base (sidecar (join base path)) (some (.text "")), []⟩)
    fun q hq => congrArg isFile (hparents q hq)
  have hfile : isFile (((removeFile (join base path) (asDir path) W).getD W).disk
      (sidecar (join base path))) = true := by
    have hkept : W.disk (sidecar (join base path)) = some (.text "") := hkeep _ _ (if_pos rfl)
    unfold removeFile
    split_ifs
    · change isFile (Function.update W.disk (join base path) none _) = true
      rw [Function.update_of_ne (sidecar_ne _), hkept]
      rfl
    · change isFile (W.disk _) = true
      rw [hkept]
      rfl
  unfold edit
  simp only [hpath, hdots, Bool.false_eq_true, if_false, hW, hdelete, if_true]
  exact removed hfile

theorem stays_of_editContained (h : EditContained base a) : Stays base a := by
  intro path hpath hdots
  have hout : ∀ {q}, Escapes [base] q → ¬ base <+: q := fun hescapes =>
    (hescapes base (List.mem_singleton_self base)).1
  refine ⟨fun hescapes => ?_, fun hwrites hslash hescapes => ?_, fun hdelete hescapes => ?_⟩
  · have hdirs := onDirs_diskWith hescapes none
    have hfree : ∀ q, q <+: (join base path).dropLast →
        isFile (diskWith base (join base path).dropLast none q) = false := by
      intro q hq
      by_cases hne : q = (join base path).dropLast
      · rw [diskWith, if_pos hne]
        rfl
      · rw [diskWith_above none hq hne]
        rfl
    obtain ⟨W, hW, hmade, -⟩ := exists_createDirAll
      (W := ⟨diskWith base (join base path).dropLast none, []⟩) hfree
    exact hout hescapes (h _ hdirs _ (mem_edit hpath hdots hW
      (hmade _ (List.prefix_refl _) (if_pos rfl))))
  · obtain ⟨disk, hdirs, hmem⟩ := touched_file hpath hdots hwrites hslash hescapes
    exact hout hescapes (h disk hdirs _ hmem)
  · obtain ⟨disk, hdirs, hmem⟩ := touched_sidecar hpath hdots hdelete hescapes
    exact hout hescapes (h disk hdirs _ hmem)

end Escaping

def writing (path : String) : EditArgs := ⟨some path, false, some "", none, none, false, false⟩

def candidate (path : String) : Candidate := ⟨some path, some "", none, none⟩

end Tessra.Daemon.WorkspacePaths
