import Tessra.Redb.Records
import Tessra.Semantic.Merging

namespace Tessra.Daemon

open Tessra.Core Tessra.Data
open Tessra.Redb (utf8 utf8_injective)
open Tessra.Semantic (isIdent)
open Tessra.Semantic.Merge (Edit slice allRenames)

/-! The renames that one side makes, and what becomes of the identifiers of a text that
they are carried into. -/

section Inferred

/-- The aliases of the indexes, a merged-away id to the survivor. -/
def aliasesOf (indexes : List NodeIndex) : OrdMap EntityId EntityId :=
  (indexes.flatMap fun idx => (idx.aliases.map OrdMap.entries).getD []).foldl
    (fun map e => if h : e.1.length = 16 then map.insert ⟨e.1, h⟩ e.2 else map) ∅

/-- Follow aliases, so many at most. -/
def resolveAlias (aliases : OrdMap EntityId EntityId) : ℕ → EntityId → EntityId
  | 0, id => id
  | steps + 1, id =>
      match aliases.get? id with
      | some next => if next ≠ id then resolveAlias aliases steps next else id
      | none => id

def canonicalNodes (aliases : OrdMap EntityId EntityId) (nodes : List Node) : List Node :=
  nodes.map fun n =>
    { n with
      nid := resolveAlias aliases 64 n.nid
      parent := n.parent.map (resolveAlias aliases 64) }

/-- A unit that carries the id of a unit with another identifier was renamed. -/
def inferredRenames (path : String) (before after : List Node) : List (EntityId × Rename) :=
  after.filterMap fun n => do
    let b ← before.reverse.find? (·.nid = n.nid)
    if b.name ≠ n.name ∧ isIdent b.name ∧ isIdent n.name then
      some (n.nid, ⟨b.name, n.name, some path⟩)
    else none

/-- The renames from one index to another.  The paths come in no order that the indexes
fix, and a nested unit's rename stays in its file. -/
def renamesBetween (base side : NodeIndex) : List Rename :=
  let aliases := aliasesOf [base, side]
  let nodesAt := fun (index : NodeIndex) path =>
    canonicalNodes aliases (index.nodes.filter (·.path = path))
  (side.nodes.map (·.path)).dedup.flatMap fun path =>
    (inferredRenames path (nodesAt base path) (nodesAt side path)).map fun r =>
      let top := (nodesAt side path).any fun n => n.nid = r.1 ∧ n.parent = none
      { r.2 with path := if top then none else r.2.path }

def Rename.appliesTo (r : Rename) (path : String) : Bool := r.path.all (· = path)

/-- What a side's renames, collected in the order listed, leave for a file of the other
side. -/
def carried (listed : List Rename) (path : String) : List Rename :=
  (allRenames [] listed).filter (·.appliesTo path)

end Inferred

section Applied

def identByte (b : Byte) : Bool :=
  (48 ≤ b.val ∧ b.val ≤ 57) || (65 ≤ b.val ∧ b.val ≤ 90) || (97 ≤ b.val ∧ b.val ≤ 122) ||
    b.val = 95

/-- No identifier goes on over the place. -/
def breaksAt (text : Bytes) (i : ℕ) : Bool := (text[i]?).all (!identByte ·)

/-- The bytes from one place to another are a word of their own. -/
def wordAt (text : Bytes) (start stop : ℕ) : Bool :=
  (start = 0 || breaksAt text (start - 1)) && breaksAt text stop

/-- Whether the identifier occurs as a whole word. -/
def containsIdent (text ident : Bytes) : Bool :=
  ident ≠ [] && (List.range (text.length + 1)).any fun i =>
    i + ident.length ≤ text.length && slice text i (i + ident.length) = ident &&
      wordAt text i (i + ident.length)

/-- An identifier that the parser finds and may rename: a word of the text. -/
structure Token (text : Bytes) where
  start : ℕ
  stop : ℕ
  start_lt : start < stop
  stop_le : stop ≤ text.length
  word : wordAt text start stop = true

def Token.ident {text : Bytes} (t : Token text) : Bytes := slice text t.start t.stop

/-- One rename after another, and which of them changed the name. -/
def renameToken (renames : List Rename) (ident : Bytes) : Bytes × List ℕ :=
  renames.zipIdx.foldl (fun s e =>
    if s.1 = utf8 e.1.from then (utf8 e.1.to, s.2 ++ [e.2]) else s) (ident, [])

/-- One edit for each token that a rename changes. -/
def renameEdits (tokens : (text : Bytes) → List (Token text)) (text : Bytes)
    (renames : List Rename) : List Edit :=
  if renames.any fun r => containsIdent text (utf8 r.from) then
    (tokens text).filterMap fun t =>
      let (name, applied) := renameToken renames t.ident
      if applied = [] then none else some ⟨t.start, t.stop, name, applied⟩
  else []

end Applied

section Chains

variable {renames : List Rename} {ident name : Bytes} {r : Rename}

/-- The name that the renames make of one, one after another. -/
def chained (renames : List Rename) (name : Bytes) : Bytes :=
  renames.foldl (fun name r => if name = utf8 r.from then utf8 r.to else name) name

theorem chained_append (l m : List Rename) (name : Bytes) :
    chained (l ++ m) name = chained m (chained l name) := List.foldl_append ..

theorem chained_of_forall_ne : ∀ {renames}, (∀ r ∈ renames, name ≠ utf8 r.from) →
    chained renames name = name
  | [], _ => rfl
  | r :: renames, h => by
      rw [chained, List.foldl_cons, if_neg (h r List.mem_cons_self)]
      exact chained_of_forall_ne fun r' hr' => h r' (List.mem_cons_of_mem _ hr')

/-- Renames of one name to another, which is the old name of none. -/
theorem chained_of_mem : ∀ {renames}, r ∈ renames →
    (∀ r' ∈ renames, utf8 r'.from = utf8 r.from → utf8 r'.to = utf8 r.to) →
    (∀ r' ∈ renames, utf8 r.to ≠ utf8 r'.from) → chained renames (utf8 r.from) = utf8 r.to
  | r' :: renames, hr, hsame, hne => by
      have hrest : chained renames (utf8 r.to) = utf8 r.to :=
        chained_of_forall_ne fun r'' hr'' => hne r'' (List.mem_cons_of_mem _ hr'')
      rw [chained, List.foldl_cons]
      by_cases hfrom : utf8 r.from = utf8 r'.from
      · rw [if_pos hfrom, hsame r' List.mem_cons_self hfrom.symm]
        exact hrest
      · rw [if_neg hfrom]
        have hmem : r ∈ renames := by
          rcases List.mem_cons.mp hr with rfl | hr
          · exact absurd rfl hfrom
          · exact hr
        exact chained_of_mem hmem (fun r'' hr'' => hsame r'' (List.mem_cons_of_mem _ hr''))
          fun r'' hr'' => hne r'' (List.mem_cons_of_mem _ hr'')

theorem fst_renameToken (renames : List Rename) (ident : Bytes) :
    (renameToken renames ident).1 = chained renames ident := by
  have hfold : ∀ (l : List Rename) (k : ℕ) (s : Bytes × List ℕ),
      ((l.zipIdx k).foldl (fun s e =>
        if s.1 = utf8 e.1.from then (utf8 e.1.to, s.2 ++ [e.2]) else s) s).1 =
        chained l s.1 := by
    intro l
    induction l with
    | nil => exact fun k s => rfl
    | cons r l ih =>
        intro k s
        rw [List.zipIdx_cons, List.foldl_cons, ih]
        change _ = chained l (if s.1 = utf8 r.from then utf8 r.to else s.1)
        split_ifs <;> rfl
  exact hfold renames 0 (ident, [])

/-- A name that a rename is from changes. -/
theorem snd_renameToken_ne_nil (hr : r ∈ renames) (hname : ident = utf8 r.from) :
    (renameToken renames ident).2 ≠ [] := by
  have hgrows : ∀ (l : List (Rename × ℕ)) (s : Bytes × List ℕ), s.2 ≠ [] →
      (l.foldl (fun s e =>
        if s.1 = utf8 e.1.from then (utf8 e.1.to, s.2 ++ [e.2]) else s) s).2 ≠ [] := by
    intro l
    induction l with
    | nil => exact fun s h => h
    | cons e l ih =>
        intro s h
        rw [List.foldl_cons]
        refine ih _ ?_
        split_ifs
        · simp
        · exact h
  have hfold : ∀ (l : List Rename) (k : ℕ), r ∈ l →
      ((l.zipIdx k).foldl (fun s e =>
        if s.1 = utf8 e.1.from then (utf8 e.1.to, s.2 ++ [e.2]) else s)
          ((ident, []) : Bytes × List ℕ)).2 ≠ [] := by
    intro l
    induction l with
    | nil => exact fun k h => absurd h List.not_mem_nil
    | cons r' l ih =>
        intro k h
        rw [List.zipIdx_cons, List.foldl_cons]
        by_cases hfrom : ident = utf8 r'.from
        · rw [if_pos hfrom]
          exact hgrows _ _ (by simp)
        · rw [if_neg hfrom]
          refine ih _ ?_
          rcases List.mem_cons.mp h with rfl | h
          · exact absurd hname hfrom
          · exact h
  exact hfold renames 0 hr

/-- Names that every rename keeps among themselves. -/
theorem chained_mem (names : Set Bytes) (hkeep : ∀ r ∈ renames, utf8 r.from ∈ names →
    utf8 r.to ∈ names) : ∀ {name}, name ∈ names → chained renames name ∈ names := by
  induction renames with
  | nil => exact fun h => h
  | cons r renames ih =>
      intro name hname
      have hrest : ∀ r ∈ renames, utf8 r.from ∈ names → utf8 r.to ∈ names :=
        fun r hr => hkeep r (List.mem_cons_of_mem _ hr)
      rw [chained, List.foldl_cons]
      apply ih hrest
      split_ifs with hfrom
      · exact hkeep r List.mem_cons_self (hfrom ▸ hname)
      · exact hname

end Chains

section Collected

/-- Collecting adds, in order, renames that have no double yet. -/
theorem allRenames_append : ∀ (out listed : List Rename), ∃ added,
    allRenames out listed = out ++ added ∧ (∀ x ∈ added, x ∈ listed) ∧
      ∀ x ∈ added, ∀ y ∈ out, y.from = x.from → y.to ≠ x.to
  | out, [] => ⟨[], (List.append_nil out).symm, fun x h => h, fun x h => absurd h (by simp)⟩
  | out, r :: listed => by
      rw [allRenames, List.foldl_cons]
      split_ifs with hdouble
      · obtain ⟨added, heq, hmem, hne⟩ := allRenames_append out listed
        exact ⟨added, heq, fun x hx => List.mem_cons_of_mem _ (hmem x hx), hne⟩
      · obtain ⟨added, heq, hmem, hne⟩ := allRenames_append (out ++ [r]) listed
        refine ⟨r :: added, by simpa [allRenames] using heq, ?_, ?_⟩
        · intro x hx
          rcases List.mem_cons.mp hx with rfl | hx
          · exact List.mem_cons_self
          · exact List.mem_cons_of_mem _ (hmem x hx)
        · intro x hx y hy hfrom hto
          rcases List.mem_cons.mp hx with rfl | hx
          · exact hdouble (List.any_eq_true.mpr ⟨y, hy, by simp [hfrom, hto]⟩)
          · exact hne x hx y (List.mem_append_left _ hy) hfrom hto

/-- Every rename leaves itself or a double of it. -/
theorem exists_mem_allRenames : ∀ {listed : List Rename} {r} (out), r ∈ listed →
    ∃ y ∈ allRenames out listed, y.from = r.from ∧ y.to = r.to
  | r' :: listed, r, out, hr => by
      have hkept : ∀ y ∈ out, y ∈ allRenames out (r' :: listed) := by
        obtain ⟨added, heq, -⟩ := allRenames_append out (r' :: listed)
        exact fun y hy => heq ▸ List.mem_append_left _ hy
      rcases List.mem_cons.mp hr with rfl | hr
      · rw [allRenames, List.foldl_cons] at hkept ⊢
        split_ifs with hdouble
        · obtain ⟨y, hy, hsame⟩ := List.any_eq_true.mp hdouble
          rw [if_pos hdouble] at hkept
          exact ⟨y, hkept y hy, by simpa using hsame⟩
        · obtain ⟨added, heq, -⟩ := allRenames_append (out ++ [r]) listed
          exact ⟨r, (show r ∈ allRenames (out ++ [r]) listed by rw [heq]; simp), rfl, rfl⟩
      · rw [allRenames, List.foldl_cons]
        exact exists_mem_allRenames _ hr

theorem mem_carried {listed : List Rename} {path : String} {r : Rename}
    (h : r ∈ carried listed path) : r ∈ listed ∧ r.appliesTo path = true := by
  obtain ⟨hmem, happlies⟩ := List.mem_filter.mp h
  obtain ⟨added, heq, hadded, -⟩ := allRenames_append [] listed
  rw [heq, List.nil_append] at hmem
  exact ⟨hadded r hmem, happlies⟩

end Collected

section Followed

variable {base side : NodeIndex} {path : String} {text : Bytes} {r x : Rename}

theorem from_ne_to (h : r ∈ renamesBetween base side) : r.from ≠ r.to := by
  obtain ⟨at', -, h⟩ := List.mem_flatMap.mp h
  obtain ⟨⟨nid, r'⟩, hinferred, rfl⟩ := List.mem_map.mp h
  obtain ⟨n, -, hn⟩ := List.mem_filterMap.mp hinferred
  obtain ⟨b, -, hb⟩ := Option.bind_eq_some_iff.mp hn
  split_ifs at hb with hname
  · obtain ⟨-, rfl⟩ := Prod.mk.inj (Option.some.inj hb)
    exact hname.1

/-- The renames in an order that has the renames of one name last, one of them first. -/
def lastOf (renames : List Rename) (name : String) (x : Rename) : List Rename :=
  renames.filter (·.from ≠ name) ++ x :: (renames.filter (·.from = name)).erase x

theorem lastOf_perm {renames : List Rename} (hx : x ∈ renames) :
    (lastOf renames x.from x).Perm renames := by
  have hname : x ∈ renames.filter (·.from = x.from) := by simp [hx]
  have hback : (lastOf renames x.from x).Perm
      (renames.filter (·.from ≠ x.from) ++ renames.filter (·.from = x.from)) :=
    List.Perm.append_left _ (List.perm_cons_erase hname).symm
  refine (hback.trans List.perm_append_comm).trans ?_
  simpa using List.filter_append_perm (fun r : Rename => decide (r.from = x.from)) renames

/-- In that order the rename that is first of its name is carried, after renames of other
names and before renames of its own. -/
theorem carried_lastOf (renames : List Rename) (hpath : x.appliesTo path = true) :
    ∃ before after, carried (lastOf renames x.from x) path = before ++ x :: after ∧
      (∀ r ∈ before, r ∈ renames ∧ r.appliesTo path = true ∧ r.from ≠ x.from) ∧
      ∀ r ∈ after, r.from = x.from := by
  obtain ⟨before, hbefore, hmem, -⟩ :=
    allRenames_append [] (renames.filter (·.from ≠ x.from))
  obtain ⟨after, hafter, hmem', -⟩ :=
    allRenames_append (before ++ [x]) ((renames.filter (·.from = x.from)).erase x)
  have hother : ∀ r ∈ before, r ∈ renames ∧ r.from ≠ x.from := by
    simpa [List.mem_filter] using hmem
  have hfresh : ¬ before.any (fun y => y.from = x.from ∧ y.to = x.to) = true := by
    intro hany
    obtain ⟨y, hy, hsame⟩ := List.any_eq_true.mp hany
    exact (hother y hy).2 (by simpa using (of_decide_eq_true hsame).1)
  refine ⟨before.filter (·.appliesTo path), after.filter (·.appliesTo path), ?_, ?_, ?_⟩
  · have hall : allRenames [] (lastOf renames x.from x) = before ++ [x] ++ after := by
      rw [List.nil_append] at hbefore
      rw [lastOf, allRenames, List.foldl_append]
      change List.foldl _ (allRenames [] (renames.filter (·.from ≠ x.from))) _ = _
      rw [hbefore, List.foldl_cons, if_neg hfresh]
      exact hafter
    simp [carried, hall, List.filter_append, hpath]
  · intro r hr
    obtain ⟨hr, happlies⟩ := List.mem_filter.mp hr
    exact ⟨(hother r hr).1, happlies, (hother r hr).2⟩
  · intro r hr
    have hmem := List.mem_of_mem_erase (hmem' r (List.mem_of_mem_filter hr))
    simpa using (List.mem_filter.mp hmem).2

/-- Each of the tokens that names a renamed unit is edited to the unit's new name. -/
def Follows (tokens : (text : Bytes) → List (Token text)) (text : Bytes) (path : String)
    (renames listed : List Rename) : Prop :=
  ∀ t ∈ tokens text, ∀ r ∈ renames, r.appliesTo path = true → t.ident = utf8 r.from →
    ∃ e ∈ renameEdits tokens text (carried listed path),
      e.start = t.start ∧ e.stop = t.stop ∧ e.to = utf8 r.to

/-- A rename that no other comes in the way of: one from the same name to another, one
from its new name, or a double of it for another file. -/
def Settled (renames : List Rename) (path : String) (r : Rename) : Prop :=
  ∀ r' ∈ renames, (r'.appliesTo path = true → r'.from ≠ r.to) ∧
    (r'.from = r.from → (r'.to = r.to ↔ r'.appliesTo path = true))

variable {tokens : (text : Bytes) → List (Token text)} {renames listed : List Rename}

theorem containsIdent_token (t : Token text) {ident : Bytes} (hident : t.ident = ident) :
    containsIdent text ident = true := by
  have hstop := t.stop_le
  have hstart := t.start_lt
  have hlen : t.ident.length = t.stop - t.start := by
    simp only [Token.ident, slice, List.length_drop, List.length_take]
    omega
  have hend : t.start + (t.stop - t.start) = t.stop := by omega
  subst hident
  have hne : t.ident ≠ [] := List.ne_nil_of_length_pos (by omega)
  refine Bool.and_eq_true_iff.mpr ⟨decide_eq_true hne, List.any_eq_true.mpr ⟨t.start, ?_, ?_⟩⟩
  · exact List.mem_range.mpr (by omega)
  · simp only [hlen, hend, Bool.and_eq_true, decide_eq_true_eq]
    exact ⟨⟨hstop, rfl⟩, t.word⟩

/-- What a token is edited to, where a rename is from its name. -/
theorem edited (t : Token text) (ht : t ∈ tokens text) (hr : r ∈ renames)
    (hident : t.ident = utf8 r.from) : ∃ e ∈ renameEdits tokens text renames,
      e.start = t.start ∧ e.stop = t.stop ∧ e.to = chained renames t.ident := by
  have hany : (renames.any fun r => containsIdent text (utf8 r.from)) = true :=
    List.any_eq_true.mpr ⟨r, hr, containsIdent_token t hident⟩
  have happlied := snd_renameToken_ne_nil hr hident
  refine ⟨⟨t.start, t.stop, (renameToken renames t.ident).1, (renameToken renames t.ident).2⟩,
    ?_, rfl, rfl, fst_renameToken renames t.ident⟩
  rw [renameEdits, if_pos hany]
  exact List.mem_filterMap.mpr ⟨t, ht, if_neg happlied⟩

/-- An edit of a token is to what the renames make of it, one after another. -/
theorem chained_of_edit (t : Token text) {e : Edit}
    (he : e ∈ renameEdits tokens text renames) (hstart : e.start = t.start)
    (hstop : e.stop = t.stop) : e.to = chained renames t.ident := by
  rw [renameEdits] at he
  split_ifs at he with hany
  · obtain ⟨t', -, ht'⟩ := List.mem_filterMap.mp he
    have hto : e = ⟨t'.start, t'.stop, (renameToken renames t'.ident).1,
        (renameToken renames t'.ident).2⟩ := by
      simp only at ht'
      split_ifs at ht' with happlied
      exact (Option.some.inj ht').symm
    have hsame : t'.ident = t.ident := by
      rw [hto] at hstart hstop
      change slice text t'.start t'.stop = slice text t.start t.stop
      rw [← hstart, ← hstop]
    rw [hto, ← hsame]
    exact fst_renameToken renames t'.ident
  · exact absurd he List.not_mem_nil

/-- Settled renames are followed in whichever order they are listed. -/
theorem follows_of_settled (hperm : listed.Perm renames)
    (hsettled : ∀ t ∈ tokens text, ∀ r ∈ renames, r.appliesTo path = true →
      t.ident = utf8 r.from → Settled renames path r) :
    Follows tokens text path renames listed := by
  intro t ht r hr hpath hident
  have hr' := hsettled t ht r hr hpath hident
  obtain ⟨y, hy, hfrom, hto⟩ := exists_mem_allRenames [] (hperm.mem_iff.mpr hr)
  have hmem : ∀ r' ∈ carried listed path, r' ∈ renames ∧ r'.appliesTo path = true :=
    fun r' h => ⟨hperm.mem_iff.mp (mem_carried h).1, (mem_carried h).2⟩
  have hyc : y ∈ carried listed path := by
    obtain ⟨added, heq, hadded, -⟩ := allRenames_append [] listed
    have hyr : y ∈ renames := hperm.mem_iff.mp (hadded y (by simpa [heq] using hy))
    exact List.mem_filter.mpr ⟨hy, ((hr' y hyr).2 hfrom).mp hto⟩
  obtain ⟨e, he, hstart, hstop, heto⟩ := edited t ht hyc (hident.trans (by rw [hfrom]))
  refine ⟨e, he, hstart, hstop, ?_⟩
  rw [heto, hident, ← hfrom, ← hto]
  refine chained_of_mem hyc ?_ ?_
  · intro r' h hsame
    obtain ⟨hr'r, happlies⟩ := hmem r' h
    rw [((hr' r' hr'r).2 ((utf8_injective hsame).trans hfrom)).mpr happlies, hto]
  · intro r' h hsame
    obtain ⟨hr'r, happlies⟩ := hmem r' h
    exact (hr' r' hr'r).1 happlies ((utf8_injective hsame).symm.trans hto)

/-- A rename that comes after the others of a name is the last that the name follows. -/
theorem chained_ne_of_lastOf {name : Bytes}
    (hpath : x.appliesTo path = true) (hne : x.from ≠ x.to) {other : String}
    (hbefore : ∀ before, (∀ r ∈ before, r ∈ renames ∧ r.appliesTo path = true ∧
      r.from ≠ x.from) → chained before name = utf8 x.from ∨
        (chained before name ≠ utf8 x.from ∧ chained before name ≠ utf8 other))
    (hto : x.to ≠ other) :
    chained (carried (lastOf renames x.from x) path) name ≠ utf8 other := by
  obtain ⟨before, after, heq, hother, hafter⟩ := carried_lastOf renames hpath
  rw [heq, chained_append, chained, List.foldl_cons]
  rcases hbefore before hother with hname | ⟨hname, hnot⟩
  · rw [if_pos hname]
    have hrest : chained after (utf8 x.to) = utf8 x.to :=
      chained_of_forall_ne fun r hr h => hne ((hafter r hr).symm.trans (utf8_injective h).symm)
    exact fun h => hto (utf8_injective (hrest.symm.trans h))
  · rw [if_neg hname]
    have hrest : chained after (chained before name) = chained before name :=
      chained_of_forall_ne fun r hr h => hname (h.trans (by rw [hafter r hr]))
    exact fun h => hnot (hrest.symm.trans h)

/-- A rename that is followed in every order is settled. -/
theorem settled_of_follows (hne : ∀ r ∈ renames, r.from ≠ r.to)
    (hfollows : ∀ listed : List Rename, listed.Perm renames →
      Follows tokens text path renames listed)
    (t : Token text) (ht : t ∈ tokens text) (hr : r ∈ renames)
    (hpath : r.appliesTo path = true) (hident : t.ident = utf8 r.from) :
    Settled renames path r := by
  have hchained : ∀ listed : List Rename, listed.Perm renames →
      chained (carried listed path) (utf8 r.from) = utf8 r.to := by
    intro listed hperm
    obtain ⟨e, he, hstart, hstop, hto⟩ := hfollows listed hperm t ht r hr hpath hident
    rw [← hto, ← hident, chained_of_edit t he hstart hstop]
  -- A rename to another name, as the first of its name.
  have hagree : ∀ r' ∈ renames, r'.appliesTo path = true → r'.from = r.from →
      r'.to = r.to := by
    intro r' hr' happlies hfrom
    by_contra hto
    refine chained_ne_of_lastOf happlies (hne r' hr') ?_ hto (hchained _ (lastOf_perm hr'))
    intro before hbefore
    have hstays : chained before (utf8 r.from) = utf8 r.from :=
      chained_of_forall_ne fun x hx h =>
        (hbefore x hx).2.2 ((utf8_injective h).symm.trans hfrom.symm)
    exact Or.inl (hstays.trans (by rw [hfrom]))
  refine fun r' hr' => ⟨fun happlies hfrom => ?_, fun hfrom => ⟨fun hto => ?_, fun happlies =>
    hagree r' hr' happlies hfrom⟩⟩
  -- A rename from the new name, after those to it.
  · have hto : r'.to ≠ r.to := fun h => hne r' hr' (hfrom.trans h.symm)
    refine chained_ne_of_lastOf happlies (hne r' hr') ?_ hto (hchained _ (lastOf_perm hr'))
    intro before hbefore
    have hnames : chained before (utf8 r.from) ∈ ({utf8 r.from, utf8 r.to} : Set Bytes) := by
      refine chained_mem _ ?_ (Or.inl rfl)
      intro x hx hname
      obtain ⟨hxr, hxpath, hxne⟩ := hbefore x hx
      rcases hname with hname | hname
      · exact Or.inr (by rw [hagree x hxr hxpath (utf8_injective hname)]; rfl)
      · exact absurd ((utf8_injective hname).trans hfrom.symm) hxne
    have hdiffers : utf8 r.from ≠ utf8 r.to := fun h => hne r hr (utf8_injective h)
    rcases hnames with hname | hname
    · exact Or.inr (by rw [hname, hfrom]; exact ⟨hdiffers, hdiffers⟩)
    · exact Or.inl (hname.trans (by rw [hfrom]))
  -- A double for another file, before the rename.
  · by_contra hother
    have hperm : (r' :: renames.erase r').Perm renames := (List.perm_cons_erase hr').symm
    have hsame := hchained _ hperm
    obtain ⟨added, heq, -, hfresh⟩ := allRenames_append [r'] (renames.erase r')
    have hall : allRenames [] (r' :: renames.erase r') = r' :: added := heq
    rw [chained_of_forall_ne] at hsame
    · exact hne r hr (utf8_injective hsame)
    · intro x hx hname
      obtain ⟨hxr, hxpath⟩ := mem_carried hx
      have hxto := hagree x (hperm.mem_iff.mp hxr) hxpath (utf8_injective hname).symm
      rw [carried, hall] at hx
      rcases List.mem_cons.mp (List.mem_of_mem_filter hx) with rfl | hadded
      · exact hother hxpath
      · exact hfresh x hadded r' List.mem_cons_self (hfrom.trans (utf8_injective hname))
          (hto.trans hxto.symm)

/-- The renames are followed in every order exactly where no token names a unit whose
rename another comes in the way of. -/
theorem carriedRenames_followed_iff (base side : NodeIndex)
    (tokens : (text : Bytes) → List (Token text)) (text : Bytes) (path : String) :
    (∀ listed : List Rename, listed.Perm (renamesBetween base side) →
        Follows tokens text path (renamesBetween base side) listed) ↔
      ∀ t ∈ tokens text, ∀ r ∈ renamesBetween base side, r.appliesTo path = true →
        t.ident = utf8 r.from → Settled (renamesBetween base side) path r :=
  ⟨fun h t ht _ hr hpath hident =>
      settled_of_follows (fun _ h => from_ne_to h) h t ht hr hpath hident,
    fun h _ hperm => follows_of_settled hperm h⟩

def swapNode (nid : ℕ) (name : String) : Node where
  nid := .splat nid
  path := "m.py"
  kind := "function"
  name := name
  span := (0, 0)
  body := .splat 0
  parent := none
  deps := none
  setlike := none

/-- A side that swaps the names of two functions. -/
def swapIndex (first second : String) : NodeIndex where
  root := .splat 0
  grammars := ""
  parents := []
  nodes := [swapNode 1 first, swapNode 2 second]
  aliases := none

/-- The one token of a text of one letter. -/
def letter (text : Bytes) : List (Token text) :=
  if h : text.length = 1 then
    [⟨0, 1, Nat.one_pos, h.ge, by simp [wordAt, breaksAt, h]⟩]
  else []

/-- The call follows a name to the other function and back. -/
theorem swapped_names_chain_back :
    ¬ ∀ (base side : NodeIndex) (tokens : (text : Bytes) → List (Token text)) (text : Bytes)
      (path : String) (listed : List Rename), listed.Perm (renamesBetween base side) →
        Follows tokens text path (renamesBetween base side) listed := by
  intro h
  have := h (swapIndex "a" "b") (swapIndex "b" "a") letter (utf8 "a") "n.py" _
    (List.Perm.refl _)
  revert this
  unfold Follows
  decide +kernel

end Followed

end Tessra.Daemon
