import Tessra.Oplog.PredicateRoundTrip

namespace Tessra.Oplog.Standard

open Tessra.Core Tessra.Data

/-! Removing clauses from a standard: what an argument of the edit names among the clauses the
verb shows, and what the edit takes out. -/

section Edit

/-- The clauses in the order they are shown, each with the risk level it waits for. -/
def shown (s : Standard) : List (Option String × Clause) :=
  (s.clauses.map fun c => (none, c)) ++
    (s.when.getD []).flatMap fun w => w.clauses.map fun c => (some w.riskAtLeast, c)

def levelText (level : Option String) (text : String) : String :=
  match level with
  | none => text
  | some l => s!"when risk>={l}: {text}"

def render (s : Standard) : List String :=
  (shown s).map fun e => levelText e.1 (clauseLabel e.2)

/-- An unsigned number as the code reads it: a plus sign may lead. -/
def parseUsize (s : String) : Option ℕ :=
  let digits :=
    match s.toList with
    | '+' :: l => l
    | l => l
  (digitsOf digits).filter (· < 2 ^ 64)

/-- The op of an argument, if it names one, and the text of the predicate. -/
def splitOp (r : String) : Option String × String :=
  let op := String.ofList (r.toList.takeWhile (· ≠ ' '))
  match r.toList.dropWhile (· ≠ ' ') with
  | [] => (none, r)
  | _ :: rest => if op ∈ ["require", "forbid"] then (some op, String.ofList rest) else (none, r)

/-- The text as it would be shown. -/
def normalized (text : String) : String :=
  match parsePredicate text with
  | .ok p => describe p
  | .error _ => text

/-- Does the text of an argument match a clause, as the edit reads both? -/
def fits (r : String) (c : Clause) : Bool :=
  let (op, pred) := splitOp r
  (describe c.pred = normalized pred || describe c.pred = pred) && op.all (· = c.op)

def removeText (next : Standard) (r : String) : Except Error Standard :=
  let clauses := next.clauses.filter fun c => !fits r c
  let when := next.when.map fun ws => ws.map fun w =>
    { w with clauses := w.clauses.filter fun c => !fits r c }
  let removedWhen := (next.when.getD []).any fun w =>
    (w.clauses.filter fun c => !fits r c).length ≠ w.clauses.length
  if clauses.length = next.clauses.length ∧ !removedWhen then
    .error (.verb "ARGS" s!"no clause matches {r}")
  else .ok { next with clauses := clauses, when := when }

def removeOne (next : Standard) (r : String) : Except Error Standard :=
  match parseUsize r with
  | some i =>
      if i < next.clauses.length then .ok { next with clauses := next.clauses.eraseIdx i }
      else removeText next r
  | none => removeText next r

/-- The edit of a standard by its removals. -/
def removeClauses (cur : Standard) (curOid : ObjectId) (remove : List String) :
    Except Error Standard :=
  remove.foldlM removeOne { cur with prev := some curOid }

end Edit

section Named

/-- A text names a clause in the form it is shown in, with its op or without it, and a bare
clause also by a text that would be shown as its predicate is. -/
def namesText (r : String) (e : Option String × Clause) : Bool :=
  r = levelText e.1 (clauseLabel e.2) || r = levelText e.1 (clauseText e.2) ||
    (e.1 = none && e.2.unless = none && fits r e.2)

/-- What an argument names among the shown clauses: the one at an index, or those of a text. -/
def namesPlace (r : String) (e : (Option String × Clause) × ℕ) : Bool :=
  match parseUsize r with
  | some i => e.2 = i
  | none => namesText r e.1

/-- The clauses that no argument names, in order. -/
def unnamed (s : Standard) (remove : List String) : List (Option String × Clause) :=
  ((shown s).zipIdx.filter fun e => remove.all fun r => !namesPlace r e).map Prod.fst

/-- The argument leads to no clause: its index is past those without a risk level, or its text
matches none. -/
def FitsNone (s : Standard) (r : String) : Prop :=
  match parseUsize r with
  | some i => s.clauses.length ≤ i
  | none => ∀ e ∈ shown s, fits r e.2 = false

/-- A text matches just the clauses it names. -/
def FitsNamed (s : Standard) (r : String) : Prop :=
  parseUsize r = none → ∀ e ∈ shown s, fits r e.2 = namesText r e

/-- One argument leads to no clause, or all match what they name and no index comes after an
argument that names a clause shown before its own, or that one. -/
def Orderly (s : Standard) (remove : List String) : Prop :=
  (∃ r ∈ remove, FitsNone s r) ∨ (∀ r ∈ remove, FitsNamed s r) ∧
    remove.Pairwise fun r r' => ∀ i, parseUsize r' = some i →
      ∀ e ∈ (shown s).zipIdx, namesPlace r e = true → i < e.2

/-- An edit that succeeds leaves the clauses that no argument names, in order, and one with an
argument that names none fails. -/
def ExactEdit (s : Standard) (oid : ObjectId) (remove : List String) : Prop :=
  (∀ s', removeClauses s oid remove = .ok s' → shown s' = unnamed s remove) ∧
  ((∃ r ∈ remove, ∀ e ∈ (shown s).zipIdx, namesPlace r e = false) →
    ∃ e, removeClauses s oid remove = .error e)

end Named

section Lists

variable {α : Type*}

/-- Dropping the element at a place, where the elements before it are all kept. -/
theorem eraseIdx_kept {keep : α × ℕ → Bool} : ∀ (l : List α) (n i : ℕ),
    (∀ e ∈ l.zipIdx n, e.2 ≤ n + i → keep e = true) →
    (((l.zipIdx n).filter keep).map Prod.fst).eraseIdx i =
      ((l.zipIdx n).filter fun e => keep e && e.2 ≠ n + i).map Prod.fst
  | [], _, _, _ => rfl
  | x :: l, n, 0, h => by
      have hx : keep (x, n) = true := h (x, n) List.mem_cons_self (Nat.le_add_right n 0)
      have hrest : (l.zipIdx (n + 1)).filter (fun e => keep e && e.2 ≠ n + 0) =
          (l.zipIdx (n + 1)).filter keep := by
        refine List.filter_congr fun e he => ?_
        have hle := List.le_snd_of_mem_zipIdx he
        have hne : e.2 ≠ n := by omega
        simp [hne]
      rw [List.zipIdx_cons, List.filter_cons_of_pos hx, List.filter_cons_of_neg (by simp), hrest]
      rfl
  | x :: l, n, i + 1, h => by
      have hx : keep (x, n) = true := h (x, n) List.mem_cons_self (Nat.le_add_right n _)
      have hne : n ≠ n + (i + 1) := by omega
      have ih := eraseIdx_kept l (n + 1) i fun e he hle =>
        h e (List.mem_cons_of_mem _ he) (by omega)
      rw [Nat.add_right_comm n 1 i] at ih
      rw [List.zipIdx_cons, List.filter_cons_of_pos hx, List.filter_cons_of_pos (by simp [hx]),
        List.map_cons, List.map_cons, List.eraseIdx_cons_succ, ih]
      rfl

theorem filter_zipIdx_fst (p : α → Bool) (l : List α) (n : ℕ) :
    ((l.zipIdx n).filter fun e => p e.1).map Prod.fst = l.filter p := by
  have h := List.filter_map (f := Prod.fst) (l := l.zipIdx n) (p := p)
  rw [List.zipIdx_map_fst] at h
  exact h.symm

theorem filter_eq_filter_iff {p q : α → Bool} {l : List α} :
    l.filter p = l.filter q ↔ ∀ x ∈ l, p x = q x := by
  refine ⟨fun h x hx => ?_, List.filter_congr⟩
  have hmem : x ∈ l.filter p ↔ x ∈ l.filter q := by rw [h]
  simp only [List.mem_filter, hx, true_and] at hmem
  exact Bool.eq_iff_iff.mpr hmem

end Lists

section Steps

variable {s next next' : Standard} {r : String} {c : Clause} {i : ℕ}

theorem fits_numeral (h : parseUsize r = some i) : fits r c = false := by
  have hdigits : ∀ ch ∈ r.toList, isNumeral ch = true := by
    have hvalue := (Option.filter_eq_some_iff.mp h).1
    split at hvalue
    · rename_i l heq
      rw [heq]
      exact List.forall_mem_cons.mpr ⟨by decide, numerals_of_digitsOf hvalue⟩
    · exact numerals_of_digitsOf hvalue
  have hblank : ∀ ch ∈ r.toList, ch ≠ ' ' := by
    rintro ch hch rfl
    exact absurd (hdigits _ hch) (by decide)
  have hopen : '(' ∉ r.toList := fun hmem => absurd (hdigits _ hmem) (by decide)
  have hsplit : splitOp r = (none, r) := by
    have hdrop : r.toList.dropWhile (· ≠ ' ') = [] :=
      List.dropWhile_eq_nil_iff.mpr fun ch hch => decide_eq_true (hblank ch hch)
    unfold splitOp
    simp only [hdrop]
  have hparse : normalized r = r := by
    rw [normalized, parsePredicate, parsePredicateAt]
    simp only [trim_numerals hdigits, if_pos hopen]
  have hshown : describe c.pred ≠ r := by
    intro heq
    refine hopen ?_
    rw [← heq, toList_describe]
    simp
  simp [fits, hsplit, hparse, hshown]

theorem shown_eraseIdx (h : i < next.clauses.length) :
    shown { next with clauses := next.clauses.eraseIdx i } = (shown next).eraseIdx i := by
  rw [shown, shown, List.eraseIdx_append_of_lt_length (by rwa [List.length_map]),
    List.eraseIdx_map]

theorem filter_levels (p : Clause → Bool) : ∀ ws : List RiskClauses,
    ((ws.map fun w => { w with clauses := w.clauses.filter p }).flatMap fun w =>
        w.clauses.map fun c => (some w.riskAtLeast, c)) =
      (ws.flatMap fun w => w.clauses.map fun c => (some w.riskAtLeast, c)).filter fun e => p e.2
  | [] => rfl
  | w :: ws => by
      rw [List.map_cons, List.flatMap_cons, List.flatMap_cons, List.filter_append,
        filter_levels p ws, List.filter_map]
      rfl

theorem shown_filter (p : Clause → Bool) (s : Standard) :
    shown { s with
      clauses := s.clauses.filter p
      when := s.when.map fun ws => ws.map fun w => { w with clauses := w.clauses.filter p } } =
      (shown s).filter fun e => p e.2 := by
  have hlevels := filter_levels p (s.when.getD [])
  have hplain : (fun e : Option String × Clause => p e.2) ∘ (fun c => (none, c)) = p := rfl
  rw [shown, shown, List.filter_append, List.filter_map, ← hlevels, hplain]
  congr 1
  cases s.when <;> rfl

theorem removeText_ok (h : removeText next r = .ok next') :
    (∃ e ∈ shown next, fits r e.2 = true) ∧
      shown next' = (shown next).filter (fun e => !fits r e.2) ∧
      next'.clauses.length ≤ next.clauses.length := by
  unfold removeText at h
  dsimp only at h
  split_ifs at h with hnone
  obtain rfl := Except.ok.inj h
  refine ⟨?_, ?_, List.length_filter_le _ _⟩
  · by_contra hall
    push Not at hall
    refine hnone ⟨congrArg List.length (List.filter_eq_self.mpr fun c hc => ?_), ?_⟩
    · have hplain := hall (none, c) (List.mem_append_left _ (List.mem_map_of_mem hc))
      simpa using hplain
    · simp only [Bool.not_eq_true', List.any_eq_false, decide_eq_true_eq, not_not]
      refine fun w hw => congrArg List.length (List.filter_eq_self.mpr fun c hc => ?_)
      have hlevel := hall (some w.riskAtLeast, c) (List.mem_append_right _
        (List.mem_flatMap.mpr ⟨w, hw, List.mem_map_of_mem hc⟩))
      simpa using hlevel
  · exact shown_filter (fun c => !fits r c) next

theorem exists_removeText (next : Standard) {r : String}
    (h : ∃ e ∈ shown next, fits r e.2 = true) : ∃ next', removeText next r = .ok next' := by
  obtain ⟨e, he, hfits⟩ := h
  unfold removeText
  dsimp only
  split_ifs with hnone
  · obtain ⟨hplain, hlevel⟩ := hnone
    have hclauses := List.length_filter_eq_length_iff.mp hplain
    simp only [Bool.not_eq_true', List.any_eq_false, decide_eq_true_eq, not_not] at hlevel
    rcases List.mem_append.mp he with he | he
    · obtain ⟨c, hc, rfl⟩ := List.mem_map.mp he
      have hnot := hclauses c hc
      simp [hfits] at hnot
    · obtain ⟨w, hw, he⟩ := List.mem_flatMap.mp he
      obtain ⟨c, hc, rfl⟩ := List.mem_map.mp he
      have hnot := List.length_filter_eq_length_iff.mp (hlevel w hw) c hc
      simp [hfits] at hnot
  · exact ⟨_, rfl⟩

/-- What one argument takes out: the clause at its index, or those its text matches. -/
theorem removeOne_ok (h : removeOne next r = .ok next') :
    next'.clauses.length ≤ next.clauses.length ∧
      ((∃ i < next.clauses.length, parseUsize r = some i ∧
          shown next' = (shown next).eraseIdx i) ∨
        parseUsize r = none ∧ (∃ e ∈ shown next, fits r e.2 = true) ∧
          shown next' = (shown next).filter fun e => !fits r e.2) := by
  unfold removeOne at h
  split at h
  · rename_i i hread
    split_ifs at h with hlt
    · obtain rfl := Except.ok.inj h
      exact ⟨List.length_eraseIdx_le _ _, Or.inl ⟨i, hlt, hread, shown_eraseIdx hlt⟩⟩
    · obtain ⟨⟨e, -, hfits⟩, -⟩ := removeText_ok h
      rw [fits_numeral hread] at hfits
      cases hfits
  · rename_i hread
    obtain ⟨hfits, hshown, hlength⟩ := removeText_ok h
    exact ⟨hlength, Or.inr ⟨hread, hfits, hshown⟩⟩

end Steps

section Runs

variable {s next next' : Standard} {oid : ObjectId} {r : String} {done : List String} {i : ℕ}

/-- An edit that succeeds has no argument that leads to no clause. -/
theorem not_fitsNone_of_run : ∀ (rest : List String) {next next' : Standard},
    rest.foldlM removeOne next = .ok next' → shown next ⊆ shown s →
    next.clauses.length ≤ s.clauses.length → ∀ r ∈ rest, ¬ FitsNone s r
  | [], _, _, _, _, _ => fun r hr => absurd hr List.not_mem_nil
  | r :: rest, next, next', h, hsub, hle => by
      rw [List.foldlM_cons] at h
      obtain ⟨middle, hone, hrest⟩ := bind_eq_ok.mp h
      obtain ⟨hlength, hcases⟩ := removeOne_ok hone
      refine List.forall_mem_cons.mpr ⟨fun hnone => ?_,
        not_fitsNone_of_run rest hrest ?_ (hlength.trans hle)⟩
      · unfold FitsNone at hnone
        rcases hcases with ⟨i, hlt, hread, -⟩ | ⟨hread, ⟨e, he, hfits⟩, -⟩
        · simp only [hread] at hnone
          omega
        · simp only [hread] at hnone
          rw [hnone e (hsub he)] at hfits
          cases hfits
      · rcases hcases with ⟨i, -, -, hshown⟩ | ⟨-, -, hshown⟩
        · rw [hshown]
          exact fun e he => hsub (List.mem_of_mem_eraseIdx he)
        · rw [hshown]
          exact fun e he => hsub (List.mem_of_mem_filter he)

theorem names_text (h : parseUsize r = none) (e : (Option String × Clause) × ℕ) :
    namesPlace r e = namesText r e.1 := by
  simp only [namesPlace, h]

theorem names_index (h : parseUsize r = some i) (e : (Option String × Clause) × ℕ) :
    namesPlace r e = decide (e.2 = i) := by
  simp only [namesPlace, h]

theorem unnamed_append (e : (Option String × Clause) × ℕ) :
    ((done ++ [r]).all fun r => !namesPlace r e) =
      ((done.all fun r => !namesPlace r e) && !namesPlace r e) := by
  rw [List.all_append, List.all_cons, List.all_nil, Bool.and_true]

/-- One argument more leaves what neither it nor those before it name. -/
theorem unnamed_step (h : shown next = unnamed s done) (hfits : FitsNamed s r)
    (hafter : ∀ r₀ ∈ done, ∀ i, parseUsize r = some i → ∀ e ∈ (shown s).zipIdx,
      namesPlace r₀ e = true → i < e.2)
    (hone : removeOne next r = .ok next') : shown next' = unnamed s (done ++ [r]) := by
  simp only [unnamed, unnamed_append] at h ⊢
  rcases (removeOne_ok hone).2 with ⟨i, -, hread, hshown⟩ | ⟨hread, -, hshown⟩
  · rw [hshown, h, eraseIdx_kept]
    · simp only [names_index hread, Nat.zero_add, ne_eq, decide_not]
    · intro e he hle
      refine List.all_eq_true.mpr fun r₀ hr₀ => ?_
      have hlt := hafter r₀ hr₀ i hread e he
      cases hnames : namesPlace r₀ e with
      | false => rfl
      | true =>
          have hgt := hlt hnames
          omega
  · rw [hshown, h, List.filter_map, List.filter_filter]
    refine congrArg (List.map Prod.fst) (List.filter_congr fun e he => ?_)
    rw [names_text hread, ← hfits hread e.1 (List.fst_mem_of_mem_zipIdx he), Bool.and_comm]
    rfl

theorem unnamed_run : ∀ (rest : List String) {done : List String} {next next' : Standard},
    shown next = unnamed s done → (∀ r ∈ rest, FitsNamed s r) →
    (done ++ rest).Pairwise (fun r r' => ∀ i, parseUsize r' = some i →
      ∀ e ∈ (shown s).zipIdx, namesPlace r e = true → i < e.2) →
    rest.foldlM removeOne next = .ok next' → shown next' = unnamed s (done ++ rest)
  | [], done, _, _, h, _, _, hrun => by
      obtain rfl := Except.ok.inj hrun
      rwa [List.append_nil]
  | r :: rest, done, next, next', h, hfits, hafter, hrun => by
      rw [List.foldlM_cons] at hrun
      obtain ⟨middle, hone, hrest⟩ := bind_eq_ok.mp hrun
      have hstep : shown middle = unnamed s (done ++ [r]) :=
        unnamed_step h (hfits r List.mem_cons_self)
          (fun r₀ hr₀ => (List.pairwise_append.mp hafter).2.2 r₀ hr₀ r List.mem_cons_self) hone
      rw [List.append_cons] at hafter ⊢
      exact unnamed_run rest hstep (fun r' hr' => hfits r' (List.mem_cons_of_mem _ hr')) hafter
        hrest

theorem error_of_fitsNone (oid : ObjectId) {remove : List String} (hr : r ∈ remove)
    (h : FitsNone s r) :
    ∃ e, removeClauses s oid remove = .error e := by
  cases hrun : removeClauses s oid remove with
  | error e => exact ⟨e, rfl⟩
  | ok next' => exact absurd h (not_fitsNone_of_run remove hrun (fun e he => he) le_rfl r hr)

/-- An argument that names no clause leads to none. -/
theorem fitsNone_of_unnamed (hfits : FitsNamed s r)
    (h : ∀ e ∈ (shown s).zipIdx, namesPlace r e = false) : FitsNone s r := by
  unfold FitsNone
  cases hread : parseUsize r with
  | some i =>
      by_contra hlt
      have hlength : i < (shown s).length := by
        rw [shown, List.length_append, List.length_map]
        omega
      have hmem : ((shown s)[i], i) ∈ (shown s).zipIdx :=
        List.mem_zipIdx_iff_getElem?.mpr (List.getElem?_eq_getElem hlength)
      have hnot := h _ hmem
      rw [names_index hread, decide_eq_false_iff_not] at hnot
      exact hnot rfl
  | none =>
      intro e he
      obtain ⟨i, hi⟩ := List.mem_iff_getElem?.mp he
      have hnot := h (e, i) (List.mem_zipIdx_iff_getElem?.mpr hi)
      rwa [names_text hread, ← hfits hread e he] at hnot

theorem exactEdit_of_orderly {remove : List String} (h : Orderly s remove) :
    ExactEdit s oid remove := by
  rcases h with ⟨r, hr, hnone⟩ | ⟨hfits, hafter⟩
  · obtain ⟨e, he⟩ := error_of_fitsNone oid hr hnone
    refine ⟨fun s' hs' => ?_, fun _ => ⟨e, he⟩⟩
    rw [he] at hs'
    cases hs'
  · refine ⟨fun s' hs' => ?_, fun ⟨r, hr, hunnamed⟩ =>
      error_of_fitsNone oid hr (fitsNone_of_unnamed (hfits r hr) hunnamed)⟩
    have hstart : shown { s with prev := some oid } = unnamed s [] := by
      have hall : (shown s).zipIdx.filter (fun e => ([] : List String).all fun r => !namesPlace r e) =
          (shown s).zipIdx := List.filter_eq_self.mpr fun e _ => rfl
      rw [unnamed, hall, List.zipIdx_map_fst]
      rfl
    exact unnamed_run remove hstart hfits hafter hs'

/-- One argument alone is carried out exactly only if its text matches what it names, or
nothing. -/
theorem orderly_of_exactEdit (h : ExactEdit s oid [r]) : Orderly s [r] := by
  by_cases hnone : FitsNone s r
  · exact Or.inl ⟨r, List.mem_singleton_self r, hnone⟩
  refine Or.inr ⟨?_, List.pairwise_singleton _ _⟩
  rintro r' hr' hread e he
  obtain rfl := List.mem_singleton.mp hr'
  simp only [FitsNone, hread] at hnone
  push Not at hnone
  obtain ⟨e', he', hfits⟩ := hnone
  have hstart : shown { s with prev := some oid } = shown s := rfl
  obtain ⟨s', hs'⟩ := exists_removeText { s with prev := some oid }
    ⟨e', he', by simpa using hfits⟩
  have hrun : removeClauses s oid [r'] = .ok s' := by
    rw [removeClauses, List.foldlM_cons, removeOne, hread]
    simp only [hs']
    rfl
  have hexact := h.1 s' hrun
  rw [(removeText_ok hs').2.1, hstart] at hexact
  have hnamed : unnamed s [r'] = (shown s).filter fun e => !namesText r' e := by
    rw [unnamed, ← filter_zipIdx_fst (fun e => !namesText r' e) (shown s) 0]
    refine congrArg (List.map Prod.fst) (List.filter_congr fun e _ => ?_)
    rw [List.all_cons, List.all_nil, Bool.and_true, names_text hread]
  have hsame := filter_eq_filter_iff.mp (hexact.trans hnamed) e he
  exact Bool.not_inj hsame

end Runs

/-- What orderly arguments ask for is what the edit does, and one argument is carried out
exactly only if it is orderly. -/
theorem remove_exact (s : Standard) (oid : ObjectId) :
    (∀ remove, Orderly s remove → ExactEdit s oid remove) ∧
      ∀ r, ExactEdit s oid [r] ↔ Orderly s [r] :=
  ⟨fun _ => exactEdit_of_orderly, fun _ => ⟨orderly_of_exactEdit, exactEdit_of_orderly⟩⟩

def threeClauses : Standard where
  id := .splat 48
  prev := none
  name := "trunk"
  «extends» := none
  clauses := ["build", "lint", "tests.pass"].map fun name =>
    ⟨"require", ⟨"attest", some name, none⟩, none⟩
  scopes := none
  when := none
  auditPermille := none

theorem remove_exact_descending : ExactEdit threeClauses (.splat 1) ["1", "0"] := by
  refine (remove_exact threeClauses (.splat 1)).1 _ (Or.inr ⟨?_, ?_⟩)
  · have hread : ∀ r ∈ ["1", "0"], parseUsize r ≠ none := by decide +kernel
    exact fun r hr hnone => absurd hnone (hread r hr)
  · refine List.pairwise_pair.mpr fun i hi => ?_
    obtain rfl : 0 = i := Option.some.inj ((show parseUsize "0" = some 0 by decide +kernel) ▸ hi)
    decide +kernel

/-- The clause after the two that are named goes in place of the second. -/
theorem remove_shifted : ¬ ExactEdit threeClauses (.splat 1) ["0", "1"] := by
  intro h
  have hrun : removeClauses threeClauses (.splat 1) ["0", "1"] = .ok { threeClauses with
      prev := some (.splat 1)
      clauses := [⟨"require", ⟨"attest", some "lint", none⟩, none⟩] } := by decide +kernel
  have hexact := h.1 _ hrun
  exact absurd (h.1 _ hrun) (by decide +kernel)

end Tessra.Oplog.Standard
