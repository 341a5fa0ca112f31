import Tessra.Data.Segments
import Tessra.Oplog.GlobLaws

namespace Tessra.Oplog.Glob

open Tessra.Data

/-! Inclusions between patterns: every pattern has a path, and a pattern whose
last segments are free of `**` is read from the end. -/

abbrev stars : List Char := ['*', '*']

/-- The name of a file or a directory. -/
def IsName (s : List Char) : Prop := s ≠ [] ∧ '/' ∉ s

section Chars

variable {p q s : List Char}

theorem matchChars_star : matchChars ('*' :: p) s = true ↔
    ∃ s₁ s₂, s = s₁ ++ s₂ ∧ matchChars p s₂ = true := by
  rw [matchChars, if_pos rfl, List.any_eq_true]
  constructor
  · intro h
    obtain ⟨i, _, h⟩ := h
    exact ⟨s.take i, s.drop i, (List.take_append_drop i s).symm, h⟩
  · intro h
    obtain ⟨s₁, s₂, rfl, h⟩ := h
    refine ⟨s₁.length, ?_, ?_⟩
    · rw [List.mem_range, List.length_append]
      omega
    · rwa [List.drop_left]

theorem matchChars_mark : matchChars ('?' :: p) s = true ↔
    ∃ d rest, s = d :: rest ∧ matchChars p rest = true := by
  rw [matchChars, if_neg (by decide), if_pos rfl]
  cases s <;> simp

theorem matchChars_char {c : Char} (hstar : c ≠ '*') (hmark : c ≠ '?') :
    matchChars (c :: p) s = true ↔ ∃ rest, s = c :: rest ∧ matchChars p rest = true := by
  rw [matchChars, if_neg hstar, if_neg hmark]
  cases s with
  | nil => simp
  | cons d rest =>
      simp only [List.isEmpty_cons, Bool.not_false, Bool.true_and, List.head?_cons,
        Option.some.injEq, List.drop_succ_cons, List.drop_zero, Bool.and_eq_true,
        decide_eq_true_eq, List.cons.injEq]
      constructor
      · rintro ⟨rfl, h⟩
        exact ⟨rest, ⟨rfl, rfl⟩, h⟩
      · rintro ⟨_, ⟨rfl, rfl⟩, h⟩
        exact ⟨rfl, h⟩

theorem matchChars_append : matchChars (p ++ q) s = true ↔
    ∃ s₁ s₂, s = s₁ ++ s₂ ∧ matchChars p s₁ = true ∧ matchChars q s₂ = true := by
  induction p generalizing s with
  | nil => simp [matchChars]
  | cons c p ih =>
      rw [List.cons_append]
      by_cases hstar : c = '*'
      · subst hstar
        simp only [matchChars_star, ih]
        constructor
        · rintro ⟨s₁, _, rfl, s₂, s₃, rfl, h₂, h₃⟩
          exact ⟨s₁ ++ s₂, s₃, (List.append_assoc s₁ s₂ s₃).symm, ⟨s₁, s₂, rfl, h₂⟩, h₃⟩
        · rintro ⟨_, s₃, rfl, ⟨s₁, s₂, rfl, h₂⟩, h₃⟩
          exact ⟨s₁, s₂ ++ s₃, List.append_assoc s₁ s₂ s₃, s₂, s₃, rfl, h₂, h₃⟩
      · by_cases hmark : c = '?'
        · subst hmark
          simp only [matchChars_mark, ih]
          constructor
          · rintro ⟨d, _, rfl, s₁, s₂, rfl, h₁, h₂⟩
            exact ⟨d :: s₁, s₂, rfl, ⟨d, s₁, rfl, h₁⟩, h₂⟩
          · rintro ⟨_, s₂, rfl, ⟨d, s₁, rfl, h₁⟩, h₂⟩
            exact ⟨d, s₁ ++ s₂, rfl, s₁, s₂, rfl, h₁, h₂⟩
        · simp only [matchChars_char hstar hmark, ih]
          constructor
          · rintro ⟨_, rfl, s₁, s₂, rfl, h₁, h₂⟩
            exact ⟨c :: s₁, s₂, rfl, ⟨s₁, rfl, h₁⟩, h₂⟩
          · rintro ⟨_, s₂, rfl, ⟨s₁, rfl, h₁⟩, h₂⟩
            exact ⟨s₁ ++ s₂, rfl, s₁, s₂, rfl, h₁, h₂⟩

theorem matchChars_nil : matchChars p [] = true ↔ ∀ c ∈ p, c = '*' := by
  induction p with
  | nil => simp [matchChars]
  | cons c p ih =>
      by_cases hstar : c = '*'
      · subst hstar
        simp [matchChars_star, ih]
      · by_cases hmark : c = '?'
        · subst hmark
          simp [matchChars_mark]
        · simp [matchChars_char hstar hmark, hstar]

theorem matchChars_wild (hp : p ≠ []) (h : ∀ c ∈ p, c = '*') : matchChars p s = true := by
  cases p with
  | nil => exact absurd rfl hp
  | cons c p =>
      rw [h c List.mem_cons_self]
      have hrest := matchChars_nil.mpr fun c hc => h c (List.mem_cons_of_mem _ hc)
      exact matchChars_star.mpr ⟨s, [], (List.append_nil s).symm, hrest⟩

/-- Every character that is not a wildcard is found in what the pattern matches. -/
theorem mem_of_matchChars {c : Char} (h : matchChars p s = true) (hc : c ∈ p) (hstar : c ≠ '*')
    (hmark : c ≠ '?') : c ∈ s := by
  obtain ⟨p₁, p₂, rfl⟩ := List.append_of_mem hc
  obtain ⟨s₁, s₂, rfl, -, h⟩ := matchChars_append.mp h
  obtain ⟨rest, rfl, -⟩ := (matchChars_char hstar hmark).mp h
  simp

/-- A pattern of wildcards only goes by the length. -/
theorem matchChars_length (h : ∀ c ∈ p, c = '*' ∨ c = '?') : matchChars p s = true ↔
    p.count '?' ≤ s.length ∧ ('*' ∈ p ∨ s.length = p.count '?') := by
  induction p generalizing s with
  | nil => simp [matchChars]
  | cons c p ih =>
      have hrest := fun {s} => ih (s := s) fun c hc => h c (List.mem_cons_of_mem _ hc)
      rcases h c List.mem_cons_self with rfl | rfl
      · rw [matchChars_star]
        simp only [hrest]
        constructor
        · rintro ⟨s₁, s₂, rfl, hle, -⟩
          simp
          omega
        · rintro ⟨hle, -⟩
          simp only [List.count_cons, beq_iff_eq, Char.reduceEq, if_false, add_zero] at hle
          refine ⟨s.take (s.length - p.count '?'), s.drop (s.length - p.count '?'),
            (List.take_append_drop _ s).symm, ?_, ?_⟩
          · rw [List.length_drop]
            omega
          · rw [List.length_drop]
            omega
      · rw [matchChars_mark]
        simp only [hrest]
        cases s with
        | nil => simp
        | cons d s => simp

/-- The pattern matches every name. -/
def Universal (p : List Char) : Prop :=
  (∀ c ∈ p, c = '*' ∨ c = '?') ∧ '*' ∈ p ∧ p.count '?' ≤ 1

theorem universal_iff : Universal p ↔ ∀ s, IsName s → matchChars p s = true := by
  constructor
  · rintro ⟨hwild, hstar, hcount⟩ s hs
    have hlength := List.length_pos_iff.mpr hs.1
    exact (matchChars_length hwild).mpr ⟨by omega, .inl hstar⟩
  · intro h
    have hwild : ∀ c ∈ p, c = '*' ∨ c = '?' := by
      intro c hc
      by_contra hnot
      rw [not_or] at hnot
      have ha := mem_of_matchChars (h ['a'] ⟨by simp, by decide⟩) hc hnot.1 hnot.2
      have hb := mem_of_matchChars (h ['b'] ⟨by simp, by decide⟩) hc hnot.1 hnot.2
      rw [List.mem_singleton] at ha hb
      exact absurd (ha.symm.trans hb) (by decide)
    have hone := (matchChars_length hwild).mp (h ['a'] ⟨by simp, by decide⟩)
    have htwo := (matchChars_length hwild).mp (h ['a', 'a'] ⟨by simp, by decide⟩)
    refine ⟨hwild, ?_, hone.1⟩
    rcases hone.2 with hstar | hlength
    · exact hstar
    · rcases htwo.2 with hstar | hlength'
      · exact hstar
      · rw [← hlength] at hlength'
        cases hlength'

/-- A name that the pattern matches. -/
def sample (p : List Char) : List Char := p.map fun c => if c = '*' ∨ c = '?' then 'a' else c

theorem matchChars_sample : matchChars p (sample p) = true := by
  induction p with
  | nil => rfl
  | cons c p ih =>
      by_cases hstar : c = '*'
      · subst hstar
        exact matchChars_star.mpr ⟨['a'], sample p, rfl, ih⟩
      · by_cases hmark : c = '?'
        · subst hmark
          exact matchChars_mark.mpr ⟨'a', sample p, rfl, ih⟩
        · refine (matchChars_char hstar hmark).mpr ⟨sample p, ?_, ih⟩
          simp [sample, hstar, hmark]

theorem isName_sample (hp : IsName p) : IsName (sample p) := by
  refine ⟨by simpa [sample] using hp.1, fun h => ?_⟩
  obtain ⟨c, hc, heq⟩ := List.mem_map.mp h
  split_ifs at heq
  · exact absurd heq (by decide)
  · exact hp.2 (heq ▸ hc)

end Chars

section Lists

variable {P Q T segs : List (List Char)}

/-- The segments each match the pattern at their place. -/
abbrev Each (Q segs : List (List Char)) : Prop :=
  List.Forall₂ (fun q s => matchChars q s = true) Q segs

/-- The segments that a pattern cannot do without. -/
def needed (P : List (List Char)) : List (List Char) := P.filter (· ≠ stars)

theorem needed_stars : needed (stars :: P) = needed P := by simp [needed]

theorem needed_cons {p : List Char} (hp : p ≠ stars) : needed (p :: P) = p :: needed P := by
  simp [needed, hp]

theorem matchSegments_plain (hQ : ∀ q ∈ Q, q ≠ stars) :
    matchSegments Q segs = true ↔ Each Q segs := by
  induction Q generalizing segs with
  | nil => simp [matchSegments]
  | cons q Q ih =>
      rw [matchSegments_cons (hQ q List.mem_cons_self), Each, List.forall₂_cons_left_iff]
      simp only [ih fun q hq => hQ q (List.mem_cons_of_mem _ hq)]
      constructor
      · rintro ⟨s, rest, rfl, hs, hrest⟩
        exact ⟨s, rest, hs, hrest, rfl⟩
      · rintro ⟨s, rest, hs, hrest, rfl⟩
        exact ⟨s, rest, rfl, hs, hrest⟩

theorem matchSegments_samples (P : List (List Char)) :
    matchSegments P (P.map sample) = true := by
  induction P with
  | nil => rfl
  | cons p P ih =>
      by_cases hp : p = stars
      · subst hp
        exact matchSegments_stars.mpr ⟨[sample stars], P.map sample, rfl, ih⟩
      · exact (matchSegments_cons hp).mpr ⟨sample p, P.map sample, rfl, matchChars_sample, ih⟩

/-- The shortest path of a pattern. -/
theorem matchSegments_needed (P : List (List Char)) :
    matchSegments P ((needed P).map sample) = true := by
  induction P with
  | nil => rfl
  | cons p P ih =>
      by_cases hp : p = stars
      · subst hp
        exact matchSegments_stars.mpr ⟨[], _, by rw [needed_stars, List.nil_append], ih⟩
      · refine (matchSegments_cons hp).mpr ⟨sample p, _, ?_, matchChars_sample, ih⟩
        rw [needed_cons hp, List.map_cons]

theorem length_needed_le (h : matchSegments P segs = true) :
    (needed P).length ≤ segs.length := by
  induction P generalizing segs with
  | nil => simp [needed]
  | cons p P ih =>
      by_cases hp : p = stars
      · subst hp
        obtain ⟨s₁, s₂, rfl, htail⟩ := matchSegments_stars.mp h
        rw [needed_stars, List.length_append]
        exact le_add_left (ih htail)
      · obtain ⟨s, rest, rfl, -, htail⟩ := (matchSegments_cons hp).mp h
        rw [needed_cons hp, List.length_cons, List.length_cons]
        exact Nat.succ_le_succ (ih htail)

theorem isName_needed (hP : ∀ p ∈ P, IsName p) : ∀ s ∈ (needed P).map sample, IsName s := by
  intro s hs
  obtain ⟨p, hp, rfl⟩ := List.mem_map.mp hs
  exact isName_sample (hP p (List.mem_of_mem_filter hp))

/-- Patterns are read from the end as from the front. -/
theorem matchSegments_reverse (h : matchSegments P segs = true) :
    matchSegments P.reverse segs.reverse = true := by
  induction P generalizing segs with
  | nil => simpa [matchSegments] using h
  | cons p P ih =>
      rw [List.reverse_cons, matchSegments_append]
      by_cases hp : p = stars
      · subst hp
        obtain ⟨s₁, s₂, rfl, htail⟩ := matchSegments_stars.mp h
        exact ⟨s₂.reverse, s₁.reverse, List.reverse_append, ih htail, matchSegments_all⟩
      · obtain ⟨s, rest, rfl, hs, htail⟩ := (matchSegments_cons hp).mp h
        refine ⟨rest.reverse, [s], List.reverse_cons, ih htail, ?_⟩
        exact (matchSegments_cons hp).mpr ⟨s, [], rfl, hs, rfl⟩

/-- Every name that the one pattern matches, the other does. -/
def Included (p q : List Char) : Prop :=
  ∀ s, IsName s → matchChars p s = true → matchChars q s = true

/-- What the first pattern matches starts with segments that the others match, one
each. -/
def Starts : List (List Char) → List (List Char) → Prop
  | _, [] => True
  | [], _ :: _ => False
  | t :: T, q :: Q =>
      if t = stars then
        (q :: Q).length ≤ (needed T).length ∧ ∀ q' ∈ q :: Q, Universal q'
      else Included t q ∧ Starts T Q

theorem each_universal (hQ : ∀ q ∈ Q, Universal q) (hsegs : ∀ s ∈ segs, IsName s)
    (hlength : Q.length = segs.length) : Each Q segs := by
  rw [Each, List.forall₂_iff_get]
  exact ⟨hlength, fun i hi hi' => universal_iff.mp (hQ _ (List.get_mem Q ⟨i, hi⟩)) _
    (hsegs _ (List.get_mem segs ⟨i, hi'⟩))⟩

theorem starts_sound (h : Starts T Q) (hsegs : ∀ s ∈ segs, IsName s)
    (hmatch : matchSegments T segs = true) : ∃ s₁ s₂, segs = s₁ ++ s₂ ∧ Each Q s₁ := by
  induction T generalizing Q segs with
  | nil =>
      cases Q with
      | nil => exact ⟨[], segs, rfl, .nil⟩
      | cons q Q => exact h.elim
  | cons t T ih =>
      cases Q with
      | nil => exact ⟨[], segs, rfl, .nil⟩
      | cons q Q =>
          rw [Starts] at h
          split_ifs at h with ht
          · -- The wildcard can stand for anything, but not for too little.
            subst ht
            have hle := length_needed_le hmatch
            rw [needed_stars] at hle
            refine ⟨segs.take (q :: Q).length, segs.drop (q :: Q).length,
              (List.take_append_drop _ segs).symm, ?_⟩
            refine each_universal h.2 (fun s hs => hsegs s (List.mem_of_mem_take hs)) ?_
            rw [List.length_take]
            omega
          · obtain ⟨s, rest, rfl, hs, hrest⟩ := (matchSegments_cons ht).mp hmatch
            obtain ⟨s₁, s₂, rfl, heach⟩ :=
              ih h.2 (fun s' hs' => hsegs s' (List.mem_cons_of_mem s hs')) hrest
            exact ⟨s :: s₁, s₂, rfl, .cons (h.1 s (hsegs s List.mem_cons_self) hs) heach⟩

theorem starts_of_forall (hT : ∀ t ∈ T, IsName t)
    (h : ∀ segs, (∀ s ∈ segs, IsName s) → matchSegments T segs = true →
      ∃ s₁ s₂, segs = s₁ ++ s₂ ∧ Each Q s₁) : Starts T Q := by
  induction T generalizing Q with
  | nil =>
      cases Q with
      | nil => trivial
      | cons q Q =>
          obtain ⟨s₁, s₂, hnil, heach⟩ := h [] (by simp) rfl
          obtain ⟨rfl, -⟩ := List.append_eq_nil_iff.mp hnil.symm
          cases heach
  | cons t T ih =>
      have hT' : ∀ t' ∈ T, IsName t' := fun t' ht' => hT t' (List.mem_cons_of_mem t ht')
      cases Q with
      | nil => trivial
      | cons q Q =>
          rw [Starts]
          split_ifs with ht
          · subst ht
            have hstar : ∀ X, (∀ s ∈ X, IsName s) → ∃ s₁ s₂,
                X ++ (needed T).map sample = s₁ ++ s₂ ∧ Each (q :: Q) s₁ := fun X hX =>
              h _ (fun s hs => (List.mem_append.mp hs).elim (hX s) (isName_needed hT' s))
                (matchSegments_stars.mpr ⟨X, _, rfl, matchSegments_needed T⟩)
            refine ⟨?_, fun q' hq' => universal_iff.mpr fun s hs => ?_⟩
            · obtain ⟨s₁, s₂, heq, heach⟩ := hstar [] (by simp)
              have hlength := congrArg List.length heq
              rw [List.nil_append, List.length_map, List.length_append, ← heach.length_eq] at hlength
              omega
            · -- The name, as often as the pattern asks for one.
              obtain ⟨s₁, s₂, heq, heach⟩ := hstar (List.replicate (q :: Q).length s)
                fun s' hs' => (List.eq_of_mem_replicate hs') ▸ hs
              obtain ⟨rfl, -⟩ := List.append_inj heq (by
                rw [List.length_replicate, heach.length_eq])
              obtain ⟨i, hi, rfl⟩ := List.mem_iff_getElem.mp hq'
              have hget := (List.forall₂_iff_get.mp heach).2 i hi (by simpa using hi)
              simpa using hget
          · refine ⟨fun s hs hmatch => ?_, ih hT' fun segs hsegs hmatch => ?_⟩
            · obtain ⟨s₁, s₂, heq, heach⟩ := h (s :: (needed T).map sample)
                (fun s' hs' => (List.mem_cons.mp hs').elim (fun heq => heq ▸ hs)
                  (isName_needed hT' s'))
                ((matchSegments_cons ht).mpr ⟨s, _, rfl, hmatch, matchSegments_needed T⟩)
              cases heach with
              | cons hfirst _ =>
                  rw [List.cons_append] at heq
                  exact (List.cons.inj heq).1 ▸ hfirst
            · obtain ⟨s₁, s₂, heq, heach⟩ := h (sample t :: segs)
                (fun s' hs' => (List.mem_cons.mp hs').elim
                  (fun heq => heq ▸ isName_sample (hT t List.mem_cons_self)) (hsegs s'))
                ((matchSegments_cons ht).mpr ⟨sample t, segs, rfl, matchChars_sample, hmatch⟩)
              cases heach with
              | @cons _ s _ rest _ hrest =>
                  rw [List.cons_append] at heq
                  exact ⟨rest, s₂, (List.cons.inj heq).2, hrest⟩

/-- The patterns have a segment for each other, and none stands for several. -/
def Alongside (T Q : List (List Char)) : Prop :=
  (∀ t ∈ T, t ≠ stars) ∧ List.Forall₂ Included T Q

theorem alongside_sound (h : Alongside T Q) (hsegs : ∀ s ∈ segs, IsName s)
    (hmatch : matchSegments T segs = true) : Each Q segs := by
  have heach := (matchSegments_plain h.1).mp hmatch
  clear hmatch
  induction heach generalizing Q with
  | nil =>
      cases h.2
      exact .nil
  | cons hs _ ih =>
      obtain ⟨hplain, hincluded⟩ := h
      cases hincluded with
      | cons hfirst hrest =>
          exact .cons (hfirst _ (hsegs _ List.mem_cons_self) hs)
            (ih ⟨fun t ht => hplain t (List.mem_cons_of_mem _ ht), hrest⟩
              fun s hs => hsegs s (List.mem_cons_of_mem _ hs))

theorem alongside_of_forall (hT : ∀ t ∈ T, IsName t)
    (h : ∀ segs, (∀ s ∈ segs, IsName s) → matchSegments T segs = true → Each Q segs) :
    Alongside T Q := by
  induction T generalizing Q with
  | nil =>
      cases h [] (by simp) rfl
      exact ⟨by simp, .nil⟩
  | cons t T ih =>
      have hT' : ∀ t' ∈ T, IsName t' := fun t' ht' => hT t' (List.mem_cons_of_mem t ht')
      by_cases ht : t = stars
      · subst ht
        have hshort := h _ (isName_needed hT')
          (matchSegments_stars.mpr ⟨[], _, rfl, matchSegments_needed T⟩)
        have hlong := h (['a'] :: (needed T).map sample)
          (fun s hs => (List.mem_cons.mp hs).elim (fun heq => heq ▸ ⟨by simp, by decide⟩)
            (isName_needed hT' s))
          (matchSegments_stars.mpr ⟨[['a']], _, rfl, matchSegments_needed T⟩)
        have hlength := hshort.length_eq.symm.trans hlong.length_eq
        rw [List.length_cons] at hlength
        omega
      · have hfirst := h (sample t :: (needed T).map sample)
          (fun s hs => (List.mem_cons.mp hs).elim
            (fun heq => heq ▸ isName_sample (hT t List.mem_cons_self)) (isName_needed hT' s))
          ((matchSegments_cons ht).mpr ⟨_, _, rfl, matchChars_sample, matchSegments_needed T⟩)
        cases hfirst with
        | @cons q _ Q _ _ _ =>
            obtain ⟨hplain, hrest⟩ := ih (Q := Q) hT' fun segs hsegs hmatch => by
              have hall := h (sample t :: segs)
                (fun s hs => (List.mem_cons.mp hs).elim
                  (fun heq => heq ▸ isName_sample (hT t List.mem_cons_self)) (hsegs s))
                ((matchSegments_cons ht).mpr ⟨_, _, rfl, matchChars_sample, hmatch⟩)
              cases hall with
              | cons _ hrest => exact hrest
            refine ⟨fun t' ht' => ?_, .cons (fun s hs hmatch => ?_) hrest⟩
            · rcases List.mem_cons.mp ht' with rfl | ht'
              · exact ht
              · exact hplain t' ht'
            · have hall := h (s :: (needed T).map sample)
                (fun s' hs' => (List.mem_cons.mp hs').elim (fun heq => heq ▸ hs)
                  (isName_needed hT' s'))
                ((matchSegments_cons ht).mpr ⟨_, _, rfl, hmatch, matchSegments_needed T⟩)
              cases hall with
              | cons hfirst _ => exact hfirst

/-- The one pattern matches every path of names that the other does. -/
def Covers (C P : List (List Char)) : Prop :=
  ∀ segs, (∀ s ∈ segs, IsName s) → matchSegments C segs = true → matchSegments P segs = true

theorem covers_closed (hT : ∀ t ∈ T, IsName t) (hQ : ∀ q ∈ Q, q ≠ stars) :
    Covers T Q ↔ Alongside T Q := by
  refine ⟨fun h => alongside_of_forall hT fun segs hsegs hmatch =>
    (matchSegments_plain hQ).mp (h segs hsegs hmatch), fun h segs hsegs hmatch => ?_⟩
  exact (matchSegments_plain hQ).mpr (alongside_sound h hsegs hmatch)

/-- After `**` only the end of a path counts. -/
theorem covers_open (hP : ∀ p ∈ P, IsName p) (hT : ∀ t ∈ T, IsName t) (hQ : ∀ q ∈ Q, q ≠ stars) :
    Covers ((P ++ [stars]) ++ T) ((P ++ [stars]) ++ Q) ↔ Starts T.reverse Q.reverse := by
  constructor
  · intro h
    refine starts_of_forall (fun t ht => hT t (List.mem_reverse.mp ht)) fun segs hsegs hmatch => ?_
    have hfront : matchSegments (P ++ [stars]) ((needed P).map sample) = true :=
      matchSegments_append.mpr ⟨_, [], (List.append_nil _).symm, matchSegments_needed P,
        matchSegments_all⟩
    have hback := matchSegments_reverse hmatch
    rw [List.reverse_reverse] at hback
    have hmatched := h ((needed P).map sample ++ segs.reverse)
      (fun s hs => (List.mem_append.mp hs).elim (isName_needed hP s) fun hs =>
        hsegs s (List.mem_reverse.mp hs))
      (matchSegments_append.mpr ⟨_, _, rfl, hfront, hback⟩)
    obtain ⟨X, Y, heq, hX, hY⟩ := matchSegments_append.mp hmatched
    rw [matchSegments_plain hQ] at hY
    -- What `Q` reads is no longer than what `T` did.
    have hle := length_needed_le hX
    have hneeded : needed (P ++ [stars]) = needed P := by simp [needed]
    rw [hneeded] at hle
    obtain ⟨Z, hXeq, hZ⟩ | ⟨Z, hfront', hYeq⟩ := List.append_eq_append_iff.mp heq
    · refine ⟨Y.reverse, Z.reverse, ?_, List.rel_reverse hY⟩
      rw [← List.reverse_append, ← hZ, List.reverse_reverse]
    · have hZ : Z = [] := by
        have hlength := congrArg List.length hfront'
        rw [List.length_map, List.length_append] at hlength
        exact List.eq_nil_iff_length_eq_zero.mpr (by omega)
      subst hZ
      refine ⟨Y.reverse, [], ?_, List.rel_reverse hY⟩
      rw [hYeq, List.nil_append, List.reverse_reverse, List.append_nil]
  · intro h segs hsegs hmatch
    obtain ⟨X, Y, rfl, hX, hY⟩ := matchSegments_append.mp hmatch
    have hnames : ∀ s ∈ Y.reverse, IsName s := fun s hs =>
      hsegs s (List.mem_append_right X (List.mem_reverse.mp hs))
    obtain ⟨s₁, s₂, heq, heach⟩ := starts_sound h hnames (matchSegments_reverse hY)
    have hY : Y = s₂.reverse ++ s₁.reverse := by
      rw [← List.reverse_append, ← heq, List.reverse_reverse]
    obtain ⟨X₁, X₂, rfl, hX₁, -⟩ := matchSegments_append.mp hX
    have heach' := List.rel_reverse heach
    rw [List.reverse_reverse] at heach'
    rw [hY, ← List.append_assoc, matchSegments_append]
    refine ⟨_, _, rfl, ?_, (matchSegments_plain hQ).mpr heach'⟩
    rw [List.append_assoc, matchSegments_append]
    exact ⟨X₁, X₂ ++ s₂.reverse, rfl, hX₁, matchSegments_all⟩

end Lists

end Tessra.Oplog.Glob
