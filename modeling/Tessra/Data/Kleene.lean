import Mathlib

namespace Tessra.Data

/-! Three-valued verdicts, and two-valued answers that take the unknown for no. -/

inductive Kleene
  | yes
  | no
  | unknown
deriving DecidableEq

namespace Kleene

def all (verdicts : List Kleene) : Kleene :=
  if .no ∈ verdicts then .no else if .unknown ∈ verdicts then .unknown else .yes

def any (verdicts : List Kleene) : Kleene :=
  if .yes ∈ verdicts then .yes else if .unknown ∈ verdicts then .unknown else .no

def not : Kleene → Kleene
  | .yes => .no
  | .no => .yes
  | .unknown => .unknown

/-- The answer is what the verdict says, where it says something. -/
structure Answers (v : Kleene) (answer : Prop) : Prop where
  yes : v = .yes → answer
  no : v = .no → ¬ answer

/-- The answer is yes although the verdict is unknown. -/
def Turned (v : Kleene) (answer : Prop) : Prop := v = .unknown ∧ answer

variable {α : Type} {l : List α} {verdict : α → Kleene} {answer : α → Prop} {v : Kleene}
  {b : Prop}

theorem Answers.iff (h : Answers v b) : b ↔ v = .yes ∨ Turned v b := by
  cases v with
  | yes => exact iff_of_true (h.yes rfl) (.inl rfl)
  | no => exact iff_of_false (h.no rfl) (by simp [Turned])
  | unknown => simp [Turned]

theorem answers_yes (h : b) : Answers .yes b := ⟨fun _ => h, nofun⟩

theorem answers_no (h : ¬ b) : Answers .no b := ⟨nofun, fun _ => h⟩

theorem answers_unknown (b : Prop) : Answers .unknown b := ⟨nofun, nofun⟩

theorem Answers.not (h : Answers v b) : Answers v.not (¬ b) := by
  cases v with
  | yes => exact answers_no (not_not_intro (h.yes rfl))
  | no => exact answers_yes (h.no rfl)
  | unknown => exact answers_unknown _

theorem turned_not : Turned v.not (¬ b) ↔ v = .unknown ∧ ¬ Turned v b := by
  cases v <;> simp [Turned, Kleene.not]

theorem all_eq_unknown : all (l.map verdict) = .unknown ↔
    (∀ x ∈ l, verdict x ≠ .no) ∧ ∃ x ∈ l, verdict x = .unknown := by
  unfold all
  split_ifs with hno hunknown
  · simp only [false_iff, not_and]
    intro hall
    obtain ⟨x, hx, heq⟩ := List.mem_map.mp hno
    exact absurd heq (hall x hx)
  · simp only [true_iff]
    constructor
    · intro x hx heq
      exact hno (List.mem_map.mpr ⟨x, hx, heq⟩)
    · exact List.mem_map.mp hunknown
  · simp only [false_iff, not_and]
    rintro - ⟨x, hx, heq⟩
    exact hunknown (List.mem_map.mpr ⟨x, hx, heq⟩)

theorem any_eq_unknown : any (l.map verdict) = .unknown ↔
    (∀ x ∈ l, verdict x ≠ .yes) ∧ ∃ x ∈ l, verdict x = .unknown := by
  unfold any
  split_ifs with hyes hunknown
  · simp only [false_iff, not_and]
    intro hall
    obtain ⟨x, hx, heq⟩ := List.mem_map.mp hyes
    exact absurd heq (hall x hx)
  · simp only [true_iff]
    constructor
    · intro x hx heq
      exact hyes (List.mem_map.mpr ⟨x, hx, heq⟩)
    · exact List.mem_map.mp hunknown
  · simp only [false_iff, not_and]
    rintro - ⟨x, hx, heq⟩
    exact hunknown (List.mem_map.mpr ⟨x, hx, heq⟩)

theorem Answers.all (h : ∀ x ∈ l, Answers (verdict x) (answer x)) :
    Answers (all (l.map verdict)) (∀ x ∈ l, answer x) := by
  unfold Kleene.all
  split_ifs with hno hunknown
  · obtain ⟨x, hx, heq⟩ := List.mem_map.mp hno
    exact answers_no fun hall => (h x hx).no heq (hall x hx)
  · exact answers_unknown _
  · refine answers_yes fun x hx => ?_
    cases hv : verdict x with
    | yes => exact (h x hx).yes hv
    | no => exact absurd (List.mem_map.mpr ⟨x, hx, hv⟩) hno
    | unknown => exact absurd (List.mem_map.mpr ⟨x, hx, hv⟩) hunknown

theorem Answers.any (h : ∀ x ∈ l, Answers (verdict x) (answer x)) :
    Answers (any (l.map verdict)) (∃ x ∈ l, answer x) := by
  unfold Kleene.any
  split_ifs with hyes hunknown
  · obtain ⟨x, hx, heq⟩ := List.mem_map.mp hyes
    exact answers_yes ⟨x, hx, (h x hx).yes heq⟩
  · exact answers_unknown _
  · refine answers_no ?_
    rintro ⟨x, hx, hanswer⟩
    cases hv : verdict x with
    | yes => exact hyes (List.mem_map.mpr ⟨x, hx, hv⟩)
    | no => exact (h x hx).no hv hanswer
    | unknown => exact hunknown (List.mem_map.mpr ⟨x, hx, hv⟩)

/-- An unknown conjunction is answered with yes if every part is, and some part is
although it is unknown. -/
theorem turned_all (h : ∀ x ∈ l, Answers (verdict x) (answer x)) :
    Turned (all (l.map verdict)) (∀ x ∈ l, answer x) ↔
      (∀ x ∈ l, verdict x = .yes ∨ Turned (verdict x) (answer x)) ∧
        ∃ x ∈ l, Turned (verdict x) (answer x) := by
  unfold Turned
  rw [all_eq_unknown]
  constructor
  · rintro ⟨⟨_, x, hx, hunknown⟩, hall⟩
    exact ⟨fun y hy => (h y hy).iff.mp (hall y hy), x, hx, hunknown, hall x hx⟩
  · rintro ⟨hall, x, hx, hunknown, hanswer⟩
    refine ⟨⟨fun y hy => ?_, x, hx, hunknown⟩, fun y hy => (h y hy).iff.mpr (hall y hy)⟩
    rcases hall y hy with hv | ⟨hv, _⟩ <;> simp [hv]

/-- An unknown disjunction is answered with yes if some part is although it is unknown. -/
theorem turned_any (h : ∀ x ∈ l, Answers (verdict x) (answer x)) :
    Turned (any (l.map verdict)) (∃ x ∈ l, answer x) ↔
      (∀ x ∈ l, verdict x ≠ .yes) ∧ ∃ x ∈ l, Turned (verdict x) (answer x) := by
  unfold Turned
  rw [any_eq_unknown]
  constructor
  · rintro ⟨⟨hnone, _⟩, x, hx, hanswer⟩
    rcases (h x hx).iff.mp hanswer with hv | hturned
    · exact absurd hv (hnone x hx)
    · exact ⟨hnone, x, hx, hturned⟩
  · rintro ⟨hnone, x, hx, hunknown, hanswer⟩
    exact ⟨⟨hnone, x, hx, hunknown⟩, x, hx, hanswer⟩

end Kleene

end Tessra.Data
