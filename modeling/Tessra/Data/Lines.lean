import Tessra.Data.Segments

namespace Tessra.Data

universe u

/-! Texts joined with a separator, and texts cut after each one. -/

variable {α : Type u} [DecidableEq α] {x : α} {s : List α} {A B : List (List α)}

section Joined

theorem splitOn_joined (hA : A ≠ []) :
    ([x].intercalate A).splitOn x = A.flatMap (·.splitOn x) := by
  induction A with
  | nil => exact absurd rfl hA
  | cons l A ih =>
      cases A with
      | nil => simp
      | cons l' A =>
          rw [List.intercalate_cons_cons, List.append_assoc, List.singleton_append,
            List.splitOn_append_cons_self, ih (List.cons_ne_nil _ _)]
          rfl

/-- Texts join to the same one when they are cut into the same pieces. -/
theorem joined_eq_iff (hA : A ≠ []) (hB : B ≠ []) :
    [x].intercalate A = [x].intercalate B ↔
      A.flatMap (·.splitOn x) = B.flatMap (·.splitOn x) := by
  rw [← splitOn_joined hA, ← splitOn_joined hB]
  refine ⟨fun h => congrArg _ h, fun h => ?_⟩
  calc [x].intercalate A
      = [x].intercalate (([x].intercalate A).splitOn x) := (List.intercalate_splitOn x).symm
    _ = [x].intercalate (([x].intercalate B).splitOn x) := by rw [h]
    _ = [x].intercalate B := List.intercalate_splitOn x

theorem length_splitOn (x : α) (s : List α) : (s.splitOn x).length = s.count x + 1 := by
  induction s with
  | nil => simp
  | cons y s ih =>
      rw [List.splitOn_cons_eq_if_modifyHead]
      split_ifs with hy
      · rw [beq_iff_eq] at hy
        simp [hy, ih]
      · have hne : y ≠ x := fun h => hy (by simp [h])
        simp [ih, hne]

/-- The pieces with their number in each text determine the texts. -/
theorem eq_of_pieces (h : A.flatMap (·.splitOn x) = B.flatMap (·.splitOn x))
    (hcount : A.map (List.count x) = B.map (List.count x)) : A = B := by
  induction A generalizing B with
  | nil => exact (List.map_eq_nil_iff.mp hcount.symm).symm
  | cons l A ih =>
      cases B with
      | nil => exact absurd hcount (List.cons_ne_nil _ _)
      | cons l' B =>
          rw [List.map_cons, List.map_cons, List.cons.injEq] at hcount
          rw [List.flatMap_cons, List.flatMap_cons] at h
          obtain ⟨hl, hrest⟩ := List.append_inj h
            (by rw [length_splitOn, length_splitOn, hcount.1])
          have heq : l = l' := by
            have hback : [x].intercalate (l.splitOn x) = l := List.intercalate_splitOn x
            rw [hl, List.intercalate_splitOn] at hback
            exact hback.symm
          rw [heq, ih hrest hcount.2]

end Joined

section Cut

/-- The text cut after each separator. -/
def splitInclusive (x : α) : List α → List (List α)
  | [] => []
  | y :: s =>
      if y = x then [y] :: splitInclusive x s
      else
        match splitInclusive x s with
        | [] => [[y]]
        | l :: rest => (y :: l) :: rest

@[simp] theorem flatten_splitInclusive (x : α) (s : List α) :
    (splitInclusive x s).flatten = s := by
  induction s with
  | nil => rfl
  | cons y s ih =>
      rw [splitInclusive]
      split_ifs with hy
      · rw [List.flatten_cons, ih, List.singleton_append]
      · cases hs : splitInclusive x s with
        | nil =>
            rw [hs] at ih
            rw [← ih]
            rfl
        | cons l rest =>
            rw [hs] at ih
            rw [← ih]
            rfl

theorem splitInclusive_append_left (h : splitInclusive x s = A ++ B) :
    splitInclusive x A.flatten = A := by
  induction s generalizing A with
  | nil =>
      obtain ⟨rfl, -⟩ := List.append_eq_nil_iff.mp h.symm
      rfl
  | cons y s ih =>
      cases A with
      | nil => rfl
      | cons l A =>
          rw [splitInclusive] at h
          split_ifs at h with hy
          · obtain ⟨rfl, hrest⟩ := List.cons.inj h
            rw [List.flatten_cons, List.singleton_append, splitInclusive, if_pos hy, ih hrest]
          · cases hs : splitInclusive x s with
            | nil =>
                rw [hs] at h
                obtain ⟨rfl, hrest⟩ := List.cons.inj h
                obtain ⟨rfl, -⟩ := List.append_eq_nil_iff.mp hrest.symm
                simp [splitInclusive, hy]
            | cons m rest =>
                rw [hs] at h
                obtain ⟨rfl, hrest⟩ := List.cons.inj h
                have hm := ih (A := m :: A) (by rw [hs, hrest]; rfl)
                rw [List.flatten_cons] at hm ⊢
                rw [List.cons_append, splitInclusive, if_neg hy, hm]

theorem splitInclusive_append_right (h : splitInclusive x s = A ++ B) :
    splitInclusive x B.flatten = B := by
  induction s generalizing A with
  | nil =>
      obtain ⟨-, rfl⟩ := List.append_eq_nil_iff.mp h.symm
      rfl
  | cons y s ih =>
      cases A with
      | nil =>
          rw [List.nil_append] at h
          rw [← h, flatten_splitInclusive]
      | cons l A =>
          rw [splitInclusive] at h
          split_ifs at h with hy
          · exact ih (List.cons.inj h).2
          · cases hs : splitInclusive x s with
            | nil =>
                rw [hs] at h
                obtain ⟨-, rfl⟩ := List.append_eq_nil_iff.mp (List.cons.inj h).2.symm
                rfl
            | cons m rest =>
                rw [hs] at h
                exact ih (A := m :: A) (by rw [hs, (List.cons.inj h).2]; rfl)

/-- A part of the pieces is what its text is cut into. -/
theorem splitInclusive_part {C : List (List α)} (h : splitInclusive x s = A ++ B ++ C) :
    splitInclusive x B.flatten = B :=
  splitInclusive_append_right (splitInclusive_append_left h)

end Cut

section Places

variable {pre post pre' body post' all : List (List α)} {l last : List α} {n : ℕ}

omit [DecidableEq α] in
/-- A piece of all those and a last one is the last or stands among the others. -/
theorem split_concat (h : all ++ [last] = pre ++ l :: post) :
    (pre = all ∧ l = last) ∨ ∃ rest, all = pre ++ l :: rest := by
  rcases List.eq_nil_or_concat post with rfl | ⟨rest, y, rfl⟩
  · obtain ⟨hpre, hl⟩ := List.append_inj' h rfl
    exact .inl ⟨hpre.symm, (List.cons.inj hl).1.symm⟩
  · rw [List.concat_eq_append, ← List.cons_append, ← List.append_assoc] at h
    exact .inr ⟨rest, (List.append_inj' h rfl).1⟩

omit [DecidableEq α] in
/-- What stands at a place that some pieces take up is one of them. -/
theorem mem_of_place (h : pre ++ l :: post = pre' ++ body ++ post')
    (hl : pre.flatten.length ≤ n ∧ n < (pre ++ [l]).flatten.length)
    (hbody : pre'.flatten.length ≤ n ∧ n < (pre' ++ body).flatten.length) : l ∈ body := by
  rw [List.append_assoc] at h
  obtain ⟨m, rfl, hm⟩ | ⟨m, rfl, hm⟩ := List.append_eq_append_iff.mp h
  · cases m with
    | nil =>
        cases body with
        | nil =>
            simp only [List.append_nil] at hbody
            omega
        | cons l' body =>
            obtain ⟨rfl, -⟩ := List.cons.inj hm
            exact List.mem_cons_self
    | cons l' m =>
        obtain ⟨rfl, -⟩ := List.cons.inj hm
        simp only [List.flatten_append, List.length_append, List.flatten_cons,
          List.flatten_nil, List.append_nil] at hl hbody
        omega
  · obtain ⟨k, rfl, hk⟩ | ⟨k, rfl, hk⟩ := List.append_eq_append_iff.mp hm
    · simp only [List.flatten_append, List.length_append] at hl hbody
      omega
    · cases k with
      | nil =>
          simp only [List.flatten_append, List.length_append, List.append_nil] at hl hbody
          omega
      | cons l' k =>
          obtain ⟨rfl, -⟩ := List.cons.inj hk
          exact List.mem_append_right _ List.mem_cons_self

end Places

end Tessra.Data
