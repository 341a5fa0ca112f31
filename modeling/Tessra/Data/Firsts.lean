import Mathlib

namespace Tessra.Data

/-! The first entry of a list for each key. -/

variable {α β : Type} [DecidableEq β] {key : α → β} {l l' : List α}

def firsts (key : α → β) (l : List α) : List α :=
  l.foldl (fun found x => if found.any (key · = key x) then found else found ++ [x]) []

theorem firsts_concat (l : List α) (x : α) :
    firsts key (l ++ [x]) =
      if (firsts key l).any (key · = key x) then firsts key l else firsts key l ++ [x] := by
  rw [firsts, List.foldl_append]
  rfl

theorem mem_of_mem_firsts {x : α} (h : x ∈ firsts key l) : x ∈ l := by
  induction l using List.reverseRecOn with
  | nil => exact h
  | append_singleton l y ih =>
      rw [firsts_concat] at h
      split_ifs at h
      · exact List.mem_append_left _ (ih h)
      · rcases List.mem_append.mp h with h | h
        · exact List.mem_append_left _ (ih h)
        · exact List.mem_append_right _ h

theorem mem_keys_firsts {k : β} : k ∈ (firsts key l).map key ↔ k ∈ l.map key := by
  induction l using List.reverseRecOn with
  | nil => rfl
  | append_singleton l y ih =>
      rw [firsts_concat]
      split_ifs with hany
      · rw [ih, List.map_append, List.mem_append, List.map_singleton, List.mem_singleton]
        refine ⟨.inl, fun h => h.elim id fun hk => ?_⟩
        obtain ⟨x, hx, heq⟩ := List.any_eq_true.mp hany
        rw [← ih, hk, ← of_decide_eq_true heq]
        exact List.mem_map_of_mem hx
      · simp only [List.map_append, List.mem_append, ih]

theorem nodup_keys_firsts (key : α → β) (l : List α) : ((firsts key l).map key).Nodup := by
  induction l using List.reverseRecOn with
  | nil => exact List.nodup_nil
  | append_singleton l y ih =>
      rw [firsts_concat]
      split_ifs with hany
      · exact ih
      · rw [List.map_append, List.nodup_append]
        refine ⟨ih, List.nodup_singleton _, ?_⟩
        intro k hk k' hk' heq
        obtain ⟨x, hx, rfl⟩ := List.mem_map.mp hk
        rw [List.mem_singleton.mp hk'] at heq
        exact hany (List.any_eq_true.mpr ⟨x, hx, decide_eq_true heq⟩)

theorem firsts_of_nodup (h : (l.map key).Nodup) : firsts key l = l := by
  induction l using List.reverseRecOn with
  | nil => rfl
  | append_singleton l y ih =>
      rw [List.map_append, List.nodup_append] at h
      have hnew : ¬ l.any (key · = key y) := by
        intro hany
        obtain ⟨x, hx, heq⟩ := List.any_eq_true.mp hany
        exact h.2.2 _ (List.mem_map_of_mem hx) _ List.mem_cons_self (of_decide_eq_true heq)
      rw [firsts_concat, ih h.1, if_neg hnew]

/-- Entries with a key each that lead a list are its firsts, if it has no other keys. -/
theorem firsts_of_lead (h : (l.map key).Nodup) (hkeys : ∀ x ∈ l', key x ∈ l.map key) :
    firsts key (l ++ l') = l := by
  induction l' using List.reverseRecOn with
  | nil => rw [List.append_nil, firsts_of_nodup h]
  | append_singleton l' y ih =>
      obtain ⟨x, hx, heq⟩ := List.mem_map.mp (hkeys y (by simp))
      rw [← List.append_assoc, firsts_concat, ih fun x hx => hkeys x (by simp [hx])]
      exact if_pos (List.any_eq_true.mpr ⟨x, hx, decide_eq_true heq⟩)

end Tessra.Data
