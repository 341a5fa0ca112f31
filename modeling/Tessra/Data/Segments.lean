import Mathlib

namespace Tessra.Data

universe u v

/-! Lists split at a separator, and into buckets. -/

section Separator

variable {α : Type u} [BEq α] [LawfulBEq α] {x : α}

theorem notMem_of_mem_splitOn {l s : List α} (h : s ∈ l.splitOn x) : x ∉ s := by
  induction l generalizing s with
  | nil =>
      rw [List.splitOn_nil, List.mem_singleton] at h
      simp [h]
  | cons y l ih =>
      rw [List.splitOn_cons_eq_if_modifyHead] at h
      split_ifs at h with hy
      · rcases List.mem_cons.mp h with rfl | h
        · simp
        · exact ih h
      · cases hl : l.splitOn x with
        | nil => exact absurd hl (List.splitOn_ne_nil x l)
        | cons first rest =>
            rw [hl, List.modifyHead_cons] at h
            rw [hl] at ih
            rcases List.mem_cons.mp h with rfl | h
            · rw [List.mem_cons, not_or]
              exact ⟨fun heq => hy (by simp [heq]), ih List.mem_cons_self⟩
            · exact ih (List.mem_cons_of_mem first h)

end Separator

section Buckets

variable {α : Type u} {ι : Type v} [DecidableEq ι]

/-- Buckets that there is one of for everything in the list hold the list. -/
theorem perm_flatten_buckets (bucket : α → ι) {l : List α} {is : List ι} (hnodup : is.Nodup)
    (hl : ∀ x ∈ l, bucket x ∈ is) :
    (is.map fun i => l.filter (bucket · = i)).flatten.Perm l := by
  induction is generalizing l with
  | nil =>
      cases l with
      | nil => exact List.Perm.refl _
      | cons x l => exact absurd (hl x List.mem_cons_self) List.not_mem_nil
  | cons i is ih =>
      obtain ⟨hi, hnodup⟩ := List.nodup_cons.mp hnodup
      have hrest := ih (l := l.filter fun x => !decide (bucket x = i)) hnodup fun x hx => by
        obtain ⟨hmem, hne⟩ := List.mem_filter.mp hx
        simp only [Bool.not_eq_true', decide_eq_false_iff_not] at hne
        exact (List.mem_cons.mp (hl x hmem)).resolve_left hne
      have hsame : (is.map fun j => (l.filter fun x => !decide (bucket x = i)).filter
          (bucket · = j)) = is.map fun j => l.filter (bucket · = j) := by
        refine List.map_congr_left fun j hj => ?_
        rw [List.filter_filter]
        refine List.filter_congr fun x _ => ?_
        by_cases hx : bucket x = j
        · have hne : j ≠ i := fun h => hi (h ▸ hj)
          simp [hx, hne]
        · simp [hx]
      rw [hsame] at hrest
      rw [List.map_cons, List.flatten_cons]
      exact (hrest.append_left _).trans (List.filter_append_perm _ l)

end Buckets

end Tessra.Data
