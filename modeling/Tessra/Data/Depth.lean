import Mathlib.Data.Finset.Card
import Mathlib.Logic.Relation

namespace Tessra.Data

open Relation

/-! How deep a relation goes below a node that has no endless descent. -/

universe u

variable {α : Type u} {below : α → α → Prop} {x : α}

/-- Every descent from the node has fewer nodes than the number. -/
def Shallow (below : α → α → Prop) : ℕ → α → Prop
  | 0, _ => False
  | n + 1, x => ∀ y, below y x → Shallow below n y

theorem not_rel_self_of_acc (h : Acc below x) : ¬ below x x := by
  induction h with
  | intro x _ ih => exact fun hself => ih x hself hself

/-- A descent meets no node twice, so it is no deeper than there are nodes. -/
theorem shallow_card [DecidableEq α] (h : Acc below x) : ∀ {nodes : Finset α},
    (∀ y, ReflTransGen below y x → y ∈ nodes) → Shallow below nodes.card x := by
  induction h with
  | intro x hacc ih =>
      intro nodes hnodes
      have hx : x ∈ nodes := hnodes x .refl
      rw [← Finset.card_erase_add_one hx]
      intro y hy
      apply ih y hy
      intro z hz
      refine Finset.mem_erase.mpr ⟨?_, hnodes z (hz.tail hy)⟩
      rintro rfl
      have hcycle : TransGen below z z := TransGen.tail' hz hy
      exact not_rel_self_of_acc (Acc.intro z hacc).transGen hcycle

theorem Shallow.mono {m n : ℕ} (h : Shallow below m x) (hle : m ≤ n) : Shallow below n x := by
  induction m generalizing n x with
  | zero => exact h.elim
  | succ m ih =>
      obtain ⟨n, rfl⟩ : ∃ k, n = k + 1 := ⟨n - 1, by omega⟩
      exact fun y hy => ih (h y hy) (by omega)

end Tessra.Data
