import Mathlib

namespace Tessra.Data

universe u

/-! Sparse tables of `n` slots kept as a bitmap and the occupied entries in
slot order.  The bitmap answers where in the entries a slot stands. -/

variable {n : ℕ} {α : Type u}

/-- The occupied entries of a table, in slot order. -/
def pack (f : Fin n → Option α) : List α :=
  (List.finRange n).filterMap f

/-- The slots of a table before one slot, and those after it. -/
def slotsBefore (i : Fin n) : List (Fin n) := (List.finRange n).take i

def slotsAfter (i : Fin n) : List (Fin n) := (List.finRange n).drop (i + 1)

theorem finRange_split (i : Fin n) :
    List.finRange n = slotsBefore i ++ i :: slotsAfter i := by
  have hlt : i.val < (List.finRange n).length := by simp
  have hget : (List.finRange n)[i.val] = i := by simp
  calc
    List.finRange n = (List.finRange n).take i ++ (List.finRange n).drop i :=
      (List.take_append_drop i _).symm
    _ = slotsBefore i ++ i :: slotsAfter i := by
      rw [List.drop_eq_getElem_cons hlt, hget]
      rfl

theorem lt_of_mem_slotsBefore {i j : Fin n} (h : j ∈ slotsBefore i) : j < i := by
  obtain ⟨k, hk, rfl⟩ := List.mem_iff_getElem.mp h
  simp only [slotsBefore, List.length_take, List.length_finRange] at hk
  simp only [slotsBefore, List.getElem_take, List.getElem_finRange, Fin.lt_def,
    Fin.val_cast]
  omega

theorem lt_of_mem_slotsAfter {i j : Fin n} (h : j ∈ slotsAfter i) : i < j := by
  obtain ⟨k, hk, rfl⟩ := List.mem_iff_getElem.mp h
  simp only [slotsAfter, List.getElem_drop, List.getElem_finRange, Fin.lt_def,
    Fin.val_cast]
  omega

theorem mem_slotsBefore {i j : Fin n} : j ∈ slotsBefore i ↔ j < i := by
  refine ⟨lt_of_mem_slotsBefore, fun hlt => ?_⟩
  have hall := List.mem_finRange j
  rw [finRange_split i] at hall
  rcases List.mem_append.mp hall with h | h
  · exact h
  · rcases List.mem_cons.mp h with rfl | h
    · exact absurd hlt (lt_irrefl _)
    · exact absurd (lt_of_mem_slotsAfter h) hlt.asymm

theorem mem_slotsAfter {i j : Fin n} : j ∈ slotsAfter i ↔ i < j := by
  refine ⟨lt_of_mem_slotsAfter, fun hlt => ?_⟩
  have hall := List.mem_finRange j
  rw [finRange_split i] at hall
  rcases List.mem_append.mp hall with h | h
  · exact absurd (lt_of_mem_slotsBefore h) hlt.asymm
  · rcases List.mem_cons.mp h with rfl | h
    · exact absurd hlt (lt_irrefl _)
    · exact h

/-- How many slots before `i` are occupied. -/
def rank (f : Fin n → Option α) (i : Fin n) : ℕ :=
  ((slotsBefore i).filterMap f).length

theorem rank_eq_countP (f : Fin n → Option α) (i : Fin n) :
    rank f i = (List.finRange n).countP (fun j => (f j).isSome && decide (j < i)) := by
  have hbefore : (slotsBefore i).countP (fun j => (f j).isSome && decide (j < i)) =
      (slotsBefore i).countP (fun j => (f j).isSome) :=
    List.countP_congr fun j hj => by simp [lt_of_mem_slotsBefore hj]
  have hafter : (i :: slotsAfter i).countP
      (fun j => (f j).isSome && decide (j < i)) = 0 := by
    rw [List.countP_eq_zero]
    intro j hj
    rcases List.mem_cons.mp hj with rfl | hj
    · simp
    · simp [(lt_of_mem_slotsAfter hj).le]
  rw [finRange_split i, List.countP_append, hafter, Nat.add_zero, hbefore, rank,
    List.length_filterMap_eq_countP]

theorem pack_split (f : Fin n → Option α) (i : Fin n) :
    pack f = (slotsBefore i).filterMap f ++
      ((f i).toList ++ (slotsAfter i).filterMap f) := by
  rw [pack, finRange_split i, List.filterMap_append]
  cases h : f i <;> simp [h]

theorem filterMap_update_of_notMem (f : Fin n → Option α) {i : Fin n}
    {l : List (Fin n)} (h : i ∉ l) (x : Option α) :
    l.filterMap (Function.update f i x) = l.filterMap f :=
  List.filterMap_congr fun j hj =>
    Function.update_of_ne (fun heq : j = i => h (heq ▸ hj)) x f

theorem pack_update (f : Fin n → Option α) (i : Fin n) (x : Option α) :
    pack (Function.update f i x) = (slotsBefore i).filterMap f ++
      (x.toList ++ (slotsAfter i).filterMap f) := by
  rw [pack_split _ i, Function.update_self,
    filterMap_update_of_notMem f (fun h => (lt_of_mem_slotsBefore h).false),
    filterMap_update_of_notMem f (fun h => (lt_of_mem_slotsAfter h).false)]

theorem pack_get {f : Fin n → Option α} {i : Fin n} {x : α} (h : f i = some x) :
    (pack f)[rank f i]? = some x := by
  rw [pack_split f i, h, rank, List.getElem?_append_right (le_refl _)]
  simp

theorem pack_set {f : Fin n → Option α} {i : Fin n} {x : α} (h : f i = some x) (y : α) :
    (pack f).set (rank f i) y = pack (Function.update f i (some y)) := by
  rw [pack_update, pack_split f i, h, rank, List.set_append_right _ _ (le_refl _)]
  simp

theorem pack_eraseIdx {f : Fin n → Option α} {i : Fin n} {x : α} (h : f i = some x) :
    (pack f).eraseIdx (rank f i) = pack (Function.update f i none) := by
  rw [pack_update, pack_split f i, h, rank, List.eraseIdx_append_of_length_le (le_refl _)]
  simp

private theorem insertIdx_append (before after : List α) (y : α) :
    (before ++ after).insertIdx before.length y = before ++ y :: after := by
  induction before with
  | nil => rfl
  | cons first rest ih => exact congrArg (List.cons first) ih

theorem pack_insertIdx {f : Fin n → Option α} {i : Fin n} (h : f i = none) (y : α) :
    (pack f).insertIdx (rank f i) y = pack (Function.update f i (some y)) := by
  rw [pack_update, pack_split f i, h, rank]
  exact insertIdx_append _ _ y

theorem rank_update_self (f : Fin n → Option α) (i : Fin n) (x : Option α) :
    rank (Function.update f i x) i = rank f i := by
  rw [rank, filterMap_update_of_notMem f (fun h => (lt_of_mem_slotsBefore h).false), rank]

theorem mem_pack {f : Fin n → Option α} {x : α} : x ∈ pack f ↔ ∃ i, f i = some x := by
  simp [pack]

/-- No slot is occupied exactly when nothing is packed. -/
theorem pack_eq_nil {f : Fin n → Option α} : pack f = [] ↔ ∀ i, f i = none := by
  simp [pack, List.filterMap_eq_nil_iff]

theorem pack_eq_singleton {f : Fin n → Option α} {x : α} :
    pack f = [x] ↔ ∃ i, f i = some x ∧ ∀ j, j ≠ i → f j = none := by
  constructor
  · intro h
    obtain ⟨i, hi⟩ := mem_pack.mp (h ▸ List.mem_singleton_self x : x ∈ pack f)
    refine ⟨i, hi, fun j hj => ?_⟩
    rw [pack_split f i, hi] at h
    have hlen := congrArg List.length h
    simp only [Option.toList_some, List.length_append, List.length_singleton] at hlen
    rcases lt_or_gt_of_ne hj with hlt | hgt
    · have hbefore : (slotsBefore i).filterMap f = [] :=
        List.length_eq_zero_iff.mp (by omega)
      exact List.filterMap_eq_nil_iff.mp hbefore j (mem_slotsBefore.mpr hlt)
    · have hafter : (slotsAfter i).filterMap f = [] :=
        List.length_eq_zero_iff.mp (by omega)
      exact List.filterMap_eq_nil_iff.mp hafter j (mem_slotsAfter.mpr hgt)
  · rintro ⟨i, hi, hother⟩
    have hnone : ∀ l : List (Fin n), i ∉ l → l.filterMap f = [] := fun l hl =>
      List.filterMap_eq_nil_iff.mpr fun j hj => hother j fun heq => hl (heq ▸ hj)
    rw [pack_split f i, hi, hnone _ (fun h => (lt_of_mem_slotsBefore h).false),
      hnone _ (fun h => (lt_of_mem_slotsAfter h).false)]
    rfl

theorem pack_injective_of_occupied {f g : Fin n → Option α}
    (hocc : ∀ i, (f i).isSome = (g i).isSome) (h : pack f = pack g) : f = g := by
  have hrank : ∀ i, rank f i = rank g i := fun i => by
    rw [rank_eq_countP, rank_eq_countP]
    simp only [hocc]
  funext i
  cases hf : f i with
  | none =>
      have hg := hocc i
      rw [hf] at hg
      exact (Option.isNone_iff_eq_none.mp (by simpa using hg.symm)).symm
  | some x =>
      have hg := hocc i
      rw [hf] at hg
      obtain ⟨y, hy⟩ := Option.isSome_iff_exists.mp hg.symm
      have hx := pack_get hf
      rw [h, hrank, pack_get hy] at hx
      rw [hy]
      exact hx.symm

end Tessra.Data
