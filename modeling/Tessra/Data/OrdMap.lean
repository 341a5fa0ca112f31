import Mathlib

namespace Tessra.Data

universe u v w

/-! Ordered collections: the members of a list in strictly ascending order,
and finite maps kept as association lists with strictly ascending keys. -/

section Sorted

variable {α : Type u} [LinearOrder α]

def sortedDedup (l : List α) : List α :=
  l.dedup.insertionSort (· ≤ ·)

@[simp] theorem mem_sortedDedup {l : List α} {x : α} :
    x ∈ sortedDedup l ↔ x ∈ l := by
  simp [sortedDedup]

theorem sortedDedup_pairwise (l : List α) :
    (sortedDedup l).Pairwise (· < ·) := by
  have hle : (sortedDedup l).Pairwise (· ≤ ·) :=
    List.pairwise_insertionSort (· ≤ ·) l.dedup
  have hne : (sortedDedup l).Nodup :=
    (List.perm_insertionSort (· ≤ ·) l.dedup).nodup_iff.mpr l.nodup_dedup
  exact (hle.and hne).imp fun h => lt_of_le_of_ne h.1 h.2

theorem sortedDedup_eq_self {l : List α} (hl : l.Pairwise (· < ·)) :
    sortedDedup l = l :=
  (sortedDedup_pairwise l).eq_of_mem_iff hl fun _ => mem_sortedDedup

theorem sortedDedup_congr {l l' : List α} (h : ∀ x, x ∈ l ↔ x ∈ l') :
    sortedDedup l = sortedDedup l' :=
  (sortedDedup_pairwise l).eq_of_mem_iff (sortedDedup_pairwise l') (by simpa using h)

@[simp] theorem sortedDedup_nil : sortedDedup ([] : List α) = [] := rfl

@[simp] theorem sortedDedup_singleton (x : α) : sortedDedup [x] = [x] :=
  sortedDedup_eq_self (List.pairwise_singleton _ _)

end Sorted

/-- A finite map as its entries in strictly ascending key order. -/
structure OrdMap (κ : Type u) (α : Type v) [LinearOrder κ] where
  entries : List ((_ : κ) × α)
  ordered : entries.Pairwise (fun x y => x.1 < y.1)

namespace OrdMap

variable {κ : Type u} {α : Type v} {β : Type w} [LinearOrder κ]

instance [DecidableEq α] : DecidableEq (OrdMap κ α) := fun m m' =>
  decidable_of_iff (m.entries = m'.entries)
    ⟨fun h => by cases m; cases m'; cases h; rfl, fun h => h ▸ rfl⟩

instance : EmptyCollection (OrdMap κ α) := ⟨⟨[], List.Pairwise.nil⟩⟩

instance : Inhabited (OrdMap κ α) := ⟨∅⟩

def get? (m : OrdMap κ α) (k : κ) : Option α := m.entries.dlookup k

def keys (m : OrdMap κ α) : List κ := m.entries.map Sigma.fst

def values (m : OrdMap κ α) : List α := m.entries.map Sigma.snd

def insertEntry (k : κ) (x : α) :
    List ((_ : κ) × α) → List ((_ : κ) × α)
  | [] => [⟨k, x⟩]
  | e :: rest =>
      if k < e.1 then ⟨k, x⟩ :: e :: rest
      else if k = e.1 then ⟨k, x⟩ :: rest
      else e :: insertEntry k x rest

theorem mem_insertEntry {k : κ} {x : α} {e : (_ : κ) × α}
    {l : List ((_ : κ) × α)} (h : e ∈ insertEntry k x l) :
    e = ⟨k, x⟩ ∨ e ∈ l := by
  induction l with
  | nil => simpa [insertEntry] using h
  | cons first rest ih =>
      rw [insertEntry] at h
      split_ifs at h with hlt heq
      · simpa using h
      · rcases List.mem_cons.mp h with rfl | hrest
        · exact .inl rfl
        · exact .inr (List.mem_cons_of_mem _ hrest)
      · rcases List.mem_cons.mp h with rfl | hrest
        · exact .inr List.mem_cons_self
        · exact (ih hrest).imp_right (List.mem_cons_of_mem _)

theorem insertEntry_ordered {k : κ} {x : α} {l : List ((_ : κ) × α)}
    (h : l.Pairwise fun x y => x.1 < y.1) :
    (insertEntry k x l).Pairwise fun x y => x.1 < y.1 := by
  induction l with
  | nil => simp [insertEntry]
  | cons first rest ih =>
      obtain ⟨hfirst, hrest⟩ := List.pairwise_cons.mp h
      rw [insertEntry]
      split_ifs with hlt heq
      · refine List.pairwise_cons.mpr ⟨fun e he => ?_, h⟩
        rcases List.mem_cons.mp he with rfl | he
        · exact hlt
        · exact hlt.trans (hfirst e he)
      · subst heq
        exact List.pairwise_cons.mpr ⟨hfirst, hrest⟩
      · refine List.pairwise_cons.mpr ⟨fun e he => ?_, ih hrest⟩
        rcases mem_insertEntry he with rfl | he
        · exact lt_of_le_of_ne (not_lt.mp hlt) (Ne.symm heq)
        · exact hfirst e he

def insert (m : OrdMap κ α) (k : κ) (x : α) : OrdMap κ α :=
  ⟨insertEntry k x m.entries, insertEntry_ordered m.ordered⟩

def erase (m : OrdMap κ α) (k : κ) : OrdMap κ α :=
  ⟨m.entries.filter (fun e => e.1 ≠ k), m.ordered.filter _⟩

theorem nodupKeys (m : OrdMap κ α) : m.entries.NodupKeys :=
  List.nodupKeys_iff_pairwise.mpr (m.ordered.imp fun h => h.ne)

theorem ext {m m' : OrdMap κ α} (h : ∀ k, m.get? k = m'.get? k) : m = m' := by
  have hperm : m.entries.Perm m'.entries :=
    List.lookup_ext m.nodupKeys m'.nodupKeys fun k x => by
      have hk := h k
      unfold get? at hk
      rw [hk]
  have hentries : m.entries = m'.entries :=
    hperm.eq_of_pairwise
      (fun x y _ _ hxy hyx => absurd hyx (not_lt.mpr hxy.le)) m.ordered m'.ordered
  cases m; cases m'; cases hentries; rfl

@[simp] theorem get?_empty (k : κ) : (∅ : OrdMap κ α).get? k = none := rfl

theorem dlookup_insertEntry_self (k : κ) (x : α) (l : List ((_ : κ) × α)) :
    (insertEntry k x l).dlookup k = some x := by
  induction l with
  | nil => simp [insertEntry]
  | cons first rest ih =>
      rw [insertEntry]
      split_ifs with hlt heq
      · simp
      · simp
      · rw [List.dlookup_cons_ne _ _ heq, ih]

theorem dlookup_insertEntry_ne {k k' : κ} (h : k' ≠ k) (x : α)
    (l : List ((_ : κ) × α)) :
    (insertEntry k x l).dlookup k' = l.dlookup k' := by
  induction l with
  | nil => simp [insertEntry, List.dlookup, h.symm]
  | cons first rest ih =>
      rw [insertEntry]
      split_ifs with hlt heq
      · rw [List.dlookup_cons_ne _ _ h]
      · rw [List.dlookup_cons_ne _ _ h, List.dlookup_cons_ne _ first (heq ▸ h)]
      · by_cases hk : k' = first.1
        · obtain ⟨k'', x''⟩ := first
          subst hk
          rw [List.dlookup_cons_eq, List.dlookup_cons_eq]
        · rw [List.dlookup_cons_ne _ _ hk, List.dlookup_cons_ne _ _ hk, ih]

@[simp] theorem get?_insert (m : OrdMap κ α) (k k' : κ) (x : α) :
    (m.insert k x).get? k' = if k = k' then some x else m.get? k' := by
  by_cases h : k = k'
  · subst h
    rw [if_pos rfl]
    exact dlookup_insertEntry_self k x m.entries
  · rw [if_neg h]
    exact dlookup_insertEntry_ne (Ne.symm h) x m.entries

theorem mem_keys {m : OrdMap κ α} {k : κ} : k ∈ m.keys ↔ ∃ x, m.get? k = some x := by
  rw [show (∃ x, m.get? k = some x) ↔ (m.entries.dlookup k).isSome by
    simp [get?, Option.isSome_iff_exists]]
  exact (List.dlookup_isSome (l := m.entries)).symm

theorem get?_eq_none {m : OrdMap κ α} {k : κ} : m.get? k = none ↔ k ∉ m.keys := by
  rw [mem_keys, not_exists]
  cases m.get? k <;> simp

theorem mem_entries {m : OrdMap κ α} {k : κ} {x : α} :
    (⟨k, x⟩ : (_ : κ) × α) ∈ m.entries ↔ m.get? k = some x :=
  (List.mem_dlookup_iff m.nodupKeys).symm

theorem mem_values {m : OrdMap κ α} {x : α} : x ∈ m.values ↔ ∃ k, m.get? k = some x := by
  simp only [values, List.mem_map]
  constructor
  · rintro ⟨⟨k, x'⟩, hmem, rfl⟩
    exact ⟨k, mem_entries.mp hmem⟩
  · rintro ⟨k, hk⟩
    exact ⟨⟨k, x⟩, mem_entries.mpr hk, rfl⟩

/-- An insertion puts one entry for those of its key. -/
theorem perm_insert (m : OrdMap κ α) (k : κ) (x : α) :
    (m.insert k x).entries.Perm (⟨k, x⟩ :: m.entries.filter (·.1 ≠ k)) := by
  refine (List.perm_ext_iff_of_nodup (m.insert k x).nodupKeys.nodup
    (List.nodup_cons.mpr ⟨by simp, m.nodupKeys.nodup.filter _⟩)).mpr ?_
  rintro ⟨k', x'⟩
  rw [mem_entries, get?_insert, List.mem_cons, List.mem_filter, mem_entries]
  by_cases h : k = k'
  · subst h
    simp [eq_comm]
  · simp [h, Ne.symm h]

def tabulate (f : κ → Option α) : List κ → OrdMap κ α
  | [] => ∅
  | k :: rest =>
      match f k with
      | some x => (tabulate f rest).insert k x
      | none => tabulate f rest

theorem get?_tabulate (f : κ → Option α) (l : List κ) (k : κ) :
    (tabulate f l).get? k = if k ∈ l then f k else none := by
  induction l with
  | nil => simp [tabulate]
  | cons first rest ih =>
      cases hfirst : f first with
      | none =>
          simp only [tabulate, hfirst, ih]
          by_cases hk : k = first
          · subst hk; simp [hfirst]
          · simp [hk]
      | some x =>
          simp only [tabulate, hfirst, get?_insert, ih]
          by_cases hk : first = k
          · subst hk; simp [hfirst]
          · simp [hk, Ne.symm hk]

/-- The entries of a list inserted one after the other. -/
def insertAll (m : OrdMap κ α) (l : List (κ × α)) : OrdMap κ α :=
  l.foldl (fun m e => m.insert e.1 e.2) m

theorem insertAll_append (m : OrdMap κ α) (l l' : List (κ × α)) :
    m.insertAll (l ++ l') = (m.insertAll l).insertAll l' := List.foldl_append

theorem get?_insertAll_of_notMem {m : OrdMap κ α} {l : List (κ × α)} {k : κ}
    (h : k ∉ l.map Prod.fst) : (m.insertAll l).get? k = m.get? k := by
  induction l generalizing m with
  | nil => rfl
  | cons e l ih =>
      rw [List.map_cons, List.mem_cons, not_or] at h
      rw [insertAll, List.foldl_cons, ← insertAll, ih h.2, get?_insert, if_neg (Ne.symm h.1)]

theorem get?_insertAll_of_mem {m : OrdMap κ α} {l : List (κ × α)} {k : κ} {x : α}
    (hnodup : (l.map Prod.fst).Nodup) (h : (k, x) ∈ l) : (m.insertAll l).get? k = some x := by
  induction l generalizing m with
  | nil => cases h
  | cons e l ih =>
      rw [List.map_cons, List.nodup_cons] at hnodup
      rw [insertAll, List.foldl_cons, ← insertAll]
      rcases List.mem_cons.mp h with rfl | h
      · rw [get?_insertAll_of_notMem hnodup.1, get?_insert, if_pos rfl]
      · exact ih hnodup.2 h

/-- What is in a list under keys of its own is in the map of the list. -/
theorem get?_insertAll_empty {l : List (κ × α)} (hnodup : (l.map Prod.fst).Nodup) {k : κ} {x : α} :
    ((∅ : OrdMap κ α).insertAll l).get? k = some x ↔ (k, x) ∈ l := by
  refine ⟨fun h => ?_, get?_insertAll_of_mem hnodup⟩
  by_cases hk : k ∈ l.map Prod.fst
  · obtain ⟨e, he, rfl⟩ := List.mem_map.mp hk
    rw [get?_insertAll_of_mem hnodup he] at h
    cases h
    exact he
  · rw [get?_insertAll_of_notMem hk] at h
    cases h

end OrdMap

end Tessra.Data
