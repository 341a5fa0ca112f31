import Mathlib

namespace Tessra.Data.Forest

/-! Trees kept as the parent of each of the first so many numbers, a root being its own. -/

/-- The root that following parents comes to. -/
inductive Leads (p : ℕ → ℕ) : ℕ → ℕ → Prop
  | root {i : ℕ} (h : p i = i) : Leads p i i
  | step {i r : ℕ} (hne : p i ≠ i) (h : Leads p (p i) r) : Leads p i r

/-- Parents within the first `n` numbers, of a higher rank than their children. -/
structure Ranked (n : ℕ) (rank p : ℕ → ℕ) : Prop where
  inside : ∀ i < n, p i < n
  higher : ∀ i, p i ≠ i → rank i < rank (p i)

/-- The root of a tree, looked for in so many steps. -/
def root : ℕ → (ℕ → ℕ) → ℕ → ℕ
  | 0, _, r => r
  | fuel + 1, p, r => if p r = r then r else root fuel p (p r)

/-- Every node on the way to the root made its child. -/
def compress : ℕ → (ℕ → ℕ) → ℕ → ℕ → ℕ → ℕ
  | 0, p, _, _ => p
  | fuel + 1, p, r, c =>
      if p c = r then p else compress fuel (Function.update p c r) r (p c)

variable {p rank : ℕ → ℕ} {n fuel i j r s a b c : ℕ}

section Leads

theorem Leads.fixed (h : Leads p i r) : p r = r := by
  induction h with
  | root h => exact h
  | step _ _ ih => exact ih

theorem Leads.unique (h : Leads p i r) (h' : Leads p i s) : r = s := by
  induction h with
  | root h =>
      cases h' with
      | root => rfl
      | step hne => exact absurd h hne
  | step hne _ ih =>
      cases h' with
      | root h => exact absurd h hne
      | step _ h => exact ih h

theorem Leads.inside (h : Leads p i r) (hp : Ranked n rank p) (hi : i < n) : r < n := by
  induction h with
  | root => exact hi
  | step _ _ ih => exact ih (hp.inside _ hi)

theorem Leads.rank_le (h : Leads p i r) (hp : Ranked n rank p) : rank i ≤ rank r := by
  induction h with
  | root => exact le_refl _
  | step hne _ ih => exact (hp.higher _ hne).le.trans ih

theorem Leads.rank_lt (h : Leads p i r) (hp : Ranked n rank p) (hne : i ≠ r) :
    rank i < rank r := by
  cases h with
  | root => exact absurd rfl hne
  | step hi h => exact (hp.higher _ hi).trans_le (h.rank_le hp)

end Leads

section Walking

/-- The numbers of a higher rank. -/
def above (n : ℕ) (rank : ℕ → ℕ) (i : ℕ) : Finset ℕ :=
  (Finset.range n).filter fun j => rank i < rank j

theorem mem_above : j ∈ above n rank i ↔ j < n ∧ rank i < rank j := by
  rw [above, Finset.mem_filter, Finset.mem_range]

theorem Ranked.above_lt (hp : Ranked n rank p) (hi : i < n) (hne : p i ≠ i) :
    (above n rank (p i)).card < (above n rank i).card := by
  have hlt := hp.higher i hne
  refine Finset.card_lt_card (Finset.ssubset_iff_subset_ne.mpr ⟨fun j hj => ?_, fun heq => ?_⟩)
  · obtain ⟨hj, hrank⟩ := mem_above.mp hj
    exact mem_above.mpr ⟨hj, hlt.trans hrank⟩
  · have hmem : p i ∈ above n rank i := mem_above.mpr ⟨hp.inside i hi, hlt⟩
    rw [← heq] at hmem
    exact absurd (mem_above.mp hmem).2 (lt_irrefl _)

theorem card_above_le (n : ℕ) (rank : ℕ → ℕ) (i : ℕ) : (above n rank i).card ≤ n :=
  (Finset.card_filter_le _ _).trans (Finset.card_range n).le

theorem Ranked.leads_root (hp : Ranked n rank p) (hi : i < n)
    (hfuel : (above n rank i).card ≤ fuel) : Leads p i (root fuel p i) := by
  induction fuel generalizing i with
  | zero =>
      refine .root ?_
      by_contra hne
      have hlt := hp.above_lt hi hne
      omega
  | succ fuel ih =>
      rw [root]
      split_ifs with hroot
      · exact .root hroot
      · have hlt := hp.above_lt hi hroot
        exact .step hroot (ih (hp.inside i hi) (by omega))

end Walking

section Compressing

theorem Ranked.shorten (hp : Ranked n rank p) (h : Leads p c r) (hc : c < n) (hne : c ≠ r) :
    Ranked n rank (Function.update p c r) := by
  constructor
  · intro i hi
    by_cases hic : i = c
    · subst hic
      rw [Function.update_self]
      exact h.inside hp hi
    · rw [Function.update_of_ne hic]
      exact hp.inside i hi
  · intro i hi
    by_cases hic : i = c
    · subst hic
      rw [Function.update_self]
      exact h.rank_lt hp hne
    · rw [Function.update_of_ne hic] at hi ⊢
      exact hp.higher i hi

theorem Leads.shorten (hi : Leads p i s) (h : Leads p c r) (hne : c ≠ r) :
    Leads (Function.update p c r) i s := by
  have hroot : Function.update p c r r = r := by
    rw [Function.update_of_ne (Ne.symm hne), h.fixed]
  have hcr : Leads (Function.update p c r) c r :=
    .step (by rw [Function.update_self]; exact Ne.symm hne)
      (by rw [Function.update_self]; exact .root hroot)
  induction hi with
  | @root i hi =>
      have hic : i ≠ c := by
        rintro rfl
        exact hne ((Leads.root hi).unique h)
      exact .root (by rw [Function.update_of_ne hic, hi])
  | @step i s hstep hi ih =>
      by_cases hic : i = c
      · subst hic
        rw [(Leads.step hstep hi).unique h]
        exact hcr
      · exact .step (by rwa [Function.update_of_ne hic]) (by rwa [Function.update_of_ne hic])

theorem Leads.ne_of_ne (h : Leads p c r) (hne : p c ≠ r) : c ≠ r := by
  rintro rfl
  exact hne h.fixed

/-- The way on from a node is the same when the node is made the root's child. -/
theorem Leads.next (h : Leads p c r) (hne : p c ≠ r) : Leads p (p c) r := by
  cases h with
  | root h => exact absurd h hne
  | step _ h => exact h

theorem Ranked.compress (hp : Ranked n rank p) (h : Leads p c r) (hc : c < n) (fuel : ℕ) :
    Ranked n rank (compress fuel p r c) ∧
      ∀ i s, Leads p i s → Leads (Forest.compress fuel p r c) i s := by
  induction fuel generalizing p c with
  | zero => exact ⟨hp, fun _ _ hi => hi⟩
  | succ fuel ih =>
      rw [Forest.compress]
      split_ifs with hpc
      · exact ⟨hp, fun _ _ hi => hi⟩
      · have hne := h.ne_of_ne hpc
        obtain ⟨hranked, hleads⟩ := ih (hp.shorten h hc hne) ((h.next hpc).shorten h hne)
          (hp.inside c hc)
        exact ⟨hranked, fun i s hi => hleads i s (hi.shorten h hne)⟩

theorem compress_succ (fuel : ℕ) (p : ℕ → ℕ) (r c : ℕ) : compress (fuel + 1) p r c =
    if p c = r then p else compress fuel (Function.update p c r) r (p c) := rfl

/-- As many steps as there are numbers are enough. -/
theorem Ranked.compress_done (hp : Ranked n rank p) (h : Leads p c r) (hc : c < n)
    (hfuel : (above n rank c).card ≤ fuel) :
    Forest.compress (fuel + 1) p r c = Forest.compress fuel p r c := by
  induction fuel generalizing p c with
  | zero =>
      have hpc : p c = c := by
        by_contra hne
        have hlt := hp.above_lt hc hne
        omega
      rw [compress_succ, if_pos (hpc.trans ((Leads.root hpc).unique h))]
      rfl
  | succ fuel ih =>
      rw [compress_succ (fuel + 1), compress_succ fuel p]
      split_ifs with hpc
      · rfl
      · have hne := h.ne_of_ne hpc
        have hlt := hp.above_lt hc (fun heq => hne ((Leads.root heq).unique h))
        exact ih (hp.shorten h hc hne) ((h.next hpc).shorten h hne) (hp.inside c hc) (by omega)

end Compressing

section Linking

theorem Ranked.link (hp : Ranked n rank p) (ha : p a = a) (hb : p b = b) (hb' : b < n)
    (hne : a ≠ b) : ∃ rank, Ranked n rank (Function.update p a b) := by
  refine ⟨Function.update rank b (max (rank b) (rank a + 1)), fun i hi => ?_, fun i hi => ?_⟩
  · by_cases hia : i = a
    · rwa [hia, Function.update_self]
    · rw [Function.update_of_ne hia]
      exact hp.inside i hi
  · by_cases hia : i = a
    · subst hia
      rw [Function.update_self, Function.update_self, Function.update_of_ne hne]
      omega
    · rw [Function.update_of_ne hia] at hi ⊢
      have hib : i ≠ b := fun heq => hi (heq ▸ hb)
      have hlt := hp.higher i hi
      rw [Function.update_of_ne hib]
      by_cases hpi : p i = b
      · rw [hpi, Function.update_self]
        rw [hpi] at hlt
        omega
      · rwa [Function.update_of_ne hpi]

theorem Leads.link (h : Leads p i s) (ha : p a = a) (hb : p b = b) (hne : a ≠ b) :
    Leads (Function.update p a b) i (if s = a then b else s) := by
  induction h with
  | @root i hi =>
      split_ifs with hia
      · subst hia
        refine .step (by rw [Function.update_self]; exact Ne.symm hne) ?_
        rw [Function.update_self]
        exact .root (by rw [Function.update_of_ne (Ne.symm hne), hb])
      · exact .root (by rw [Function.update_of_ne hia, hi])
  | @step i s hstep _ ih =>
      have hia : i ≠ a := fun heq => hstep (heq ▸ ha)
      exact .step (by rwa [Function.update_of_ne hia]) (by rwa [Function.update_of_ne hia])

end Linking

end Tessra.Data.Forest
