import Mathlib

namespace Tessra.Data

open Relation

/-! Histories of nodes with several parents each, whose values are merged three
ways over a base chosen at each step.  A write that saw every other write shows
wherever the bases saw enough. -/

universe u v

/-- A merge in which a side that did not change gives way. -/
structure ThreeWay {α : Type u} (merge : α → α → α → α) : Prop where
  left : ∀ base a, merge base a base = a
  right : ∀ base b, merge base base b = b
  same : ∀ base a, merge base a a = a

section Fold

variable {ι : Type u} {α : Type v} (base : List ι → ι → Option ι)
  (merge : α → α → α → α) (val : Option ι → α)

/-- Go on merging the rest, after the nodes already folded. -/
def foldFrom (folded : List ι) (acc : α) : List ι → α
  | [] => acc
  | n :: rest => foldFrom (folded ++ [n]) (merge (val (base folded n)) acc (val (some n))) rest

/-- Merge the values of nodes one after the other. -/
def mergeAll : List ι → α
  | [] => val none
  | x :: rest => foldFrom base merge val [x] (val (some x)) rest

variable {base merge val} {base' : List ι → ι → Option ι} {val' : Option ι → α}

theorem foldFrom_congr {P : Set ι} {rest : List ι} :
    ∀ {folded : List ι} {acc : α}, folded ≠ [] → (∀ f ∈ folded ++ rest, f ∈ P) →
      (∀ F n, F ≠ [] → (∀ f ∈ F, f ∈ P) → n ∈ P →
        base F n = base' F n ∧ ∀ b ∈ base F n, b ∈ P) →
      (val none = val' none ∧ ∀ x ∈ P, val (some x) = val' (some x)) →
      foldFrom base merge val folded acc rest = foldFrom base' merge val' folded acc rest := by
  induction rest with
  | nil =>
      intro folded acc _ _ _ _
      rfl
  | cons n rest ih =>
      intro folded acc hne hlive hbase hval
      have hn : n ∈ P := hlive n (by simp)
      have hstep := hbase folded n hne (fun f hf => hlive f (List.mem_append_left _ hf)) hn
      have hvalue : val (base folded n) = val' (base' folded n) := by
        rw [← hstep.1]
        cases hb : base folded n with
        | none => exact hval.1
        | some b => exact hval.2 b (hstep.2 b hb)
      rw [List.append_cons] at hlive
      rw [foldFrom, foldFrom, hvalue, hval.2 n hn]
      exact ih (by simp) hlive hbase hval

theorem mergeAll_congr {P : Set ι} {l : List ι} (hlive : ∀ x ∈ l, x ∈ P)
    (hbase : ∀ F n, F ≠ [] → (∀ f ∈ F, f ∈ P) → n ∈ P →
      base F n = base' F n ∧ ∀ b ∈ base F n, b ∈ P)
    (hval : val none = val' none ∧ ∀ x ∈ P, val (some x) = val' (some x)) :
    mergeAll base merge val l = mergeAll base' merge val' l := by
  cases l with
  | nil => exact hval.1
  | cons x rest =>
      rw [mergeAll, mergeAll, hval.2 x (hlive x List.mem_cons_self)]
      exact foldFrom_congr (by simp) hlive hbase hval

end Fold

/-- Nodes with their parents, and the base for a node that follows others. -/
structure History (ι : Type u) where
  live : Set ι
  parents : ι → List ι
  base : List ι → ι → Option ι
  rank : ι → ℕ
  live_parents : ∀ {x p}, x ∈ live → p ∈ parents x → p ∈ live
  rank_lt : ∀ {x p}, x ∈ live → p ∈ parents x → rank p < rank x
  base_below : ∀ {F n b}, F ≠ [] → (∀ f ∈ F, f ∈ live) → n ∈ live → base F n = some b →
    ∀ x ∈ n :: F, ReflTransGen (fun p x => p ∈ parents x) b x

namespace History

variable {ι : Type u} {α : Type v} (H : History ι)

/-- An ancestor, or the node itself. -/
def Below (x y : ι) : Prop := ReflTransGen (fun p x => p ∈ H.parents x) x y

/-- What a base lies below: no base lies below everything. -/
def BaseBelow (b : Option ι) (x : ι) : Prop := ∀ i ∈ b, H.Below i x

def BelowAny (t : ι) (F : List ι) : Prop := ∃ f ∈ F, H.Below t f

section Based

variable (touched : ι → Prop)

/-- What was touched below both a folded node and the next one was touched
below the base they are merged over. -/
def BasedStep (folded : List ι) (n : ι) : Prop :=
  ∀ t, touched t → H.BelowAny t folded → H.Below t n → ∃ b ∈ H.base folded n, H.Below t b

def BasedFrom (folded : List ι) : List ι → Prop
  | [] => True
  | n :: rest => H.BasedStep touched folded n ∧ BasedFrom (folded ++ [n]) rest

/-- Every step of the fold of a list is based. -/
def Based : List ι → Prop
  | [] => True
  | x :: rest => H.BasedFrom touched [x] rest

/-- Everything touched below `F` lies below `b`. -/
def Covers (b : Option ι) (F : List ι) : Prop :=
  ∀ t, touched t → H.BelowAny t F → ∃ i ∈ b, H.Below t i

end Based

variable {H} {touched : ι → Prop} {merge : α → α → α → α} {val : Option ι → α}

theorem Below.rank_le {x y : ι} (h : H.Below x y) (hy : y ∈ H.live) :
    x ∈ H.live ∧ H.rank x ≤ H.rank y := by
  induction h using ReflTransGen.head_induction_on with
  | refl => exact ⟨hy, le_rfl⟩
  | head hstep _ ih =>
      obtain ⟨hlive, hle⟩ := ih
      exact ⟨H.live_parents hlive hstep, (H.rank_lt hlive hstep).le.trans hle⟩

theorem below_iff {x y : ι} : H.Below x y ↔ x = y ∨ H.BelowAny x (H.parents y) := by
  rw [Below, ReflTransGen.cases_tail_iff]
  constructor
  · intro h
    rcases h with rfl | ⟨p, hxp, hp⟩
    · exact .inl rfl
    · exact .inr ⟨p, hp, hxp⟩
  · intro h
    rcases h with rfl | ⟨p, hp, hxp⟩
    · exact .inl rfl
    · exact .inr ⟨p, hxp, hp⟩

/-- A node shows what any base that covers it shows. -/
def Settled (H : History ι) (touched : ι → Prop) (val : Option ι → α) (x : ι) : Prop :=
  ∀ b, H.BaseBelow b x → H.Covers touched b [x] → val (some x) = val b

/-- The value of a fold is that of any base that lies below one of the folded
nodes and covers them all. -/
def SettledFold (H : History ι) (touched : ι → Prop) (val : Option ι → α) (folded : List ι)
    (acc : α) : Prop :=
  ∀ b, (∃ f ∈ folded, H.BaseBelow b f) → H.Covers touched b folded → acc = val b

theorem Covers.mono {b : Option ι} {F F' : List ι} (h : H.Covers touched b F)
    (hsub : F' ⊆ F) : H.Covers touched b F' := by
  intro t ht hbelow
  obtain ⟨f, hf, htf⟩ := hbelow
  exact h t ht ⟨f, hsub hf, htf⟩

/-- A base below a list covers what a based step asks of it. -/
theorem BasedStep.covers {folded : List ι} {n : ι} {b : Option ι}
    (h : H.BasedStep touched folded n) (hbelow : H.BaseBelow b n)
    (hcovers : H.Covers touched b folded) : H.Covers touched (H.base folded n) folded := by
  intro t ht hfolded
  obtain ⟨i, hi, hti⟩ := hcovers t ht hfolded
  exact h t ht hfolded (hti.trans (hbelow i hi))

theorem SettledFold.step (hmerge : ThreeWay merge) {folded : List ι} {n : ι} {acc : α}
    (hfolded : ∀ f ∈ folded, f ∈ H.live) (hn : n ∈ H.live) (hne : folded ≠ [])
    (hbased : H.BasedStep touched folded n) (hsettled : H.Settled touched val n)
    (hacc : H.SettledFold touched val folded acc) :
    H.SettledFold touched val (folded ++ [n])
      (merge (val (H.base folded n)) acc (val (some n))) := by
  intro b hb hcovers
  have hleft : H.Covers touched b folded := hcovers.mono (List.subset_append_left _ _)
  have hright : H.Covers touched b [n] := hcovers.mono (List.subset_append_right _ _)
  have hbase : ∀ x ∈ n :: folded, H.BaseBelow (H.base folded n) x := fun x hx i hi =>
    H.base_below hne hfolded hn hi x hx
  by_cases hbn : H.BaseBelow b n
  · rw [hsettled b hbn hright]
    by_cases hbf : ∃ f ∈ folded, H.BaseBelow b f
    · rw [hacc b hbf hleft, hmerge.same]
    · -- The folded nodes hold nothing that the next one did not see.
      obtain ⟨f, hf⟩ := List.exists_mem_of_ne_nil folded hne
      rw [hacc _ ⟨f, hf, hbase f (List.mem_cons_of_mem _ hf)⟩ (hbased.covers hbn hleft),
        hmerge.right]
  · -- The next node holds nothing that the folded ones did not see.
    obtain ⟨f, hf, hbf⟩ : ∃ f ∈ folded, H.BaseBelow b f := by
      obtain ⟨f, hf, hbf⟩ := hb
      rcases List.mem_append.mp hf with hf | hf
      · exact ⟨f, hf, hbf⟩
      · rw [List.mem_singleton.mp hf] at hbf
        exact absurd hbf hbn
    have hcover : H.Covers touched (H.base folded n) [n] := by
      intro t ht htn
      obtain ⟨i, hi, hti⟩ := hright t ht htn
      obtain ⟨x, hx, htx⟩ := htn
      rw [List.mem_singleton.mp hx] at htx
      exact hbased t ht ⟨f, hf, hti.trans (hbf i hi)⟩ htx
    rw [hacc b ⟨f, hf, hbf⟩ hleft, hsettled _ (hbase n List.mem_cons_self) hcover,
      hmerge.left]

theorem SettledFold.foldFrom (hmerge : ThreeWay merge) {rest : List ι} :
    ∀ {folded : List ι} {acc : α}, folded ≠ [] → (∀ f ∈ folded ++ rest, f ∈ H.live) →
      H.BasedFrom touched folded rest → (∀ n ∈ rest, H.Settled touched val n) →
      H.SettledFold touched val folded acc →
      H.SettledFold touched val (folded ++ rest) (foldFrom H.base merge val folded acc rest) := by
  induction rest with
  | nil =>
      intro folded acc _ _ _ _ hacc
      rwa [List.append_nil]
  | cons n rest ih =>
      intro folded acc hne hlive hbased hsettled hacc
      have hstep := hacc.step hmerge (fun f hf => hlive f (List.mem_append_left _ hf))
        (hlive n (List.mem_append_right _ List.mem_cons_self)) hne hbased.1
        (hsettled n List.mem_cons_self)
      rw [List.append_cons] at hlive ⊢
      exact ih (by simp) hlive hbased.2
        (fun m hm => hsettled m (List.mem_cons_of_mem _ hm)) hstep

/-- A based fold of settled nodes is settled. -/
theorem settledFold_mergeAll (hmerge : ThreeWay merge) {l : List ι} (hne : l ≠ [])
    (hlive : ∀ x ∈ l, x ∈ H.live) (hbased : H.Based touched l)
    (hsettled : ∀ x ∈ l, H.Settled touched val x) :
    H.SettledFold touched val l (mergeAll H.base merge val l) := by
  cases l with
  | nil => exact absurd rfl hne
  | cons x rest =>
      refine SettledFold.foldFrom hmerge (by simp) hlive hbased
        (fun n hn => hsettled n (List.mem_cons_of_mem _ hn)) ?_
      intro b hb hcovers
      obtain ⟨f, hf, hbf⟩ := hb
      rw [List.mem_singleton.mp hf] at hbf
      exact hsettled x List.mem_cons_self b hbf hcovers

/-- What a history of merges owes: a node that was not touched shows the merge
of its parents. -/
structure Merges (H : History ι) (touched : ι → Prop) (merge : α → α → α → α)
    (val : Option ι → α) : Prop where
  threeWay : ThreeWay merge
  untouched : ∀ x ∈ H.live, ¬ touched x → val (some x) = mergeAll H.base merge val (H.parents x)

theorem Merges.settled (h : Merges H touched merge val)
    (hbased : ∀ x ∈ H.live, H.Based touched (H.parents x)) :
    ∀ x ∈ H.live, H.Settled touched val x := by
  intro x
  induction hrank : H.rank x using Nat.strong_induction_on generalizing x with
  | _ r ih =>
      intro hx b hb hcovers
      by_cases hself : b = some x
      · rw [hself]
      have hparents : ∀ i ∈ b, H.BelowAny i (H.parents x) := by
        intro i hi
        rcases below_iff.mp (hb i hi) with rfl | hbelow
        · exact absurd hi hself
        · exact hbelow
      have huntouched : ¬ touched x := by
        intro htouched
        obtain ⟨i, hi, hxi⟩ := hcovers x htouched ⟨x, List.mem_singleton_self x, .refl⟩
        obtain ⟨p, hp, hip⟩ := hparents i hi
        have hbelow : H.Below x p := hxi.trans hip
        have hle := hbelow.rank_le (H.live_parents hx hp)
        have hlt := H.rank_lt hx hp
        omega
      rw [h.untouched x hx huntouched]
      by_cases hnil : H.parents x = []
      · cases b with
        | none => rw [hnil]; rfl
        | some i =>
            obtain ⟨p, hp, _⟩ := hparents i rfl
            rw [hnil] at hp
            cases hp
      · refine settledFold_mergeAll h.threeWay hnil (fun p hp => H.live_parents hx hp)
          (hbased x hx) (fun p hp => ih _ (hrank ▸ H.rank_lt hx hp) p rfl
            (H.live_parents hx hp)) b ?_ ?_
        · cases b with
          | none =>
              obtain ⟨p, hp⟩ := List.exists_mem_of_ne_nil _ hnil
              exact ⟨p, hp, fun _ hi => by cases hi⟩
          | some i =>
              obtain ⟨p, hp, hip⟩ := hparents i rfl
              refine ⟨p, hp, fun j hj => ?_⟩
              cases hj
              exact hip
        · intro t ht hbelow
          exact hcovers t ht ⟨x, List.mem_singleton_self x, below_iff.mpr (.inr hbelow)⟩

/-- The merge of nodes shows what the last write among them wrote. -/
theorem Merges.last (h : Merges H touched merge val)
    (hbased : ∀ x ∈ H.live, H.Based touched (H.parents x)) {heads : List ι}
    (hheads : ∀ x ∈ heads, x ∈ H.live) (hbasedHeads : H.Based touched heads) {w : ι}
    (hw : H.BelowAny w heads) (hlast : ∀ t, touched t → H.BelowAny t heads → H.Below t w) :
    mergeAll H.base merge val heads = val (some w) := by
  have hne : heads ≠ [] := by
    rintro rfl
    obtain ⟨x, hx, _⟩ := hw
    cases hx
  refine settledFold_mergeAll h.threeWay hne hheads hbasedHeads
    (fun x hx => h.settled hbased x (hheads x hx)) (some w) ?_ ?_
  · obtain ⟨x, hx, hwx⟩ := hw
    refine ⟨x, hx, fun i hi => ?_⟩
    cases hi
    exact hwx
  · intro t ht hbelow
    exact ⟨w, rfl, hlast t ht hbelow⟩

end History

end Tessra.Data
