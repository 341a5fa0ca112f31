import Mathlib

namespace Tessra.Data

open Relation

/-! The closure of a queue of nodes under a successor function that may fail. -/

universe u v w

variable {α : Type u} {ε : Type v} [DecidableEq α]

/-- Visit the queue first in first out, each node once. -/
def worklist (next : α → Except ε (List α)) (stuck : ε) :
    ℕ → List α → List α → Except ε (List α)
  | _, seen, [] => .ok seen
  | 0, _, _ :: _ => .error stuck
  | fuel + 1, seen, x :: queue =>
      if x ∈ seen then worklist next stuck fuel seen queue
      else
        match next x with
        | .error e => .error e
        | .ok out => worklist next stuck fuel (x :: seen) (queue ++ out)

def StepsTo (next : α → Except ε (List α)) (x y : α) : Prop :=
  ∃ out, next x = .ok out ∧ y ∈ out

def Pending (next : α → Except ε (List α)) (seen queue : List α) : Prop :=
  ∀ x ∈ seen, ∃ out, next x = .ok out ∧ ∀ y ∈ out, y ∈ seen ∨ y ∈ queue

variable {next : α → Except ε (List α)} {stuck : ε} {fuel : ℕ} {seen queue : List α}

omit [DecidableEq α] in
theorem Pending.reach (h : Pending next seen queue) {x z : α} (hx : x ∈ seen)
    (hxz : ReflTransGen (StepsTo next) x z) :
    z ∈ seen ∨ ∃ q ∈ queue, ReflTransGen (StepsTo next) q z := by
  induction hxz using ReflTransGen.head_induction_on with
  | refl => exact .inl hx
  | @head x y hxy hyz ih =>
      obtain ⟨out, hout, hpending⟩ := h x hx
      obtain ⟨out', hout', hy⟩ := hxy
      rw [hout] at hout'
      cases hout'
      rcases hpending y hy with hseen | hqueue
      · exact ih hseen
      · exact .inr ⟨y, hqueue, hyz⟩

omit [DecidableEq α] in
theorem reach_iff {x z : α} {out : List α} (hout : next x = .ok out) :
    ReflTransGen (StepsTo next) x z ↔
      z = x ∨ ∃ y ∈ out, ReflTransGen (StepsTo next) y z := by
  rw [ReflTransGen.cases_head_iff]
  constructor
  · intro h
    rcases h with rfl | ⟨y, ⟨out', hout', hy⟩, hyz⟩
    · exact .inl rfl
    · rw [hout] at hout'
      cases hout'
      exact .inr ⟨y, hy, hyz⟩
  · intro h
    rcases h with rfl | ⟨y, hy, hyz⟩
    · exact .inl rfl
    · exact .inr ⟨y, ⟨out, hout, hy⟩, hyz⟩

omit [DecidableEq α] in
theorem Pending.skip {x : α} (h : Pending next seen (x :: queue)) (hx : x ∈ seen) :
    Pending next seen queue := by
  intro y hy
  obtain ⟨out, hout, hpending⟩ := h y hy
  refine ⟨out, hout, fun w hw => ?_⟩
  rcases hpending w hw with hseen | hqueue
  · exact .inl hseen
  · rcases List.mem_cons.mp hqueue with rfl | hqueue
    · exact .inl hx
    · exact .inr hqueue

omit [DecidableEq α] in
theorem Pending.visit {x : α} {out : List α} (h : Pending next seen (x :: queue))
    (hout : next x = .ok out) : Pending next (x :: seen) (queue ++ out) := by
  intro y hy
  rcases List.mem_cons.mp hy with rfl | hy
  · exact ⟨out, hout, fun w hw => .inr (List.mem_append_right _ hw)⟩
  · obtain ⟨out', hout', hpending⟩ := h y hy
    refine ⟨out', hout', fun w hw => ?_⟩
    rcases hpending w hw with hseen | hqueue
    · exact .inl (List.mem_cons_of_mem _ hseen)
    · rcases List.mem_cons.mp hqueue with rfl | hqueue
      · exact .inl List.mem_cons_self
      · exact .inr (List.mem_append_left _ hqueue)

theorem pending_worklist (hpending : Pending next seen queue) {result : List α}
    (h : worklist next stuck fuel seen queue = .ok result) : Pending next result [] := by
  fun_induction worklist next stuck fuel seen queue with
  | case1 seen =>
      cases h
      exact hpending
  | case2 => cases h
  | case3 _ _ _ _ hx ih => exact ih (hpending.skip hx) h
  | case4 => cases h
  | case5 _ _ _ _ _ _ hout ih => exact ih (hpending.visit hout) h

theorem mem_worklist (hpending : Pending next seen queue) {result : List α}
    (h : worklist next stuck fuel seen queue = .ok result) (z : α) :
    z ∈ result ↔ z ∈ seen ∨ ∃ q ∈ queue, ReflTransGen (StepsTo next) q z := by
  fun_induction worklist next stuck fuel seen queue with
  | case1 => simp_all
  | case2 => cases h
  | case3 fuel seen x queue hx ih =>
      have hrest := hpending.skip hx
      rw [ih hrest h]
      constructor
      · intro hz
        rcases hz with hz | ⟨q, hq, hqz⟩
        · exact .inl hz
        · exact .inr ⟨q, List.mem_cons_of_mem _ hq, hqz⟩
      · intro hz
        rcases hz with hz | ⟨q, hq, hqz⟩
        · exact .inl hz
        · rcases List.mem_cons.mp hq with rfl | hq
          · exact hrest.reach hx hqz
          · exact .inr ⟨q, hq, hqz⟩
  | case4 => cases h
  | case5 fuel seen x queue hx out hout ih =>
      rw [ih (hpending.visit hout) h]
      simp only [List.mem_cons, List.mem_append, or_and_right, exists_or, exists_eq_left,
        reach_iff hout]
      grind

/-- How many successors a node adds to the queue. -/
def outDegree (next : α → Except ε (List α)) (x : α) : ℕ :=
  match next x with
  | .ok out => out.length
  | .error _ => 0

theorem worklist_ok (dom : Finset α)
    (hdom : ∀ x ∈ dom, ∃ out, next x = .ok out ∧ ∀ y ∈ out, y ∈ dom)
    (hqueue : ∀ x ∈ queue, x ∈ dom)
    (hfuel : queue.length + ∑ x ∈ dom \ seen.toFinset, outDegree next x ≤ fuel) :
    ∃ result, worklist next stuck fuel seen queue = .ok result := by
  fun_induction worklist next stuck fuel seen queue with
  | case1 seen => exact ⟨_, rfl⟩
  | case2 => simp at hfuel
  | case3 fuel seen x queue hx ih =>
      refine ih (fun y hy => hqueue y (List.mem_cons_of_mem _ hy)) ?_
      rw [List.length_cons] at hfuel
      omega
  | case4 fuel seen x queue hx e he =>
      obtain ⟨out, hout, _⟩ := hdom x (hqueue x List.mem_cons_self)
      rw [hout] at he
      cases he
  | case5 fuel seen x queue hx out hout ih =>
      have hxdom := hqueue x List.mem_cons_self
      have hnew : x ∈ dom \ seen.toFinset := by simp [hxdom, hx]
      have hsum := Finset.add_sum_erase _ (outDegree next) hnew
      have hdegree : outDegree next x = out.length := by simp [outDegree, hout]
      apply ih
      · intro y hy
        rcases List.mem_append.mp hy with hy | hy
        · exact hqueue y (List.mem_cons_of_mem _ hy)
        · obtain ⟨out', hout', hmem⟩ := hdom x hxdom
          rw [hout] at hout'
          cases hout'
          exact hmem y hy
      · rw [List.toFinset_cons, Finset.sdiff_insert, List.length_append]
        rw [List.length_cons] at hfuel
        omega

/-- A worklist that ends, ends alike with more fuel and more successors known. -/
theorem worklist_mono {next' : α → Except ε (List α)} {fuel' : ℕ} {result : List α}
    (hnext : ∀ x out, next x = .ok out → next' x = .ok out) (hfuel : fuel ≤ fuel')
    (h : worklist next stuck fuel seen queue = .ok result) :
    worklist next' stuck fuel' seen queue = .ok result := by
  fun_induction worklist next stuck fuel seen queue generalizing fuel' with
  | case1 => rwa [worklist]
  | case2 => cases h
  | case3 fuel seen x queue hx ih =>
      obtain ⟨fuel', rfl⟩ := Nat.exists_eq_add_of_lt hfuel
      rw [worklist, if_pos hx]
      exact ih (by omega) h
  | case4 => cases h
  | case5 fuel seen x queue hx out hout ih =>
      obtain ⟨fuel', rfl⟩ := Nat.exists_eq_add_of_lt hfuel
      rw [worklist, if_neg hx, hnext x out hout]
      exact ih (by omega) h

omit [DecidableEq α] in
/-- Nodes that stand for different members of a list have no more successors
than the members count. -/
theorem sum_outDegree_le {β : Type w} [DecidableEq β] {l : List β} {f : α → β} {count : β → ℕ}
    {dom : Finset α} (hinj : Set.InjOn f dom) (hmem : ∀ x ∈ dom, f x ∈ l)
    (hcount : ∀ x ∈ dom, outDegree next x ≤ count (f x)) :
    ∑ x ∈ dom, outDegree next x ≤ (l.map count).sum :=
  calc ∑ x ∈ dom, outDegree next x
      ≤ ∑ x ∈ dom, count (f x) := Finset.sum_le_sum hcount
    _ = ∑ y ∈ dom.image f, count y := (Finset.sum_image hinj).symm
    _ ≤ ∑ y ∈ l.toFinset, count y := by
        apply Finset.sum_le_sum_of_subset
        intro y hy
        obtain ⟨x, hx, rfl⟩ := Finset.mem_image.mp hy
        exact List.mem_toFinset.mpr (hmem x hx)
    _ = (l.dedup.map count).sum := by
        rw [← List.sum_toFinset count l.nodup_dedup]
        congr 1
        ext y
        simp
    _ ≤ (l.map count).sum := ((List.dedup_sublist l).map count).sum_le_sum fun _ _ => by omega

end Tessra.Data
