import Tessra.Data.Worklist

namespace Tessra.Data

open Relation

/-! How far nodes are from where a breadth-first search starts. -/

universe u v

variable {α : Type u} {ε : Type v}

/-- Visit the queue first in first out, each node once, and note how far it is. -/
def distances [DecidableEq α] (next : α → List α) (stuck : ε) :
    ℕ → List (α × ℕ) → List (α × ℕ) → Except ε (List (α × ℕ))
  | _, found, [] => .ok found
  | 0, _, _ :: _ => .error stuck
  | fuel + 1, found, (x, n) :: queue =>
      if found.any (·.1 = x) then distances next stuck fuel found queue
      else distances next stuck fuel (found ++ [(x, n)])
        (queue ++ (next x).map fun y => (y, n + 1))

/-- A node is so many steps away along some path. -/
inductive Path (next : α → List α) (start : α) : ℕ → α → Prop
  | refl : Path next start 0 start
  | step {n : ℕ} {x y : α} (path : Path next start n x) (mem : y ∈ next x) :
      Path next start (n + 1) y

/-- A node is so many steps away, and along no path fewer. -/
structure Shortest (next : α → List α) (start : α) (n : ℕ) (x : α) : Prop where
  path : Path next start n x
  least : ∀ m, Path next start m x → n ≤ m

section Paths

variable {next : α → List α} {start x : α} {m n : ℕ}

theorem exists_path_iff :
    (∃ n, Path next start n x) ↔ ReflTransGen (fun x y => y ∈ next x) start x := by
  constructor
  · rintro ⟨n, hpath⟩
    induction hpath with
    | refl => exact .refl
    | step _ hmem ih => exact ih.tail hmem
  · intro h
    induction h with
    | refl => exact ⟨0, .refl⟩
    | tail _ hmem ih =>
        obtain ⟨n, hpath⟩ := ih
        exact ⟨n + 1, hpath.step hmem⟩

theorem Shortest.unique (h : Shortest next start n x) (h' : Shortest next start m x) : n = m :=
  le_antisymm (h.least m h'.path) (h'.least n h.path)

theorem exists_shortest (h : ReflTransGen (fun x y => y ∈ next x) start x) :
    ∃ n, Shortest next start n x := by
  classical
  have hpath := exists_path_iff.mpr h
  exact ⟨Nat.find hpath, Nat.find_spec hpath, fun m hm => Nat.find_min' hpath hm⟩

end Paths

section Search

variable {next : α → List α} {start x y : α} {n : ℕ} {found queue : List (α × ℕ)}

/-- The queue holds nodes of one distance, then of the next one, and nothing found is
farther. -/
def Layered (found queue : List (α × ℕ)) : Prop :=
  ∃ n near far, queue = near ++ far ∧ (∀ e ∈ near, e.2 = n) ∧ (∀ e ∈ far, e.2 = n + 1) ∧
    ∀ e ∈ found, e.2 ≤ n

theorem Layered.pop (h : Layered found ((x, n) :: queue)) :
    (∀ e ∈ found, e.2 ≤ n) ∧ ∃ near far, queue = near ++ far ∧ (∀ e ∈ near, e.2 = n) ∧
      ∀ e ∈ far, e.2 = n + 1 := by
  obtain ⟨k, near, far, hqueue, hnear, hfar, hfound⟩ := h
  cases near with
  | nil =>
      -- The first layer is used up, and the second one takes its place.
      obtain rfl : far = (x, n) :: queue := hqueue.symm
      obtain rfl : n = k + 1 := hfar _ List.mem_cons_self
      exact ⟨fun e he => (hfound e he).trans (Nat.le_succ k), queue, [],
        (List.append_nil queue).symm, fun e he => hfar e (List.mem_cons_of_mem _ he), nofun⟩
  | cons e near =>
      obtain ⟨rfl, rfl⟩ := List.cons.inj hqueue
      obtain rfl : n = k := hnear _ List.mem_cons_self
      exact ⟨hfound, near, far, rfl, fun e he => hnear e (List.mem_cons_of_mem _ he), hfar⟩

/-- What holds of a search on its way. -/
structure Search (next : α → List α) (start : α) (found queue : List (α × ℕ)) : Prop where
  nodup : (found.map Prod.fst).Nodup
  paths : ∀ e ∈ found ++ queue, Path next start e.2 e.1
  closed : ∀ e ∈ found, ∀ y ∈ next e.1, (y, e.2 + 1) ∈ queue ∨ ∃ m ≤ e.2 + 1, (y, m) ∈ found
  started : (start, 0) ∈ found ++ queue
  layered : Layered found queue

theorem search_start (next : α → List α) (start : α) : Search next start [] [(start, 0)] where
  nodup := List.nodup_nil
  paths e he := by
    cases List.mem_singleton.mp he
    exact .refl
  closed _ he := by cases he
  started := List.mem_cons_self
  layered := ⟨0, [(start, 0)], [], rfl, by simp, nofun, nofun⟩

theorem Search.skip (h : Search next start found ((x, n) :: queue))
    (hx : ∃ m, (x, m) ∈ found) : Search next start found queue := by
  obtain ⟨m, hm⟩ := hx
  obtain ⟨hle, near, far, hqueue, hnear, hfar⟩ := h.layered.pop
  refine ⟨h.nodup, fun e he => h.paths e ?_, fun e he y hy => ?_, ?_,
    n, near, far, hqueue, hnear, hfar, hle⟩
  · rcases List.mem_append.mp he with he | he
    · exact List.mem_append_left _ he
    · exact List.mem_append_right _ (List.mem_cons_of_mem _ he)
  · rcases h.closed e he y hy with hmem | hmem
    · rcases List.mem_cons.mp hmem with heq | hmem
      · cases heq
        exact .inr ⟨m, hle _ hm, hm⟩
      · exact .inl hmem
    · exact .inr hmem
  · rcases List.mem_append.mp h.started with hstart | hstart
    · exact List.mem_append_left _ hstart
    · rcases List.mem_cons.mp hstart with heq | hstart
      · cases heq
        have hzero := hle _ hm
        simp only [Nat.le_zero] at hzero
        exact List.mem_append_left _ (hzero ▸ hm)
      · exact List.mem_append_right _ hstart

theorem Search.visit (h : Search next start found ((x, n) :: queue))
    (hx : ∀ m, (x, m) ∉ found) :
    Search next start (found ++ [(x, n)]) (queue ++ (next x).map fun y => (y, n + 1)) := by
  obtain ⟨hle, near, far, hqueue, hnear, hfar⟩ := h.layered.pop
  have hpath : Path next start n x := h.paths (x, n) (by simp)
  refine ⟨?_, fun e he => ?_, fun e he y hy => ?_, ?_,
    n, near, far ++ (next x).map fun y => (y, n + 1), ?_, hnear, fun e he => ?_, fun e he => ?_⟩
  · rw [List.map_append, List.nodup_append]
    refine ⟨h.nodup, List.nodup_singleton x, ?_⟩
    rintro z hz _ hsingle rfl
    obtain ⟨⟨z, m⟩, hm, rfl⟩ := List.mem_map.mp hz
    cases List.mem_singleton.mp hsingle
    exact hx m hm
  · simp only [List.mem_append, List.mem_singleton, List.mem_map] at he
    rcases he with (he | rfl) | he | ⟨y, hy, rfl⟩
    · exact h.paths e (List.mem_append_left _ he)
    · exact hpath
    · exact h.paths e (List.mem_append_right _ (List.mem_cons_of_mem _ he))
    · exact hpath.step hy
  · rcases List.mem_append.mp he with he | he
    · rcases h.closed e he y hy with hmem | ⟨m, hm, hmem⟩
      · rcases List.mem_cons.mp hmem with heq | hmem
        · obtain ⟨rfl, rfl⟩ := Prod.mk.inj heq
          exact .inr ⟨e.2 + 1, le_rfl, List.mem_append_right _ List.mem_cons_self⟩
        · exact .inl (List.mem_append_left _ hmem)
      · exact .inr ⟨m, hm, List.mem_append_left _ hmem⟩
    · cases List.mem_singleton.mp he
      exact .inl (List.mem_append_right _ (List.mem_map.mpr ⟨y, hy, rfl⟩))
  · rcases List.mem_append.mp h.started with hstart | hstart
    · exact List.mem_append_left _ (List.mem_append_left _ hstart)
    · rcases List.mem_cons.mp hstart with heq | hstart
      · exact List.mem_append_left _ (List.mem_append_right _ (List.mem_singleton.mpr heq))
      · exact List.mem_append_right _ (List.mem_append_left _ hstart)
  · rw [hqueue, List.append_assoc]
  · rcases List.mem_append.mp he with he | he
    · exact hfar e he
    · obtain ⟨y, _, rfl⟩ := List.mem_map.mp he
      rfl
  · rcases List.mem_append.mp he with he | he
    · exact hle e he
    · cases List.mem_singleton.mp he
      exact le_rfl

/-- A search that is over has found everything that a path leads to, and not farther. -/
theorem Search.reached (h : Search next start found []) (hpath : Path next start n y) :
    ∃ m ≤ n, (y, m) ∈ found := by
  induction hpath with
  | refl => exact ⟨0, le_rfl, by simpa using h.started⟩
  | step _ hmem ih =>
      obtain ⟨m, hm, hfound⟩ := ih
      rcases h.closed _ hfound _ hmem with hqueue | ⟨k, hk, hfound⟩
      · cases hqueue
      · exact ⟨k, hk.trans (Nat.succ_le_succ hm), hfound⟩

/-- What a search has found when it is over. -/
theorem Search.mem_iff (h : Search next start found []) :
    (y, n) ∈ found ↔ Shortest next start n y := by
  have hkey : ∀ {m k}, (y, m) ∈ found → (y, k) ∈ found → m = k := fun hm hk =>
    congrArg Prod.snd (List.inj_on_of_nodup_map h.nodup hm hk rfl)
  constructor
  · intro hmem
    refine ⟨h.paths (y, n) (List.mem_append_left _ hmem), fun m hm => ?_⟩
    obtain ⟨k, hk, hfound⟩ := h.reached hm
    rwa [hkey hmem hfound]
  · intro hshortest
    obtain ⟨k, hk, hfound⟩ := h.reached hshortest.path
    have hle := hshortest.least k (h.paths (y, k) (List.mem_append_left _ hfound))
    rwa [le_antisymm hle hk]

variable [DecidableEq α] {stuck : ε} {fuel : ℕ}

theorem any_found_iff : found.any (·.1 = x) ↔ ∃ m, (x, m) ∈ found := by
  rw [List.any_eq_true]
  constructor
  · rintro ⟨⟨z, m⟩, hmem, heq⟩
    cases of_decide_eq_true heq
    exact ⟨m, hmem⟩
  · rintro ⟨m, hmem⟩
    exact ⟨(x, m), hmem, decide_eq_true rfl⟩

theorem search_distances {result : List (α × ℕ)} (h : Search next start found queue)
    (hresult : distances next stuck fuel found queue = .ok result) :
    Search next start result [] := by
  fun_induction distances next stuck fuel found queue with
  | case1 found =>
      cases hresult
      exact h
  | case2 => cases hresult
  | case3 _ _ _ _ _ hx ih => exact ih (h.skip (any_found_iff.mp hx)) hresult
  | case4 _ _ _ _ _ hx ih =>
      exact ih (h.visit fun m hm => hx (any_found_iff.mpr ⟨m, hm⟩)) hresult

/-- The search ends whenever the walk over the same nodes does. -/
theorem distances_ok {seen result : List α} (hseen : ∀ x, x ∈ seen ↔ ∃ n, (x, n) ∈ found)
    (hwalk : worklist (fun x => .ok (next x)) stuck fuel seen (queue.map Prod.fst) = .ok result) :
    ∃ result, distances next stuck fuel found queue = .ok result := by
  fun_induction distances next stuck fuel found queue generalizing seen with
  | case1 => exact ⟨_, rfl⟩
  | case2 => cases hwalk
  | case3 fuel found x n queue hx ih =>
      rw [List.map_cons, worklist, if_pos ((hseen x).mpr (any_found_iff.mp hx))] at hwalk
      exact ih hseen hwalk
  | case4 fuel found x n queue hx ih =>
      have hnew : x ∉ seen := fun hmem => hx (any_found_iff.mpr ((hseen x).mp hmem))
      rw [List.map_cons, worklist, if_neg hnew] at hwalk
      have hseen' : ∀ y, y ∈ x :: seen ↔ ∃ m, (y, m) ∈ found ++ [(x, n)] := fun y => by
        simp [hseen, exists_or, or_comm]
      exact ih hseen' (by simpa [List.map_append, Function.comp_def] using hwalk)

end Search

end Tessra.Data
