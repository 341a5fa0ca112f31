import Tessra.Semantic.Alignment

namespace Tessra.Semantic.Merge

open Tessra.Core Tessra.Data
open Tessra.Daemon (Rename)

/-! The order of a merged level: each base key, and behind it the additions of one side and
then those of the other. -/

section Weave

variable {base : List Key} {run : Option Key → List Key} {anchor last p : Option Key}
  {key k : Key} {side : List Key}

/-- The base, with what follows its start and each of its keys. -/
def weave (base : List Key) (run : Option Key → List Key) : List Key :=
  run none ++ base.flatMap fun k => k :: run (some k)

/-- The additions of a side behind a base key, where the base key that comes before the side
is given. -/
def runAfter (base : List Key) (p : Option Key) : Option Key → List Key → List Key
  | _, [] => []
  | anchor, k :: side =>
      if k ∈ base then runAfter base p (some k) side
      else if anchor = p then k :: runAfter base p anchor side
      else runAfter base p anchor side

theorem mem_runAfter : ∀ {side anchor}, k ∈ runAfter base p anchor side → k ∈ side ∧ k ∉ base
  | [], _, h => absurd h List.not_mem_nil
  | k' :: side, anchor, h => by
      rw [runAfter] at h
      split_ifs at h with hmem hanchor
      · exact (mem_runAfter h).imp_left (List.mem_cons_of_mem _)
      · rcases List.mem_cons.mp h with rfl | h
        · exact ⟨List.mem_cons_self, hmem⟩
        · exact (mem_runAfter h).imp_left (List.mem_cons_of_mem _)
      · exact (mem_runAfter h).imp_left (List.mem_cons_of_mem _)

theorem flatMap_update {l : List Key} {r : List Key} (h : ∀ k ∈ l, some k ≠ anchor) :
    (l.flatMap fun k => k :: Function.update run anchor r (some k)) =
      l.flatMap fun k => k :: run (some k) := by
  refine List.flatMap_congr fun k hk => ?_
  rw [Function.update_of_ne (h k hk)]

/-- The weave around the run behind one key. -/
theorem weave_split (hbase : base.Nodup) (hanchor : ∀ k ∈ anchor, k ∈ base)
    (run : Option Key → List Key) : ∃ head tail : List Key,
      (∀ r, weave base (Function.update run anchor r) = head ++ r ++ tail) ∧
      (anchor = none → head = []) ∧ (∀ k ∈ anchor, ∃ front, head = front ++ [k]) ∧
      ∀ k ∈ tail.head?, k ∈ base := by
  cases anchor with
  | none =>
      refine ⟨[], base.flatMap fun k => k :: run (some k), fun r => ?_, fun _ => rfl,
        fun k hk => absurd hk (by simp), fun k hk => ?_⟩
      · rw [weave, Function.update_self, flatMap_update fun k _ => by simp, List.nil_append]
      · cases base with
        | nil => simp at hk
        | cons k' base =>
            obtain rfl : k' = k := by simpa using hk
            exact List.mem_cons_self
  | some a =>
      obtain ⟨before, after, rfl⟩ := List.append_of_mem (hanchor a rfl)
      have hnodup := List.nodup_append.mp hbase
      have hafter : ∀ k ∈ after, some k ≠ some a := by
        rintro k hk heq
        exact (List.nodup_cons.mp hnodup.2.1).1 (Option.some.inj heq ▸ hk)
      have hbefore : ∀ k ∈ before, some k ≠ some a := by
        rintro k hk heq
        exact hnodup.2.2 k hk a List.mem_cons_self (Option.some.inj heq)
      refine ⟨run none ++ (before.flatMap fun k => k :: run (some k)) ++ [a],
        after.flatMap fun k => k :: run (some k), fun r => ?_, by simp, ?_, ?_⟩
      · rw [weave, Function.update_of_ne (by simp), List.flatMap_append, List.flatMap_cons,
          flatMap_update hbefore, flatMap_update hafter, Function.update_self]
        simp
      · intro k hk
        obtain rfl : a = k := by simpa using hk
        exact ⟨_, rfl⟩
      · intro k hk
        cases after with
        | nil => simp at hk
        | cons k' after =>
            obtain rfl : k' = k := by simpa using hk
            simp

theorem placeAfter_append {l r : List Key} (h : k ∉ l) :
    placeAfter (l ++ k :: r) (some k) = l.length + 1 := by
  have hidx : (l ++ k :: r).idxOf? k = some l.length := by
    refine List.idxOf?_eq_some_iff.mpr ⟨by simp, by simp, fun j hj heq => h ?_⟩
    rw [List.getElem_append_left hj] at heq
    exact heq ▸ List.getElem_mem hj
  rw [placeAfter, hidx]
  rfl

/-- An addition goes behind the run that its place lies in. -/
theorem insertKey_append {head mid tail : List Key} (hkey : key ∉ head ++ mid ++ tail)
    (hmid : ∀ k ∈ mid, k ∉ base) (htail : ∀ k ∈ tail.head?, k ∈ base)
    (hplace : ∃ part ≤ mid.length, placeAfter (head ++ mid ++ tail) last = head.length + part) :
    insertKey base (head ++ mid ++ tail, last) key = (head ++ (mid ++ [key]) ++ tail, some key) := by
  obtain ⟨part, hpart, hplace⟩ := hplace
  have hdrop : (head ++ mid ++ tail).drop (head.length + part) = mid.drop part ++ tail := by
    rw [List.append_assoc, List.drop_append, List.drop_append]
    simp [Nat.sub_eq_zero_of_le hpart]
  have htake : ((mid.drop part ++ tail).takeWhile (· ∉ base)) = mid.drop part := by
    rw [List.takeWhile_append_of_pos fun k hk =>
      decide_eq_true (hmid k (List.mem_of_mem_drop hk))]
    cases tail with
    | nil => simp
    | cons k tail => simp [htail k rfl]
  have hlen : head.length + part + (mid.drop part).length = (head ++ mid).length := by
    simp only [List.length_drop, List.length_append]
    omega
  rw [insertKey, if_neg hkey]
  simp only [hplace, hdrop, htake, hlen, insertIdx_length]
  simp

/-- The key that an addition of a side goes behind: the anchor, or one in the run behind it. -/
def Behind (run : Option Key → List Key) (anchor last : Option Key) : Prop :=
  last = anchor ∨ ∃ k ∈ run anchor, last = some k

theorem insertKey_weave (hbase : base.Nodup) (hanchor : ∀ k ∈ anchor, k ∈ base)
    (hnodup : (weave base run).Nodup) (hrun : ∀ p, ∀ k ∈ run p, k ∉ base)
    (hlast : Behind run anchor last) (hkey : key ∉ weave base run) :
    insertKey base (weave base run, last) key =
      (weave base (Function.update run anchor (run anchor ++ [key])), some key) := by
  obtain ⟨head, tail, hsplit, hstart, hend, htail⟩ := weave_split hbase hanchor run
  have hweave : weave base run = head ++ run anchor ++ tail := by
    rw [← hsplit, Function.update_eq_self]
  rw [hsplit, hweave]
  rw [hweave] at hkey hnodup
  refine insertKey_append hkey (hrun anchor) htail ?_
  rcases hlast with rfl | ⟨k, hk, rfl⟩
  · cases last with
    | none => exact ⟨0, Nat.zero_le _, by rw [hstart rfl]; rfl⟩
    | some a =>
        obtain ⟨front, rfl⟩ := hend a rfl
        refine ⟨0, Nat.zero_le _, ?_⟩
        have hfront : a ∉ front := by
          intro hmem
          rw [List.append_assoc, List.append_assoc] at hnodup
          exact (List.nodup_append.mp hnodup).2.2 a hmem a (by simp) rfl
        have heq : front ++ [a] ++ run (some a) ++ tail = front ++ a :: (run (some a) ++ tail) := by
          simp
        rw [heq, placeAfter_append hfront]
        simp
  · obtain ⟨l, r, hmid⟩ := List.append_of_mem hk
    have heq : head ++ run anchor ++ tail = (head ++ l) ++ k :: (r ++ tail) := by
      rw [hmid]
      simp
    have hfront : k ∉ head ++ l := by
      intro hmem
      rw [heq] at hnodup
      exact (List.nodup_append.mp hnodup).2.2 k hmem k List.mem_cons_self rfl
    refine ⟨l.length + 1, ?_, ?_⟩
    · rw [hmid]
      simp
    · rw [heq, placeAfter_append hfront, List.length_append]
      rfl

/-- The additions of a side go into the runs behind the keys that they follow. -/
theorem insertKeys_weave (hbase : base.Nodup) : ∀ {side run anchor last},
    (∀ k ∈ anchor, k ∈ base) → (weave base run).Nodup → (∀ p, ∀ k ∈ run p, k ∉ base) →
    Behind run anchor last → side.Nodup → (∀ k ∈ side, k ∉ base → k ∉ weave base run) →
    (side.foldl (insertKey base) (weave base run, last)).1 =
      weave base fun p => run p ++ runAfter base p anchor side
  | [], run, anchor, last, _, _, _, _, _, _ => by simp [runAfter]
  | k :: side, run, anchor, last, hanchor, hnodup, hrun, hlast, hside, hfresh => by
      obtain ⟨hk, hside⟩ := List.nodup_cons.mp hside
      rw [List.foldl_cons]
      by_cases hmem : k ∈ base
      · have hthere : k ∈ weave base run := by
          rw [weave, List.mem_append, List.mem_flatMap]
          exact Or.inr ⟨k, hmem, List.mem_cons_self⟩
        have hlast : Behind run (some k) (some k) := Or.inl rfl
        rw [insertKey, if_pos hthere, insertKeys_weave hbase
          (fun k' hk' => Option.some.inj hk' ▸ hmem) hnodup hrun hlast hside
          fun k' hk' => hfresh k' (List.mem_cons_of_mem k hk')]
        simp [runAfter, hmem]
      · have hnew := hfresh k List.mem_cons_self hmem
        have hinsert := insertKey_weave hbase hanchor hnodup hrun hlast hnew
        have hperm : (insertKey base (weave base run, last) k).1.Perm (k :: weave base run) :=
          perm_insertKey hnew
        rw [hinsert] at hperm ⊢
        rw [insertKeys_weave hbase hanchor (hperm.nodup_iff.mpr (List.nodup_cons.mpr ⟨hnew, hnodup⟩))]
        · congr 1
          funext p
          by_cases hp : p = anchor
          · subst hp
            simp [runAfter, hmem]
          · rw [Function.update_of_ne hp, runAfter, if_neg hmem, if_neg (Ne.symm hp)]
        · intro p k' hk'
          by_cases hp : p = anchor
          · subst hp
            rw [Function.update_self, List.mem_append, List.mem_singleton] at hk'
            rcases hk' with hk' | rfl
            · exact hrun p k' hk'
            · exact hmem
          · rw [Function.update_of_ne hp] at hk'
            exact hrun p k' hk'
        · exact Or.inr ⟨k, by simp, rfl⟩
        · exact hside
        · intro k' hk' hnot hin
          rcases List.mem_cons.mp (hperm.mem_iff.mp hin) with rfl | hin
          · exact hk hk'
          · exact hfresh k' (List.mem_cons_of_mem k hk') hnot hin

theorem weave_nil (base : List Key) : weave base (fun _ => []) = base := by
  simp [weave]

theorem mem_weave : k ∈ weave base run ↔ k ∈ run none ∨ ∃ k' ∈ base, k = k' ∨ k ∈ run (some k') := by
  rw [weave, List.mem_append, List.mem_flatMap]
  simp

/-- The order of a merged level whose sides share no additions. -/
theorem orderedKeys_eq {a b : List Key} (hbase : base.Nodup) (ha : a.Nodup) (hb : b.Nodup)
    (hshare : ∀ k ∈ a, k ∉ base → k ∉ b) : orderedKeys base a b =
      weave base fun p => runAfter base p none a ++ runAfter base p none b := by
  have hfirst : (a.foldl (insertKey base) (base, none)).1 =
      weave base fun p => runAfter base p none a := by
    have hlast : Behind (fun _ => []) none none := Or.inl rfl
    have h := insertKeys_weave hbase (by simp) (by rwa [weave_nil]) (by simp) hlast ha
      (by rw [weave_nil]; exact fun _ _ h => h)
    simpa [weave_nil] using h
  have hnodup : (a.foldl (insertKey base) (base, none)).1.Nodup :=
    List.foldlRecOn a (insertKey base) (motive := fun s : List Key × Option Key => s.1.Nodup) hbase
      fun _ hs _ _ => nodup_insertKey hs
  rw [hfirst] at hnodup
  rw [orderedKeys]
  simp only [hfirst]
  refine insertKeys_weave hbase (by simp) hnodup (fun p k hk => (mem_runAfter hk).2)
    (Or.inl rfl) hb fun k hk hnot hin => ?_
  rw [mem_weave] at hin
  rcases hin with hin | ⟨k', hk', rfl | hin⟩
  · exact hshare k (mem_runAfter hin).1 hnot hk
  · exact hnot hk'
  · exact hshare k (mem_runAfter hin).1 hnot hk

/-- A side that keeps the base's order, with its additions in the runs, is part of the weave. -/
theorem sublist_weave : ∀ {side : List Key} {anchor : Option Key} {rest : List Key}
    {run : Option Key → List Key}, rest.Nodup → (∀ k ∈ rest, some k ≠ anchor) →
    (side.filter (· ∈ base)).Sublist rest →
    (∀ p, (runAfter base p anchor side).Sublist (run p)) →
    side.Sublist (run anchor ++ rest.flatMap fun k => k :: run (some k))
  | [], _, _, _, _, _, _, _ => List.nil_sublist _
  | k :: side, anchor, rest, run, hrest, hanchor, hbase, hrun => by
      by_cases hmem : k ∈ base
      · rw [List.filter_cons_of_pos (by simpa using hmem)] at hbase
        obtain ⟨front, back, rfl, hk, hside⟩ := List.cons_sublist_iff.mp hbase
        obtain ⟨before, after, rfl⟩ := List.append_of_mem hk
        obtain ⟨-, hback, happart⟩ := List.nodup_append.mp hrest
        have hsub : side.Sublist (run (some k) ++ back.flatMap fun k => k :: run (some k)) :=
          sublist_weave hback
            (fun k' hk' heq => happart k (by simp) k' hk' (Option.some.inj heq).symm) hside
            fun p => by simpa [runAfter, hmem] using hrun p
        have hcons := hsub.cons_cons k
        simp only [List.flatMap_append, List.flatMap_cons, List.append_assoc, List.cons_append]
        refine (List.Sublist.trans hcons ?_).trans (List.sublist_append_right _ _)
        refine List.Sublist.trans ?_ (List.sublist_append_right _ _)
        exact ((List.sublist_append_right _ _).append_left _).cons_cons k
      · have hhere := hrun anchor
        rw [runAfter, if_neg hmem, if_pos rfl] at hhere
        obtain ⟨front, back, hsplit, hk, hback⟩ := List.cons_sublist_iff.mp hhere
        rw [List.filter_cons_of_neg (by simpa using hmem)] at hbase
        have hruns : ∀ p, (runAfter base p anchor side).Sublist
            (Function.update run anchor back p) := by
            intro p
            by_cases hp : p = anchor
            · subst hp
              rwa [Function.update_self]
            · have hother := hrun p
              rw [runAfter, if_neg hmem, if_neg (Ne.symm hp)] at hother
              rwa [Function.update_of_ne hp]
        have hsub := sublist_weave hrest hanchor hbase hruns
        rw [Function.update_self, flatMap_update hanchor] at hsub
        rw [hsplit, List.append_assoc]
        exact (List.singleton_sublist.mpr hk).append hsub

theorem sublist_weave_none {side : List Key} {run : Option Key → List Key} (hbase : base.Nodup)
    (hside : (side.filter (· ∈ base)).Sublist base)
    (hrun : ∀ p, (runAfter base p none side).Sublist (run p)) : side.Sublist (weave base run) :=
  sublist_weave hbase (fun k _ => Option.some_ne_none k) hside hrun

/-- The runs behind a key stand together. -/
theorem infix_weave (run : Option Key → List Key) (hk : k ∈ base) :
    k :: run (some k) <:+: weave base run := by
  obtain ⟨before, after, rfl⟩ := List.append_of_mem hk
  refine ⟨run none ++ before.flatMap (fun k => k :: run (some k)),
    after.flatMap (fun k => k :: run (some k)), ?_⟩
  simp [weave]

end Weave

section Given

variable {base side : List Unit} {s : Aligned} {i : ℕ} {key : Key} {u : Unit}

theorem out_alignId_of_ne {e : Unit × ℕ} (h : e.2 ≠ i) : (alignId base s e).out i = s.out i := by
  unfold alignId
  split
  · split
    · rfl
    · exact Function.update_of_ne (Ne.symm h) _ _
  · rfl

theorem out_alignIds_of_lt : ∀ (side : List Unit) {n : ℕ} {s : Aligned}, i < n →
    ((side.zipIdx n).foldl (alignId base) s).out i = s.out i
  | [], _, _, _ => rfl
  | u :: side, n, s, h => by
      rw [List.zipIdx_cons, List.foldl_cons, out_alignIds_of_lt side (Nat.lt_succ_of_lt h),
        out_alignId_of_ne h.ne']

/-- The first unit that carries a base id gets it. -/
theorem out_alignIds_first {b : ℕ} (hb : byNid base u.nid = some b) : ∀ {side : List Unit} {n i : ℕ}
    {s : Aligned}, b ∉ s.taken → side[i]? = some u →
    (∀ j < i, ∀ v, side[j]? = some v → v.nid ≠ u.nid) →
    ((side.zipIdx n).foldl (alignId base) s).out (n + i) = some (.id u.nid)
  | [], _, _, _, _, hu, _ => by simp at hu
  | v :: side, n, 0, s, htaken, hu, _ => by
      obtain rfl : v = u := by simpa using hu
      rw [List.zipIdx_cons, List.foldl_cons]
      refine (out_alignIds_of_lt side (Nat.lt_add_one n)).trans ?_
      unfold alignId
      rw [hb]
      simp only [if_neg htaken, Aligned.take, Function.update_self]
  | v :: side, n, i + 1, s, htaken, hu, hfirst => by
      have hne : v.nid ≠ u.nid := hfirst 0 (Nat.succ_pos i) v rfl
      rw [List.zipIdx_cons, List.foldl_cons, ← Nat.add_assoc, Nat.add_right_comm]
      refine out_alignIds_first hb ?_ hu fun j hj w hw => hfirst (j + 1) (Nat.succ_lt_succ hj) w hw
      unfold alignId
      split
      · rename_i c hc
        split
        · exact htaken
        · refine fun hmem => (List.mem_cons.mp hmem).elim (fun heq => hne ?_) htaken
          obtain ⟨w, hw, hwv⟩ := byNid_spec hc
          obtain ⟨x, hx, hxu⟩ := byNid_spec hb
          rw [heq, hw] at hx
          rw [← hwv, ← hxu, Option.some.inj hx]
      · exact htaken

theorem out_alignRecorded (h : s.out i = some key) (r : Rename) :
    (alignRecorded base side s r).out i = some key := by
  unfold alignRecorded
  split
  · split
    · exact h
    · split
      · rename_i j hfind
        have hkeep := List.find?_some hfind
        have hfree := (of_decide_eq_true hkeep).1
        refine (Function.update_of_ne ?_ _ _).trans h
        rintro rfl
        rw [h] at hfree
        cases hfree
      · exact h
  · exact h

theorem out_alignBody {s : Aligned × List (Unit × ℕ)} {e : Unit × ℕ} (h : e.2 ≠ i) :
    (alignBody s e).1.out i = s.1.out i := by
  unfold alignBody
  split
  · exact Function.update_of_ne (Ne.symm h) _ _
  · rfl

theorem out_alignRest {s : Aligned × List (Unit × ℕ)} {e : Unit × ℕ} (h : e.2 ≠ i) :
    (alignRest s e).1.out i = s.1.out i := by
  unfold alignRest
  split
  · exact Function.update_of_ne (Ne.symm h) _ _
  · rfl

theorem out_alignGroup {s : Aligned × List (String × String)} (h : s.1.out i = some key)
    (e : Unit × ℕ) : (alignGroup base side s e).1.out i = some key := by
  unfold alignGroup
  dsimp only
  split
  · exact h
  · have hmember : ∀ e' ∈ (side.zipIdx.drop e.2).filter fun e' =>
        (s.1.out e'.2).isNone ∧ e'.1.kind = e.1.kind ∧ e'.1.name = e.1.name, e'.2 ≠ i := by
      rintro e' he' rfl
      have hfree := (of_decide_eq_true (List.mem_filter.mp he').2).1
      rw [h] at hfree
      cases hfree
    refine List.foldlRecOn _ _
      (motive := fun s : Aligned × List (Unit × ℕ) => s.1.out i = some key) ?_
      fun s hs e he => (out_alignRest (hmember e he)).trans hs
    exact List.foldlRecOn _ _
      (motive := fun s : Aligned × List (Unit × ℕ) => s.1.out i = some key) h
      fun s hs e he => (out_alignBody (hmember e he)).trans hs

/-- A unit that carries a base id gets it, unless an earlier one carries it too. -/
theorem key_of_nid (recorded : List Rename) (hu : side[i]? = some u)
    (hmem : u.nid ∈ base.map Unit.nid)
    (hfirst : ∀ j < i, ∀ v, side[j]? = some v → v.nid ≠ u.nid) :
    (keys base side recorded)[i]? = some (.id u.nid) := by
  obtain ⟨b, hb⟩ : ∃ b, byNid base u.nid = some b := by
    cases h : byNid base u.nid with
    | some b => exact ⟨b, rfl⟩
    | none =>
        obtain ⟨v, hv, hnid⟩ := List.mem_map.mp hmem
        obtain ⟨c, hc⟩ := List.mem_iff_getElem?.mp hv
        rw [byNid, Option.map_eq_none_iff, List.find?_eq_none] at h
        have hplace : (v, c) ∈ base.zipIdx := List.mem_zipIdx_iff_getElem?.mpr hc
        exact absurd (decide_eq_true hnid) (h _ (List.mem_reverse.mpr hplace))
  have hout : (aligned base side recorded).out i = some (.id u.nid) := by
    unfold aligned
    refine List.foldlRecOn _ _
      (motive := fun s : Aligned × List (String × String) => s.1.out i = some (.id u.nid)) ?_
      fun s hs e _ => out_alignGroup hs e
    refine List.foldlRecOn _ _ (motive := fun s : Aligned => s.out i = some (.id u.nid)) ?_
      fun s hs r _ => out_alignRecorded hs r
    have h := out_alignIds_first (n := 0) (s := ⟨[], fun _ => none⟩) hb List.not_mem_nil hu hfirst
    rwa [Nat.zero_add] at h
  rw [keys, List.getElem?_map, List.getElem?_zipIdx, hu]
  simp [hout]

end Given

/-- The units of a side have keys of their own, and the order of the merged level has every
key once: those of the base in its order and, where the sides keep that order and share no
additions, each side's in its own, with one side's additions behind a key before the
other's. -/
theorem keys_and_order (base : List Unit) (hbase : (base.map Unit.nid).Nodup)
    (a b : List Unit) (recordedA recordedB : List Rename) :
    (∀ (side : List Unit) (recorded : List Rename), (keys base side recorded).Nodup ∧
      (keys base side recorded).length = side.length ∧
      ∀ (i : ℕ) (u : Unit), side[i]? = some u → u.nid ∈ base.map Unit.nid →
        (∀ j < i, ∀ v : Unit, side[j]? = some v → v.nid ≠ u.nid) →
        (keys base side recorded)[i]? = some (Key.id u.nid)) ∧
    ∀ baseKeys keysA keysB : List Key, baseKeys = (baseLevel base).keys →
      keysA = keys base a recordedA →
      keysB = keys base b recordedB →
      (orderedKeys baseKeys keysA keysB).Nodup ∧
      (∀ k, k ∈ orderedKeys baseKeys keysA keysB ↔ k ∈ baseKeys ∨ k ∈ keysA ∨ k ∈ keysB) ∧
      baseKeys.Sublist (orderedKeys baseKeys keysA keysB) ∧
      ((keysA.filter (· ∈ baseKeys)).Sublist baseKeys →
        (keysB.filter (· ∈ baseKeys)).Sublist baseKeys →
        (∀ k ∈ keysA, k ∉ baseKeys → k ∉ keysB) →
        keysA.Sublist (orderedKeys baseKeys keysA keysB) ∧
        keysB.Sublist (orderedKeys baseKeys keysA keysB) ∧
        runAfter baseKeys none none keysA ++ runAfter baseKeys none none keysB <+:
          orderedKeys baseKeys keysA keysB ∧
        ∀ k ∈ baseKeys, k :: (runAfter baseKeys (some k) none keysA ++
          runAfter baseKeys (some k) none keysB) <:+: orderedKeys baseKeys keysA keysB) := by
  refine ⟨fun side recorded => ⟨nodup_keys hbase recorded, by simp [keys],
    fun i u hu hmem hfirst => key_of_nid recorded hu hmem hfirst⟩, ?_⟩
  rintro baseKeys keysA keysB rfl rfl rfl
  have hnodup := (lined_baseLevel hbase).distinct
  refine ⟨nodup_orderedKeys hnodup _ _, fun k => mem_orderedKeys, ?_, ?_⟩
  · have hkeep : ∀ {result : List Key} (side : List Key), (baseLevel base).keys.Sublist result →
        (baseLevel base).keys.Sublist
          (side.foldl (insertKey (baseLevel base).keys) (result, none)).1 := fun side h =>
      List.foldlRecOn side (insertKey (baseLevel base).keys)
        (motive := fun s : List Key × Option Key => (baseLevel base).keys.Sublist s.1) h
        fun s hs k _ => by
          unfold insertKey
          split
          · exact hs
          · exact hs.trans (List.sublist_insertIdx _ _ _)
    exact hkeep _ (hkeep _ (List.Sublist.refl _))
  · intro hA hB hshare
    rw [orderedKeys_eq hnodup (nodup_keys hbase recordedA) (nodup_keys hbase recordedB) hshare]
    refine ⟨?_, ?_, List.prefix_append _ _, fun k hk => infix_weave (fun p =>
      runAfter (baseLevel base).keys p none (keys base a recordedA) ++
        runAfter (baseLevel base).keys p none (keys base b recordedB)) hk⟩
    · exact sublist_weave_none hnodup hA fun p => List.sublist_append_left _ _
    · exact sublist_weave_none hnodup hB fun p => List.sublist_append_right _ _

section Additions

def fnNamed (n : ℕ) (name : String) : Unit := ⟨.splat n, "fn", name, (0, 0), .splat n, 0, []⟩

def sharedLevel : List Unit := [fnNamed 0 "open"]

def laterLevel : List Unit := [fnNamed 0 "open", fnNamed 1 "read"]

def earlierLevel : List Unit := [fnNamed 2 "init", fnNamed 0 "open", fnNamed 3 "close"]

theorem keys_and_order_additions :
    (keys sharedLevel earlierLevel [])[1]? = some (Key.id (.splat 0)) ∧
      (keys sharedLevel laterLevel []).Sublist (orderedKeys (baseLevel sharedLevel).keys
        (keys sharedLevel laterLevel []) (keys sharedLevel earlierLevel [])) := by
  have hbase : (sharedLevel.map Unit.nid).Nodup := by decide +kernel
  obtain ⟨hkeys, horder⟩ := keys_and_order sharedLevel hbase laterLevel earlierLevel [] []
  refine ⟨(hkeys earlierLevel []).2.2 1 (fnNamed 0 "open") rfl (by decide +kernel) ?_, ?_⟩
  · intro j hj v hv
    obtain rfl : j = 0 := Nat.lt_one_iff.mp hj
    obtain rfl : fnNamed 2 "init" = v := Option.some.inj hv
    decide +kernel
  · exact ((horder _ _ _ rfl rfl rfl).2.2.2 (by decide +kernel) (by decide +kernel)
      (by decide +kernel)).1

end Additions

end Tessra.Semantic.Merge
