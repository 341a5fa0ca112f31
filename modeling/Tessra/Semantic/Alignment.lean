import Tessra.Data.Lists
import Tessra.Semantic.Nesting

namespace Tessra.Semantic.Merge

open Tessra.Core Tessra.Data
open Tessra.Daemon (Rename)

/-! The keys of a level: no two units of a side share one, and the merged level has the
key of every unit once. -/

section Align

variable {base side : List Unit}

/-- The keys given so far are those of base units that are taken, and no two units share
one. -/
structure Aligned.Valid (base : List Unit) (s : Aligned) : Prop where
  ofBase : ∀ i k, s.out i = some k → ∃ b ∈ s.taken, ∃ u, base[b]? = some u ∧ k = .id u.nid
  injective : ∀ i j k, s.out i = some k → s.out j = some k → i = j

variable (hbase : (base.map Unit.nid).Nodup)
include hbase

theorem place_unique {b c : ℕ} {u v : Unit} (hb : base[b]? = some u) (hc : base[c]? = some v)
    (h : u.nid = v.nid) : b = c := by
  have hlt : b < (base.map Unit.nid).length := by
    rw [List.length_map]
    exact (List.getElem?_eq_some_iff.mp hb).1
  refine (List.getElem?_inj hlt hbase).mp ?_
  rw [List.getElem?_map, List.getElem?_map, hb, hc, Option.map_some, Option.map_some, h]

theorem Aligned.Valid.take {s : Aligned} (h : s.Valid base) {b : ℕ} {u : Unit} (i : ℕ)
    (hb : b ∉ s.taken) (hu : base[b]? = some u) : (s.take b i u.nid).Valid base where
  ofBase j k hk := by
    simp only [Aligned.take, Function.update_apply] at hk
    split at hk
    · exact ⟨b, List.mem_cons_self, u, hu, (Option.some.inj hk).symm⟩
    · obtain ⟨c, hc, v, hv, hkey⟩ := h.ofBase j k hk
      exact ⟨c, List.mem_cons_of_mem _ hc, v, hv, hkey⟩
  injective j l k hj hl := by
    have fresh : ∀ {j}, s.out j ≠ some (.id u.nid) := by
      intro j hj
      obtain ⟨c, hc, v, hv, hkey⟩ := h.ofBase j _ hj
      exact hb (place_unique hbase hu hv (Key.id.inj hkey) ▸ hc)
    simp only [Aligned.take, Function.update_apply] at hj hl
    split at hj <;> split at hl
    · rename_i hji hli
      rw [hji, hli]
    · exact (fresh (hl.trans hj.symm)).elim
    · exact (fresh (hj.trans hl.symm)).elim
    · exact h.injective j l k hj hl

omit hbase in
theorem byNid_spec {nid : EntityId} {b : ℕ} (h : byNid base nid = some b) :
    ∃ u, base[b]? = some u ∧ u.nid = nid := by
  obtain ⟨e, he, rfl⟩ := Option.map_eq_some_iff.mp h
  have hmem := List.mem_reverse.mp (List.mem_of_find?_eq_some he)
  have hnid := List.find?_some he
  exact ⟨e.1, List.mem_zipIdx_iff_getElem?.mp hmem, of_decide_eq_true hnid⟩

theorem byNid_of_getElem? {b : ℕ} {u : Unit} (hu : base[b]? = some u) :
    byNid base u.nid = some b := by
  cases h : byNid base u.nid with
  | none =>
      rw [byNid, Option.map_eq_none_iff, List.find?_eq_none] at h
      have hmem : (u, b) ∈ base.zipIdx := List.mem_zipIdx_iff_getElem?.mpr hu
      exact absurd (decide_eq_true rfl) (h _ (List.mem_reverse.mpr hmem))
  | some c =>
      obtain ⟨v, hv, hnid⟩ := byNid_spec h
      rw [place_unique hbase hv hu hnid]

theorem Aligned.Valid.alignId {s : Aligned} (h : s.Valid base) (e : Unit × ℕ) :
    (alignId base s e).Valid base := by
  unfold Merge.alignId
  split
  · rename_i b hb
    split
    · exact h
    · rename_i hfree
      obtain ⟨u, hu, hnid⟩ := byNid_spec hb
      exact hnid ▸ h.take hbase e.2 hfree hu
  · exact h

theorem Aligned.Valid.alignRecorded {s : Aligned} (h : s.Valid base) (r : Rename) :
    (alignRecorded base side s r).Valid base := by
  unfold Merge.alignRecorded
  split
  · rename_i u b hfind
    have hmem := List.mem_zipIdx_iff_getElem?.mp (List.mem_of_find?_eq_some hfind)
    have hkeep := List.find?_some hfind
    have hfree := (of_decide_eq_true hkeep).2
    rw [byNid_of_getElem? hbase hmem, Option.all_some, decide_eq_true_eq] at hfree
    split
    · exact h
    · split
      · exact h.take hbase _ hfree hmem
      · exact h
  · exact h

/-- Base units that may still be taken, each in its place. -/
def Offers (base : List Unit) (s : Aligned × List (Unit × ℕ)) : Prop :=
  s.1.Valid base ∧ (s.2.map Prod.snd).Nodup ∧ ∀ c ∈ s.2, c.2 ∉ s.1.taken ∧ base[c.2]? = some c.1

theorem Offers.take {s : Aligned} {offers rest : List (Unit × ℕ)} {c : Unit × ℕ} (i : ℕ)
    (h : Offers base (s, offers)) (hperm : offers.Perm (c :: rest)) :
    Offers base (s.take c.2 i c.1.nid, rest) := by
  obtain ⟨hvalid, hnodup, hfree⟩ := h
  have hc := hfree c (hperm.mem_iff.mpr List.mem_cons_self)
  obtain ⟨hnotMem, hrest⟩ := List.nodup_cons.mp ((hperm.map Prod.snd).nodup_iff.mp hnodup)
  refine ⟨hvalid.take hbase i hc.1 hc.2, hrest, fun d hd => ?_⟩
  obtain ⟨hd', hplace⟩ := hfree d (hperm.mem_iff.mpr (List.mem_cons_of_mem _ hd))
  refine ⟨fun hmem => ?_, hplace⟩
  rcases List.mem_cons.mp hmem with heq | hmem
  · exact hnotMem (heq ▸ List.mem_map_of_mem hd)
  · exact hd' hmem

theorem Offers.alignBody {s : Aligned × List (Unit × ℕ)} (h : Offers base s) (e : Unit × ℕ) :
    Offers base (alignBody s e) := by
  unfold Merge.alignBody
  split
  · rename_i c hfind
    refine Offers.take hbase e.2 h ?_
    obtain ⟨p, before, after, hsplit, hbefore⟩ := List.find?_eq_some_iff_append.mp hfind
    rw [hsplit, List.eraseP_append_right _ (fun x hx => by simpa using hbefore x hx),
      List.eraseP_cons_of_pos (p := fun c : Unit × ℕ => decide (c.1.body = e.1.body)) p]
    exact List.perm_middle
  · exact h

theorem Offers.alignRest {s : Aligned × List (Unit × ℕ)} (h : Offers base s) (e : Unit × ℕ) :
    Offers base (alignRest s e) := by
  obtain ⟨s, offers⟩ := s
  unfold Merge.alignRest
  split
  · rename_i c rest _ heq
    cases heq
    exact Offers.take hbase e.2 h (List.Perm.refl _)
  · exact h

theorem Aligned.Valid.alignGroup {s : Aligned × List (String × String)} (h : s.1.Valid base)
    (e : Unit × ℕ) : (alignGroup base side s e).1.Valid base := by
  unfold Merge.alignGroup
  dsimp only
  split
  · exact h
  · refine (List.foldlRecOn _ _ (motive := Offers base) ?_ fun _ hs e _ => hs.alignRest hbase e).1
    refine List.foldlRecOn _ _ (motive := Offers base) ?_ fun _ hs e _ => hs.alignBody hbase e
    refine ⟨h, ?_, fun c hc => ?_⟩
    · exact (List.nodup_zipIdx_map_snd base).sublist (List.filter_sublist.map _)
    · obtain ⟨hc, hkeep⟩ := List.mem_filter.mp hc
      exact ⟨(of_decide_eq_true hkeep).1, List.mem_zipIdx_iff_getElem?.mp hc⟩

theorem valid_aligned (recorded : List Rename) : (aligned base side recorded).Valid base := by
  unfold aligned
  refine List.foldlRecOn _ _
    (motive := fun s : Aligned × List (String × String) => s.1.Valid base) ?_
    fun _ hs e _ => Aligned.Valid.alignGroup hbase hs e
  refine List.foldlRecOn _ _ (motive := Aligned.Valid base) ?_
    fun _ hs r _ => hs.alignRecorded hbase r
  refine List.foldlRecOn _ _ (motive := Aligned.Valid base) ?_
    fun _ hs e _ => hs.alignId hbase e
  exact ⟨fun _ _ h => by simp at h, fun _ _ _ h => by simp at h⟩

end Align

section Lined

/-- A level whose keys are as many as its units and all different. -/
structure Level.Lined (l : Level) : Prop where
  distinct : l.keys.Nodup
  length_keys : l.keys.length = l.units.length

theorem Level.place_of_find {l : Level} {key : Key} {u : Unit} (hfind : l.find key = some u) :
    ∃ i : ℕ, l.keys[i]? = some key ∧ l.units[i]? = some u := by
  obtain ⟨i, hidx, hi⟩ := Option.bind_eq_some_iff.mp hfind
  obtain ⟨hlt, hkey, _⟩ := List.idxOf?_eq_some_iff.mp hidx
  exact ⟨i, List.getElem?_eq_some_iff.mpr ⟨hlt, hkey⟩, hi⟩

namespace Level.Lined

variable {l : Level} (h : l.Lined) {key key' : Key} {u : Unit}
include h

theorem find_getElem {i : ℕ} (hkey : l.keys[i]? = some key) : l.find key = l.units[i]? := by
  obtain ⟨hi, rfl⟩ := List.getElem?_eq_some_iff.mp hkey
  have hidx : l.keys.idxOf? l.keys[i] = some i := by
    refine List.idxOf?_eq_some_iff.mpr ⟨hi, rfl, fun j hj heq => ?_⟩
    exact hj.ne ((List.Nodup.getElem_inj_iff h.distinct).mp heq)
  rw [find, hidx, Option.bind_some]

/-- Every unit of a level is found under a key of its own. -/
theorem exists_key (hu : u ∈ l.units) : ∃ key ∈ l.keys, l.find key = some u := by
  obtain ⟨i, hi⟩ := List.mem_iff_getElem?.mp hu
  have hlt : i < l.keys.length := h.length_keys ▸ (List.getElem?_eq_some_iff.mp hi).1
  have hkey : l.keys[i]? = some l.keys[i] := List.getElem?_eq_getElem hlt
  exact ⟨l.keys[i], List.getElem_mem hlt, (h.find_getElem hkey).trans hi⟩

end Level.Lined

variable {base side : List Unit}

theorem lined_baseLevel (hbase : (base.map Unit.nid).Nodup) : (baseLevel base).Lined where
  distinct := by
    have heq : base.map (Key.id ·.nid) = (base.map Unit.nid).map Key.id := by simp
    rw [baseLevel, heq]
    exact hbase.map fun _ _ h => Key.id.inj h
  length_keys := List.length_map _

theorem nodup_keys (hbase : (base.map Unit.nid).Nodup) (recorded : List Rename) :
    (keys base side recorded).Nodup := by
  have hvalid : (aligned base side recorded).Valid base := valid_aligned hbase recorded
  generalize hs : aligned base side recorded = s at hvalid
  unfold keys
  rw [hs]
  refine List.Nodup.map_on ?_ (List.Nodup.of_map _ (List.nodup_zipIdx_map_snd side))
  rintro ⟨u, i⟩ hu ⟨v, j⟩ hv heq
  have hu := List.mem_zipIdx_iff_getElem?.mp hu
  have hv := List.mem_zipIdx_iff_getElem?.mp hv
  have same : i = j → (u, i) = (v, j) := by
    rintro rfl
    exact congrArg (·, i) (Option.some.inj (hu.symm.trans hv))
  have placed : ∀ {w : Unit} {k : ℕ}, side[k]? = some w → side.zipIdx[k]? = some (w, k) := by
    intro w k hw
    simp [hw]
  dsimp only at hu hv heq
  cases hi : s.out i with
  | some k =>
      obtain ⟨_, _, x, _, rfl⟩ := hvalid.ofBase i k hi
      cases hj : s.out j with
      | some k' =>
          rw [hi, hj] at heq
          exact same (hvalid.injective i j _ (hi.trans (congrArg some heq)) hj)
      | none =>
          rw [hi, hj] at heq
          cases heq
  | none =>
      cases hj : s.out j with
      | some k' =>
          obtain ⟨_, _, x, _, rfl⟩ := hvalid.ofBase j k' hj
          rw [hi, hj] at heq
          cases heq
      | none =>
          rw [hi, hj] at heq
          obtain ⟨hkind, hname, hordinal⟩ := Key.new.inj heq
          rw [hkind, hname] at hordinal
          rcases Nat.lt_trichotomy i j with hij | hij | hij
          · refine absurd hordinal (length_filter_take_lt hij (placed hu) ?_).ne
            exact decide_eq_true ⟨by rw [hi]; rfl, hkind, hname⟩
          · exact same hij
          · refine absurd hordinal (length_filter_take_lt hij (placed hv) ?_).ne'
            exact decide_eq_true ⟨by rw [hj]; rfl, rfl, rfl⟩

theorem lined_sideLevel (ctx : Ctx) (hbase : (base.map Unit.nid).Nodup)
    (units : Side → List Unit) (s : Side) : (sideLevel ctx base units s).Lined where
  distinct := nodup_keys hbase _
  length_keys := by simp [sideLevel, keys]

end Lined

section Order

variable {base : List Key}

theorem placeAfter_le (keys : List Key) (last : Option Key) :
    placeAfter keys last ≤ keys.length := by
  cases last with
  | none => exact keys.length.zero_le
  | some p =>
      rw [placeAfter]
      cases hidx : keys.idxOf? p with
      | none => exact le_rfl
      | some i => exact (List.idxOf?_eq_some_iff.mp hidx).1

theorem insertIdx_length (x : Key) (front back : List Key) :
    (front ++ back).insertIdx front.length x = front ++ x :: back := by
  induction front with
  | nil => rfl
  | cons y front ih =>
      rw [List.cons_append, List.length_cons, List.insertIdx_succ_cons, ih, List.cons_append]

theorem perm_insertKey {s : List Key × Option Key} {key : Key} (h : key ∉ s.1) :
    (insertKey base s key).1.Perm (key :: s.1) := by
  rw [insertKey, if_neg h]
  refine List.perm_insertIdx _ _ ?_
  have hle := placeAfter_le s.1 s.2
  have htake := (List.takeWhile_sublist (fun k => decide (k ∉ base))
    (l := s.1.drop (placeAfter s.1 s.2))).length_le
  rw [List.length_drop] at htake
  omega

theorem mem_insertKey {s : List Key × Option Key} {key k : Key} :
    k ∈ (insertKey base s key).1 ↔ k ∈ s.1 ∨ k = key := by
  by_cases h : key ∈ s.1
  · rw [insertKey, if_pos h]
    exact ⟨Or.inl, fun hk => hk.elim id fun heq => heq ▸ h⟩
  · rw [(perm_insertKey h).mem_iff, List.mem_cons, or_comm]

theorem nodup_insertKey {s : List Key × Option Key} {key : Key} (hs : s.1.Nodup) :
    (insertKey base s key).1.Nodup := by
  by_cases h : key ∈ s.1
  · rwa [insertKey, if_pos h]
  · exact (perm_insertKey h).nodup_iff.mpr (List.nodup_cons.mpr ⟨h, hs⟩)

theorem mem_insertKeys {k : Key} (side : List Key) : ∀ s : List Key × Option Key,
    k ∈ (side.foldl (insertKey base) s).1 ↔ k ∈ s.1 ∨ k ∈ side := by
  induction side with
  | nil => simp
  | cons key side ih =>
      intro s
      rw [List.foldl_cons, ih, mem_insertKey, List.mem_cons, or_assoc]

theorem mem_orderedKeys {a b : List Key} {k : Key} :
    k ∈ orderedKeys base a b ↔ k ∈ base ∨ k ∈ a ∨ k ∈ b := by
  rw [orderedKeys, mem_insertKeys, mem_insertKeys, or_assoc]

theorem nodup_orderedKeys (hbase : base.Nodup) (a b : List Key) :
    (orderedKeys base a b).Nodup := by
  have additions : ∀ {result : List Key} (side : List Key), result.Nodup →
      (side.foldl (insertKey base) (result, none)).1.Nodup := fun side h =>
    List.foldlRecOn side (insertKey base) (motive := fun s : List Key × Option Key => s.1.Nodup) h
      fun _ hs _ _ => nodup_insertKey hs
  exact additions b (additions a hbase)

end Order

end Tessra.Semantic.Merge
