import Tessra.Core.TrieEntries
import Tessra.Oplog.View

namespace Tessra.Oplog

open Tessra.Core Tessra.Data StoreM

/-! What a view says, and what applying effects and merging do to it. -/

/-- The contents of a view's tries, by the bytes of their keys. -/
structure Contents where
  entities : Bytes → Option TrieValue
  proposed : Bytes → Option TrieValue
  claims : Bytes → Option TrieValue
  caps : Bytes → Option TrieValue
  revoked : Bytes → Option TrieValue
  tombstoned : Bytes → Option TrieValue

namespace Contents

def empty : Contents :=
  ⟨fun _ => none, fun _ => none, fun _ => none, fun _ => none, fun _ => none, fun _ => none⟩

/-- What an effect does to the contents. -/
def act (c : Contents) : Effect → Contents
  | .point entity to_ _ =>
      { c with entities := Function.update c.entities entity.bytes (some (.id to_)) }
  | .unpoint entity => { c with entities := Function.update c.entities entity.bytes none }
  | .propose rev => { c with proposed := Function.update c.proposed rev.bytes (some .set) }
  | .unpropose rev => { c with proposed := Function.update c.proposed rev.bytes none }
  | .claim claim to_ =>
      { c with claims := Function.update c.claims claim.bytes (some (.id to_)) }
  | .unclaim claim => { c with claims := Function.update c.claims claim.bytes none }
  | .cap cap => { c with caps := Function.update c.caps cap.bytes (some .set) }
  | .uncap cap => { c with caps := Function.update c.caps cap.bytes none }
  | .revoke principal =>
      { c with revoked := Function.update c.revoked principal.bytes (some .set) }
  | .tomb of _ => { c with tombstoned := Function.update c.tombstoned of.bytes (some .set) }
  | _ => c

def actAll (c : Contents) (effects : List Effect) : Contents := effects.foldl act c

def union (sets : List (Bytes → Option TrieValue)) (key : Bytes) : Option TrieValue :=
  if sets.any fun f => (f key).isSome then some .set else none

def merge (base a b : Contents) : Contents where
  entities key := threeWay .pointers (base.entities key) (a.entities key) (b.entities key)
  proposed key := threeWay .set (base.proposed key) (a.proposed key) (b.proposed key)
  claims key := threeWay .pointers (base.claims key) (a.claims key) (b.claims key)
  caps key := threeWay .set (base.caps key) (a.caps key) (b.caps key)
  revoked := union [base.revoked, a.revoked, b.revoked]
  tombstoned := union [base.tombstoned, a.tombstoned, b.tombstoned]

end Contents

/-- Every member of a set is held as one. -/
def IsSet (f : Bytes → Option TrieValue) : Prop := ∀ k x, f k = some x → x = .set

theorem IsSet.update {f : Bytes → Option TrieValue} (h : IsSet f) (key : Bytes) :
    IsSet (Function.update f key (some .set)) := by
  intro k x hk
  by_cases heq : k = key
  · subst heq
    rw [Function.update_self] at hk
    exact (Option.some.inj hk).symm
  · rw [Function.update_of_ne heq] at hk
    exact h k x hk

theorem isSet_union (sets : List (Bytes → Option TrieValue)) :
    IsSet (Contents.union sets) := by
  intro k x hk
  unfold Contents.union at hk
  split_ifs at hk
  exact (Option.some.inj hk).symm

/-- No scope is paused twice, and an absent list is not an empty one. -/
structure PausedOnce (paused : Option (List PauseState)) : Prop where
  nodup : ((paused.getD []).map PauseState.scope).Nodup
  nonempty : paused ≠ some []

variable [Crypto]

/-- Every line head is a pointer. -/
def HeadsParse (lines : OrdMap String LineState) : Prop :=
  ∀ name ls, lines.get? name = some ls → ∃ p : Pointer, ls.head = p.toValue

/-- A well-formed view of contents `c`. -/
structure Sound (S : Store) (v : View) (c : Contents) : Prop where
  entities : Represents 16 S v.entities c.entities
  proposed : Represents 32 S v.proposed c.proposed
  claims : Represents 16 S v.claims c.claims
  caps : Represents 32 S v.caps c.caps
  revoked : Represents 16 S v.revoked c.revoked
  tombstoned : Represents 32 S v.tombstoned c.tombstoned
  revoked_set : IsSet c.revoked
  tombstoned_set : IsSet c.tombstoned
  roots : v.roots.Pairwise (· < ·)
  owners : v.owners.Pairwise (· < ·)
  paused : PausedOnce v.paused
  heads : HeadsParse v.lines

theorem Sound.mono {S S' : Store} {v : View} {c : Contents} (h : Sound S v c)
    (hsub : S ⊆ S') : Sound S' v c :=
  { h with
    entities := h.entities.mono hsub
    proposed := h.proposed.mono hsub
    claims := h.claims.mono hsub
    caps := h.caps.mono hsub
    revoked := h.revoked.mono hsub
    tombstoned := h.tombstoned.mono hsub }

section Plain

omit [Crypto]

theorem pushSorted_pairwise {α : Type} [LinearOrder α] {l : List α}
    (h : l.Pairwise (· < ·)) (x : α) : (pushSorted x l).Pairwise (· < ·) := by
  unfold pushSorted
  split_ifs with hx
  · exact h
  · have hnodup : (l ++ [x]).Nodup := by
      rw [List.nodup_append]
      refine ⟨h.imp fun hlt => hlt.ne, List.nodup_singleton x, ?_⟩
      intro a ha b hb heq
      exact hx (List.mem_singleton.mp hb ▸ heq ▸ ha)
    have hperm := List.perm_insertionSort (· ≤ ·) (l ++ [x])
    have hsorted := List.pairwise_insertionSort (· ≤ ·) (l ++ [x])
    exact (hsorted.and (hperm.nodup_iff.mpr hnodup)).imp fun hle => lt_of_le_of_ne hle.1 hle.2

@[simp] theorem keepPaused_getD (list : List PauseState) :
    (keepPaused list).getD [] = list := by
  unfold keepPaused
  cases list <;> rfl

theorem keepPaused_once {list : List PauseState}
    (h : (list.map PauseState.scope).Nodup) : PausedOnce (keepPaused list) := by
  refine ⟨by rwa [keepPaused_getD], ?_⟩
  unfold keepPaused
  cases list <;> simp

theorem PausedOnce.eq_keepPaused {paused : Option (List PauseState)}
    (h : PausedOnce paused) : paused = keepPaused (paused.getD []) := by
  rcases paused with _ | _ | ⟨p, list⟩
  · rfl
  · exact absurd rfl h.nonempty
  · rfl

theorem PausedOnce.pause {paused : Option (List PauseState)} (h : PausedOnce paused)
    (owners : List EntityId) (parentOp : Option ObjectId) (scope : String) :
    PausedOnce (pauseScope owners parentOp scope paused) := by
  simp only [pauseScope]
  split_ifs with hany
  · refine ⟨h.nodup, fun hempty => ?_⟩
    rw [Option.some.inj hempty] at hany
    cases hany
  · refine ⟨?_, by simp⟩
    simp only [Option.getD_some, List.map_append, List.map_cons, List.map_nil]
    rw [List.nodup_append]
    refine ⟨h.nodup, List.nodup_singleton _, ?_⟩
    intro s hs s' hs' heq
    apply hany
    obtain ⟨p, hp, rfl⟩ := List.mem_map.mp hs
    exact List.any_eq_true.mpr ⟨p, hp, by simpa [heq] using hs'⟩

theorem PausedOnce.resume {paused : Option (List PauseState)} (h : PausedOnce paused)
    (scope : String) : PausedOnce (resumeScope scope paused) := by
  cases paused with
  | none => exact h
  | some list =>
      apply keepPaused_once
      exact h.nodup.sublist (List.filter_sublist.map _)

theorem mergeSetVec_pairwise {α : Type} [LinearOrder α] (base a b : List α) :
    (mergeSetVec base a b).Pairwise (· < ·) :=
  (sortedDedup_pairwise _).filter _

theorem foldl_firstOfScopes {l acc : List PauseState} (h : (l.map PauseState.scope).Nodup) :
    l.foldl (fun paused p =>
      if paused.any (·.scope = p.scope) then paused else paused ++ [p]) acc =
        acc ++ l.filter fun p => !acc.any (·.scope = p.scope) := by
  induction l generalizing acc with
  | nil => simp
  | cons p l ih =>
      obtain ⟨hp, hl⟩ := List.nodup_cons.mp h
      rw [List.foldl_cons, ih hl, List.filter_cons]
      by_cases hany : acc.any (·.scope = p.scope)
      · simp [hany]
      · simp only [hany, Bool.false_eq_true, if_false, Bool.not_false, if_true,
          List.append_assoc, List.singleton_append, List.any_append]
        congr 2
        apply List.filter_congr
        intro q hq
        have hne : p.scope ≠ q.scope := fun heq =>
          hp (heq ▸ List.mem_map_of_mem hq)
        simp [hne]

theorem firstOfScopes_append {l l' : List PauseState}
    (h : (l.map PauseState.scope).Nodup) (h' : (l'.map PauseState.scope).Nodup) :
    firstOfScopes (l ++ l') = l ++ l'.filter fun p => !l.any (·.scope = p.scope) := by
  rw [firstOfScopes, List.foldl_append, foldl_firstOfScopes h, foldl_firstOfScopes h']
  simp

theorem firstOfScopes_nodup {l l' : List PauseState}
    (h : (l.map PauseState.scope).Nodup) (h' : (l'.map PauseState.scope).Nodup) :
    ((firstOfScopes (l ++ l')).map PauseState.scope).Nodup := by
  rw [firstOfScopes_append h h', List.map_append, List.nodup_append]
  refine ⟨h, h'.sublist (List.filter_sublist.map _), ?_⟩
  intro s hs s' hs' heq
  obtain ⟨p, hp, rfl⟩ := List.mem_map.mp hs
  obtain ⟨q, hq, rfl⟩ := List.mem_map.mp hs'
  have hnew := (List.mem_filter.mp hq).2
  have hany : l.any (·.scope = q.scope) := List.any_eq_true.mpr ⟨p, hp, by simp [heq]⟩
  rw [hany] at hnew
  cases hnew

theorem PausedOnce.merge {a b : Option (List PauseState)} (ha : PausedOnce a)
    (hb : PausedOnce b) : PausedOnce (mergePaused a b) := by
  apply keepPaused_once
  exact ((List.perm_insertionSort _ _).map _).nodup_iff.mpr
    (firstOfScopes_nodup ha.nodup hb.nodup)

end Plain

section Refine

variable {S : Store} {v base a b : View} {c cbase ca cb : Contents}

theorem returns_empty :
    ViewState.empty.Returns S fun v S' => Sound S' v .empty ∧ v.lines = ∅ ∧ v.deployed = ∅ := by
  refine returns_emptyRoot.bind fun root S' _ hroot => returns_pure ⟨?_, rfl, rfl⟩
  constructor
  · exact hroot 16
  · exact hroot 32
  · exact hroot 16
  · exact hroot 32
  · exact hroot 16
  · exact hroot 32
  · intro _ _ h
    cases h
  · intro _ _ h
    cases h
  · exact List.Pairwise.nil
  · exact List.Pairwise.nil
  · exact ⟨List.nodup_nil, by simp⟩
  · intro _ _ h
    cases h

/-- Lines stay with their ids, and a head that moved names one revision. -/
structure LinesFrom (v v' : View) : Prop where
  kept : ∀ {name ls}, v.lines.get? name = some ls →
    ∃ ls', v'.lines.get? name = some ls' ∧ ls'.id = ls.id
  moved : ∀ {name ls'}, v'.lines.get? name = some ls' →
    (∃ ls, v.lines.get? name = some ls ∧ ls'.head = ls.head) ∨
      ∃ i, ls'.head = (Pointer.id i).toValue

omit [Crypto] in
theorem LinesFrom.of_eq {v v' : View} (h : v'.lines = v.lines) : LinesFrom v v' := by
  constructor
  · intro name ls hls
    exact ⟨ls, by rwa [h], rfl⟩
  · intro name ls hls
    exact .inl ⟨ls, by rwa [← h], rfl⟩

omit [Crypto] in
theorem LinesFrom.trans {v v' v'' : View} (h : LinesFrom v v') (h' : LinesFrom v' v'') :
    LinesFrom v v'' := by
  constructor
  · intro name ls hls
    obtain ⟨ls', hls', hid⟩ := h.kept hls
    obtain ⟨ls'', hls'', hid'⟩ := h'.kept hls'
    exact ⟨ls'', hls'', hid'.trans hid⟩
  · intro name ls'' hls''
    rcases h'.moved hls'' with ⟨ls', hls', hhead⟩ | hmoved
    · rcases h.moved hls' with ⟨ls, hls, hhead'⟩ | ⟨i, hi⟩
      · exact .inl ⟨ls, hls, hhead.trans hhead'⟩
      · exact .inr ⟨i, hhead.trans hi⟩
    · exact .inr hmoved

omit [Crypto] in
theorem LinesFrom.insert {v v' : View} {line : String} {ls : LineState}
    (hlines : v'.lines = v.lines.insert line ls)
    (hid : ∀ old, v.lines.get? line = some old → ls.id = old.id)
    (hhead : (∃ old, v.lines.get? line = some old ∧ ls.head = old.head) ∨
      ∃ i, ls.head = (Pointer.id i).toValue) : LinesFrom v v' := by
  constructor
  · intro name old hold
    rw [hlines, OrdMap.get?_insert]
    split_ifs with hname
    · exact ⟨ls, rfl, hid old (hname ▸ hold)⟩
    · exact ⟨old, hold, rfl⟩
  · intro name ls' hls'
    rw [hlines, OrdMap.get?_insert] at hls'
    split_ifs at hls' with hname
    · cases hls'
      exact hname ▸ hhead
    · exact .inl ⟨ls', hls', rfl⟩

omit [Crypto] in
theorem HeadsParse.from {v v' : View} (h : HeadsParse v.lines) (hfrom : LinesFrom v v') :
    HeadsParse v'.lines := by
  intro name ls' hls'
  rcases hfrom.moved hls' with ⟨ls, hls, hhead⟩ | ⟨i, hi⟩
  · rw [hhead]
    exact h name ls hls
  · exact ⟨_, hi⟩

theorem ensures_setRoot {L : ℕ} {x : StoreM ObjectId} {f : Bytes → Option TrieValue}
    {set : ObjectId → View} {c' : Contents}
    (hx : x.Returns S fun root S' => Represents L S' root f)
    (hset : ∀ root S', S ⊆ S' → Represents L S' root f → Sound S' (set root) c')
    (hlines : ∀ root, (set root).lines = v.lines) :
    (do return set (← x) : StoreM View).Ensures S fun v' S' =>
      Sound S' v' c' ∧ LinesFrom v v' := by
  refine (hx.bind fun root S' hsub hroot => returns_pure ?_).ensures
  exact ⟨hset root S' hsub hroot, .of_eq (hlines root)⟩

theorem ensures_setLine (h : Sound S v c) {line : String} {ls : LineState}
    (hid : ∀ old, v.lines.get? line = some old → ls.id = old.id)
    (hhead : (∃ old, v.lines.get? line = some old ∧ ls.head = old.head) ∨
      ∃ i, ls.head = (Pointer.id i).toValue) :
    (pure { v with lines := v.lines.insert line ls } : StoreM View).Ensures S fun v' S' =>
      Sound S' v' c ∧ LinesFrom v v' := by
  have hfrom : LinesFrom v { v with lines := v.lines.insert line ls } :=
    .insert rfl hid hhead
  exact ensures_pure ⟨{ h with heads := h.heads.from hfrom }, hfrom⟩

theorem ensures_applyEffect (h : Sound S v c) (parentOp : Option ObjectId) (e : Effect) :
    (ViewState.applyEffect parentOp v e).Ensures S fun v' S' =>
      Sound S' v' (c.act e) ∧ LinesFrom v v' := by
  cases e with
  | put => exact ensures_pure ⟨h, .of_eq rfl⟩
  | point entity to_ =>
      exact ensures_setRoot (returns_insert h.entities (by decide) entity.length_bytes _)
        (fun _ _ hsub hroot => { h.mono hsub with entities := hroot }) fun _ => rfl
  | unpoint entity =>
      exact ensures_setRoot (returns_remove h.entities (by decide) entity.length_bytes)
        (fun _ _ hsub hroot => { h.mono hsub with entities := hroot }) fun _ => rfl
  | head line to_ _ seq _ id =>
      simp only [ViewState.applyEffect]
      split
      · rename_i ls hls
        exact ensures_setLine h (fun old hold => by rw [hls] at hold; cases hold; rfl)
          (.inr ⟨to_, rfl⟩)
      · rename_i hnone
        split
        · exact ensures_throw
        · exact ensures_setLine h (fun old hold => by rw [hnone] at hold; cases hold)
            (.inr ⟨to_, rfl⟩)
  | propose rev =>
      exact ensures_setRoot (returns_insert h.proposed (by decide) rev.length_bytes _)
        (fun _ _ hsub hroot => { h.mono hsub with proposed := hroot }) fun _ => rfl
  | unpropose rev =>
      exact ensures_setRoot (returns_remove h.proposed (by decide) rev.length_bytes)
        (fun _ _ hsub hroot => { h.mono hsub with proposed := hroot }) fun _ => rfl
  | claim claim to_ =>
      exact ensures_setRoot (returns_insert h.claims (by decide) claim.length_bytes _)
        (fun _ _ hsub hroot => { h.mono hsub with claims := hroot }) fun _ => rfl
  | unclaim claim =>
      exact ensures_setRoot (returns_remove h.claims (by decide) claim.length_bytes)
        (fun _ _ hsub hroot => { h.mono hsub with claims := hroot }) fun _ => rfl
  | cap cap =>
      exact ensures_setRoot (returns_insert h.caps (by decide) cap.length_bytes _)
        (fun _ _ hsub hroot => { h.mono hsub with caps := hroot }) fun _ => rfl
  | uncap cap =>
      exact ensures_setRoot (returns_remove h.caps (by decide) cap.length_bytes)
        (fun _ _ hsub hroot => { h.mono hsub with caps := hroot }) fun _ => rfl
  | revoke principal =>
      exact ensures_setRoot (returns_insert h.revoked (by decide) principal.length_bytes _)
        (fun _ _ hsub hroot => { h.mono hsub with
          revoked := hroot, revoked_set := h.revoked_set.update _ }) fun _ => rfl
  | tomb of =>
      exact ensures_setRoot (returns_insert h.tombstoned (by decide) of.length_bytes _)
        (fun _ _ hsub hroot => { h.mono hsub with
          tombstoned := hroot, tombstoned_set := h.tombstoned_set.update _ }) fun _ => rfl
  | deploy => exact ensures_pure ⟨{ h with }, .of_eq rfl⟩
  | pause scope =>
      exact ensures_pure ⟨{ h with paused := h.paused.pause .. }, .of_eq rfl⟩
  | resume scope =>
      exact ensures_pure ⟨{ h with paused := h.paused.resume scope }, .of_eq rfl⟩
  | owner principal =>
      exact ensures_pure ⟨{ h with owners := pushSorted_pairwise h.owners principal },
        .of_eq rfl⟩
  | unowner => exact ensures_pure ⟨{ h with owners := h.owners.filter _ }, .of_eq rfl⟩
  | root name =>
      exact ensures_pure ⟨{ h with roots := pushSorted_pairwise h.roots name }, .of_eq rfl⟩
  | unroot => exact ensures_pure ⟨{ h with roots := h.roots.filter _ }, .of_eq rfl⟩
  | coordinator line to_ =>
      simp only [ViewState.applyEffect]
      split
      · rename_i ls hls
        exact ensures_setLine h (fun old hold => by rw [hls] at hold; cases hold; rfl)
          (.inl ⟨ls, hls, rfl⟩)
      · exact ensures_pure ⟨h, .of_eq rfl⟩

theorem ensures_apply (h : Sound S v c) (effects : List Effect)
    (parentOp : Option ObjectId) :
    (ViewState.apply v effects parentOp).Ensures S fun v' S' =>
      Sound S' v' (c.actAll effects) ∧ LinesFrom v v' := by
  induction effects generalizing v c S with
  | nil => exact ensures_pure ⟨h, .of_eq rfl⟩
  | cons e rest ih =>
      rw [ViewState.apply, List.foldlM_cons]
      refine (ensures_applyEffect h parentOp e).bind ?_
      intro v' S' _ hfirst
      refine (ih hfirst.1).mono ?_
      intro v'' S'' _ hrest
      exact ⟨hrest.1, hfirst.2.trans hrest.2⟩

/-- Members once in a grow-only set stay there under effects. -/
structure Contents.Grows (c c' : Contents) : Prop where
  revoked : ∀ k, c.revoked k = some .set → c'.revoked k = some .set
  tombstoned : ∀ k, c.tombstoned k = some .set → c'.tombstoned k = some .set

omit [Crypto] in
theorem update_set_grows (f : Bytes → Option TrieValue) (key k : Bytes)
    (hk : f k = some .set) : Function.update f key (some .set) k = some .set := by
  by_cases heq : k = key
  · rw [heq, Function.update_self]
  · rwa [Function.update_of_ne heq]

omit [Crypto] in
theorem Contents.act_grows (c : Contents) (e : Effect) : c.Grows (c.act e) := by
  cases e with
  | revoke principal => exact ⟨update_set_grows _ _, fun _ hk => hk⟩
  | tomb of => exact ⟨fun _ hk => hk, update_set_grows _ _⟩
  | _ => exact ⟨fun _ hk => hk, fun _ hk => hk⟩

omit [Crypto] in
theorem Contents.actAll_grows (effects : List Effect) (c : Contents) :
    c.Grows (c.actAll effects) := by
  induction effects generalizing c with
  | nil => exact ⟨fun _ hk => hk, fun _ hk => hk⟩
  | cons e rest ih =>
      have hfirst := c.act_grows e
      have hrest := ih (c.act e)
      exact ⟨fun k hk => hrest.revoked k (hfirst.revoked k hk),
        fun k hk => hrest.tombstoned k (hfirst.tombstoned k hk)⟩

theorem returns_allKeys {L : ℕ} {roots : List ObjectId}
    {sets : List (Bytes → Option TrieValue)}
    (h : List.Forall₂ (Represents L S) roots sets) (all : List Bytes) :
    (roots.foldlM (fun all r => do return all ++ (← Trie.entries r).map Prod.fst)
      all).Returns S fun all' S' => S' = S ∧ ∀ k, k ∈ all' ↔
        k ∈ all ∨ (k.length = L ∧ ∃ f ∈ sets, (f k).isSome) := by
  induction h generalizing all with
  | nil => exact returns_pure ⟨rfl, by simp⟩
  | @cons root f roots sets hroot _ ih =>
      rw [List.foldlM_cons, bind_assoc]
      refine (returns_entries hroot).bind ?_
      intro entries S' _ hentries
      obtain ⟨rfl, hentries⟩ := hentries
      have hkeys : ∀ k, k ∈ entries.map Prod.fst ↔ k.length = L ∧ (f k).isSome := by
        intro k
        rw [List.mem_map, Option.isSome_iff_exists]
        constructor
        · intro hk
          obtain ⟨⟨k', v⟩, hmem, rfl⟩ := hk
          exact ⟨((hentries k' v).mp hmem).1, v, ((hentries k' v).mp hmem).2⟩
        · intro hk
          obtain ⟨hlen, v, hv⟩ := hk
          exact ⟨(k, v), (hentries k v).mpr ⟨hlen, hv⟩, rfl⟩
      rw [pure_bind]
      refine (ih (all ++ entries.map Prod.fst)).mono ?_
      intro all' S'' _ hall
      refine ⟨hall.1, fun k => ?_⟩
      rw [hall.2 k, List.mem_append, hkeys k]
      simp only [List.mem_cons, exists_eq_or_imp]
      tauto

theorem returns_unionSets {L : ℕ} (hpos : 0 < L) {roots : List ObjectId}
    {sets : List (Bytes → Option TrieValue)}
    (h : List.Forall₂ (Represents L S) roots sets) :
    (ViewState.unionSets roots).Returns S fun root S' =>
      Represents L S' root (Contents.union sets) := by
  refine (returns_allKeys h []).bind ?_
  intro all S₁ _ hall
  obtain ⟨rfl, hall⟩ := hall
  refine returns_emptyRoot.bind ?_
  intro start S₂ hsub hstart
  have hinsert := Returns.foldlM (fun done root S' =>
    Represents L S' root fun k => if k ∈ done then some .set else none) []
    (sortedDedup all) (S := S₂) (s := start) (f := fun out k => Trie.insert out k .set)
    (by simpa using hstart L) ?_
  · refine hinsert.mono ?_
    intro root S₃ _ hroot
    refine hroot.congr fun k hk => ?_
    simp [Contents.union, mem_sortedDedup, hall k, hk]
  · intro done k root S₃ hmem _ hroot
    obtain ⟨hk, _⟩ : k.length = L ∧ ∃ f ∈ sets, (f k).isSome := by
      simpa using (hall k).mp (mem_sortedDedup.mp hmem)
    refine (returns_insert hroot hpos hk .set).mono ?_
    intro root' S₄ _ hroot'
    refine hroot'.congr fun k' _ => ?_
    by_cases heq : k' = k
    · simp [heq]
    · simp [heq]

/-- A merged view holds the merge of the contents, and the merge of each part. -/
structure MergedParts (base a b v : View) : Prop where
  lines : v.lines = mergeLines base.lines a.lines b.lines
  roots : v.roots = mergeSetVec base.roots a.roots b.roots
  owners : v.owners = mergeSetVec base.owners a.owners b.owners
  deployed : v.deployed = mergeDeployed base.deployed a.deployed b.deployed
  paused : v.paused = mergePaused a.paused b.paused

omit [Crypto] in
theorem get?_mergeLines (base a b : OrdMap String LineState) (name : String) :
    (mergeLines base a b).get? name =
      mergeLineAt (base.get? name) (a.get? name) (b.get? name) := by
  rw [mergeLines, OrdMap.get?_tabulate]
  split_ifs with hname
  · rfl
  · simp only [List.mem_append, not_or] at hname
    rw [OrdMap.get?_eq_none.mpr hname.1.1, OrdMap.get?_eq_none.mpr hname.1.2,
      OrdMap.get?_eq_none.mpr hname.2]
    rfl

omit [Crypto] in
theorem mergeLine_parses (bs : LineState) {x y : LineState} {q r : Pointer}
    (hx : x.head = q.toValue) (hy : y.head = r.toValue) :
    ∃ p : Pointer, (mergeLine bs x y).head = p.toValue := by
  simp only [mergeLine]
  split_ifs
  · exact ⟨r, hy⟩
  · exact ⟨q, hx⟩
  · rw [hx, hy, Pointer.fromValue_toValue, Pointer.fromValue_toValue]
    exact ⟨q.union r, rfl⟩

omit [Crypto] in
theorem mergeLineAt_cases {base a b : Option LineState} {ls : LineState}
    (h : mergeLineAt base a b = some ls) :
    a = some ls ∨ b = some ls ∨
      ∃ bs x y, a = some x ∧ b = some y ∧ ls = mergeLine bs x y := by
  unfold mergeLineAt at h
  split at h
  · rename_i bs x y
    split_ifs at h <;> cases h
    · exact .inl rfl
    · exact .inr (.inl rfl)
    · exact .inl rfl
    · exact .inr (.inr ⟨bs, x, y, rfl, rfl, rfl⟩)
  · rename_i x y
    split_ifs at h <;> cases h
    · exact .inl rfl
    · exact .inr (.inr ⟨x, x, y, rfl, rfl, rfl⟩)
  · cases h
    exact .inl rfl
  · cases h
    exact .inr (.inl rfl)
  · cases h
    exact .inr (.inl rfl)
  · cases h
    exact .inl rfl
  · cases h
  · cases h

omit [Crypto] in
theorem HeadsParse.merge (base : OrdMap String LineState) {a b : OrdMap String LineState}
    (ha : HeadsParse a) (hb : HeadsParse b) : HeadsParse (mergeLines base a b) := by
  intro name ls hls
  rw [get?_mergeLines] at hls
  rcases mergeLineAt_cases hls with hside | hside | ⟨bs, x, y, hx, hy, rfl⟩
  · exact ha name ls hside
  · exact hb name ls hside
  · obtain ⟨q, hq⟩ := ha name x hx
    obtain ⟨r, hr⟩ := hb name y hy
    exact mergeLine_parses bs hq hr

theorem returns_merge (hbase : Sound S base cbase) (ha : Sound S a ca) (hb : Sound S b cb) :
    (ViewState.merge base a b).Returns S fun v S' =>
      Sound S' v (.merge cbase ca cb) ∧ MergedParts base a b v := by
  refine (returns_merge3 hbase.entities ha.entities hb.entities .pointers).bind ?_
  intro entities S₁ h₁ hentities
  refine (returns_merge3 (hbase.claims.mono h₁) (ha.claims.mono h₁) (hb.claims.mono h₁)
    .pointers).bind ?_
  intro claims S₂ h₂ hclaims
  have hbase := (hbase.mono h₁).mono h₂
  have ha := (ha.mono h₁).mono h₂
  have hb := (hb.mono h₁).mono h₂
  refine (returns_merge3 hbase.proposed ha.proposed hb.proposed .set).bind ?_
  intro proposed S₃ h₃ hproposed
  refine (returns_merge3 (hbase.caps.mono h₃) (ha.caps.mono h₃) (hb.caps.mono h₃) .set).bind ?_
  intro caps S₄ h₄ hcaps
  have hbase := (hbase.mono h₃).mono h₄
  have ha := (ha.mono h₃).mono h₄
  have hb := (hb.mono h₃).mono h₄
  refine (returns_unionSets (by decide)
    (.cons hbase.revoked (.cons ha.revoked (.cons hb.revoked .nil)))).bind ?_
  intro revoked S₅ h₅ hrevoked
  refine (returns_unionSets (by decide) (.cons (hbase.tombstoned.mono h₅)
    (.cons (ha.tombstoned.mono h₅) (.cons (hb.tombstoned.mono h₅) .nil)))).bind ?_
  intro tombstoned S₆ h₆ htombstoned
  refine returns_pure ⟨?_, ⟨rfl, rfl, rfl, rfl, rfl⟩⟩
  exact {
    entities := (((hentities.mono h₂).mono h₃).mono h₄ |>.mono h₅).mono h₆
    proposed := ((hproposed.mono h₄).mono h₅).mono h₆
    claims := ((hclaims.mono h₃).mono h₄ |>.mono h₅).mono h₆
    caps := (hcaps.mono h₅).mono h₆
    revoked := hrevoked.mono h₆
    tombstoned := htombstoned
    revoked_set := isSet_union _
    tombstoned_set := isSet_union _
    roots := mergeSetVec_pairwise _ _ _
    owners := mergeSetVec_pairwise _ _ _
    paused := ha.paused.merge hb.paused
    heads := ha.heads.merge _ hb.heads }

end Refine

end Tessra.Oplog
