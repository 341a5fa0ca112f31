import Tessra.Core.TrieRuns

namespace Tessra.Core

open Tessra.Data

/-! Computations that do in a larger store what they do in a smaller one. -/

namespace StoreM

variable [Crypto] {α β γ : Type} {x : StoreM α} {y : StoreM α} {f g : α → StoreM β}

/-- Where `x` ends, `y` ends alike in any larger store: with the same result and
the same objects put. -/
def Extends (x y : StoreM α) : Prop :=
  ∀ ⦃S S' : Store⦄ ⦃a : α⦄, S.Sublist S' → CollisionFree (y.after S') → x.value S = .ok a →
    y S' = x S

def Stable (x : StoreM α) : Prop := x.Extends x

theorem Stable.value {S S' : Store} {a : α} (h : x.Stable) (hsub : S.Sublist S')
    (hfree : CollisionFree (x.after S')) (hx : x.value S = .ok a) : x.value S' = .ok a := by
  rw [StoreM.value, h hsub hfree hx]
  exact hx

/-- The stores afterwards stand to each other as those before did. -/
theorem Extends.after {S S' : Store} {a : α} (h : x.Extends y) (hsub : S.Sublist S')
    (hfree : CollisionFree (y.after S')) (hx : x.value S = .ok a) :
    (x.after S).Sublist (y.after S') := by
  rw [StoreM.after, StoreM.after, h hsub hfree hx]
  exact hsub.append_right _

theorem Extends.bind (hx : x.Extends y) (hf : ∀ a, (f a).Extends (g a)) :
    (x >>= f).Extends (y >>= g) := by
  intro S S' b hsub hfree hb
  obtain ⟨a, ha, hrest, _⟩ := bind_ok hb
  cases hy : y.value S' with
  | error e =>
      have hafter : (y >>= g).after S' = y.after S' := (bind_of_error hy).2
      have hsame := hx hsub (hafter ▸ hfree) ha
      rw [StoreM.value, hsame] at hy
      rw [StoreM.value, hy] at ha
      cases ha
  | ok a' =>
      have hafter : (y >>= g).after S' = (g a').after (y.after S') := (bind_of_ok hy).2
      have hfreeY : CollisionFree (y.after S') :=
        hfree.mono (hafter ▸ subset_after (g a') (y.after S'))
      have hsame := hx hsub hfreeY ha
      have hvalue : y.value S' = .ok a := by rw [StoreM.value, hsame]; exact ha
      rw [hvalue] at hy
      cases hy
      have hnext := hf a (hx.after hsub hfreeY ha) (hafter ▸ hfree) hrest
      rw [run_bind, run_bind, StoreM.bind, StoreM.bind]
      rcases hrun : x S with ⟨v, puts⟩
      have hv : v = .ok a := by simpa [StoreM.value, hrun] using ha
      subst hv
      rw [hsame, hrun]
      simp only [StoreM.after, hsame, hrun] at hnext
      simp only [hnext]

theorem stable_pure (a : α) : (pure a : StoreM α).Stable :=
  fun _ _ _ _ _ _ => rfl

theorem extends_throw (e : Error) (y : StoreM α) : (throw e : StoreM α).Extends y := by
  intro S S' a _ _ h
  cases h

theorem stable_throw (e : Error) : (throw e : StoreM α).Stable := extends_throw e _

theorem stable_put {T : Type} [TessraObject T] (t : T) : (put t).Stable :=
  fun _ _ _ _ _ _ => rfl

theorem Lasting.stable (h : x.Lasting) : x.Stable := by
  intro S S' a hsub hfree ha
  have hvalue := h.lasts hsub.subset (hfree.mono (subset_after x S')) ha
  have hputs : ∀ S : Store, (x S).puts = [] := fun S => List.append_right_eq_self.mp (h.readOnly S)
  have hrun : x S = ⟨.ok a, []⟩ := by
    rcases hx : x S with ⟨v, puts⟩
    have hv : v = .ok a := by simpa [StoreM.value, hx] using ha
    have hp := hputs S
    rw [hx] at hp
    rw [hv]
    exact congrArg _ hp
  have hrun' : x S' = ⟨.ok a, []⟩ := by
    rcases hx : x S' with ⟨v, puts⟩
    have hv : v = .ok a := by simpa [StoreM.value, hx] using hvalue
    have hp := hputs S'
    rw [hx] at hp
    rw [hv]
    exact congrArg _ hp
  rw [hrun, hrun']

theorem Stable.bind (hx : x.Stable) (hf : ∀ a, (f a).Stable) : (x >>= f).Stable :=
  Extends.bind hx hf

theorem Extends.foldlM {σ : Type} {f g : σ → α → StoreM σ} (hf : ∀ s a, (f s a).Extends (g s a))
    (l : List α) (s : σ) : (l.foldlM f s).Extends (l.foldlM g s) := by
  induction l generalizing s with
  | nil => exact stable_pure s
  | cons a rest ih =>
      rw [List.foldlM_cons, List.foldlM_cons]
      exact (hf s a).bind ih

theorem Stable.foldlM {σ : Type} {f : σ → α → StoreM σ} (hf : ∀ s a, (f s a).Stable)
    (l : List α) (s : σ) : (l.foldlM f s).Stable := Extends.foldlM hf l s

theorem stable_get (T : Type) [TessraObject T] (id : ObjectId) : (get T id).Stable :=
  (lasting_get T id).stable

/-- What a computation returned, it returns in any larger store. -/
theorem Stable.returns {S T : Store} {a : α} (h : x.Stable) (hx : x.value S = .ok a)
    (hsub : S.Sublist T) : x.Returns T fun b T' => b = a ∧ (x.after S).Sublist T' := by
  intro hfree
  exact ⟨a, h.value hsub hfree hx, rfl, h.after hsub hfree hx⟩

omit [Crypto] in
theorem subset_after_bind (x : StoreM α) (f : α → StoreM β) (S : Store) :
    x.after S ⊆ (x >>= f).after S := by
  cases hx : x.value S with
  | ok a => exact (bind_of_ok (f := f) hx).2 ▸ subset_after (f a) _
  | error e => exact (bind_of_error (f := f) hx).2 ▸ List.Subset.refl _

theorem Stable.answers {S T : Store} {a : α} (h : x.Stable) (hx : x.value S = .ok a)
    (hsub : S.Sublist T) : x.Returns T fun b T' => b = a ∧ S.Sublist T' :=
  (h.returns hx hsub).mono fun _ _ _ hb => ⟨hb.1, (List.sublist_append_left S _).trans hb.2⟩

theorem Returns.traced {S : Store} {P : α → Store → Prop} (h : x.Returns S P) :
    x.Returns S fun a S' => S.Sublist S' ∧ x.value S = .ok a ∧ P a S' := by
  intro hfree
  obtain ⟨a, ha, hP⟩ := h hfree
  exact ⟨a, ha, List.sublist_append_left S _, ha, hP⟩

end StoreM

namespace Trie

variable [Crypto]

open StoreM

theorem stable_nibbleAt (key : Bytes) (depth : ℕ) : (nibbleAt key depth).Stable := by
  unfold nibbleAt
  split
  · exact stable_throw _
  · split
    · exact stable_pure _
    · exact stable_pure _

theorem stable_getSlot (node : TrieNode) (n : Nibble) : (node.getSlot n).Stable := by
  unfold TrieNode.getSlot
  split
  · exact stable_pure _
  · split
    · exact stable_pure _
    · exact stable_throw _

theorem stable_getIn (key : Bytes) (left depth : ℕ) (node : TrieNode) :
    (getIn key left depth node).Stable := by
  induction left generalizing depth node with
  | zero => exact stable_pure _
  | succ left ih =>
      rw [getIn]
      refine (stable_nibbleAt _ _).bind fun n => (stable_getSlot _ _).bind fun slot => ?_
      split
      · exact stable_pure _
      · exact stable_pure _
      · exact (stable_get TrieNode _).bind fun _ => ih _ _

theorem stable_trieGet (root : ObjectId) (key : Bytes) : (get root key).Stable :=
  (stable_get TrieNode root).bind fun _ => stable_getIn _ _ _ _

theorem stable_setSlot (node : TrieNode) (n : Nibble) (slot : Option Slot) :
    (node.setSlot n slot).Stable := by
  unfold TrieNode.setSlot
  split
  · split
    · exact stable_pure _
    · exact stable_throw _
  · split
    · exact stable_pure _
    · exact stable_throw _
  · dsimp only
    split
    · exact stable_pure _
    · exact stable_throw _
  · exact stable_pure _

theorem stable_pairNode (k₁ : Bytes) (v₁ : TrieValue) (k₂ : Bytes) (v₂ : TrieValue)
    (left depth : ℕ) : (pairNode k₁ v₁ k₂ v₂ left depth).Stable := by
  induction left generalizing depth with
  | zero => exact stable_throw _
  | succ left ih =>
      rw [pairNode]
      refine (stable_nibbleAt _ _).bind fun n₁ => (stable_nibbleAt _ _).bind fun n₂ => ?_
      split
      · exact (ih _).bind fun _ => (stable_put _).bind fun _ => stable_setSlot _ _ _
      · exact (stable_setSlot _ _ _).bind fun _ => stable_setSlot _ _ _

theorem stable_insertIn (key : Bytes) (value : TrieValue) (left depth : ℕ) (node : TrieNode) :
    (insertIn key value left depth node).Stable := by
  induction left generalizing depth node with
  | zero => exact stable_throw _
  | succ left ih =>
      rw [insertIn]
      refine (stable_nibbleAt _ _).bind fun n => (stable_getSlot _ _).bind fun slot => ?_
      have hset : ∀ slot : Slot, (node.setSlot n (some slot)).Stable := fun slot =>
        stable_setSlot _ _ _
      dsimp only
      split
      · exact (stable_pure _).bind hset
      · split
        · exact (stable_pure _).bind hset
        · split
          · exact (stable_throw _).bind hset
          · exact (stable_pairNode _ _ _ _ _ _).bind fun _ => (stable_put _).bind fun _ =>
              (stable_pure _).bind hset
      · exact (stable_get TrieNode _).bind fun _ => (ih _ _).bind fun _ =>
          (stable_put _).bind fun _ => (stable_pure _).bind hset

theorem stable_insert (root : ObjectId) (key : Bytes) (value : TrieValue) :
    (insert root key value).Stable :=
  (stable_get TrieNode root).bind fun _ => (stable_insertIn _ _ _ _ _).bind fun _ => stable_put _

theorem stable_normalize (node : TrieNode) : (normalize node).Stable := by
  unfold normalize
  split
  · exact stable_pure _
  · exact stable_pure _
  · exact (stable_put _).bind fun _ => stable_pure _

theorem stable_removeIn (key : Bytes) (left depth : ℕ) (node : TrieNode) :
    (removeIn key left depth node).Stable := by
  induction left generalizing depth node with
  | zero => exact stable_throw _
  | succ left ih =>
      rw [removeIn]
      refine (stable_nibbleAt _ _).bind fun n => (stable_getSlot _ _).bind fun slot => ?_
      split
      · exact (stable_put _).bind fun _ => stable_pure _
      · split
        · exact (stable_put _).bind fun _ => stable_pure _
        · exact (stable_setSlot _ _ _).bind fun _ => stable_normalize _
      · exact (stable_get TrieNode _).bind fun _ => (ih _ _).bind fun _ =>
          (stable_setSlot _ _ _).bind fun _ => stable_normalize _

theorem stable_saveRoot (sub : Sub) : (saveRoot sub).Stable := by
  unfold saveRoot
  split
  · exact stable_put _
  · exact (stable_nibbleAt _ _).bind fun _ => (stable_setSlot _ _ _).bind fun _ => stable_put _
  · exact stable_pure _

theorem stable_remove (root : ObjectId) (key : Bytes) : (remove root key).Stable :=
  (stable_get TrieNode root).bind fun _ => (stable_removeIn _ _ _ _).bind fun _ =>
    stable_saveRoot _

/-- Longer walks go on where shorter ones end. -/
theorem extends_walk {fuel fuel' : ℕ} (hle : fuel ≤ fuel') (id : ObjectId)
    (out : List (Bytes × TrieValue)) : (walk fuel id out).Extends (walk fuel' id out) := by
  induction fuel generalizing fuel' id out with
  | zero => exact extends_throw _ _
  | succ fuel ih =>
      obtain ⟨fuel', rfl⟩ : ∃ n, fuel' = n + 1 := ⟨fuel' - 1, by omega⟩
      refine Extends.bind (stable_get TrieNode id) fun node => Extends.foldlM (fun out slot => ?_) _ _
      cases slot with
      | leaf key value => exact stable_pure _
      | node cid => exact ih (by omega) cid out

omit [Crypto] in
theorem trieDepth_mono {S S' : Store} (h : S.Sublist S') : S.trieDepth ≤ S'.trieDepth :=
  (h.map objectDepth).sum_le_sum fun _ _ => Nat.zero_le _

theorem stable_entries (root : ObjectId) : (entries root).Stable := by
  intro S S' a hsub hfree ha
  exact extends_walk (Nat.succ_le_succ (trieDepth_mono hsub)) root [] hsub hfree ha

theorem stable_expand (sub : Sub) (depth : ℕ) : (expand sub depth).Stable := by
  unfold expand
  split
  · exact stable_pure _
  · exact (stable_nibbleAt _ _).bind fun _ => stable_setSlot _ _ _
  · exact stable_get TrieNode _

theorem stable_mergeFlat (policy : MergePolicy) (base a b : Sub) :
    (mergeFlat policy base a b).Stable := by
  unfold mergeFlat
  split
  · dsimp only
    split
    · split
      · exact stable_throw _
      · exact stable_pure _
    · exact stable_pure _
  · exact stable_pure _

theorem extends_mergeSub (policy : MergePolicy) {fuel fuel' : ℕ} (hle : fuel ≤ fuel')
    (depth : ℕ) (base a b : Sub) :
    (mergeSub policy fuel depth base a b).Extends (mergeSub policy fuel' depth base a b) := by
  induction fuel generalizing fuel' depth base a b with
  | zero => exact extends_throw _ _
  | succ fuel ih =>
      obtain ⟨fuel', rfl⟩ : ∃ n, fuel' = n + 1 := ⟨fuel' - 1, by omega⟩
      rw [mergeSub, mergeSub]
      split
      · exact stable_pure _
      split
      · exact stable_pure _
      split
      · exact stable_pure _
      refine Extends.bind (stable_mergeFlat _ _ _ _) fun merged => ?_
      cases merged with
      | some merged => exact stable_pure _
      | none =>
          refine Extends.bind (stable_expand _ _) fun nb => Extends.bind (stable_expand _ _) fun na =>
            Extends.bind (stable_expand _ _) fun nb₂ => Extends.bind
              (Extends.foldlM (fun out nib => ?_) _ _) fun out => stable_normalize out
          refine Extends.bind (stable_getSlot _ _) fun sb => Extends.bind (stable_getSlot _ _) fun sa =>
            Extends.bind (stable_getSlot _ _) fun sb₂ => Extends.bind (ih (by omega) _ _ _ _)
              fun merged => stable_setSlot _ _ _

theorem stable_mergeRoots (base a b : ObjectId) (policy : MergePolicy) :
    (mergeRoots base a b policy).Stable := by
  intro S S' sub hsub hfree hvalue
  have hextends := extends_mergeSub policy (Nat.succ_le_succ (trieDepth_mono hsub)) 0 (.node base)
    (.node a) (.node b)
  have hrun : ∀ S : Store, mergeRoots base a b policy S =
      mergeSub policy (S.trieDepth + 1) 0 (.node base) (.node a) (.node b) S := fun _ => rfl
  rw [hrun, hrun]
  rw [StoreM.after, hrun] at hfree
  rw [StoreM.value, hrun] at hvalue
  exact hextends hsub hfree hvalue

theorem stable_merge3 (base a b : ObjectId) (policy : MergePolicy) :
    (merge3 base a b policy).Stable :=
  (stable_mergeRoots base a b policy).bind fun _ => stable_saveRoot _

end Trie

end Tessra.Core
