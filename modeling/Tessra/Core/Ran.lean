import Tessra.Core.Store

namespace Tessra.Core.StoreM

/-! What a computation that succeeded did: inversion from its result. -/

variable {α β : Type} {S S' T T' : Store} {a : α} {b : β} {x : StoreM α}

/-- The computation ran between two stores, and returned `a`. -/
def Ran (x : StoreM α) (S S' : Store) (a : α) : Prop :=
  ∃ start, S ⊆ start ∧ x.after start ⊆ S' ∧ x.value start = .ok a

theorem ran_of_value (h : x.value S = .ok a) : x.Ran S (x.after S) a :=
  ⟨S, List.Subset.refl S, List.Subset.refl _, h⟩

theorem Ran.mono (h : x.Ran S S' a) (hbefore : T ⊆ S) (hafter : S' ⊆ T') : x.Ran T T' a := by
  obtain ⟨start, hstart, hend, hvalue⟩ := h
  exact ⟨start, List.Subset.trans hbefore hstart, List.Subset.trans hend hafter, hvalue⟩

theorem Ran.subset (h : x.Ran S S' a) : S ⊆ S' := by
  obtain ⟨start, hstart, hend, _⟩ := h
  exact List.Subset.trans hstart (List.Subset.trans (x.subset_after start) hend)

theorem Ran.split {f : α → StoreM β} (h : (x >>= f).Ran S S' b) :
    ∃ a middle, x.Ran S middle a ∧ (f a).Ran middle S' b := by
  obtain ⟨start, hstart, hend, hvalue⟩ := h
  obtain ⟨a, ha, hrest, hafter⟩ := bind_ok hvalue
  rw [hafter] at hend
  exact ⟨a, x.after start, ⟨start, hstart, List.Subset.refl _, ha⟩,
    x.after start, List.Subset.refl _, hend, hrest⟩

theorem Ran.bind {f : α → StoreM β} (h : (x >>= f).Ran S S' b) :
    ∃ a, x.Ran S S' a ∧ (f a).Ran S S' b := by
  obtain ⟨a, middle, hx, hf⟩ := h.split
  exact ⟨a, hx.mono (List.Subset.refl S) hf.subset, hf.mono hx.subset (List.Subset.refl S')⟩

theorem Ran.eq_of_pure {a' : α} (h : (pure a : StoreM α).Ran S S' a') : a' = a := by
  obtain ⟨_, _, _, hvalue⟩ := h
  cases hvalue
  rfl

theorem Ran.not_throw {e : Error} (h : (throw e : StoreM α).Ran S S' a) : False := by
  obtain ⟨_, _, _, hvalue⟩ := h
  cases hvalue

theorem Ran.forM {f : α → StoreM PUnit} {l : List α} {u : PUnit} (h : (l.forM f).Ran S S' u) :
    ∀ x ∈ l, (f x).Ran S S' () := by
  induction l generalizing u with
  | nil => simp
  | cons x rest ih =>
      obtain ⟨_, hx, hrest⟩ := Ran.bind (x := f x) (f := fun _ => rest.forM f) h
      intro y hy
      rcases List.mem_cons.mp hy with rfl | hy
      · exact hx
      · exact ih hrest y hy

theorem Ran.foldlM {σ γ : Type} {f : σ → α → StoreM σ} {I : σ → Prop} {part : σ → γ}
    {step : γ → α → γ} {l : List α} {s s' : σ} (h : (l.foldlM f s).Ran S S' s') (hI : I s)
    (hstep : ∀ x ∈ l, ∀ s s', I s → (f s x).Ran S S' s' → I s' ∧ part s' = step (part s) x) :
    I s' ∧ part s' = l.foldl step (part s) := by
  induction l generalizing s with
  | nil =>
      cases Ran.eq_of_pure h
      exact ⟨hI, rfl⟩
  | cons x rest ih =>
      rw [List.foldlM_cons] at h
      obtain ⟨s₁, hx, hrest⟩ := h.bind
      obtain ⟨hI₁, hpart⟩ := hstep x List.mem_cons_self s s₁ hI hx
      have hrest := ih hrest hI₁ fun y hy => hstep y (List.mem_cons_of_mem x hy)
      rwa [hpart] at hrest

variable [Crypto]

theorem Ran.returns {post : α → Store → Prop} (h : x.Ran S S' a) (hfree : CollisionFree S')
    (hx : ∀ start, S ⊆ start → x.Returns start post) :
    ∃ start, start ⊆ S' ∧ post a start := by
  obtain ⟨start, hstart, hend, hvalue⟩ := h
  exact ⟨_, hend, (hx start hstart).ensures (hfree.mono hend) a hvalue⟩

theorem Ran.ensures {post : α → Store → Prop} (h : x.Ran S S' a) (hfree : CollisionFree S')
    (hx : ∀ start, S ⊆ start → x.Ensures start post) :
    ∃ start, start ⊆ S' ∧ post a start := by
  obtain ⟨start, hstart, hend, hvalue⟩ := h
  exact ⟨_, hend, hx start hstart (hfree.mono hend) a hvalue⟩

theorem Ran.getBytes {id : ObjectId} {o : Object} (h : (getBytes id).Ran S S' (some o)) :
    o ∈ S' ∧ Crypto.objectId o = id := by
  obtain ⟨start, _, hend, hvalue⟩ := h
  have hfind : start.find? (fun o => Crypto.objectId o = id) = some o := Except.ok.inj hvalue
  exact ⟨hend (subset_after _ start (List.mem_of_find?_eq_some hfind)),
    by simpa using List.find?_some hfind⟩

theorem Ran.get {T : Type} [TessraObject T] {id : ObjectId} {t : T}
    (h : (get T id).Ran S S' t) :
    TessraObject.toObject t ∈ S' ∧ Crypto.objectId (TessraObject.toObject t) = id := by
  obtain ⟨start, _, hend, hvalue⟩ := h
  obtain ⟨hmem, hid⟩ := get_ok hvalue
  exact ⟨hend (subset_after _ start hmem), hid⟩

theorem Ran.value_get {T : Type} [TessraObject T] {id : ObjectId} {t : T}
    (h : (Core.get T id).Ran S S' t) (hfree : CollisionFree S') :
    (Core.get T id).value S' = .ok t := by
  obtain ⟨hmem, rfl⟩ := h.get
  exact StoreM.value_get hfree hmem

end Tessra.Core.StoreM
