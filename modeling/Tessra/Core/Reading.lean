import Tessra.Core.TrieRuns

namespace Tessra.Core.StoreM

/-! What computations that only read return. -/

variable {α β : Type} {x : StoreM α} {f : α → StoreM β} {S : Store}

theorem ReadOnly.value_bind (hx : x.ReadOnly) (f : α → StoreM β) (S : Store) :
    (x >>= f).value S = x.value S >>= fun a => (f a).value S := by
  cases h : x.value S with
  | ok a =>
      rw [(bind_of_ok h).1, hx S]
      rfl
  | error e =>
      rw [(bind_of_error h).1]
      rfl

theorem value_bind_congr {x' : StoreM α} {f' : α → StoreM β} {S S' : Store} (hx : x.ReadOnly)
    (hx' : x'.ReadOnly) (h : x.value S = x'.value S')
    (hf : ∀ a, x'.value S' = .ok a → (f a).value S = (f' a).value S') :
    (x >>= f).value S = (x' >>= f').value S' := by
  rw [hx.value_bind, hx'.value_bind, h]
  cases ha : x'.value S' with
  | ok a => exact hf a ha
  | error e => rfl

theorem tryCatch_of_ok {puts : List Object} {a : α} (handle : Error → StoreM α)
    (h : x S = ⟨.ok a, puts⟩) : (tryCatch x handle) S = ⟨.ok a, puts⟩ := by
  simp only [MonadExcept.tryCatch, tryCatchThe, MonadExceptOf.tryCatch, h]

theorem tryCatch_of_error {puts : List Object} {e : Error} (handle : Error → StoreM α)
    (h : x S = ⟨.error e, puts⟩) : (tryCatch x handle) S =
      ⟨(handle e (S ++ puts)).value, puts ++ (handle e (S ++ puts)).puts⟩ := by
  simp only [MonadExcept.tryCatch, tryCatchThe, MonadExceptOf.tryCatch, h]

theorem value_tryCatch_of_ok {a : α} (handle : Error → StoreM α) (h : x.value S = .ok a) :
    (tryCatch x handle).value S = .ok a := by
  rcases hx : x S with ⟨v, puts⟩
  have hv : v = .ok a := by simpa [value, hx] using h
  subst hv
  rw [value, tryCatch_of_ok handle hx]

theorem value_tryCatch_of_error {e : Error} (hread : x.ReadOnly) (handle : Error → StoreM α)
    (h : x.value S = .error e) : (tryCatch x handle).value S = (handle e).value S := by
  rcases hx : x S with ⟨v, puts⟩
  have hv : v = .error e := by simpa [value, hx] using h
  subst hv
  have hafter := hread S
  rw [after, hx] at hafter
  rw [value, tryCatch_of_error handle hx, hafter]
  rfl

theorem ReadOnly.tryCatch {handle : Error → StoreM α} (hx : x.ReadOnly)
    (hhandle : ∀ e, (handle e).ReadOnly) : (tryCatch x handle).ReadOnly := by
  intro S
  have hafter := hx S
  rcases hrun : x S with ⟨e | a, puts⟩
  · rw [after, hrun] at hafter
    have hrest := hhandle e (S ++ puts)
    rw [hafter, after] at hrest
    rw [after, tryCatch_of_error handle hrun, hafter, ← List.append_assoc, hafter]
    exact hrest
  · rw [after, hrun] at hafter
    rwa [after, tryCatch_of_ok handle hrun]

theorem ReadOnly.map (g : α → β) (hx : x.ReadOnly) : (g <$> x).ReadOnly := by
  rw [map_eq_pure_bind]
  exact hx.bind fun _ => readOnly_pure _

theorem value_map_of_ok (g : α → β) {a : α} (h : x.value S = .ok a) :
    (g <$> x).value S = .ok (g a) := by
  rw [map_eq_pure_bind, (bind_of_ok h).1]
  rfl

theorem ReadOnly.foldlM {σ : Type} {f : σ → α → StoreM σ} (hf : ∀ s x, (f s x).ReadOnly)
    (l : List α) (s : σ) : (l.foldlM f s).ReadOnly := by
  induction l generalizing s with
  | nil => exact readOnly_pure s
  | cons x l ih =>
      rw [List.foldlM_cons]
      exact (hf s x).bind ih

/-- A fold whose steps each append what they find. -/
theorem value_foldlM_append {f : List β → α → StoreM (List β)} {g : α → List β} {l : List α}
    (hread : ∀ out x, (f out x).ReadOnly)
    (hstep : ∀ x ∈ l, ∀ out, (f out x).value S = .ok (out ++ g x)) (out : List β) :
    (l.foldlM f out).value S = .ok (out ++ l.flatMap g) := by
  induction l generalizing out with
  | nil => simp
  | cons x l ih =>
      rw [List.foldlM_cons, (bind_of_ok (hstep x List.mem_cons_self out)).1, hread out x S,
        ih fun x hx => hstep x (List.mem_cons_of_mem _ hx)]
      simp

/-- A read that succeeded leaves what follows it to run on the same store. -/
theorem run_bind_of_ok {a : α} (hx : x.ReadOnly) (h : x.value S = .ok a) :
    (x >>= f) S = f a S := by
  have hafter := hx S
  rw [run_bind, StoreM.bind]
  rcases hrun : x S with ⟨v, puts⟩
  obtain rfl : v = .ok a := by simpa [value, hrun] using h
  obtain rfl : puts = [] := by simpa [after, hrun] using hafter
  simp

theorem lasting_throw [Crypto] (e : Error) : (throw e : StoreM α).Lasting :=
  ⟨readOnly_throw e, fun _ _ h => by cases h⟩

theorem Lasting.mapM [Crypto] (hf : ∀ a, (f a).Lasting) (l : List α) : (l.mapM f).Lasting := by
  induction l with
  | nil => exact lasting_pure []
  | cons a l ih =>
      rw [List.mapM_cons]
      exact (hf a).bind fun _ => ih.bind fun _ => lasting_pure _

theorem ReadOnly.mapM (hf : ∀ a, (f a).ReadOnly) (l : List α) : (l.mapM f).ReadOnly := by
  induction l with
  | nil => exact readOnly_pure _
  | cons a l ih =>
      rw [List.mapM_cons]
      exact (hf a).bind fun _ => ih.bind fun _ => readOnly_pure _

theorem value_mapM_eq_ok (hf : ∀ a, (f a).ReadOnly) {l : List α} {r : List β} :
    (l.mapM f).value S = .ok r ↔ List.Forall₂ (fun a b => (f a).value S = .ok b) l r := by
  induction l generalizing r with
  | nil =>
      rw [List.mapM_nil, value_pure, List.forall₂_nil_left_iff, Except.ok.injEq, eq_comm]
  | cons a l ih =>
      rw [List.mapM_cons, (hf a).value_bind, List.forall₂_cons_left_iff]
      cases ha : (f a).value S with
      | error e => simp [Bind.bind, Except.bind]
      | ok b =>
          have hrest : (l.mapM f >>= fun bs => pure (b :: bs)).value S =
              (l.mapM f).value S >>= fun bs => .ok (b :: bs) :=
            (ReadOnly.mapM hf l).value_bind _ _
          change (l.mapM f >>= fun bs => pure (b :: bs)).value S = .ok r ↔ _
          rw [hrest]
          simp only [Except.ok.injEq, ← ih]
          cases (l.mapM f).value S with
          | error e => simp [Bind.bind, Except.bind]
          | ok bs =>
              simp only [Bind.bind, Except.bind, Except.ok.injEq]
              constructor
              · rintro rfl
                exact ⟨b, bs, rfl, rfl, rfl⟩
              · rintro ⟨_, _, rfl, rfl, rfl⟩
                rfl

theorem exists_value_mapM (hf : ∀ a, (f a).ReadOnly) {l : List α}
    (h : ∀ a ∈ l, ∃ b, (f a).value S = .ok b) : ∃ r, (l.mapM f).value S = .ok r := by
  induction l with
  | nil => exact ⟨[], rfl⟩
  | cons a l ih =>
      obtain ⟨b, hb⟩ := h a List.mem_cons_self
      obtain ⟨r, hr⟩ := ih fun a ha => h a (List.mem_cons_of_mem _ ha)
      exact ⟨b :: r, (value_mapM_eq_ok hf).mpr (.cons hb ((value_mapM_eq_ok hf).mp hr))⟩

/-- What is read for each entry of a list. -/
theorem mem_value_mapM (hf : ∀ a, (f a).ReadOnly) {l : List α} {r : List β}
    (h : (l.mapM f).value S = .ok r) (b : β) :
    b ∈ r ↔ ∃ a ∈ l, (f a).value S = .ok b := by
  induction (value_mapM_eq_ok hf).mp h with
  | nil => simp
  | @cons a b' l r hb hrest ih =>
      have hsame : (f a).value S = .ok b ↔ b = b' := by
        rw [hb, Except.ok.injEq, eq_comm]
      simp only [List.mem_cons, exists_eq_or_imp, hsame,
        ih ((value_mapM_eq_ok hf).mpr hrest)]

/-- Leaving out entries leaves out what is read for them. -/
theorem value_mapM_filter (hf : ∀ a, (f a).ReadOnly) {l : List α} {r : List β}
    {keep : α → Bool} {keep' : β → Bool}
    (hkeep : ∀ a b, (f a).value S = .ok b → keep a = keep' b) (h : (l.mapM f).value S = .ok r) :
    ((l.filter keep).mapM f).value S = .ok (r.filter keep') := by
  rw [value_mapM_eq_ok hf] at h ⊢
  induction h with
  | nil => exact .nil
  | @cons a b l r hb hrest ih =>
      rw [List.filter_cons, List.filter_cons, hkeep a b hb]
      split
      · exact .cons hb ih
      · exact ih

/-- The stores keep the same object under every identifier. -/
def SameObjects [Crypto] (S S' : Store) : Prop :=
  ∀ id, (getBytes id).value S = (getBytes id).value S'

/-- A computation that reads nothing but objects. -/
structure Determined [Crypto] (x : StoreM α) : Prop where
  readOnly : x.ReadOnly
  same : ∀ {S S' : Store}, SameObjects S S' → x.value S = x.value S'

section Determined

variable [Crypto]

theorem determined_pure (a : α) : (pure a : StoreM α).Determined := ⟨readOnly_pure a, fun _ => rfl⟩

theorem determined_throw (e : Error) : (throw e : StoreM α).Determined :=
  ⟨readOnly_throw e, fun _ => rfl⟩

theorem determined_ofExcept (r : Except Error α) : (ofExcept r).Determined :=
  ⟨readOnly_ofExcept r, fun _ => rfl⟩

theorem determined_getBytes (id : ObjectId) : (getBytes id).Determined :=
  ⟨readOnly_getBytes id, fun hsame => hsame id⟩

theorem Determined.bind (hx : x.Determined) (hf : ∀ a, (f a).Determined) :
    (x >>= f).Determined where
  readOnly := hx.readOnly.bind fun a => (hf a).readOnly
  same {S S'} hsame := by
    rw [hx.readOnly.value_bind, hx.readOnly.value_bind, hx.same hsame]
    cases x.value S' with
    | ok a => exact (hf a).same hsame
    | error e => rfl

theorem Determined.tryCatch {handle : Error → StoreM α} (hx : x.Determined)
    (hhandle : ∀ e, (handle e).Determined) : (tryCatch x handle).Determined where
  readOnly := hx.readOnly.tryCatch fun e => (hhandle e).readOnly
  same {S S'} hsame := by
    have hvalue := hx.same hsame
    cases h : x.value S' with
    | ok a => rw [value_tryCatch_of_ok handle h, value_tryCatch_of_ok handle (hvalue.trans h)]
    | error e =>
        rw [value_tryCatch_of_error hx.readOnly handle h,
          value_tryCatch_of_error hx.readOnly handle (hvalue.trans h)]
        exact (hhandle e).same hsame

theorem Determined.mapM (hf : ∀ a, (f a).Determined) (l : List α) : (l.mapM f).Determined := by
  induction l with
  | nil => exact determined_pure _
  | cons a l ih =>
      rw [List.mapM_cons]
      exact (hf a).bind fun _ => ih.bind fun _ => determined_pure _

theorem determined_get (T : Type) [TessraObject T] (id : ObjectId) : (get T id).Determined := by
  refine (determined_getBytes id).bind fun o => ?_
  cases o with
  | none => exact determined_throw _
  | some o =>
      cases h : TessraObject.ofObject (T := T) o with
      | none => simp only [h]; exact determined_throw _
      | some t => simp only [h]; exact determined_pure t

omit [Crypto] in
theorem value_getSlot (node : TrieNode) (n : Nibble) (S S' : Store) :
    (node.getSlot n).value S = (node.getSlot n).value S' := by
  unfold TrieNode.getSlot
  split
  · rfl
  · split <;> rfl

omit [Crypto] in
theorem value_nibbleAt (key : Bytes) (depth : ℕ) (S S' : Store) :
    (nibbleAt key depth).value S = (nibbleAt key depth).value S' := by
  unfold nibbleAt
  split
  · rfl
  · split_ifs <;> rfl

theorem determined_getIn (key : Bytes) (left depth : ℕ) (node : TrieNode) :
    (Trie.getIn key left depth node).Determined := by
  induction left generalizing depth node with
  | zero => exact determined_pure _
  | succ left ih =>
      have hnibble : (nibbleAt key depth).Determined :=
        ⟨readOnly_nibbleAt key depth, fun _ => value_nibbleAt key depth _ _⟩
      refine hnibble.bind fun n => ?_
      have hslot : (node.getSlot n).Determined :=
        ⟨readOnly_getSlot node n, fun _ => value_getSlot node n _ _⟩
      refine hslot.bind fun slot => ?_
      rcases slot with _ | ⟨k, v⟩ | id
      · exact determined_pure _
      · exact determined_pure _
      · exact (determined_get TrieNode id).bind fun child => ih (depth + 1) child

theorem determined_trieGet (root : ObjectId) (key : Bytes) : (Trie.get root key).Determined :=
  (determined_get TrieNode root).bind fun node => determined_getIn key _ 0 node

end Determined

end Tessra.Core.StoreM
