import Tessra.Core.Object

namespace Tessra.Core

/-! The object store: content-addressed objects, and computations that read
and add to them. -/

inductive Error
  | id (reason : String)
  | signature (reason : String)
  | decode (reason : String)
  | notFound (id : ObjectId)
  | invariant (reason : String)
  | store (reason : String)
  | rejected (step : ℕ) (name : String) (reason : String)
  | unknownParent (id : ObjectId)
  | other (reason : String)
  | verb (code : String) (reason : String)
  /-- The code panics here. -/
  | panic (reason : String)
  /-- A bounded model of an unbounded loop ran out. -/
  | outOfFuel
deriving DecidableEq

/-- The hash and the signature scheme, which the source takes from libraries. -/
class Crypto where
  /-- The hash of an object's canonical bytes under its tag. -/
  objectId : Object → ObjectId
  /-- Strict verification of a signature over an object without its `sig`. -/
  verifies : PublicKey → Object → Sig → Bool

/-- An object type with a tag of its own in the store. -/
class TessraObject (T : Type) where
  tag : String
  toObject : T → Object
  ofObject : Object → Option T
  ofObject_toObject : ∀ t, ofObject (toObject t) = some t
  toObject_of_ofObject : ∀ {o t}, ofObject o = some t → o = toObject t

instance : TessraObject TrieNode where
  tag := "trie"
  toObject := .trie
  ofObject
    | .trie node => some node
    | _ => none
  ofObject_toObject _ := rfl
  toObject_of_ofObject {o _} h := by cases o <;> cases h; rfl

instance : TessraObject Op where
  tag := "op"
  toObject := .op
  ofObject
    | .op op => some op
    | _ => none
  ofObject_toObject _ := rfl
  toObject_of_ofObject {o _} h := by cases o <;> cases h; rfl

instance : TessraObject View where
  tag := "view"
  toObject := .view
  ofObject
    | .view view => some view
    | _ => none
  ofObject_toObject _ := rfl
  toObject_of_ofObject {o _} h := by cases o <;> cases h; rfl

instance : TessraObject Tree where
  tag := "tree"
  toObject := .tree
  ofObject
    | .tree t => some t
    | _ => none
  ofObject_toObject _ := rfl
  toObject_of_ofObject {o _} h := by cases o <;> cases h; rfl

instance : TessraObject Snapshot where
  tag := "snapshot"
  toObject := .snapshot
  ofObject
    | .snapshot t => some t
    | _ => none
  ofObject_toObject _ := rfl
  toObject_of_ofObject {o _} h := by cases o <;> cases h; rfl

instance : TessraObject NodeIndex where
  tag := "nodeindex"
  toObject := .nodeIndex
  ofObject
    | .nodeIndex t => some t
    | _ => none
  ofObject_toObject _ := rfl
  toObject_of_ofObject {o _} h := by cases o <;> cases h; rfl

instance : TessraObject Revision where
  tag := "revision"
  toObject := .revision
  ofObject
    | .revision t => some t
    | _ => none
  ofObject_toObject _ := rfl
  toObject_of_ofObject {o _} h := by cases o <;> cases h; rfl

instance : TessraObject Intent where
  tag := "intent"
  toObject := .intent
  ofObject
    | .intent t => some t
    | _ => none
  ofObject_toObject _ := rfl
  toObject_of_ofObject {o _} h := by cases o <;> cases h; rfl

instance : TessraObject Attestation where
  tag := "attestation"
  toObject := .attestation
  ofObject
    | .attestation t => some t
    | _ => none
  ofObject_toObject _ := rfl
  toObject_of_ofObject {o _} h := by cases o <;> cases h; rfl

instance : TessraObject Memory where
  tag := "memory"
  toObject := .memory
  ofObject
    | .memory t => some t
    | _ => none
  ofObject_toObject _ := rfl
  toObject_of_ofObject {o _} h := by cases o <;> cases h; rfl

instance : TessraObject Standard where
  tag := "standard"
  toObject := .standard
  ofObject
    | .standard t => some t
    | _ => none
  ofObject_toObject _ := rfl
  toObject_of_ofObject {o _} h := by cases o <;> cases h; rfl

instance : TessraObject Claim where
  tag := "claim"
  toObject := .claim
  ofObject
    | .claim t => some t
    | _ => none
  ofObject_toObject _ := rfl
  toObject_of_ofObject {o _} h := by cases o <;> cases h; rfl

instance : TessraObject Principal where
  tag := "principal"
  toObject := .principal
  ofObject
    | .principal t => some t
    | _ => none
  ofObject_toObject _ := rfl
  toObject_of_ofObject {o _} h := by cases o <;> cases h; rfl

instance : TessraObject Capability where
  tag := "capability"
  toObject := .capability
  ofObject
    | .capability t => some t
    | _ => none
  ofObject_toObject _ := rfl
  toObject_of_ofObject {o _} h := by cases o <;> cases h; rfl

instance : TessraObject Hook where
  tag := "hook"
  toObject := .hook
  ofObject
    | .hook t => some t
    | _ => none
  ofObject_toObject _ := rfl
  toObject_of_ofObject {o _} h := by cases o <;> cases h; rfl

instance : TessraObject Line where
  tag := "line"
  toObject := .line
  ofObject
    | .line t => some t
    | _ => none
  ofObject_toObject _ := rfl
  toObject_of_ofObject {o _} h := by cases o <;> cases h; rfl

instance : TessraObject Deployment where
  tag := "deployment"
  toObject := .deployment
  ofObject
    | .deployment t => some t
    | _ => none
  ofObject_toObject _ := rfl
  toObject_of_ofObject {o _} h := by cases o <;> cases h; rfl

/-- Every object ever put, oldest first.  The first one with an identifier
is the one the store keeps for it. -/
abbrev Store := List Object

structure Outcome (α : Type) where
  value : Except Error α
  puts : List Object

/-- A computation over a store: its result and the objects it puts. -/
def StoreM (α : Type) := Store → Outcome α

namespace StoreM

variable {α β : Type}

def value (x : StoreM α) (S : Store) : Except Error α := (x S).value

/-- The store once the computation has run. -/
def after (x : StoreM α) (S : Store) : Store := S ++ (x S).puts

protected def pure (a : α) : StoreM α := fun _ => ⟨.ok a, []⟩

protected def bind (x : StoreM α) (f : α → StoreM β) : StoreM β := fun S =>
  match x S with
  | ⟨.ok a, puts⟩ =>
      let rest := f a (S ++ puts)
      ⟨rest.value, puts ++ rest.puts⟩
  | ⟨.error e, puts⟩ => ⟨.error e, puts⟩

instance : Monad StoreM where
  pure := StoreM.pure
  bind := StoreM.bind

instance : MonadExceptOf Error StoreM where
  throw e := fun _ => ⟨.error e, []⟩
  tryCatch x handle := fun S =>
    match x S with
    | ⟨.ok a, puts⟩ => ⟨.ok a, puts⟩
    | ⟨.error e, puts⟩ =>
        let rest := handle e (S ++ puts)
        ⟨rest.value, puts ++ rest.puts⟩

def ofExcept (x : Except Error α) : StoreM α := fun _ => ⟨x, []⟩

@[simp] theorem run_pure (a : α) (S : Store) : (pure a : StoreM α) S = ⟨.ok a, []⟩ := rfl

theorem run_bind (x : StoreM α) (f : α → StoreM β) (S : Store) :
    (x >>= f) S = StoreM.bind x f S := rfl

instance : LawfulMonad StoreM := by
  refine LawfulMonad.mk' _ ?_ ?_ ?_
  · intro _ x
    funext S
    change StoreM.bind x (fun a => pure a) S = x S
    rcases h : x S with ⟨_ | a, puts⟩ <;> simp [StoreM.bind, h]
  · intro _ _ a f
    funext S
    simp [run_bind, StoreM.bind]
  · intro _ _ _ x f g
    funext S
    rcases hx : x S with ⟨_ | a, puts⟩
    · simp [run_bind, StoreM.bind, hx]
    · rcases hf : f a (S ++ puts) with ⟨_ | b, puts'⟩ <;>
        simp [run_bind, StoreM.bind, hx, hf]

theorem subset_after (x : StoreM α) (S : Store) : S ⊆ x.after S :=
  List.subset_append_left _ _

@[simp] theorem value_pure (a : α) (S : Store) : (pure a : StoreM α).value S = .ok a := rfl

@[simp] theorem after_pure (a : α) (S : Store) : (pure a : StoreM α).after S = S :=
  List.append_nil S

@[simp] theorem value_throw (e : Error) (S : Store) :
    (throw e : StoreM α).value S = .error e := rfl

@[simp] theorem after_throw (e : Error) (S : Store) :
    (throw e : StoreM α).after S = S := List.append_nil S

theorem bind_of_ok {x : StoreM α} {f : α → StoreM β} {S : Store} {a : α}
    (h : x.value S = .ok a) :
    (x >>= f).value S = (f a).value (x.after S) ∧
      (x >>= f).after S = (f a).after (x.after S) := by
  rcases hrun : x S with ⟨v, puts⟩
  have hv : v = .ok a := by simpa [value, hrun] using h
  subst hv
  simp [Bind.bind, StoreM.bind, value, after, hrun]

theorem bind_of_error {x : StoreM α} {f : α → StoreM β} {S : Store} {e : Error}
    (h : x.value S = .error e) :
    (x >>= f).value S = .error e ∧ (x >>= f).after S = x.after S := by
  rcases hrun : x S with ⟨v, puts⟩
  have hv : v = .error e := by simpa [value, hrun] using h
  subst hv
  simp [Bind.bind, StoreM.bind, value, after, hrun]

theorem bind_ok {x : StoreM α} {f : α → StoreM β} {S : Store} {b : β}
    (h : (x >>= f).value S = .ok b) :
    ∃ a, x.value S = .ok a ∧ (f a).value (x.after S) = .ok b ∧
      (x >>= f).after S = (f a).after (x.after S) := by
  cases hx : x.value S with
  | ok a =>
      obtain ⟨hvalue, hafter⟩ := bind_of_ok (f := f) hx
      exact ⟨a, rfl, hvalue ▸ h, hafter⟩
  | error e =>
      rw [(bind_of_error (f := f) hx).1] at h
      cases h

/-- A computation that puts nothing. -/
def ReadOnly (x : StoreM α) : Prop := ∀ S, x.after S = S

theorem readOnly_pure (a : α) : (pure a : StoreM α).ReadOnly := after_pure a

theorem readOnly_throw (e : Error) : (throw e : StoreM α).ReadOnly := after_throw e

theorem ReadOnly.bind {x : StoreM α} {f : α → StoreM β} (hx : x.ReadOnly)
    (hf : ∀ a, (f a).ReadOnly) : (x >>= f).ReadOnly := by
  intro S
  cases hvalue : x.value S with
  | ok a => rw [(bind_of_ok hvalue).2, hx S, hf a S]
  | error e => rw [(bind_of_error hvalue).2, hx S]

end StoreM

section Objects

variable [Crypto]

open Crypto (objectId)

/-- No two different objects of a store hash to one identifier. -/
def CollisionFree (S : Store) : Prop :=
  ∀ o ∈ S, ∀ o' ∈ S, objectId o = objectId o' → o = o'

theorem CollisionFree.mono {S S' : Store} (h : CollisionFree S') (hsub : S ⊆ S') :
    CollisionFree S := fun o ho o' ho' => h o (hsub ho) o' (hsub ho')

/-- A hash that tells the objects of a short table apart by their places. -/
@[reducible]
def Crypto.ofTable (table : List Object) : Crypto where
  objectId o := .splat (min (table.idxOf o) 255)
  verifies _ _ _ := true

omit [Crypto] in
theorem collisionFree_ofTable {table : List Object} {S : Store} (hlen : table.length ≤ 255)
    (hS : ∀ o ∈ S, o ∈ table) : @CollisionFree (.ofTable table) S := by
  intro o ho o' ho' hid
  have hindex := List.idxOf_lt_length_of_mem (hS o ho)
  have hindex' := List.idxOf_lt_length_of_mem (hS o' ho')
  have hsame := ObjectId.splat_inj (by omega) (by omega) hid
  exact (List.idxOf_inj (hS o ho)).mp (by omega)

def getBytes (id : ObjectId) : StoreM (Option Object) := fun S =>
  ⟨.ok (S.find? fun o => objectId o = id), []⟩

def has (id : ObjectId) : StoreM Bool := do
  return (← getBytes id).isSome

/-- Fetch and decode an object, failing if absent or of another type. -/
def get (T : Type) [TessraObject T] (id : ObjectId) : StoreM T := do
  match ← getBytes id with
  | none => throw (.notFound id)
  | some o =>
      match TessraObject.ofObject (T := T) o with
      | some t => pure t
      | none =>
          throw (.store
            s!"bytes for {id} do not hash to it as {TessraObject.tag T}")

theorem readOnly_getBytes (id : ObjectId) : (getBytes id).ReadOnly := fun S =>
  List.append_nil S

theorem readOnly_get (T : Type) [TessraObject T] (id : ObjectId) :
    (get T id).ReadOnly := by
  refine (readOnly_getBytes id).bind fun o => ?_
  cases o with
  | none => exact StoreM.readOnly_throw _
  | some o =>
      cases h : TessraObject.ofObject (T := T) o with
      | none => simp only [h]; exact StoreM.readOnly_throw _
      | some t => simp only [h]; exact StoreM.readOnly_pure t

def put {T : Type} [TessraObject T] (t : T) : StoreM ObjectId := fun _ =>
  ⟨.ok (objectId (TessraObject.toObject t)), [TessraObject.toObject t]⟩

end Objects

namespace StoreM

variable [Crypto] {α β : Type}

/-- A computation that puts nothing, and whose result additions to the store
leave as it is. -/
structure Lasting (x : StoreM α) : Prop where
  readOnly : x.ReadOnly
  lasts : ∀ {S S' : Store} {a : α}, S ⊆ S' → CollisionFree S' → x.value S = .ok a →
    x.value S' = .ok a

omit [Crypto] in
theorem readOnly_ofExcept (x : Except Error α) : (ofExcept x).ReadOnly := fun S =>
  List.append_nil S

theorem lasting_pure (a : α) : (pure a : StoreM α).Lasting := ⟨readOnly_pure a, fun _ _ h => h⟩

theorem Lasting.bind {x : StoreM α} {f : α → StoreM β} (hx : x.Lasting)
    (hf : ∀ a, (f a).Lasting) : (x >>= f).Lasting := by
  refine ⟨hx.readOnly.bind fun a => (hf a).readOnly, ?_⟩
  intro S S' b hsub hfree hb
  obtain ⟨a, ha, hrest, _⟩ := bind_ok hb
  have ha' := hx.lasts hsub hfree ha
  rw [hx.readOnly S] at hrest
  rw [(bind_of_ok ha').1, hx.readOnly S']
  exact (hf a).lasts hsub hfree hrest

theorem Lasting.foldlM {σ : Type} {f : σ → α → StoreM σ} (hf : ∀ s x, (f s x).Lasting)
    (l : List α) (s : σ) : (l.foldlM f s).Lasting := by
  induction l generalizing s with
  | nil => exact lasting_pure s
  | cons x rest ih =>
      rw [List.foldlM_cons]
      exact (hf s x).bind ih

/-- Unless objects collide, the computation succeeds with `post`. -/
def Returns (x : StoreM α) (S : Store) (post : α → Store → Prop) : Prop :=
  CollisionFree (x.after S) → ∃ a, x.value S = .ok a ∧ post a (x.after S)

theorem Returns.mono {x : StoreM α} {S : Store} {P Q : α → Store → Prop}
    (h : x.Returns S P) (himp : ∀ a S', S ⊆ S' → P a S' → Q a S') : x.Returns S Q := by
  intro hfree
  obtain ⟨a, ha, hP⟩ := h hfree
  exact ⟨a, ha, himp a _ (x.subset_after S) hP⟩

theorem returns_pure {S : Store} {a : α} {post : α → Store → Prop} (h : post a S) :
    (pure a : StoreM α).Returns S post := fun _ =>
  ⟨a, rfl, by rwa [after_pure]⟩

theorem Returns.bind {x : StoreM α} {f : α → StoreM β} {S : Store}
    {P : α → Store → Prop} {Q : β → Store → Prop} (hx : x.Returns S P)
    (hf : ∀ a S', S ⊆ S' → P a S' → (f a).Returns S' Q) :
    (x >>= f).Returns S Q := by
  intro hfree
  have hfirst : CollisionFree (x.after S) := by
    refine hfree.mono ?_
    cases hvalue : x.value S with
    | ok a =>
        rw [(bind_of_ok hvalue).2]
        exact (f a).subset_after _
    | error e =>
        rw [(bind_of_error hvalue).2]
        exact List.Subset.refl _
  obtain ⟨a, ha, hP⟩ := hx hfirst
  obtain ⟨hvalue, hafter⟩ := bind_of_ok (f := f) ha
  rw [hafter] at hfree
  rw [hvalue, hafter]
  exact hf a _ (x.subset_after S) hP hfree

/-- Only the run from the store at hand matters. -/
theorem Returns.of_run {x y : StoreM α} {S : Store} {post : α → Store → Prop}
    (hrun : x S = y S) (h : y.Returns S post) : x.Returns S post := by
  unfold Returns value after at *
  rwa [hrun]

theorem Returns.foldlM {σ : Type} {f : σ → α → StoreM σ}
    (I : List α → σ → Store → Prop) (done l : List α) {s : σ} {S : Store}
    (hstart : I done s S)
    (hround : ∀ done x s S', x ∈ l → S ⊆ S' → I done s S' →
      (f s x).Returns S' (I (done ++ [x]))) :
    (l.foldlM f s).Returns S (I (done ++ l)) := by
  induction l generalizing done s S with
  | nil =>
      rw [List.append_nil]
      exact returns_pure hstart
  | cons x rest ih =>
      rw [List.foldlM_cons]
      have hfirst := hround done x s S List.mem_cons_self (List.Subset.refl S) hstart
      refine hfirst.bind ?_
      intro s' S' hsub hs'
      have hrest := ih (done ++ [x]) hs' fun done x s S'' hx hsub' =>
        hround done x s S'' (List.mem_cons_of_mem _ hx) (List.Subset.trans hsub hsub')
      simpa using hrest

theorem Returns.of_free {x : StoreM α} {S : Store} {post : α → Store → Prop}
    (h : CollisionFree S → x.Returns S post) : x.Returns S post := fun hfree =>
  h (hfree.mono (x.subset_after S)) hfree

theorem find?_objectId {S : Store} (hfree : CollisionFree S) {o : Object} (ho : o ∈ S) :
    S.find? (fun o' => Crypto.objectId o' = Crypto.objectId o) = some o := by
  cases hfind : S.find? (fun o' => Crypto.objectId o' = Crypto.objectId o) with
  | none => simpa using List.find?_eq_none.mp hfind o ho
  | some o' =>
      have hid : Crypto.objectId o' = Crypto.objectId o := by
        simpa using List.find?_some hfind
      rw [hfree o' (List.mem_of_find?_eq_some hfind) o ho hid]

theorem returns_getBytes {S : Store} {o : Object} (ho : o ∈ S)
    {post : Option Object → Store → Prop} (h : post (some o) S) :
    (getBytes (Crypto.objectId o)).Returns S post := by
  intro hfree
  have hafter : (getBytes (Crypto.objectId o)).after S = S := List.append_nil S
  rw [hafter] at hfree ⊢
  exact ⟨some o, congrArg Except.ok (find?_objectId hfree ho), h⟩

theorem returns_get {T : Type} [TessraObject T] {S : Store} {t : T}
    (ht : TessraObject.toObject t ∈ S) {post : T → Store → Prop} (h : post t S) :
    (get T (Crypto.objectId (TessraObject.toObject t))).Returns S post := by
  refine Returns.bind (P := fun o S' => o = some (TessraObject.toObject t) ∧ S' = S)
    (returns_getBytes ht ⟨rfl, rfl⟩) ?_
  rintro _ _ _ ⟨rfl, rfl⟩
  simp only [TessraObject.ofObject_toObject]
  exact returns_pure h

theorem returns_getSame {T : Type} [TessraObject T] {S : Store} {t : T}
    (ht : TessraObject.toObject t ∈ S) :
    (get T (Crypto.objectId (TessraObject.toObject t))).Returns S fun t' S' =>
      t' = t ∧ S' = S := returns_get ht ⟨rfl, rfl⟩

theorem returns_put {T : Type} [TessraObject T] {S : Store} {t : T}
    {post : ObjectId → Store → Prop}
    (h : ∀ S', S ⊆ S' → TessraObject.toObject t ∈ S' →
      post (Crypto.objectId (TessraObject.toObject t)) S') :
    (put t).Returns S post := fun _ =>
  ⟨_, rfl, h _ (StoreM.subset_after _ S)
    (List.mem_append_right _ (List.mem_singleton_self _))⟩

theorem get_ok {T : Type} [TessraObject T] {S : Store} {id : ObjectId} {t : T}
    (h : (get T id).value S = .ok t) :
    TessraObject.toObject t ∈ S ∧ Crypto.objectId (TessraObject.toObject t) = id := by
  obtain ⟨o, ho, hrest, _⟩ := bind_ok h
  have hfind : S.find? (fun o => Crypto.objectId o = id) = o := Except.ok.inj ho
  cases o with
  | none => cases hrest
  | some o =>
      cases hof : TessraObject.ofObject (T := T) o with
      | none =>
          simp only [hof] at hrest
          cases hrest
      | some t' =>
          simp only [hof] at hrest
          cases hrest
          obtain rfl := TessraObject.toObject_of_ofObject hof
          exact ⟨List.mem_of_find?_eq_some hfind, by simpa using List.find?_some hfind⟩

theorem value_get {T : Type} [TessraObject T] {S : Store} (hfree : CollisionFree S) {t : T}
    (ht : TessraObject.toObject t ∈ S) :
    (get T (Crypto.objectId (TessraObject.toObject t))).value S = .ok t := by
  obtain ⟨t', ht', rfl, _⟩ := returns_getSame ht ((readOnly_get T _ S).symm ▸ hfree)
  exact ht'

theorem lasting_get (T : Type) [TessraObject T] (id : ObjectId) : (get T id).Lasting := by
  refine ⟨readOnly_get T id, ?_⟩
  intro S S' t hsub hfree h
  obtain ⟨hmem, rfl⟩ := get_ok h
  exact value_get hfree (hsub hmem)

/-- Unless objects collide, what the computation returns satisfies `post`. -/
def Ensures (x : StoreM α) (S : Store) (post : α → Store → Prop) : Prop :=
  CollisionFree (x.after S) → ∀ a, x.value S = .ok a → post a (x.after S)

theorem Returns.ensures {x : StoreM α} {S : Store} {post : α → Store → Prop}
    (h : x.Returns S post) : x.Ensures S post := by
  intro hfree a ha
  obtain ⟨a', ha', hpost⟩ := h hfree
  rw [ha] at ha'
  cases ha'
  exact hpost

theorem Ensures.mono {x : StoreM α} {S : Store} {P Q : α → Store → Prop}
    (h : x.Ensures S P) (himp : ∀ a S', S ⊆ S' → P a S' → Q a S') : x.Ensures S Q := by
  intro hfree a ha
  exact himp a _ (x.subset_after S) (h hfree a ha)

theorem ensures_pure {S : Store} {a : α} {post : α → Store → Prop} (h : post a S) :
    (pure a : StoreM α).Ensures S post :=
  (returns_pure h).ensures

theorem ensures_throw {S : Store} {e : Error} {post : α → Store → Prop} :
    (throw e : StoreM α).Ensures S post := by
  intro _ a ha
  cases ha

theorem ensures_trivial {x : StoreM α} {S : Store} : x.Ensures S fun _ _ => True :=
  fun _ _ _ => trivial

theorem Ensures.bind {x : StoreM α} {f : α → StoreM β} {S : Store}
    {P : α → Store → Prop} {Q : β → Store → Prop} (hx : x.Ensures S P)
    (hf : ∀ a S', S ⊆ S' → P a S' → (f a).Ensures S' Q) :
    (x >>= f).Ensures S Q := by
  intro hfree b hb
  obtain ⟨a, ha, hrest, hafter⟩ := bind_ok hb
  rw [hafter] at hfree ⊢
  have hP := hx (hfree.mono ((f a).subset_after _)) a ha
  exact hf a _ (x.subset_after S) hP hfree b hrest

theorem Ensures.and {x : StoreM α} {S : Store} {P Q : α → Store → Prop}
    (hP : x.Ensures S P) (hQ : x.Ensures S Q) : x.Ensures S fun a S' => P a S' ∧ Q a S' :=
  fun hfree a ha => ⟨hP hfree a ha, hQ hfree a ha⟩

theorem Ensures.forall {ι : Type} {x : StoreM α} {S : Store} {P : ι → α → Store → Prop}
    (h : ∀ i, x.Ensures S (P i)) : x.Ensures S fun a S' => ∀ i, P i a S' :=
  fun hfree a ha i => h i hfree a ha

theorem Ensures.forM {f : α → StoreM PUnit} {P : α → Prop} {S : Store} {l : List α}
    (h : ∀ x ∈ l, ∀ S', S ⊆ S' → (f x).Ensures S' fun _ _ => P x) :
    (l.forM f).Ensures S fun _ _ => ∀ x ∈ l, P x := by
  induction l generalizing S with
  | nil => exact ensures_pure (by simp)
  | cons x rest ih =>
      refine Ensures.bind (h x List.mem_cons_self S (List.Subset.refl S)) ?_
      intro _ S' hsub hx
      refine (ih fun y hy S'' hsub' => h y (List.mem_cons_of_mem _ hy) S''
        (List.Subset.trans hsub hsub')).mono fun _ _ _ hrest => ?_
      simpa using ⟨hx, hrest⟩

theorem Ensures.of_free {x : StoreM α} {S : Store} {post : α → Store → Prop}
    (h : CollisionFree S → x.Ensures S post) : x.Ensures S post := fun hfree =>
  h (hfree.mono (x.subset_after S)) hfree

theorem Ensures.foldlM {σ : Type} {f : σ → α → StoreM σ} (I : σ → Store → Prop)
    (l : List α) {s : σ} {S : Store} (hstart : I s S)
    (hround : ∀ x s S', x ∈ l → S ⊆ S' → I s S' → (f s x).Ensures S' I) :
    (l.foldlM f s).Ensures S I := by
  induction l generalizing s S with
  | nil => exact ensures_pure hstart
  | cons x rest ih =>
      rw [List.foldlM_cons]
      refine (hround x s S List.mem_cons_self (List.Subset.refl S) hstart).bind ?_
      intro s' S' hsub hs'
      exact ih hs' fun x s S'' hx hsub' =>
        hround x s S'' (List.mem_cons_of_mem _ hx) (List.Subset.trans hsub hsub')

end StoreM

end Tessra.Core
