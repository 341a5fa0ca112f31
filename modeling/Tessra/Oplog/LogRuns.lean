import Tessra.Oplog.DagRefine
import Tessra.Oplog.Verify
import Tessra.Oplog.ViewLaws

namespace Tessra.Oplog

open Tessra.Core Tessra.Data StoreM OpLog

/-! What a log keeps of the ops it accepted, over whole runs. -/

section Last

variable {α β : Type} {f : β → Option α}

theorem foldl_or_eq_some {l : List β} {w : Option α} {x : α}
    (h : l.foldl (fun w e => (f e).or w) w = some x) : (∃ e ∈ l, f e = some x) ∨ w = some x := by
  induction l generalizing w with
  | nil => exact .inr h
  | cons e rest ih =>
      rcases ih h with ⟨e', he', hx⟩ | hw
      · exact .inl ⟨e', List.mem_cons_of_mem _ he', hx⟩
      · rcases Option.or_eq_some_iff.mp hw with hx | ⟨_, hw⟩
        · exact .inl ⟨e, List.mem_cons_self, hx⟩
        · exact .inr hw

theorem foldl_or_eq_none {l : List β} {w : Option α}
    (h : l.foldl (fun w e => (f e).or w) w = none) : (∀ e ∈ l, f e = none) ∧ w = none := by
  induction l generalizing w with
  | nil => exact ⟨by simp, h⟩
  | cons e rest ih =>
      obtain ⟨hrest, hw⟩ := ih h
      obtain ⟨he, hw⟩ := Option.or_eq_none_iff.mp hw
      exact ⟨List.forall_mem_cons.mpr ⟨he, hrest⟩, hw⟩

/-- Writing over a value again and again is writing the last value over it. -/
theorem foldl_last {γ : Type} {g : γ → Option α → γ} (hnone : ∀ x, g x none = x)
    (htwice : ∀ x w w', g (g x w) w' = g x (w'.or w)) (l : List β) (x : γ) :
    l.foldl (fun x e => g x (f e)) x = g x (l.foldl (fun w e => (f e).or w) none) := by
  have h : ∀ w, l.foldl (fun x e => g x (f e)) (g x w) =
      g x (l.foldl (fun w e => (f e).or w) w) := by
    induction l with
    | nil => exact fun _ => rfl
    | cons e rest ih =>
        intro w
        rw [List.foldl_cons, List.foldl_cons, htwice, ih]
  rw [← h none, hnone]

end Last

/-- A place that ops write in a view: an entity's or a claim's pointer, or a
member of the proposed revisions or of the active capabilities. -/
inductive Cell
  | entity (id : EntityId)
  | claim (id : EntityId)
  | proposed (rev : ObjectId)
  | cap (cap : ObjectId)
deriving DecidableEq

namespace Cell

def key : Cell → Bytes
  | .entity id | .claim id => id.bytes
  | .proposed id | .cap id => id.bytes

def policy : Cell → MergePolicy
  | .entity _ | .claim _ => .pointers
  | .proposed _ | .cap _ => .set

def root (v : View) : Cell → ObjectId
  | .entity _ => v.entities
  | .claim _ => v.claims
  | .proposed _ => v.proposed
  | .cap _ => v.caps

def writtenBy : Cell → Effect → Option (Option TrieValue)
  | .entity id, .point e to_ _ => if e = id then some (some (.id to_)) else none
  | .entity id, .unpoint e => if e = id then some none else none
  | .claim id, .claim e to_ => if e = id then some (some (.id to_)) else none
  | .claim id, .unclaim e => if e = id then some none else none
  | .proposed id, .propose rev => if rev = id then some (some .set) else none
  | .proposed id, .unpropose rev => if rev = id then some none else none
  | .cap id, .cap i => if i = id then some (some .set) else none
  | .cap id, .uncap i => if i = id then some none else none
  | _, _ => none

/-- What the last of the effects on a cell writes to it. -/
def lastWrite (cell : Cell) (effects : List Effect) : Option (Option TrieValue) :=
  effects.foldl (fun w e => (cell.writtenBy e).or w) none

theorem writtenBy_of_lastWrite {cell : Cell} {effects : List Effect} {x : Option TrieValue}
    (h : cell.lastWrite effects = some x) : ∃ e ∈ effects, cell.writtenBy e = some x :=
  (foldl_or_eq_some h).resolve_right (by simp)

end Cell

def Contents.at (c : Contents) : Cell → Option TrieValue
  | .entity id => c.entities id.bytes
  | .claim id => c.claims id.bytes
  | .proposed id => c.proposed id.bytes
  | .cap id => c.caps id.bytes

theorem update_at {α : Type} [DecidableEq α] {key : α → Bytes}
    (hkey : Function.Injective key) (f : Bytes → Option TrieValue) (x y : α)
    (w : Option TrieValue) :
    Function.update f (key x) w (key y) = (if x = y then some w else none).getD (f (key y)) := by
  split_ifs with h
  · rw [h, Function.update_self]
    rfl
  · rw [Function.update_of_ne fun heq => h (hkey heq).symm]
    rfl

theorem Contents.at_act (c : Contents) (e : Effect) (cell : Cell) :
    (c.act e).at cell = (cell.writtenBy e).getD (c.at cell) := by
  cases e <;> cases cell <;> first
    | rfl
    | exact update_at EntityId.bytes_injective _ _ _ _
    | exact update_at ObjectId.bytes_injective _ _ _ _

theorem Contents.at_actAll (effects : List Effect) (c : Contents) (cell : Cell) :
    (c.actAll effects).at cell = (cell.lastWrite effects).getD (c.at cell) := by
  have hfold : (c.actAll effects).at cell =
      effects.foldl (fun x e => (cell.writtenBy e).getD x) (c.at cell) := by
    induction effects generalizing c with
    | nil => rfl
    | cons e rest ih =>
        rw [List.foldl_cons, ← Contents.at_act, ← ih]
        rfl
  rw [hfold]
  refine foldl_last (g := fun x w => w.getD x) (fun _ => rfl) (fun x w w' => ?_) effects _
  cases w' <;> rfl

theorem Contents.at_merge (base a b : Contents) (cell : Cell) :
    (Contents.merge base a b).at cell =
      threeWay cell.policy (base.at cell) (a.at cell) (b.at cell) := by
  cases cell <;> rfl

theorem threeWay_lawful (policy : MergePolicy) : ThreeWay (threeWay policy) where
  left := threeWay_left policy
  right := threeWay_right policy
  same base a := by simp [threeWay]

def headWritten (line : String) : Effect → Option ObjectId
  | .head name to_ _ _ _ _ => if name = line then some to_ else none
  | _ => none

/-- The head that the last of the effects gives a line. -/
def lastHead (line : String) (effects : List Effect) : Option ObjectId :=
  effects.foldl (fun w e => (headWritten line e).or w) none

def headAt (v : View) (line : String) : Option Value :=
  (v.lines.get? line).map LineState.head

/-- The head of a line once one or no revision is written over it. -/
def headOver (head : Option Value) (written : Option ObjectId) : Option Value :=
  (written.map fun i => (Pointer.id i).toValue).or head

theorem headOver_headOver (head : Option Value) (w w' : Option ObjectId) :
    headOver (headOver head w) w' = headOver head (w'.or w) := by
  cases w' <;> rfl

theorem headAt_insert {v v' : View} {name : String} {ls : LineState}
    (h : v'.lines = v.lines.insert name ls) (line : String) :
    headAt v' line = if name = line then some ls.head else headAt v line := by
  simp only [headAt, h, OrdMap.get?_insert]
  split_ifs <;> rfl

variable [Crypto] {F S S' : Store} {log log' : OpLog} {v : View} {c : Contents}
  {I : Set ObjectId → View → Contents → Prop}

theorem ensures_applyEffect_head (parentOp : Option ObjectId) (e : Effect) (line : String) :
    (ViewState.applyEffect parentOp v e).Ensures S fun v' _ =>
      headAt v' line = headOver (headAt v line) (headWritten line e) := by
  have hset : ∀ (name : String) (to_ : ObjectId) (ls : LineState),
      ls.head = (Pointer.id to_).toValue → ∀ source seq attests id,
      (pure { v with lines := v.lines.insert name ls } : StoreM View).Ensures S fun v' _ =>
        headAt v' line = headOver (headAt v line)
          (headWritten line (.head name to_ source seq attests id)) := by
    intro name to_ ls hhead source seq attests id
    refine ensures_pure ?_
    rw [headAt_insert rfl, hhead, headWritten]
    by_cases hname : name = line
    · rw [if_pos hname, if_pos hname]
      rfl
    · rw [if_neg hname, if_neg hname]
      rfl
  cases e with
  | head name to_ source seq attests id =>
      simp only [ViewState.applyEffect]
      split
      · exact hset name to_ _ rfl source seq attests id
      · split
        · exact ensures_throw
        · exact hset name to_ _ rfl source seq attests _
  | coordinator name to_ =>
      simp only [ViewState.applyEffect]
      split
      · rename_i ls hls
        refine ensures_pure ?_
        rw [headAt_insert rfl]
        split_ifs with hname
        · rw [← hname, headAt, hls]
          rfl
        · rfl
      · exact ensures_pure rfl
  | point | unpoint | propose | unpropose | claim | unclaim | cap | uncap | revoke | tomb =>
      exact ensures_trivial.bind fun _ _ _ _ => ensures_pure rfl
  | _ => exact ensures_pure rfl

theorem ensures_apply_part {β : Type} {part : View → β} {step : β → Effect → β}
    (effects : List Effect) (parentOp : Option ObjectId)
    (hstep : ∀ v e S, (ViewState.applyEffect parentOp v e).Ensures S fun v' _ =>
      part v' = step (part v) e) :
    (ViewState.apply v effects parentOp).Ensures S fun v' _ =>
      part v' = effects.foldl step (part v) := by
  induction effects generalizing v S with
  | nil => exact ensures_pure rfl
  | cons e rest ih =>
      rw [ViewState.apply, List.foldlM_cons]
      refine (hstep v e S).bind fun v' S' _ hv' => ?_
      rw [List.foldl_cons, ← hv']
      exact ih

theorem ensures_apply_head (effects : List Effect) (parentOp : Option ObjectId)
    (line : String) :
    (ViewState.apply v effects parentOp).Ensures S fun v' _ =>
      headAt v' line = headOver (headAt v line) (lastHead line effects) := by
  have hlast : effects.foldl (fun head e => headOver head (headWritten line e))
      (headAt v line) = headOver (headAt v line) (lastHead line effects) :=
    foldl_last (fun _ => rfl) headOver_headOver effects _
  rw [← hlast]
  exact ensures_apply_part effects parentOp fun _ e _ => ensures_applyEffect_head parentOp e line

theorem Sound.at (h : Sound S v c) (cell : Cell) :
    (Trie.get (cell.root v) cell.key).Returns S fun x S' => x = c.at cell ∧ S' = S := by
  cases cell with
  | entity id => exact returns_get h.entities id.length_bytes
  | claim id => exact returns_get h.claims id.length_bytes
  | proposed id => exact returns_get h.proposed id.length_bytes
  | cap id => exact returns_get h.caps id.length_bytes

def readCell (cell : Cell) (id : ObjectId) : StoreM (Option TrieValue) := do
  let op ← getOp id
  let v ← get View op.view
  Trie.get (cell.root v) cell.key

theorem readOnly_readCell (cell : Cell) (id : ObjectId) : (readCell cell id).ReadOnly :=
  (readOnly_get Op id).bind fun op => (readOnly_get View op.view).bind fun v =>
    readOnly_trieGet (cell.root v) cell.key

/-- What the view of an op, or the view before init, holds at a cell. -/
def shown (S : Store) (cell : Cell) : Option ObjectId → Option TrieValue
  | none => none
  | some id =>
      match (readCell cell id).value S with
      | .ok x => x
      | .error _ => none

def baseIn (S : Store) (folded : List ObjectId) (next : ObjectId) : Option ObjectId :=
  match (lca (folded ++ [next])).value S with
  | .ok b => b
  | .error _ => none

def mergedAt (S : Store) (cell : Cell) (ops : List ObjectId) : Option TrieValue :=
  mergeAll (baseIn S) (threeWay cell.policy) (shown S cell) (sortedDedup ops)

/-- What the store keeps of an accepted op. -/
structure Recorded (S : Store) (id : ObjectId) (op : Op) (v : View) (c : Contents) :
    Prop where
  op_id : Crypto.objectId (.op op) = id
  op_mem : Object.op op ∈ S
  view_id : Crypto.objectId (.view v) = op.view
  view_mem : Object.view v ∈ S
  sound : Sound S v c
  shows : ∀ cell, c.at cell = (cell.lastWrite op.effects).getD (mergedAt S cell op.parents)
  leads : ∀ line i, lastHead line op.effects = some i →
    headAt v line = some (Pointer.id i).toValue

/-- A property of the merged views of ops that merging keeps: it holds of the
empty view, and of a merge over a base that is below what was merged before. -/
structure MergeInvariant (F : Store) (I : Set ObjectId → View → Contents → Prop) : Prop where
  empty : ∀ {v : View}, v.lines = ∅ ∧ v.deployed = ∅ → I ∅ v .empty
  merge : ∀ {A B : Set ObjectId} {next : ObjectId} {base a b v : View}
    {cbase ca cb : Contents}, A.Nonempty → (∀ x ∈ B, ∃ y ∈ A, Ancestor F x y) →
    I B base cbase → I A a ca → I {next} b cb → MergedParts base a b v → I (insert next A) v (.merge cbase ca cb)

/-- The effects of an op take the property from its parents to the op. -/
def Preserves (I : Set ObjectId → View → Contents → Prop) (op : Op) : Prop :=
  ∀ {S : Store} {v : View} {c : Contents} (parentOp : Option ObjectId), Sound S v c →
    I {p | p ∈ op.parents} v c → (ViewState.apply v op.effects parentOp).Ensures S fun v' _ =>
      I {Crypto.objectId (.op op)} v' (c.actAll op.effects)

/-- What a log keeps: of every op, its record, its view, and that its parents
came before it; and the heads, above all of them. -/
structure Kept (I : Set ObjectId → View → Contents → Prop) (S : Store) (log : OpLog) : Prop where
  recorded : ∀ id ∈ log.verified, ∃ op v c, Recorded S id op v c ∧ I {id} v c ∧
    log.views.lookup id = some op.view ∧
    ∀ p ∈ op.parents, p ∈ log.verified ∧ log.verified.idxOf p < log.verified.idxOf id
  heads : ∀ id ∈ log.heads, id ∈ log.verified
  below : ∀ id ∈ log.verified, ∃ h ∈ log.heads, Ancestor S id h

theorem Recorded.get_op {id : ObjectId} {op : Op} (h : Recorded S id op v c)
    (hfree : CollisionFree S) : (getOp id).value S = .ok op := by
  obtain rfl := h.op_id
  exact value_get hfree h.op_mem

theorem Recorded.parentsIn {id : ObjectId} {op : Op} (h : Recorded S id op v c)
    (hfree : CollisionFree S) : OpLog.parentsIn S id = .ok op.parents := by
  obtain rfl := h.op_id
  exact parentsIn_of_mem hfree h.op_mem

theorem shown_of_sound {op : Op} (hfree : CollisionFree S) (hop : Object.op op ∈ S)
    (hview : Crypto.objectId (.view v) = op.view) (hv : Object.view v ∈ S) (h : Sound S v c)
    (cell : Cell) : shown S cell (some (Crypto.objectId (.op op))) = c.at cell := by
  have hread : (readCell cell (Crypto.objectId (.op op))).Returns S fun x S' =>
      x = c.at cell ∧ S' = S := by
    refine (returns_getSame hop).bind ?_
    intro _ _ _ hop'
    obtain ⟨rfl, rfl⟩ := hop'
    rw [← hview]
    refine (returns_getSame hv).bind ?_
    intro _ _ _ hv'
    obtain ⟨rfl, rfl⟩ := hv'
    exact h.at cell
  obtain ⟨x, hx, rfl, _⟩ := hread ((readOnly_readCell cell _ S).symm ▸ hfree)
  rw [shown, hx]

theorem Recorded.shown_eq {id : ObjectId} {op : Op} (h : Recorded S id op v c)
    (hsub : S ⊆ S') (hfree : CollisionFree S') (cell : Cell) :
    shown S' cell (some id) = c.at cell := by
  obtain rfl := h.op_id
  exact shown_of_sound hfree (hsub h.op_mem) h.view_id (hsub h.view_mem) (h.sound.mono hsub) cell

theorem Kept.closed (h : Kept I S log) (hfree : CollisionFree S) :
    OpsClosed S log.verified.toFinset := by
  intro x hx
  obtain ⟨op, v, c, hrecorded, _, _, hparents⟩ := h.recorded x (List.mem_toFinset.mp hx)
  exact ⟨op.parents, hrecorded.parentsIn hfree, fun p hp =>
    List.mem_toFinset.mpr (hparents p hp).1⟩

/-- The base is the same in any larger store, and lies below all it is taken of. -/
theorem Kept.lca_at (h : Kept I S log) (hsub : S ⊆ S') (hfree : CollisionFree S')
    {folded : List ObjectId} {next : ObjectId} (hfolded : ∀ f ∈ folded, f ∈ log.verified)
    (hnext : next ∈ log.verified) :
    (lca (folded ++ [next])).value S' = .ok (baseIn S folded next) ∧
      ∀ b ∈ baseIn S folded next, ∀ x ∈ next :: folded, Ancestor S b x := by
  have hstart := hfree.mono hsub
  have hops : ∀ o ∈ folded ++ [next], o ∈ log.verified.toFinset := by
    intro o ho
    rw [List.mem_toFinset]
    rcases List.mem_append.mp ho with ho | ho
    · exact hfolded o ho
    · rwa [List.mem_singleton.mp ho]
  obtain ⟨b, hb, _, hbelow⟩ := returns_lca (h.closed hstart) (by simp) hops
    (((lasting_lca (folded ++ [next])).readOnly S).symm ▸ hstart)
  have hbase : baseIn S folded next = b := by rw [baseIn, hb]
  rw [hbase]
  refine ⟨(lasting_lca _).lasts hsub hfree hb, fun x hx o ho => hbelow x hx o ?_⟩
  rcases List.mem_cons.mp ho with rfl | ho
  · exact List.mem_append_right _ List.mem_cons_self
  · exact List.mem_append_left _ ho

theorem Kept.base_mem (h : Kept I S log) (hfree : CollisionFree S) {folded : List ObjectId}
    {next : ObjectId} (hfolded : ∀ f ∈ folded, f ∈ log.verified) (hnext : next ∈ log.verified) :
    ∀ b ∈ baseIn S folded next, b ∈ log.verified := by
  intro b hb
  have hbelow := (h.lca_at (List.Subset.refl S) hfree hfolded hnext).2 b hb next
    List.mem_cons_self
  exact List.mem_toFinset.mp (hbelow.mem (h.closed hfree) (List.mem_toFinset.mpr hnext))

theorem Kept.mergedAt_mono (h : Kept I S log) (hsub : S ⊆ S') (hfree : CollisionFree S')
    (hshown : ∀ cell, ∀ x ∈ log.verified, shown S cell (some x) = shown S' cell (some x))
    {ops : List ObjectId} (hops : ∀ o ∈ ops, o ∈ log.verified) (cell : Cell) :
    mergedAt S cell ops = mergedAt S' cell ops := by
  refine mergeAll_congr (P := {x | x ∈ log.verified})
    (fun x hx => hops x (mem_sortedDedup.mp hx)) ?_ ⟨rfl, hshown cell⟩
  intro folded next _ hfolded hnext
  have hbase := (h.lca_at hsub hfree hfolded hnext).1
  exact ⟨by conv_rhs => rw [baseIn, hbase], h.base_mem (hfree.mono hsub) hfolded hnext⟩

theorem Recorded.mono {id : ObjectId} {op : Op} (hrecorded : Recorded S id op v c)
    (hsub : S ⊆ S') (hshows : ∀ cell, mergedAt S cell op.parents = mergedAt S' cell op.parents) :
    Recorded S' id op v c where
  op_id := hrecorded.op_id
  op_mem := hsub hrecorded.op_mem
  view_id := hrecorded.view_id
  view_mem := hsub hrecorded.view_mem
  sound := hrecorded.sound.mono hsub
  shows cell := by rw [hrecorded.shows, hshows]
  leads := hrecorded.leads

theorem Kept.shown_mono (h : Kept I S log) (hsub : S ⊆ S') (hfree : CollisionFree S')
    (cell : Cell) : ∀ x ∈ log.verified, shown S cell (some x) = shown S' cell (some x) := by
  intro x hx
  obtain ⟨op, v, c, hrecorded, _⟩ := h.recorded x hx
  rw [hrecorded.shown_eq (List.Subset.refl S) (hfree.mono hsub), hrecorded.shown_eq hsub hfree]

theorem Ancestor.mono {x o : ObjectId} (h : Ancestor S x o) (hsub : S ⊆ S')
    (hfree : CollisionFree S') : Ancestor S' x o := by
  refine Relation.ReflTransGen.mono (fun p o hstep => ?_) _ _ h
  obtain ⟨parents, hparents, hp⟩ := hstep
  exact ⟨parents, parentsIn_mono hsub hfree hparents, hp⟩

theorem Kept.mono (h : Kept I S log) (hsub : S ⊆ S') (hfree : CollisionFree S') :
    Kept I S' log where
  recorded := by
    intro id hid
    obtain ⟨op, v, c, hrecorded, hinv, hview, hparents⟩ := h.recorded id hid
    refine ⟨op, v, c, hrecorded.mono hsub fun cell => ?_, hinv, hview, hparents⟩
    exact h.mergedAt_mono hsub hfree (h.shown_mono hsub hfree) (fun o ho => (hparents o ho).1) cell
  heads := h.heads
  below := by
    intro id hid
    obtain ⟨x, hx, hbelow⟩ := h.below id hid
    exact ⟨x, hx, hbelow.mono hsub hfree⟩

theorem Kept.returns_viewOf (h : Kept I S log) (hsub : S ⊆ S') {x : ObjectId}
    (hx : x ∈ log.verified) :
    (log.viewOf x).Returns S' fun v S'' => S'' = S' ∧
      ∃ c, Sound S' v c ∧ I {x} v c ∧ ∀ cell, c.at cell = shown S cell (some x) := by
  refine Returns.of_free fun hfree => ?_
  obtain ⟨op, v, c, hrecorded, hinv, hview, _⟩ := h.recorded x hx
  have hviewId : log.viewIdOf x = pure op.view := by rw [viewIdOf, hview]
  rw [viewOf, hviewId, pure_bind, ← hrecorded.view_id]
  refine returns_get (hsub hrecorded.view_mem) ⟨rfl, c, hrecorded.sound.mono hsub, hinv, ?_⟩
  intro cell
  exact (hrecorded.shown_eq (List.Subset.refl S) (hfree.mono hsub) cell).symm

theorem Kept.value_viewOf (h : Kept I S log) (hfree : CollisionFree S) {o : ObjectId}
    (ho : o ∈ log.verified) :
    ∃ op v c, Recorded S o op v c ∧ I {o} v c ∧ (log.viewOf o).value S = .ok v := by
  obtain ⟨op, v, c, hrecorded, hinv, hview, _⟩ := h.recorded o ho
  refine ⟨op, v, c, hrecorded, hinv, ?_⟩
  have hviewId : log.viewIdOf o = pure op.view := by rw [viewIdOf, hview]
  rw [viewOf, hviewId, pure_bind, ← hrecorded.view_id]
  exact value_get hfree hrecorded.view_mem

theorem Kept.returns_baseView (h : Kept I S log) (hI : MergeInvariant F I) (hsub : S ⊆ S')
    {b : Option ObjectId} (hb : ∀ x ∈ b, x ∈ log.verified) :
    (log.baseView b).Returns S' fun v S'' =>
      ∃ c, Sound S'' v c ∧ I {x | x ∈ b} v c ∧ ∀ cell, c.at cell = shown S cell b := by
  cases b with
  | none =>
      have hnone : {x : ObjectId | x ∈ (none : Option ObjectId)} = ∅ := by simp
      rw [hnone]
      refine returns_empty.mono fun v S'' _ hv => ⟨_, hv.1, hI.empty hv.2, fun cell => ?_⟩
      cases cell <;> rfl
  | some b =>
      have hone : {x | x ∈ some b} = {b} := by
        ext x
        simp [eq_comm]
      rw [hone]
      refine (h.returns_viewOf hsub (hb b rfl)).mono fun v S'' _ hv => ?_
      obtain ⟨rfl, hv⟩ := hv
      exact hv

theorem Kept.returns_foldViews (h : Kept I S log) (hI : MergeInvariant F I) (hF : S ⊆ F)
    (hfreeF : CollisionFree F) {rest : List ObjectId} :
    ∀ {S' : Store} {folded : List ObjectId} {acc : View} {ca : Contents}, S ⊆ S' →
      (∀ x ∈ folded ++ rest, x ∈ log.verified) → folded ≠ [] → Sound S' acc ca →
      I {x | x ∈ folded} acc ca →
      (log.foldViews folded acc rest).Returns S' fun v S'' => ∃ c, Sound S'' v c ∧
        I {x | x ∈ folded ++ rest} v c ∧
        ∀ cell, c.at cell = foldFrom (baseIn S) (threeWay cell.policy) (shown S cell) folded
          (ca.at cell) rest := by
  induction rest with
  | nil =>
      intro S' folded acc ca _ _ _ hacc hinv
      rw [List.append_nil]
      exact returns_pure ⟨ca, hacc, hinv, fun _ => rfl⟩
  | cons next rest ih =>
      intro S' folded acc ca hsub hlive hne hacc hinv
      refine Returns.of_free fun hfree => ?_
      have hfolded : ∀ f ∈ folded, f ∈ log.verified := fun f hf =>
        hlive f (List.mem_append_left _ hf)
      have hnext := hlive next (by simp)
      obtain ⟨hlcaAt, hbelow⟩ := h.lca_at hsub hfree hfolded hnext
      have hlca : (lca (folded ++ [next])).Returns S' fun b S'' =>
          b = baseIn S folded next ∧ S'' = S' := fun _ =>
        ⟨_, hlcaAt, rfl, (lasting_lca _).readOnly S'⟩
      rw [foldViews]
      refine hlca.bind ?_
      intro _ _ _ hb
      obtain ⟨rfl, rfl⟩ := hb
      refine (h.returns_baseView hI hsub (h.base_mem (hfree.mono hsub) hfolded hnext)).bind ?_
      intro base S₁ h₁ hbase
      obtain ⟨cbase, hbase, hbaseInv, hbaseAt⟩ := hbase
      refine (h.returns_viewOf (List.Subset.trans hsub h₁) hnext).bind ?_
      intro nv S₂ h₂ hnv
      obtain ⟨rfl, cn, hn, hnInv, hnAt⟩ := hnv
      refine (returns_merge hbase (hacc.mono h₁) hn).bind ?_
      intro acc' S₃ h₃ hacc'
      have hbaseBelow : ∀ x ∈ {x | x ∈ baseIn S folded next},
          ∃ y ∈ {x | x ∈ folded}, Ancestor F x y := by
        intro x hx
        obtain ⟨y, hy⟩ := List.exists_mem_of_ne_nil folded hne
        exact ⟨y, hy, (hbelow x hx y (List.mem_cons_of_mem _ hy)).mono hF hfreeF⟩
      have hinv' : I {x | x ∈ folded ++ [next]} acc' (.merge cbase ca cn) := by
        have hset : {x | x ∈ folded ++ [next]} = insert next {x | x ∈ folded} := by
          ext x
          simp [or_comm]
        rw [hset]
        exact hI.merge (List.exists_mem_of_ne_nil folded hne) hbaseBelow hbaseInv hinv hnInv hacc'.2
      have hsplit : folded ++ next :: rest = (folded ++ [next]) ++ rest := by simp
      rw [hsplit] at hlive ⊢
      refine (ih (List.Subset.trans (List.Subset.trans hsub h₁) h₃) hlive (by simp) hacc'.1
        hinv').mono ?_
      intro v S₄ _ hv
      obtain ⟨c, hc, hcInv, hcAt⟩ := hv
      refine ⟨c, hc, hcInv, fun cell => ?_⟩
      rw [hcAt, Contents.at_merge, hbaseAt, hnAt, foldFrom]

theorem Kept.returns_mergedView (h : Kept I S log) (hI : MergeInvariant F I) (hF : S ⊆ F)
    (hfreeF : CollisionFree F) (hsub : S ⊆ S') {ops : List ObjectId}
    (hops : ∀ o ∈ ops, o ∈ log.verified) :
    (log.mergedView ops).Returns S' fun v S'' =>
      ∃ c, Sound S'' v c ∧ I {o | o ∈ ops} v c ∧ ∀ cell, c.at cell = mergedAt S cell ops := by
  have hlive : ∀ o ∈ sortedDedup ops, o ∈ log.verified := fun o ho =>
    hops o (mem_sortedDedup.mp ho)
  have hset : {o | o ∈ ops} = {o | o ∈ sortedDedup ops} := by
    ext o
    exact mem_sortedDedup.symm
  rw [mergedView, hset]
  unfold mergedAt
  cases hsorted : sortedDedup ops with
  | nil =>
      have hnone : {o : ObjectId | o ∈ ([] : List ObjectId)} = ∅ := by simp
      rw [hnone]
      refine returns_empty.mono fun v S'' _ hv => ⟨_, hv.1, hI.empty hv.2, fun cell => ?_⟩
      cases cell <;> rfl
  | cons x rest =>
      rw [hsorted] at hlive
      refine (h.returns_viewOf hsub (hlive x List.mem_cons_self)).bind ?_
      intro acc S₁ h₁ hacc
      obtain ⟨rfl, ca, hacc, haccInv, haccAt⟩ := hacc
      have hone : {o | o ∈ [x]} = {x} := by
        ext o
        simp
      refine (h.returns_foldViews hI hF hfreeF hsub hlive (List.cons_ne_nil x [])
        hacc (hone ▸ haccInv)).mono ?_
      intro v S₂ _ hv
      obtain ⟨c, hc, hcInv, hcAt⟩ := hv
      exact ⟨c, hc, hcInv, fun cell => by rw [hcAt, haccAt, mergeAll]⟩

/-- The view an op names, with what its effects write over its parents' merged view. -/
def Produces (I : Set ObjectId → View → Contents → Prop) (S : Store) (op : Op) (v : View)
    (S' : Store) : Prop :=
  Crypto.objectId (.view v) = op.view ∧
    (∀ line i, lastHead line op.effects = some i → headAt v line = some (Pointer.id i).toValue) ∧
    ∃ c, Sound S' v c ∧ I {Crypto.objectId (.op op)} v c ∧
      ∀ cell, c.at cell = (cell.lastWrite op.effects).getD (mergedAt S cell op.parents)

theorem ensures_require {holds : Bool} {e : Error} {post : Unit → Store → Prop}
    (h : holds = true → post () S) : (require holds e).Ensures S post := by
  unfold require
  split_ifs with hholds
  · exact ensures_pure (h hholds)
  · exact ensures_throw

theorem ensures_checkDeterminism {op : Op} {reason : ObjectId → String}
    (hop : Preserves I op) (hv : Sound S' v c) (hinv : I {p | p ∈ op.parents} v c)
    (hc : ∀ cell, c.at cell = mergedAt S cell op.parents) :
    (Verify.checkDeterminism v op reason).Ensures S' (Produces I S op) := by
  have hheads : (ViewState.apply v op.effects op.parents.head?).Ensures S' fun v' _ =>
      ∀ line, headAt v' line = headOver (headAt v line) (lastHead line op.effects) :=
    .forall fun line => ensures_apply_head op.effects op.parents.head? line
  refine (((ensures_apply hv op.effects op.parents.head?).and (hop _ hv hinv)).and
    hheads).bind ?_
  intro produced S₁ _ hproduced
  obtain ⟨⟨⟨hsound, _⟩, hinv'⟩, hheads⟩ := hproduced
  have hput : (ViewState.storeView produced).Ensures S₁ fun id _ =>
      id = Crypto.objectId (.view produced) := (returns_put fun _ _ _ => rfl).ensures
  refine hput.bind ?_
  intro _ S₂ hsub hid
  obtain rfl := hid
  have hcheck : (require (Crypto.objectId (.view produced) = op.view)
      (.rejected 8 "determinism" (reason (Crypto.objectId (.view produced))))).Ensures S₂
      fun _ S' => S' = S₂ ∧ Crypto.objectId (.view produced) = op.view :=
    ensures_require fun h => ⟨rfl, by simpa using h⟩
  refine hcheck.bind ?_
  intro _ _ _ hview
  obtain ⟨rfl, hview⟩ := hview
  refine ensures_pure ⟨hview, fun line i hi => ?_, _, hsound.mono hsub, hinv', fun cell => ?_⟩
  · rw [hheads, hi]
    rfl
  · rw [Contents.at_actAll, hc]

theorem ensures_verifyInit (hI : MergeInvariant F I) {op : Op} (hop : Preserves I op)
    (hparents : op.parents = []) :
    (Verify.verifyInit log op).Ensures S' (Produces I S op) := by
  refine ensures_trivial.bind fun _ _ _ _ => ?_
  refine ensures_trivial.bind fun _ _ _ _ => ?_
  refine ensures_trivial.bind fun _ _ _ _ => ?_
  refine ensures_trivial.bind fun _ _ _ _ => ?_
  refine ensures_trivial.bind fun _ _ _ _ => ?_
  refine returns_empty.ensures.bind fun v S₁ _ hv => ?_
  have hnone : {p | p ∈ op.parents} = ∅ := by simp [hparents]
  refine ensures_checkDeterminism hop hv.1 (hnone ▸ hI.empty hv.2) fun cell => ?_
  rw [hparents]
  cases cell <;> rfl

theorem Kept.ensures_verifyOp (h : Kept I S log) (hI : MergeInvariant F I) (hF : S ⊆ F)
    (hfreeF : CollisionFree F) (hsub : S ⊆ S') {op : Op} (hop : Preserves I op) (hparents : ∀ p ∈ op.parents, p ∈ log.verified) :
    (Verify.verifyOp log op).Ensures S' (Produces I S op) := by
  unfold Verify.verifyOp
  split_ifs with hinit
  · exact ensures_verifyInit hI hop (List.isEmpty_iff.mp hinit)
  · refine ensures_trivial.bind fun _ S₁ h₁ _ => ?_
    have hsub₁ := List.Subset.trans hsub h₁
    refine (h.returns_mergedView hI hF hfreeF hsub₁ hparents).ensures.bind fun v S₂ h₂ hv => ?_
    obtain ⟨c, hv, hinv, hc⟩ := hv
    refine ensures_trivial.bind fun _ S₃ h₃ _ => ?_
    refine ensures_trivial.bind fun _ S₄ h₄ _ => ?_
    exact ensures_checkDeterminism hop ((hv.mono h₃).mono h₄) hinv hc

theorem ensures_parents {ops : List ObjectId} :
    (ops.forM fun p => require (log.isVerified p) (.unknownParent p)).Ensures S
      fun _ _ => ∀ p ∈ ops, p ∈ log.verified :=
  Ensures.forM fun _ _ _ _ => ensures_require fun h => by simpa [isVerified] using h

omit [Crypto] in
theorem mem_pushSorted {α : Type} [LinearOrder α] {x y : α} {l : List α} :
    y ∈ pushSorted x l ↔ y = x ∨ y ∈ l := by
  unfold pushSorted
  split_ifs with hx
  · constructor
    · exact .inr
    · intro hy
      rcases hy with rfl | hy
      · exact hx
      · exact hy
  · rw [List.mem_insertionSort, List.mem_append, List.mem_singleton, or_comm]

omit [Crypto] in
theorem mem_record_verified {id x : ObjectId} {op : Op} :
    x ∈ (log.record id op).verified ↔ x ∈ log.verified ∨ x = id := by
  simp only [OpLog.record]
  split_ifs with hmem <;> grind

omit [Crypto] in
theorem idxOf_record {id x : ObjectId} {op : Op} (hx : x ∈ log.verified) :
    (log.record id op).verified.idxOf x = log.verified.idxOf x := by
  simp only [OpLog.record]
  split_ifs
  · rfl
  · rw [List.idxOf_append_of_mem hx]

omit [Crypto] in
theorem idxOf_record_self {id p : ObjectId} {op : Op} (hid : id ∉ log.verified)
    (hp : p ∈ log.verified) :
    (log.record id op).verified.idxOf p < (log.record id op).verified.idxOf id := by
  rw [idxOf_record hp]
  simp only [OpLog.record, if_neg hid]
  rw [List.idxOf_append_of_notMem hid]
  have hlt := List.idxOf_lt_length_of_mem hp
  omega

theorem Kept.below_record (h : Kept I S log) (hfree : CollisionFree S) {op : Op}
    (hop : Object.op op ∈ S) {x : ObjectId} (hx : x ∈ log.verified) :
    ∃ y ∈ (log.record (Crypto.objectId (.op op)) op).heads, Ancestor S x y := by
  obtain ⟨y, hy, hxy⟩ := h.below x hx
  by_cases hparent : y ∈ op.parents
  · refine ⟨_, mem_pushSorted.mpr (.inl rfl), hxy.tail ?_⟩
    exact ⟨op.parents, parentsIn_of_mem hfree hop, hparent⟩
  · refine ⟨y, mem_pushSorted.mpr (.inr ?_), hxy⟩
    simpa [hparent] using hy

theorem Kept.record (h : Kept I S log) (hfree : CollisionFree S) {op : Op}
    (hparents : ∀ p ∈ op.parents, p ∈ log.verified) (hop : Object.op op ∈ S)
    (hrecorded : Recorded S (Crypto.objectId (.op op)) op v c)
    (hinv : I {Crypto.objectId (.op op)} v c) :
    Kept I S (log.record (Crypto.objectId (.op op)) op) := by
  have hlookup : ∀ x, x ≠ Crypto.objectId (.op op) →
      (log.record (Crypto.objectId (.op op)) op).views.lookup x = log.views.lookup x := by
    intro x hx
    simp [OpLog.record, List.lookup_cons, beq_eq_false_iff_ne.mpr hx]
  have hlookupSelf : (log.record (Crypto.objectId (.op op)) op).views.lookup
      (Crypto.objectId (.op op)) = some op.view := by
    simp [OpLog.record]
  constructor
  · intro x hx
    by_cases hold : x ∈ log.verified
    · obtain ⟨op', v', c', hrecorded', hinv', hview', hparents'⟩ := h.recorded x hold
      refine ⟨op', v', c', hrecorded', hinv', ?_, fun p hp => ?_⟩
      · by_cases hself : x = Crypto.objectId (.op op)
        · have hsame := hfree _ hrecorded'.op_mem _ hop (hrecorded'.op_id.trans hself)
          cases hsame
          rw [hself, hlookupSelf]
        · rw [hlookup x hself, hview']
      · obtain ⟨hp, hlt⟩ := hparents' p hp
        rw [idxOf_record hp, idxOf_record hold]
        exact ⟨mem_record_verified.mpr (.inl hp), hlt⟩
    · obtain rfl := (mem_record_verified.mp hx).resolve_left hold
      exact ⟨op, v, c, hrecorded, hinv, hlookupSelf, fun p hp =>
        ⟨mem_record_verified.mpr (.inl (hparents p hp)), idxOf_record_self hold (hparents p hp)⟩⟩
  · intro x hx
    rw [mem_record_verified]
    rcases mem_pushSorted.mp hx with rfl | hx
    · exact .inr rfl
    · exact .inl (h.heads x (List.mem_of_mem_filter hx))
  · intro x hx
    rcases mem_record_verified.mp hx with hx | rfl
    · exact h.below_record hfree hop hx
    · exact ⟨_, mem_pushSorted.mpr (.inl rfl), .refl⟩

def Took (S : Store) (log : OpLog) (op : Op) : Prop :=
  ∃ o ∈ log.verified, (getOp o).value S = .ok op

theorem ensures_accept_took (op : Op) :
    (log.accept op).Ensures S fun r S' => (∀ x ∈ log.verified, x ∈ r.2.verified) ∧
      (((idemKey op).bind fun k => log.idem.lookup k) = none → Took S' r.2 op) := by
  unfold accept
  cases (idemKey op).bind fun k => log.idem.lookup k with
  | some existing => exact ensures_pure ⟨fun _ hx => hx, fun hnone => nomatch hnone⟩
  | none =>
      refine ensures_trivial.bind fun _ _ _ _ => ensures_trivial.bind fun v S₁ _ _ => ?_
      have hput : (put op).Ensures S₁ fun id S' =>
          id = Crypto.objectId (.op op) ∧ Object.op op ∈ S' :=
        (returns_put fun _ _ hmem => ⟨rfl, hmem⟩).ensures
      refine hput.bind fun id S₂ _ hid => ?_
      obtain ⟨rfl, hop⟩ := hid
      refine ensures_trivial.bind fun _ S₃ hsub _ => Ensures.of_free fun hfree => ?_
      refine ensures_pure ⟨fun x hx => mem_record_verified.mpr (.inl hx), fun _ => ?_⟩
      exact ⟨_, mem_record_verified.mpr (.inr rfl), value_get hfree (hsub hop)⟩

theorem Kept.ensures_accept (h : Kept I S log) (hI : MergeInvariant F I) (hF : S ⊆ F)
    (hfreeF : CollisionFree F) {op : Op} (hop : Preserves I op) : (log.accept op).Ensures S fun r S' => Kept I S' r.2 := by
  unfold accept
  cases (idemKey op).bind fun k => log.idem.lookup k with
  | some existing => exact ensures_pure h
  | none =>
      refine ensures_parents.bind fun _ S₁ h₁ hparents => ?_
      refine (h.ensures_verifyOp hI hF hfreeF h₁ hop hparents).bind fun v S₂ h₂ hv => ?_
      obtain ⟨hview, hleads, c, hsound, hinv, hshows⟩ := hv
      have hput : (put op).Ensures S₂ fun id S' =>
          id = Crypto.objectId (.op op) ∧ Object.op op ∈ S' :=
        (returns_put fun _ _ hmem => ⟨rfl, hmem⟩).ensures
      refine hput.bind fun id S₃ h₃ hid => ?_
      obtain ⟨rfl, hmem⟩ := hid
      have hputView : (put v).Ensures S₃ fun _ S' => Object.view v ∈ S' :=
        (returns_put fun _ _ hmem => hmem).ensures
      refine hputView.bind fun _ S₄ h₄ hviewMem => Ensures.of_free fun hfree => ?_
      have hsub₂ := List.Subset.trans h₁ h₂
      have hsub := List.Subset.trans hsub₂ (List.Subset.trans h₃ h₄)
      have hkept := h.mono hsub hfree
      refine ensures_pure (hkept.record hfree hparents (h₄ hmem) ?_ hinv)
      exact {
        op_id := rfl
        op_mem := h₄ hmem
        view_id := hview
        view_mem := hviewMem
        sound := (hsound.mono h₃).mono h₄
        shows := fun cell => by
          rw [hshows, h.mergedAt_mono hsub hfree (h.shown_mono hsub hfree) hparents]
        leads := hleads }

/-- The stores and logs of runs that accept ops, between which any objects may
be put and the store's metadata may change. -/
inductive LogReached : Store → OpLog → Prop
  | new : LogReached [] .new
  | put {S : Store} {log : OpLog} (o : Object) : LogReached S log → LogReached (S ++ [o]) log
  | note {S : Store} {log : OpLog} (records : List (String × Bytes)) :
      LogReached S log → LogReached S { log with records }
  | accept {S : Store} {log log' : OpLog} {id : ObjectId} (op : Op) :
      LogReached S log → (log.accept op).value S = .ok (id, log') →
      LogReached ((log.accept op).after S) log'

/-- Accept ops one after the other, up to the first that is refused. -/
def acceptAll (S : Store) (log : OpLog) : List Op → Store × OpLog
  | [] => (S, log)
  | op :: rest =>
      match (log.accept op).value S with
      | .ok (_, log') => acceptAll ((log.accept op).after S) log' rest
      | .error _ => (S, log)

theorem LogReached.acceptAll {ops : List Op} (h : LogReached S log) :
    LogReached (acceptAll S log ops).1 (acceptAll S log ops).2 := by
  induction ops generalizing S log with
  | nil => exact h
  | cons op rest ih =>
      rw [Oplog.acceptAll]
      split
      · rename_i id log' hvalue
        exact ih (h.accept op hvalue)
      · exact h

theorem LogReached.putAll {objects : List Object} (h : LogReached S log) :
    LogReached (S ++ objects) log := by
  induction objects generalizing S with
  | nil => rwa [List.append_nil]
  | cons o rest ih =>
      rw [List.append_cons]
      exact ih (h.put o)

theorem Took.mono {op : Op} (h : Took S log op) (hsub : S ⊆ S') (hfree : CollisionFree S')
    (hverified : ∀ x ∈ log.verified, x ∈ log'.verified) : Took S' log' op := by
  obtain ⟨o, ho, hop⟩ := h
  exact ⟨o, hverified o ho, (lasting_get Op o).lasts hsub hfree hop⟩

def AnyView (_ : Set ObjectId) (_ : View) (_ : Contents) : Prop := True

theorem mergeInvariant_any : MergeInvariant F AnyView :=
  ⟨fun _ => trivial, fun _ _ _ _ _ _ => trivial⟩

theorem preserves_any (op : Op) : Preserves AnyView op := fun _ _ _ => ensures_trivial

/-- Every run keeps a property of views that its ops preserve. -/
theorem LogReached.kept (h : LogReached S log) (hI : MergeInvariant F I) (hF : S ⊆ F)
    (hfree : CollisionFree F) (hops : ∀ op, Took S log op → Preserves I op) :
    Kept I S log := by
  induction h with
  | new => exact ⟨by simp [OpLog.new], by simp [OpLog.new], by simp [OpLog.new]⟩
  | @put S _ o _ ih =>
      have hsub := List.subset_append_left S [o]
      have hfreeS := hfree.mono hF
      have hkept := ih (List.Subset.trans hsub hF) fun op hop =>
        hops op (hop.mono hsub hfreeS fun _ hx => hx)
      exact hkept.mono hsub hfreeS
  | note records _ ih =>
      have hkept := ih hF hops
      exact ⟨hkept.recorded, hkept.heads, hkept.below⟩
  | @accept S log log' id op _ hvalue ih =>
      have hsub := subset_after (log.accept op) S
      have hfreeS := hfree.mono hF
      have hstart := List.Subset.trans hsub hF
      obtain ⟨hverified, htook⟩ := ensures_accept_took op hfreeS _ hvalue
      have hkept := ih hstart fun op' hop' =>
        hops op' (hop'.mono hsub hfreeS hverified)
      cases hidem : (idemKey op).bind fun k => log.idem.lookup k with
      | some existing =>
          have hpure : log.accept op = pure (existing, log) := by rw [OpLog.accept, hidem]
          rw [hpure] at hvalue ⊢
          cases hvalue
          rwa [after_pure]
      | none =>
          exact hkept.ensures_accept hI hstart hfree (hops op (htook hidem)) hfreeS _ hvalue

theorem LogReached.keeps (h : LogReached S log) (hfree : CollisionFree S) :
    Kept AnyView S log :=
  h.kept mergeInvariant_any (List.Subset.refl S) hfree fun op _ => preserves_any op

end Tessra.Oplog
