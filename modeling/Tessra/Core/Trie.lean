import Tessra.Core.Store
import Tessra.Data.Packed

namespace Tessra.Core

open Tessra.Data

/-! The persistent hash array mapped trie of the view's large maps: sixteen
branches at a node, one nibble of the key for each level. -/

abbrev Nibble := Fin 16

namespace TrieValue

def ids : TrieValue → List ObjectId
  | .id i => [i]
  | .conflict v => v
  | .set => []

def union (a b : TrieValue) : TrieValue :=
  match sortedDedup (a.ids ++ b.ids) with
  | [i] => .id i
  | v => .conflict v

theorem union_comm (a b : TrieValue) : union a b = union b a := by
  have h : sortedDedup (a.ids ++ b.ids) = sortedDedup (b.ids ++ a.ids) :=
    sortedDedup_congr fun i => by simp only [List.mem_append, or_comm]
  rw [union, h, union]

end TrieValue

def indexPanic : Error := .panic "index out of bounds"

def nibbleAt (key : Bytes) (depth : ℕ) : StoreM Nibble :=
  match key[depth / 2]? with
  | none => throw indexPanic
  | some b =>
      if depth % 2 = 0 then pure b.high else pure b.low

def countOnes (w : BitVec 16) : ℕ :=
  (List.finRange 16).countP fun i : Fin 16 => w.getLsbD i.val

namespace TrieNode

def empty : TrieNode := ⟨0#16, []⟩

/-- The bits below a nibble's own. -/
def below (n : Nibble) : BitVec 16 := (1#16 <<< n.val) - 1

def slotIndex (node : TrieNode) (n : Nibble) : Option ℕ :=
  if node.bitmap &&& (1#16 <<< n.val) = 0#16 then none
  else some (countOnes (node.bitmap &&& below n))

def getSlot (node : TrieNode) (n : Nibble) : StoreM (Option Slot) :=
  match node.slotIndex n with
  | none => pure none
  | some i =>
      match node.slots[i]? with
      | some slot => pure (some slot)
      | none => throw indexPanic

def setSlot (node : TrieNode) (n : Nibble) (slot : Option Slot) : StoreM TrieNode :=
  match node.slotIndex n, slot with
  | some i, some s =>
      if i < node.slots.length then pure { node with slots := node.slots.set i s }
      else throw indexPanic
  | some i, none =>
      if i < node.slots.length then
        pure ⟨node.bitmap &&& ~~~(1#16 <<< n.val), node.slots.eraseIdx i⟩
      else throw indexPanic
  | none, some s =>
      let bitmap := node.bitmap ||| (1#16 <<< n.val)
      let i := countOnes (bitmap &&& below n)
      if i ≤ node.slots.length then pure ⟨bitmap, node.slots.insertIdx i s⟩
      else throw indexPanic
  | none, none => pure node

/-! A node as the table of its sixteen slots. -/

def ofSlots (f : Nibble → Option Slot) : TrieNode where
  bitmap := (BitVec.ofBoolListLE (List.ofFn fun i => (f i).isSome)).setWidth 16
  slots := pack f

@[simp] theorem getLsbD_ofSlots (f : Nibble → Option Slot) (i : Nibble) :
    (ofSlots f).bitmap.getLsbD i = (f i).isSome := by
  simp only [ofSlots, BitVec.getLsbD_setWidth, i.isLt, decide_true, Bool.true_and,
    BitVec.getLsbD_ofBoolListLE, List.getD_eq_getElem?_getD, List.getElem?_ofFn, dite_true,
    Option.getD_some, Fin.eta]

private theorem getLsbD_single :
    ∀ n i : Nibble, (1#16 <<< n.val).getLsbD i = decide (i = n) := by
  decide

private theorem getLsbD_below :
    ∀ n i : Nibble, (below n).getLsbD i = decide (i < n) := by
  decide

private theorem bitmap_ext {w w' : BitVec 16}
    (h : ∀ i : Nibble, w.getLsbD i = w'.getLsbD i) : w = w' :=
  BitVec.eq_of_getLsbD_eq fun i hi => h ⟨i, hi⟩

private theorem and_single_eq_zero {w : BitVec 16} {n : Nibble} :
    w &&& (1#16 <<< n.val) = 0#16 ↔ w.getLsbD n = false := by
  constructor
  · intro h
    have hbit := congrArg (fun w => w.getLsbD n) h
    simpa only [BitVec.getLsbD_and, getLsbD_single, decide_true, Bool.and_true,
      BitVec.getLsbD_zero] using hbit
  · intro h
    apply bitmap_ext
    intro i
    rw [BitVec.getLsbD_and, getLsbD_single, BitVec.getLsbD_zero]
    by_cases hi : i = n
    · subst hi
      rw [h, Bool.false_and]
    · rw [decide_eq_false hi, Bool.and_false]

private theorem countOnes_below (f : Nibble → Option Slot) (n : Nibble) {w : BitVec 16}
    (h : ∀ i, i ≠ n → w.getLsbD i = (f i).isSome) :
    countOnes (w &&& below n) = rank f n := by
  rw [countOnes, rank_eq_countP]
  apply List.countP_congr
  intro i _
  rw [BitVec.getLsbD_and, getLsbD_below]
  by_cases hi : i = n
  · subst hi
    simp
  · rw [h i hi]

theorem slotIndex_ofSlots (f : Nibble → Option Slot) (n : Nibble) :
    (ofSlots f).slotIndex n = if (f n).isSome then some (rank f n) else none := by
  unfold slotIndex
  by_cases h : (f n).isSome
  · have hbit : ¬ (ofSlots f).bitmap &&& (1#16 <<< n.val) = 0#16 := by
      rw [and_single_eq_zero, getLsbD_ofSlots, h]
      exact Bool.noConfusion
    rw [if_pos h, if_neg hbit, countOnes_below f n fun i _ => getLsbD_ofSlots f i]
  · have hbit : (ofSlots f).bitmap &&& (1#16 <<< n.val) = 0#16 := by
      rw [and_single_eq_zero, getLsbD_ofSlots]
      exact Bool.eq_false_iff.mpr h
    rw [if_neg h, if_pos hbit]

theorem getSlot_ofSlots (f : Nibble → Option Slot) (n : Nibble) :
    (ofSlots f).getSlot n = pure (f n) := by
  unfold getSlot
  rw [slotIndex_ofSlots]
  cases h : f n with
  | none => rfl
  | some slot =>
      simp only [Option.isSome_some, if_true]
      rw [show (ofSlots f).slots = pack f from rfl, pack_get h]

theorem setSlot_ofSlots (f : Nibble → Option Slot) (n : Nibble) (slot : Option Slot) :
    (ofSlots f).setSlot n slot = pure (ofSlots (Function.update f n slot)) := by
  have hother : ∀ i, i ≠ n → (ofSlots f).bitmap.getLsbD i =
      (Function.update f n slot i).isSome := fun i hi => by
    rw [getLsbD_ofSlots, Function.update_of_ne hi]
  have hslots : (ofSlots f).slots = pack f := rfl
  have hnode : ∀ w : BitVec 16, (∀ i, i ≠ n → w.getLsbD i =
      (Function.update f n slot i).isSome) → w.getLsbD n = slot.isSome →
      w = (ofSlots (Function.update f n slot)).bitmap := by
    intro w hw hn
    apply bitmap_ext
    intro i
    rw [getLsbD_ofSlots]
    by_cases hi : i = n
    · subst hi
      rw [hn, Function.update_self]
    · exact hw i hi
  unfold setSlot
  rw [slotIndex_ofSlots]
  cases hf : f n with
  | none =>
      cases slot with
      | none =>
          simp only [Option.isSome_none, Bool.false_eq_true, if_false]
          rw [← hf, Function.update_eq_self]
      | some s =>
          have hbits : ∀ i, i ≠ n → ((ofSlots f).bitmap ||| (1#16 <<< n.val)).getLsbD i =
              (Function.update f n (some s) i).isSome := fun i hi => by
            rw [BitVec.getLsbD_or, getLsbD_single, hother i hi]
            simp [hi]
          have hindex : countOnes (((ofSlots f).bitmap ||| (1#16 <<< n.val)) &&& below n) =
              rank f n := by
            rw [countOnes_below _ n hbits, rank_update_self]
          have hrank : rank f n ≤ (pack f).length := by
            rw [pack_split f n, List.length_append]
            exact Nat.le_add_right _ _
          simp only [Option.isSome_none, Bool.false_eq_true, if_false, hindex, hslots,
            if_pos hrank, pack_insertIdx hf]
          rw [hnode _ hbits (by rw [BitVec.getLsbD_or, getLsbD_single]; simp)]
          rfl
  | some s' =>
      have hrank : rank f n < (pack f).length :=
        (List.getElem?_eq_some_iff.mp (pack_get hf)).1
      cases slot with
      | none =>
          simp only [Option.isSome_some, if_true, hslots, if_pos hrank, pack_eraseIdx hf]
          rw [hnode ((ofSlots f).bitmap &&& ~~~(1#16 <<< n.val))]
          · rfl
          · intro i hi
            rw [BitVec.getLsbD_and, hother i hi, BitVec.getLsbD_not, getLsbD_single]
            simp [hi]
          · rw [BitVec.getLsbD_and, BitVec.getLsbD_not, getLsbD_single]
            simp
      | some s =>
          simp only [Option.isSome_some, if_true, hslots, if_pos hrank, pack_set hf]
          rw [hnode _ hother (by rw [getLsbD_ofSlots, hf]; rfl)]
          rfl

theorem empty_eq_ofSlots : empty = ofSlots fun _ => none := by
  decide

theorem length_ofSlots (f : Nibble → Option Slot) :
    (ofSlots f).slots.length = countOnes (ofSlots f).bitmap := by
  rw [countOnes]
  simp only [getLsbD_ofSlots]
  exact List.length_filterMap_eq_countP

theorem ofSlots_injective : Function.Injective ofSlots := by
  intro f g h
  refine pack_injective_of_occupied (fun i => ?_) (congrArg TrieNode.slots h)
  rw [← getLsbD_ofSlots f i, ← getLsbD_ofSlots g i, h]

end TrieNode

/-- How removed-versus-changed is resolved in a three-way merge. -/
inductive MergePolicy
  /-- Entity pointer maps: a removal wins over a concurrent change. -/
  | pointers
  /-- Sets: add wins. -/
  | set
deriving DecidableEq

/-- A slot viewed abstractly during a merge. -/
inductive Sub
  | empty
  | leaf (key : Bytes) (value : TrieValue)
  | node (id : ObjectId)
deriving DecidableEq

namespace Sub

def ofSlot : Option Slot → Sub
  | none => .empty
  | some (.leaf key value) => .leaf key value
  | some (.node id) => .node id

def toSlot : Sub → Option Slot
  | .empty => none
  | .leaf key value => some (.leaf key value)
  | .node id => some (.node id)

/-- At most one key's value, as a flat subtree. -/
def ofValue (key : Bytes) : Option TrieValue → Sub
  | none => .empty
  | some value => .leaf key value

@[simp] theorem ofSlot_toSlot (sub : Sub) : ofSlot sub.toSlot = sub := by
  cases sub <;> rfl

@[simp] theorem toSlot_node (id : ObjectId) : (node id).toSlot = some (.node id) := rfl

theorem toSlot_injective : Function.Injective toSlot := by
  intro sub sub' h
  rw [← ofSlot_toSlot sub, h, ofSlot_toSlot]

def isFlat : Sub → Bool
  | .node _ => false
  | _ => true

def leafParts : Sub → Option Bytes × Option TrieValue
  | .leaf k v => (some k, some v)
  | _ => (none, none)

end Sub

def slotDepth : Slot → ℕ
  | .leaf key _ => 2 * key.length
  | .node _ => 0

def objectDepth : Object → ℕ
  | .trie node => 1 + (node.slots.map slotDepth).sum
  | _ => 0

/-- How deep the tries of a store can go: one level for each node, and two
for each byte of a key, where a merge splits leaves. -/
def Store.trieDepth (S : Store) : ℕ :=
  (S.map objectDepth).sum

def mergeValues (policy : MergePolicy) :
    Option TrieValue → Option TrieValue → Option TrieValue → Option TrieValue
  | _, some x, some y => some (x.union y)
  | some _, none, some y | some _, some y, none =>
      match policy with
      | .pointers => none
      | .set => some y
  | none, none, none | some _, none, none => none
  | none, none, some y | none, some y, none => some y

namespace Trie

variable [Crypto]

def emptyRoot : StoreM ObjectId := put TrieNode.empty

def load (id : ObjectId) : StoreM TrieNode := Tessra.Core.get TrieNode id

def save (node : TrieNode) : StoreM ObjectId := put node

/-- Below `depth`, with `left` nibbles of the key to go. -/
def getIn (key : Bytes) : (left depth : ℕ) → TrieNode → StoreM (Option TrieValue)
  | 0, _, _ => pure none
  | left + 1, depth, node => do
      match ← node.getSlot (← nibbleAt key depth) with
      | none => pure none
      | some (.leaf k value) => pure (if k = key then some value else none)
      | some (.node id) => getIn key left (depth + 1) (← load id)

def get (root : ObjectId) (key : Bytes) : StoreM (Option TrieValue) := do
  getIn key (key.length * 2) 0 (← load root)

/-- The chain of nodes down to where two keys part, from `depth` on. -/
def pairNode (k₁ : Bytes) (v₁ : TrieValue) (k₂ : Bytes) (v₂ : TrieValue) :
    (left depth : ℕ) → StoreM TrieNode
  | 0, _ => throw (.invariant "trie keys collide beyond their length")
  | left + 1, depth => do
      let n₁ ← nibbleAt k₁ depth
      let n₂ ← nibbleAt k₂ depth
      if n₁ = n₂ then
        let child ← pairNode k₁ v₁ k₂ v₂ left (depth + 1)
        TrieNode.empty.setSlot n₁ (some (.node (← save child)))
      else
        let node ← TrieNode.empty.setSlot n₁ (some (.leaf k₁ v₁))
        node.setSlot n₂ (some (.leaf k₂ v₂))

/-- Past the key's last nibble `nibbleAt` panics, so `left` counts down. -/
def insertIn (key : Bytes) (value : TrieValue) :
    (left depth : ℕ) → TrieNode → StoreM TrieNode
  | 0, _, _ => throw indexPanic
  | left + 1, depth, node => do
      let n ← nibbleAt key depth
      let newSlot ← match ← node.getSlot n with
        | none => pure (Slot.leaf key value)
        | some (.leaf k v) =>
            if k = key then pure (Slot.leaf k value)
            else if k.length ≠ key.length then
              throw (.invariant "trie keys must have one length")
            else do
              let child ← pairNode k v key value left (depth + 1)
              pure (Slot.node (← save child))
        | some (.node id) => do
            let child ← insertIn key value left (depth + 1) (← load id)
            pure (Slot.node (← save child))
      node.setSlot n (some newSlot)

def insert (root : ObjectId) (key : Bytes) (value : TrieValue) : StoreM ObjectId := do
  let node ← load root
  save (← insertIn key value (key.length * 2) 0 node)

/-- Canonical form: empty stays empty, a single leaf collapses upward,
otherwise a node. -/
def normalize (node : TrieNode) : StoreM Sub :=
  match node.slots with
  | [] => pure .empty
  | [.leaf key value] => pure (.leaf key value)
  | _ => do return .node (← save node)

/-- The normalized form of the node after removal. -/
def removeIn (key : Bytes) : (left depth : ℕ) → TrieNode → StoreM Sub
  | 0, _, _ => throw indexPanic
  | left + 1, depth, node => do
      let n ← nibbleAt key depth
      match ← node.getSlot n with
      | none => return .node (← save node)
      | some (.leaf k _) =>
          if k ≠ key then return .node (← save node)
          else normalize (← node.setSlot n none)
      | some (.node id) =>
          let sub ← removeIn key left (depth + 1) (← load id)
          normalize (← node.setSlot n sub.toSlot)

def saveRoot : Sub → StoreM ObjectId
  | .empty => emptyRoot
  | .leaf k v => do
      save (← TrieNode.empty.setSlot (← nibbleAt k 0) (some (.leaf k v)))
  | .node id => pure id

def remove (root : ObjectId) (key : Bytes) : StoreM ObjectId := do
  saveRoot (← removeIn key (key.length * 2) 0 (← load root))

def visit (walkBelow : ObjectId → List (Bytes × TrieValue) →
    StoreM (List (Bytes × TrieValue))) (out : List (Bytes × TrieValue)) :
    Slot → StoreM (List (Bytes × TrieValue))
  | .leaf key value => pure (out ++ [(key, value)])
  | .node cid => walkBelow cid out

def walk : (fuel : ℕ) → ObjectId → List (Bytes × TrieValue) →
    StoreM (List (Bytes × TrieValue))
  | 0, _, _ => throw .outOfFuel
  | fuel + 1, id, out => do
      (← load id).slots.foldlM (visit (walk fuel)) out

def entries (root : ObjectId) : StoreM (List (Bytes × TrieValue)) := fun S =>
  walk (S.trieDepth + 1) root [] S

def len (root : ObjectId) : StoreM ℕ := do
  return (← entries root).length

def expand (sub : Sub) (depth : ℕ) : StoreM TrieNode :=
  match sub with
  | .empty => pure TrieNode.empty
  | .leaf k v => do
      TrieNode.empty.setSlot (← nibbleAt k depth) (some (.leaf k v))
  | .node id => load id

/-- The keys of three flat subtrees, when they are one key: the value rule. -/
def mergeFlat (policy : MergePolicy) (base a b : Sub) : StoreM (Option Sub) :=
  if base.isFlat ∧ a.isFlat ∧ b.isFlat then
    let keys := [base.leafParts.1, a.leafParts.1, b.leafParts.1].reduceOption
    if keys.IsChain (· = ·) then
      match keys with
      | [] => throw indexPanic
      | key :: _ =>
          pure (some (.ofValue key
            (mergeValues policy base.leafParts.2 a.leafParts.2 b.leafParts.2)))
    else pure none
  else pure none

def mergeSub (policy : MergePolicy) : (fuel depth : ℕ) → Sub → Sub → Sub → StoreM Sub
  | 0, _, _, _, _ => throw .outOfFuel
  | fuel + 1, depth, base, a, b => do
      if a = base then return b
      if b = base then return a
      if a = b then return a
      match ← mergeFlat policy base a b with
      | some merged => return merged
      | none =>
          -- Expand all three to nodes at this depth and merge slot by slot.
          let nb ← expand base depth
          let na ← expand a depth
          let nb₂ ← expand b depth
          let out ← (List.finRange 16).foldlM (fun out nib => do
            let sb ← nb.getSlot nib
            let sa ← na.getSlot nib
            let sb₂ ← nb₂.getSlot nib
            let merged ← mergeSub policy fuel (depth + 1)
              (.ofSlot sb) (.ofSlot sa) (.ofSlot sb₂)
            out.setSlot nib merged.toSlot) TrieNode.empty
          normalize out

/-- The merge of three roots, as deep as the store can take it. -/
def mergeRoots (base a b : ObjectId) (policy : MergePolicy) : StoreM Sub := fun S =>
  mergeSub policy (S.trieDepth + 1) 0 (.node base) (.node a) (.node b) S

/-- Three-way merge of two tries against a common base. -/
def merge3 (base a b : ObjectId) (policy : MergePolicy) : StoreM ObjectId := do
  saveRoot (← mergeRoots base a b policy)

end Trie

end Tessra.Core
