import Tessra.Cbor.Encoding
import Tessra.Data.Lists

namespace Tessra.Cbor

open Tessra.Core Tessra.Data

/-! The deterministic form of a value: the entries of every map in the order of their
encoded keys, and no key twice. -/

inductive CborError
  | encode (reason : String)
  | decode (reason : String)
  | notCanonical (reason : String)
  | wrongType (expected found : String)
  | version (tag : String) (found known : ℕ)
  | signature (reason : String)
deriving DecidableEq

section Sorting

def KeyLe (a b : Value × Value) : Prop := write a.1 ≤ write b.1

instance : DecidableRel KeyLe := fun a b => inferInstanceAs (Decidable (write a.1 ≤ write b.1))

instance : Std.Total KeyLe := ⟨fun a b => le_total (write a.1) (write b.1)⟩

instance : IsTrans (Value × Value) KeyLe := ⟨fun _ _ _ => le_trans⟩

/-- Sort the entries of a map by the bytes of their keys. -/
def sortEntries (entries : List (Value × Value)) : List (Value × Value) :=
  entries.insertionSort KeyLe

/-- Two entries that stand together have one key. -/
def duplicated : List (Value × Value) → Bool
  | a :: b :: entries => write a.1 = write b.1 || duplicated (b :: entries)
  | _ => false

def Ascending (entries : List (Value × Value)) : Prop :=
  entries.Pairwise fun a b => write a.1 < write b.1

variable {entries : List (Value × Value)}

theorem sortEntries_perm (entries : List (Value × Value)) :
    (sortEntries entries).Perm entries := List.perm_insertionSort _ _

theorem pairwise_sortEntries (entries : List (Value × Value)) :
    (sortEntries entries).Pairwise KeyLe := List.pairwise_insertionSort _ _

theorem sortEntries_of_ascending (h : Ascending entries) : sortEntries entries = entries :=
  (h.imp fun h => h.le : entries.Pairwise KeyLe).insertionSort_eq

theorem duplicated_of_ascending : ∀ {entries}, Ascending entries → duplicated entries = false
  | [], _ => rfl
  | [_], _ => rfl
  | a :: b :: entries, h => by
      have hne : write a.1 ≠ write b.1 := (List.rel_of_pairwise_cons h List.mem_cons_self).ne
      rw [duplicated, decide_eq_false hne, Bool.false_or]
      exact duplicated_of_ascending (List.Pairwise.of_cons h)

theorem ascending_of_not_duplicated : ∀ {entries},
    entries.Pairwise KeyLe → duplicated entries = false →
      Ascending entries
  | [], _, _ => List.Pairwise.nil
  | [_], _, _ => List.pairwise_singleton _ _
  | a :: b :: entries, hle, h => by
      rw [duplicated, Bool.or_eq_false_iff, decide_eq_false_iff_not] at h
      have hrest := ascending_of_not_duplicated hle.of_cons h.2
      have hlt : write a.1 < write b.1 :=
        lt_of_le_of_ne (List.rel_of_pairwise_cons hle List.mem_cons_self) h.1
      refine List.Pairwise.cons (fun c hc => ?_) hrest
      rcases List.mem_cons.mp hc with rfl | hc
      · exact hlt
      · exact hlt.trans (List.rel_of_pairwise_cons hrest hc)

theorem ascending_sortEntries (h : duplicated (sortEntries entries) = false) :
    Ascending (sortEntries entries) :=
  ascending_of_not_duplicated (pairwise_sortEntries entries) h

/-- Entries whose keys are written differently are sorted without a duplicate. -/
theorem ascending_sortEntries_of_nodup (h : (entries.map fun e => write e.1).Nodup) :
    Ascending (sortEntries entries) := by
  have hdistinct : (sortEntries entries).Pairwise fun a b => write a.1 ≠ write b.1 :=
    List.pairwise_map.mp (((sortEntries_perm entries).map _).nodup_iff.mpr h)
  exact (List.Pairwise.and (pairwise_sortEntries entries) hdistinct).imp
    fun h => lt_of_le_of_ne h.1 h.2

theorem Ascending.nodup (h : Ascending entries) : (entries.map fun e => write e.1).Nodup :=
  List.pairwise_map.mpr (h.imp fun h => h.ne)

end Sorting

section Canonical

mutual

/-- Put a value into deterministic form. -/
def canonicalize : Value → Except CborError Value
  | .map entries => do
      let keyed ← canonicalizeEntries entries
      if duplicated (sortEntries keyed) then .error (.notCanonical "duplicate map key")
      else .ok (.map (sortEntries keyed))
  | .array items => do
      let items ← canonicalizeItems items
      .ok (.array items)
  | .integer i => .ok (.integer i)
  | .bytes b => .ok (.bytes b)
  | .text t => .ok (.text t)
  | .bool b => .ok (.bool b)
  | .null => .ok .null

def canonicalizeItems : List Value → Except CborError (List Value)
  | [] => .ok []
  | v :: items => do
      let v ← canonicalize v
      let items ← canonicalizeItems items
      .ok (v :: items)

def canonicalizeEntries : List (Value × Value) → Except CborError (List (Value × Value))
  | [] => .ok []
  | (k, v) :: entries => do
      let k ← canonicalize k
      let v ← canonicalize v
      let entries ← canonicalizeEntries entries
      .ok ((k, v) :: entries)

end

/-- A value that is already in deterministic form. -/
def Canonical (v : Value) : Prop := canonicalize v = .ok v

variable {entries keyed : List (Value × Value)} {items : List Value} {v c : Value}

theorem canonicalize_map_ok :
    canonicalize (.map entries) = .ok c ↔ ∃ keyed, canonicalizeEntries entries = .ok keyed ∧
      duplicated (sortEntries keyed) = false ∧ c = .map (sortEntries keyed) := by
  rw [canonicalize, bind_eq_ok]
  refine exists_congr fun keyed => and_congr_right fun _ => ?_
  split
  · rename_i h
    exact ⟨nofun, fun hc => by rw [h] at hc; cases hc.1⟩
  · rename_i h
    rw [Bool.not_eq_true] at h
    exact ⟨fun hc => ⟨h, by cases hc; rfl⟩, fun hc => by rw [hc.2]⟩

theorem canonicalizeItems_of_forall (h : ∀ v ∈ items, Canonical v) :
    canonicalizeItems items = .ok items := by
  induction items with
  | nil => rfl
  | cons v items ih =>
      have hv : canonicalize v = .ok v := h v List.mem_cons_self
      rw [canonicalizeItems, hv, ih fun w hw => h w (List.mem_cons_of_mem _ hw)]
      rfl

theorem canonicalizeEntries_of_forall (h : ∀ e ∈ entries, Canonical e.1 ∧ Canonical e.2) :
    canonicalizeEntries entries = .ok entries := by
  induction entries with
  | nil => rfl
  | cons e entries ih =>
      obtain ⟨hk, hv⟩ := h e List.mem_cons_self
      rw [canonicalizeEntries, show canonicalize e.1 = .ok e.1 from hk,
        show canonicalize e.2 = .ok e.2 from hv,
        ih fun w hw => h w (List.mem_cons_of_mem _ hw)]
      rfl

theorem canonical_map (h : ∀ e ∈ entries, Canonical e.1 ∧ Canonical e.2)
    (hascending : Ascending entries) : Canonical (.map entries) := by
  have hsort := sortEntries_of_ascending hascending
  refine canonicalize_map_ok.mpr ⟨entries, canonicalizeEntries_of_forall h, ?_, by rw [hsort]⟩
  rw [hsort]
  exact duplicated_of_ascending hascending

mutual

/-- What was put into deterministic form stays as it is. -/
theorem canonical_of_canonicalize : ∀ {v c}, canonicalize v = .ok c → Canonical c
  | .map entries, c, h => by
      obtain ⟨keyed, hkeyed, hdistinct, rfl⟩ := canonicalize_map_ok.mp h
      exact canonical_map
        (fun e he => canonical_of_mem_entries hkeyed e ((sortEntries_perm keyed).subset he))
        (ascending_sortEntries hdistinct)
  | .array items, c, h => by
      rw [canonicalize, bind_eq_ok] at h
      obtain ⟨items', hitems, heq⟩ := h
      cases heq
      change canonicalize _ = _
      rw [canonicalize, canonicalizeItems_of_forall (canonical_of_mem_items hitems)]
      rfl
  | .integer _, _, h => by cases h; rfl
  | .bytes _, _, h => by cases h; rfl
  | .text _, _, h => by cases h; rfl
  | .bool _, _, h => by cases h; rfl
  | .null, _, h => by cases h; rfl

theorem canonical_of_mem_items : ∀ {items items'}, canonicalizeItems items = .ok items' →
    ∀ v ∈ items', Canonical v
  | [], items', h, v, hv => by
      cases h
      cases hv
  | w :: items, items', h, v, hv => by
      rw [canonicalizeItems, bind_eq_ok] at h
      obtain ⟨w', hw, h⟩ := h
      obtain ⟨rest, hrest, heq⟩ := bind_eq_ok.mp h
      cases heq
      rcases List.mem_cons.mp hv with rfl | hv
      · exact canonical_of_canonicalize hw
      · exact canonical_of_mem_items hrest v hv

theorem canonical_of_mem_entries : ∀ {entries keyed}, canonicalizeEntries entries = .ok keyed →
    ∀ e ∈ keyed, Canonical e.1 ∧ Canonical e.2
  | [], keyed, h, e, he => by
      cases h
      cases he
  | (k, v) :: entries, keyed, h, e, he => by
      rw [canonicalizeEntries, bind_eq_ok] at h
      obtain ⟨k', hk, h⟩ := h
      obtain ⟨v', hv, h⟩ := bind_eq_ok.mp h
      obtain ⟨rest, hrest, heq⟩ := bind_eq_ok.mp h
      cases heq
      rcases List.mem_cons.mp he with rfl | he
      · exact ⟨canonical_of_canonicalize hk, canonical_of_canonicalize hv⟩
      · exact canonical_of_mem_entries hrest e he

end

theorem canonical_map_iff : Canonical (.map entries) ↔
    (∀ e ∈ entries, Canonical e.1 ∧ Canonical e.2) ∧ Ascending entries := by
  constructor
  · intro h
    obtain ⟨keyed, hkeyed, hdistinct, heq⟩ := canonicalize_map_ok.mp h
    cases heq
    exact ⟨fun e he => canonical_of_mem_entries hkeyed e ((sortEntries_perm keyed).subset he),
      ascending_sortEntries hdistinct⟩
  · intro h
    exact canonical_map h.1 h.2

end Canonical

section Readable

mutual

theorem readable_canonicalize : ∀ {v c d}, Readable d v → canonicalize v = .ok c → Readable d c
  | .map entries, c, 0, hread, _ => hread.elim
  | .map entries, c, d + 1, hread, h => by
      obtain ⟨keyed, hkeyed, _, rfl⟩ := canonicalize_map_ok.mp h
      obtain ⟨hlength, hmem⟩ := readable_canonicalizeEntries hread.2 hkeyed
      have hperm := sortEntries_perm keyed
      exact ⟨(hperm.length_eq.trans hlength) ▸ hread.1, fun e he => hmem e (hperm.subset he)⟩
  | .array items, c, 0, hread, _ => hread.elim
  | .array items, c, d + 1, hread, h => by
      rw [canonicalize, bind_eq_ok] at h
      obtain ⟨items', hitems, heq⟩ := h
      cases heq
      obtain ⟨hlength, hmem⟩ := readable_canonicalizeItems hread.2 hitems
      exact ⟨hlength ▸ hread.1, hmem⟩
  | .integer _, _, _, hread, h => by cases h; exact hread
  | .bytes _, _, _, hread, h => by cases h; exact hread
  | .text _, _, _, hread, h => by cases h; exact hread
  | .bool _, _, _, hread, h => by cases h; exact hread
  | .null, _, _, hread, h => by cases h; exact hread

theorem readable_canonicalizeItems : ∀ {items items' d}, (∀ v ∈ items, Readable d v) →
    canonicalizeItems items = .ok items' →
      items'.length = items.length ∧ ∀ v ∈ items', Readable d v
  | [], items', d, _, h => by
      cases h
      exact ⟨rfl, nofun⟩
  | w :: items, items', d, hread, h => by
      rw [canonicalizeItems, bind_eq_ok] at h
      obtain ⟨w', hw, h⟩ := h
      obtain ⟨rest, hrest, heq⟩ := bind_eq_ok.mp h
      cases heq
      obtain ⟨hlength, hmem⟩ :=
        readable_canonicalizeItems (fun v hv => hread v (List.mem_cons_of_mem _ hv)) hrest
      refine ⟨congrArg (· + 1) hlength, fun v hv => ?_⟩
      rcases List.mem_cons.mp hv with rfl | hv
      · exact readable_canonicalize (hread w List.mem_cons_self) hw
      · exact hmem v hv

theorem readable_canonicalizeEntries : ∀ {entries keyed d},
    (∀ e ∈ entries, Readable d e.1 ∧ Readable d e.2) →
    canonicalizeEntries entries = .ok keyed →
      keyed.length = entries.length ∧ ∀ e ∈ keyed, Readable d e.1 ∧ Readable d e.2
  | [], keyed, d, _, h => by
      cases h
      exact ⟨rfl, nofun⟩
  | (k, v) :: entries, keyed, d, hread, h => by
      rw [canonicalizeEntries, bind_eq_ok] at h
      obtain ⟨k', hk, h⟩ := h
      obtain ⟨v', hv, h⟩ := bind_eq_ok.mp h
      obtain ⟨rest, hrest, heq⟩ := bind_eq_ok.mp h
      cases heq
      obtain ⟨hlength, hmem⟩ :=
        readable_canonicalizeEntries (fun e he => hread e (List.mem_cons_of_mem _ he)) hrest
      obtain ⟨hreadk, hreadv⟩ := hread (k, v) List.mem_cons_self
      refine ⟨congrArg (· + 1) hlength, fun e he => ?_⟩
      rcases List.mem_cons.mp he with rfl | he
      · exact ⟨readable_canonicalize hreadk hk, readable_canonicalize hreadv hv⟩
      · exact hmem e he

end

/-- Canonical bytes are those of one value. -/
theorem read_eq_some_of_canonical {bytes : Bytes} {v c : Value} (h : read bytes = some v)
    (hc : canonicalize v = .ok c) (hwrite : write c = bytes) : v = c ∧ Canonical c := by
  have hread : read (write c) = some c :=
    read_write (readable_canonicalize (readable_of_read h) hc)
  rw [hwrite, h] at hread
  cases hread
  exact ⟨rfl, hc⟩

end Readable

end Tessra.Cbor
