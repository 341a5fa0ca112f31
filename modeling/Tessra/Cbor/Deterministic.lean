import Tessra.Cbor.Canonical

namespace Tessra.Cbor

open Tessra.Core Tessra.Data

/-! A value has one deterministic encoding, which is the only one that is accepted. -/

section Codec

/-- Serialize a plain value to canonical bytes. -/
def toCanonicalBytes (v : Value) : Except CborError Bytes := do
  let canonical ← canonicalize v
  .ok (write canonical)

/-- Read a plain value from bytes, requiring canonical form. -/
def fromCanonicalBytes (read : Bytes → Option Value) (bytes : Bytes) : Except CborError Value :=
  match read bytes with
  | none => .error (.decode "bytes")
  | some value => do
      let canonical ← canonicalize value
      if write canonical ≠ bytes then
        .error (.notCanonical "bytes are not in deterministic form")
      else .ok value

/-- A reader that takes the first item of the bytes, however deep it nests. -/
def readPrefix (bytes : Bytes) : Option Value := (readValue bytes.length bytes).map Prod.fst

/-- Numbers and lengths of 64 bits throughout. -/
def Encodable (v : Value) : Prop := ∃ depth, Readable depth v

theorem length_le_writeItems {v : Value} : ∀ {items}, v ∈ items →
    (write v).length ≤ (writeItems items).length
  | w :: items, h => by
      rw [writeItems, List.length_append]
      rcases List.mem_cons.mp h with rfl | h
      · omega
      · have := length_le_writeItems h
        omega

theorem length_le_writeEntries_of_mem {e : Value × Value} : ∀ {entries}, e ∈ entries →
    (write e.1).length + (write e.2).length ≤ (writeEntries entries).length
  | (k, v) :: entries, h => by
      simp only [writeEntries, List.length_append]
      rcases List.mem_cons.mp h with rfl | h
      · exact Nat.le_add_right _ _
      · have := length_le_writeEntries_of_mem h
        omega

theorem Readable.scalar {v : Value} {depth d : ℕ} (harray : ∀ items, v ≠ .array items)
    (hmap : ∀ entries, v ≠ .map entries) (h : Readable depth v) : Readable d v := by
  cases v with
  | integer i => cases i <;> rw [Readable] at h ⊢ <;> exact h
  | array items => exact absurd rfl (harray items)
  | map entries => exact absurd rfl (hmap entries)
  | bytes b => rw [Readable] at h ⊢; exact h
  | text t => rw [Readable] at h ⊢; exact h
  | bool b => rw [Readable]; trivial
  | null => rw [Readable]; trivial

/-- Every container takes a byte, so containers nest no deeper than there are bytes. -/
theorem Readable.of_length : ∀ {depth v}, Readable depth v →
    ∀ {d}, (write v).length ≤ d → Readable d v := by
  intro depth
  induction depth with
  | zero =>
      intro v h d _
      refine Readable.scalar ?_ ?_ h
      · rintro items rfl
        exact h
      · rintro entries rfl
        exact h
  | succ depth ih =>
      intro v h d hd
      cases v with
      | array items =>
          have hhead := one_le_length_head 4 items.length
          rw [write, List.length_append] at hd
          cases d with
          | zero => omega
          | succ d =>
              refine ⟨h.1, fun v hv => ih (h.2 v hv) ?_⟩
              have := length_le_writeItems hv
              omega
      | map entries =>
          have hhead := one_le_length_head 5 entries.length
          rw [write, List.length_append] at hd
          cases d with
          | zero => omega
          | succ d =>
              refine ⟨h.1, fun e he => ?_⟩
              have := length_le_writeEntries_of_mem he
              exact ⟨ih (h.2 e he).1 (by omega), ih (h.2 e he).2 (by omega)⟩
      | _ =>
          refine Readable.scalar ?_ ?_ h
          all_goals
            intro _ heq
            cases heq

theorem readPrefix_write {v : Value} (h : Encodable v) : readPrefix (write v) = some v := by
  obtain ⟨depth, hread⟩ := h
  have hwrite := readValue_write (hread.of_length (Nat.le_refl (write v).length)) []
  rw [List.append_nil] at hwrite
  rw [readPrefix, hwrite]
  rfl

theorem encodable_of_readPrefix {bytes : Bytes} {v : Value} (h : readPrefix bytes = some v) :
    Encodable v := by
  obtain ⟨⟨v, rest⟩, hread, rfl⟩ := Option.map_eq_some_iff.mp h
  exact ⟨bytes.length, readable_of_readValue hread⟩

theorem Encodable.canonicalize {v c : Value} (h : Encodable v) (hc : canonicalize v = .ok c) :
    Encodable c := by
  obtain ⟨depth, hread⟩ := h
  exact ⟨depth, readable_canonicalize hread hc⟩

theorem Encodable.write_inj {v w : Value} (hv : Encodable v) (hw : Encodable w)
    (h : write v = write w) : v = w := by
  have hread := readPrefix_write hv
  rw [h, readPrefix_write hw] at hread
  exact (Option.some.inj hread).symm

theorem fromCanonicalBytes_ok {bytes : Bytes} {v : Value} :
    fromCanonicalBytes readPrefix bytes = .ok v ↔
      Encodable v ∧ Canonical v ∧ bytes = write v := by
  constructor
  · intro h
    rw [fromCanonicalBytes] at h
    split at h
    · cases h
    · rename_i value hread
      obtain ⟨canonical, hcanonical, h⟩ := bind_eq_ok.mp h
      split at h
      · cases h
      · rename_i hbytes
        cases h
        have hwrite := not_not.mp hbytes
        have hencodable := encodable_of_readPrefix hread
        have hback := readPrefix_write (hencodable.canonicalize hcanonical)
        rw [hwrite, hread] at hback
        cases hback
        exact ⟨hencodable, hcanonical, hwrite.symm⟩
  · rintro ⟨hencodable, hcanonical, rfl⟩
    rw [fromCanonicalBytes, readPrefix_write hencodable]
    change Cbor.canonicalize v >>= _ = _
    rw [show Cbor.canonicalize v = .ok v from hcanonical]
    exact if_neg (not_not.mpr rfl)

end Codec

section Reordering

/-- The same value with the entries of maps in other orders. -/
inductive Reordered : Value → Value → Prop
  | refl (v : Value) : Reordered v v
  | trans {u v w : Value} : Reordered u v → Reordered v w → Reordered u w
  | entries {l m : List (Value × Value)} : l.Perm m → Reordered (.map l) (.map m)
  | item {v w : Value} (l m : List Value) : Reordered v w →
      Reordered (.array (l ++ v :: m)) (.array (l ++ w :: m))
  | key {k k' : Value} (v : Value) (l m : List (Value × Value)) : Reordered k k' →
      Reordered (.map (l ++ (k, v) :: m)) (.map (l ++ (k', v) :: m))
  | value {v v' : Value} (k : Value) (l m : List (Value × Value)) : Reordered v v' →
      Reordered (.map (l ++ (k, v) :: m)) (.map (l ++ (k, v') :: m))

theorem Reordered.symm {v w : Value} (h : Reordered v w) : Reordered w v := by
  induction h with
  | refl v => exact .refl v
  | trans _ _ ih ih' => exact ih'.trans ih
  | entries h => exact .entries h.symm
  | item l m _ ih => exact .item l m ih
  | key v l m _ ih => exact .key v l m ih
  | value k l m _ ih => exact .value k l m ih

theorem canonicalizeItems_ok {items items' : List Value} :
    canonicalizeItems items = .ok items' ↔
      List.Forall₂ (fun v c => canonicalize v = .ok c) items items' := by
  induction items generalizing items' with
  | nil =>
      rw [canonicalizeItems, List.forall₂_nil_left_iff]
      exact ⟨fun h => by cases h; rfl, fun h => by rw [h]⟩
  | cons v items ih =>
      simp only [canonicalizeItems, bind_eq_ok, ih, List.forall₂_cons_left_iff]
      constructor
      · rintro ⟨c, hc, rest, hrest, heq⟩
        cases heq
        exact ⟨c, rest, hc, hrest, rfl⟩
      · rintro ⟨c, rest, hc, hrest, rfl⟩
        exact ⟨c, hc, rest, hrest, rfl⟩

/-- A key and a value put into deterministic form. -/
def Keyed (e e' : Value × Value) : Prop :=
  canonicalize e.1 = .ok e'.1 ∧ canonicalize e.2 = .ok e'.2

theorem canonicalizeEntries_ok {entries keyed : List (Value × Value)} :
    canonicalizeEntries entries = .ok keyed ↔ List.Forall₂ Keyed entries keyed := by
  induction entries generalizing keyed with
  | nil =>
      rw [canonicalizeEntries, List.forall₂_nil_left_iff]
      exact ⟨fun h => by cases h; rfl, fun h => by rw [h]⟩
  | cons e entries ih =>
      simp only [canonicalizeEntries, bind_eq_ok, ih, List.forall₂_cons_left_iff]
      constructor
      · rintro ⟨k, hk, v, hv, rest, hrest, heq⟩
        cases heq
        exact ⟨(k, v), rest, ⟨hk, hv⟩, hrest, rfl⟩
      · rintro ⟨⟨k, v⟩, rest, ⟨hk, hv⟩, hrest, rfl⟩
        exact ⟨k, hk, v, hv, rest, hrest, rfl⟩

theorem sortEntries_perm_eq {keyed keyed' : List (Value × Value)} (h : keyed.Perm keyed')
    (hdistinct : duplicated (sortEntries keyed) = false) :
    sortEntries keyed' = sortEntries keyed := by
  have hascending := ascending_sortEntries hdistinct
  have hperm : (sortEntries keyed').Perm (sortEntries keyed) :=
    (sortEntries_perm keyed').trans (h.symm.trans (sortEntries_perm keyed).symm)
  have hnodup : (keyed'.map fun e => write e.1).Nodup :=
    ((h.symm.trans (sortEntries_perm keyed).symm).map _).nodup_iff.mpr hascending.nodup
  exact hperm.eq_of_pairwise (fun a b _ _ hab hba => absurd hba hab.asymm)
    (ascending_sortEntries_of_nodup hnodup) hascending

theorem canonicalize_map_of_perm {l m : List (Value × Value)} {c : Value} (h : l.Perm m)
    (hc : canonicalize (.map l) = .ok c) : canonicalize (.map m) = .ok c := by
  obtain ⟨keyed, hkeyed, hdistinct, rfl⟩ := canonicalize_map_ok.mp hc
  obtain ⟨keyed', hkeyed', hperm⟩ :=
    List.perm_comp_forall₂ h.symm (canonicalizeEntries_ok.mp hkeyed)
  have hsort := sortEntries_perm_eq hperm.symm hdistinct
  exact canonicalize_map_ok.mpr ⟨keyed', canonicalizeEntries_ok.mpr hkeyed',
    by rw [hsort]; exact hdistinct, by rw [hsort]⟩

theorem forall₂_replace {α β : Type} {R : α → β → Prop} {x y : α} (h : ∀ b, R x b ↔ R y b)
    (m : List α) : ∀ (l : List α) {bs : List β},
    List.Forall₂ R (l ++ x :: m) bs ↔ List.Forall₂ R (l ++ y :: m) bs
  | [], bs => by
      rw [List.nil_append, List.nil_append, List.forall₂_cons_left_iff,
        List.forall₂_cons_left_iff]
      exact exists_congr fun b => exists_congr fun bs' => and_congr (h b) Iff.rfl
  | z :: l, bs => by
      rw [List.cons_append, List.cons_append, List.forall₂_cons_left_iff,
        List.forall₂_cons_left_iff]
      exact exists_congr fun b => exists_congr fun bs' =>
        and_congr Iff.rfl (and_congr (forall₂_replace h m l) Iff.rfl)

theorem canonicalize_array_ok {items : List Value} {c : Value} :
    canonicalize (.array items) = .ok c ↔ ∃ items',
      List.Forall₂ (fun v c => canonicalize v = .ok c) items items' ∧ c = .array items' := by
  rw [canonicalize, bind_eq_ok]
  refine exists_congr fun items' => and_congr canonicalizeItems_ok ?_
  exact ⟨fun h => by cases h; rfl, fun h => by rw [h]⟩

/-- Neither the success nor the result depends on the order of entries. -/
theorem canonicalize_reordered {v w : Value} (h : Reordered v w) :
    ∀ c, canonicalize v = .ok c ↔ canonicalize w = .ok c := by
  induction h with
  | refl v => exact fun c => Iff.rfl
  | trans _ _ ih ih' => exact fun c => (ih c).trans (ih' c)
  | entries h =>
      exact fun c => ⟨canonicalize_map_of_perm h, canonicalize_map_of_perm h.symm⟩
  | item l m _ ih =>
      intro c
      rw [canonicalize_array_ok, canonicalize_array_ok]
      exact exists_congr fun items' => and_congr (forall₂_replace ih m l) Iff.rfl
  | @key k k' v l m _ ih =>
      intro c
      have hkeyed : ∀ e, Keyed (k, v) e ↔ Keyed (k', v) e :=
        fun e => and_congr (ih e.1) Iff.rfl
      simp only [canonicalize_map_ok, canonicalizeEntries_ok]
      exact exists_congr fun keyed => and_congr (forall₂_replace hkeyed m l) Iff.rfl
  | @value v v' k l m _ ih =>
      intro c
      have hkeyed : ∀ e, Keyed (k, v) e ↔ Keyed (k, v') e :=
        fun e => and_congr Iff.rfl (ih e.2)
      simp only [canonicalize_map_ok, canonicalizeEntries_ok]
      exact exists_congr fun keyed => and_congr (forall₂_replace hkeyed m l) Iff.rfl

theorem reordered_array {items items' : List Value} (h : List.Forall₂ Reordered items items') :
    ∀ l, Reordered (.array (l ++ items)) (.array (l ++ items')) := by
  induction h with
  | nil => exact fun l => .refl _
  | @cons v w items items' hvw _ ih =>
      intro l
      have hrest := ih (l ++ [w])
      rw [List.append_assoc, List.append_assoc] at hrest
      exact (Reordered.item l items hvw).trans hrest

theorem reordered_map {entries entries' : List (Value × Value)}
    (h : List.Forall₂ (fun e e' => Reordered e.1 e'.1 ∧ Reordered e.2 e'.2) entries entries') :
    ∀ l, Reordered (.map (l ++ entries)) (.map (l ++ entries')) := by
  induction h with
  | nil => exact fun l => .refl _
  | @cons e e' entries entries' hee _ ih =>
      intro l
      have hrest := ih (l ++ [e'])
      rw [List.append_assoc, List.append_assoc] at hrest
      exact ((Reordered.key e.2 l entries hee.1).trans
        (Reordered.value e'.1 l entries hee.2)).trans hrest

mutual

/-- The deterministic form differs in the order of entries only. -/
theorem reordered_canonicalize : ∀ {v c}, canonicalize v = .ok c → Reordered v c
  | .map entries, c, h => by
      obtain ⟨keyed, hkeyed, _, rfl⟩ := canonicalize_map_ok.mp h
      exact (reordered_map (reordered_entries hkeyed) []).trans
        (.entries (sortEntries_perm keyed).symm)
  | .array items, c, h => by
      obtain ⟨items', hitems, rfl⟩ := canonicalize_array_ok.mp h
      exact reordered_array (reordered_items (canonicalizeItems_ok.mpr hitems)) []
  | .integer _, _, h => by cases h; exact .refl _
  | .bytes _, _, h => by cases h; exact .refl _
  | .text _, _, h => by cases h; exact .refl _
  | .bool _, _, h => by cases h; exact .refl _
  | .null, _, h => by cases h; exact .refl _

theorem reordered_items : ∀ {items items'}, canonicalizeItems items = .ok items' →
    List.Forall₂ Reordered items items'
  | [], items', h => by
      cases h
      exact .nil
  | v :: items, items', h => by
      rw [canonicalizeItems, bind_eq_ok] at h
      obtain ⟨w, hw, h⟩ := h
      obtain ⟨rest, hrest, heq⟩ := bind_eq_ok.mp h
      cases heq
      exact .cons (reordered_canonicalize hw) (reordered_items hrest)

theorem reordered_entries : ∀ {entries keyed}, canonicalizeEntries entries = .ok keyed →
    List.Forall₂ (fun e e' => Reordered e.1 e'.1 ∧ Reordered e.2 e'.2) entries keyed
  | [], keyed, h => by
      cases h
      exact .nil
  | (k, v) :: entries, keyed, h => by
      rw [canonicalizeEntries, bind_eq_ok] at h
      obtain ⟨k', hk, h⟩ := h
      obtain ⟨v', hv, h⟩ := bind_eq_ok.mp h
      obtain ⟨rest, hrest, heq⟩ := bind_eq_ok.mp h
      cases heq
      exact .cons ⟨reordered_canonicalize hk, reordered_canonicalize hv⟩ (reordered_entries hrest)

end

end Reordering

section Duplicates

mutual

/-- No map holds two keys that are the same, at any depth. -/
def Distinct (Same : Value → Value → Prop) : Value → Prop
  | .map entries => (entries.Pairwise fun a b => ¬Same a.1 b.1) ∧ DistinctEntries Same entries
  | .array items => DistinctItems Same items
  | .integer _ => True
  | .bytes _ => True
  | .text _ => True
  | .bool _ => True
  | .null => True

def DistinctItems (Same : Value → Value → Prop) : List Value → Prop
  | [] => True
  | v :: items => Distinct Same v ∧ DistinctItems Same items

def DistinctEntries (Same : Value → Value → Prop) : List (Value × Value) → Prop
  | [] => True
  | (k, v) :: entries => Distinct Same k ∧ Distinct Same v ∧ DistinctEntries Same entries

end

theorem pairwise_of_forall₂ {α β : Type} {S : α → β → Prop} {R : α → α → Prop}
    {R' : β → β → Prop} (hR : ∀ a a' b b', S a a' → S b b' → R a b → R' a' b') :
    ∀ {l l'}, List.Forall₂ S l l' → l.Pairwise R → l'.Pairwise R'
  | [], _, .nil, _ => .nil
  | a :: l, a' :: l', .cons haa hll, h => by
      refine .cons (fun b' hb' => ?_) (pairwise_of_forall₂ hR hll h.of_cons)
      obtain ⟨i, hi, rfl⟩ := List.getElem_of_mem hb'
      have hlength := hll.length_eq
      exact hR a a' _ _ haa ((List.forall₂_iff_get.mp hll).2 i (by omega) hi)
        (List.rel_of_pairwise_cons h (List.getElem_mem _))

theorem Encodable.of_mem_map {entries : List (Value × Value)} (h : Encodable (.map entries)) :
    ∀ e ∈ entries, Encodable e.1 ∧ Encodable e.2 := by
  obtain ⟨depth, hread⟩ := h
  cases depth with
  | zero => exact hread.elim
  | succ depth => exact fun e he => ⟨⟨depth, (hread.2 e he).1⟩, ⟨depth, (hread.2 e he).2⟩⟩

theorem Encodable.of_mem_array {items : List Value} (h : Encodable (.array items)) :
    ∀ v ∈ items, Encodable v := by
  obtain ⟨depth, hread⟩ := h
  cases depth with
  | zero => exact hread.elim
  | succ depth => exact fun v hv => ⟨depth, hread.2 v hv⟩

/-- Keys that are not the same keep different encodings. -/
theorem nodup_keyed {entries keyed : List (Value × Value)}
    (hencodable : ∀ e ∈ entries, Encodable e.1 ∧ Encodable e.2)
    (hdistinct : entries.Pairwise fun a b => ¬Reordered a.1 b.1)
    (hkeyed : List.Forall₂ Keyed entries keyed) : (keyed.map fun e => write e.1).Nodup := by
  have hpairs := hdistinct.imp_of_mem (S := fun a b =>
    Encodable a.1 ∧ Encodable b.1 ∧ ¬Reordered a.1 b.1)
    fun ha hb h => ⟨(hencodable _ ha).1, (hencodable _ hb).1, h⟩
  refine List.pairwise_map.mpr (pairwise_of_forall₂ ?_ hkeyed hpairs)
  intro a a' b b' ha hb h heq
  have hsame := (h.1.canonicalize ha.1).write_inj (h.2.1.canonicalize hb.1) heq
  have hab := (reordered_canonicalize ha.1).trans (hsame ▸ (reordered_canonicalize hb.1).symm)
  exact h.2.2 hab

mutual

theorem exists_canonicalize : ∀ {v}, Encodable v → Distinct Reordered v →
    ∃ c, canonicalize v = .ok c
  | .map entries, hencodable, hdistinct => by
      rw [Distinct] at hdistinct
      obtain ⟨keyed, hkeyed⟩ := exists_entries hencodable.of_mem_map hdistinct.2
      have hnodup := nodup_keyed hencodable.of_mem_map hdistinct.1
        (canonicalizeEntries_ok.mp hkeyed)
      exact ⟨_, canonicalize_map_ok.mpr ⟨keyed, hkeyed,
        duplicated_of_ascending (ascending_sortEntries_of_nodup hnodup), rfl⟩⟩
  | .array items, hencodable, hdistinct => by
      obtain ⟨items', hitems⟩ := exists_items hencodable.of_mem_array
        (by rw [Distinct] at hdistinct; exact hdistinct)
      exact ⟨_, canonicalize_array_ok.mpr ⟨items', canonicalizeItems_ok.mp hitems, rfl⟩⟩
  | .integer _, _, _ => ⟨_, rfl⟩
  | .bytes _, _, _ => ⟨_, rfl⟩
  | .text _, _, _ => ⟨_, rfl⟩
  | .bool _, _, _ => ⟨_, rfl⟩
  | .null, _, _ => ⟨_, rfl⟩

theorem exists_items : ∀ {items}, (∀ v ∈ items, Encodable v) → DistinctItems Reordered items →
    ∃ items', canonicalizeItems items = .ok items'
  | [], _, _ => ⟨[], rfl⟩
  | v :: items, hencodable, hdistinct => by
      rw [DistinctItems] at hdistinct
      obtain ⟨w, hw⟩ := exists_canonicalize (hencodable v List.mem_cons_self) hdistinct.1
      obtain ⟨rest, hrest⟩ :=
        exists_items (fun v hv => hencodable v (List.mem_cons_of_mem _ hv)) hdistinct.2
      exact ⟨w :: rest, by rw [canonicalizeItems, hw, hrest]; rfl⟩

theorem exists_entries : ∀ {entries}, (∀ e ∈ entries, Encodable e.1 ∧ Encodable e.2) →
    DistinctEntries Reordered entries → ∃ keyed, canonicalizeEntries entries = .ok keyed
  | [], _, _ => ⟨[], rfl⟩
  | (k, v) :: entries, hencodable, hdistinct => by
      rw [DistinctEntries] at hdistinct
      obtain ⟨hek, hev⟩ := hencodable (k, v) List.mem_cons_self
      obtain ⟨k', hk⟩ := exists_canonicalize hek hdistinct.1
      obtain ⟨v', hv⟩ := exists_canonicalize hev hdistinct.2.1
      obtain ⟨rest, hrest⟩ :=
        exists_entries (fun e he => hencodable e (List.mem_cons_of_mem _ he)) hdistinct.2.2
      exact ⟨(k', v') :: rest, by rw [canonicalizeEntries, hk, hv, hrest]; rfl⟩

end

theorem toCanonicalBytes_ok {v : Value} {bytes : Bytes} :
    toCanonicalBytes v = .ok bytes ↔ ∃ c, canonicalize v = .ok c ∧ bytes = write c := by
  rw [toCanonicalBytes, bind_eq_ok]
  refine exists_congr fun c => and_congr_right fun _ => ?_
  exact ⟨fun h => by cases h; rfl, fun h => by rw [h]⟩

/-- A value without keys that are the same up to order has one deterministic form, however
its entries are ordered, and one encoding, which is the only one read as that form. -/
theorem deterministic_encoding {v : Value} (hencodable : Encodable v)
    (hdistinct : Distinct Reordered v) :
    (∃ c, canonicalize v = .ok c ∧ canonicalize c = .ok c ∧
      (∀ w, Reordered v w → canonicalize w = .ok c) ∧
      ∃ bytes, toCanonicalBytes v = .ok bytes ∧
        fromCanonicalBytes readPrefix bytes = .ok c) ∧
    ∀ bytes u, fromCanonicalBytes readPrefix bytes = .ok u →
      canonicalize u = .ok u ∧ toCanonicalBytes u = .ok bytes := by
  constructor
  · obtain ⟨c, hc⟩ := exists_canonicalize hencodable hdistinct
    have hcanonical := canonical_of_canonicalize hc
    refine ⟨c, hc, hcanonical, fun w hw => (canonicalize_reordered hw c).mp hc,
      write c, toCanonicalBytes_ok.mpr ⟨c, hc, rfl⟩, ?_⟩
    exact fromCanonicalBytes_ok.mpr ⟨hencodable.canonicalize hc, hcanonical, rfl⟩
  · intro bytes u hu
    obtain ⟨_, hcanonical, hbytes⟩ := fromCanonicalBytes_ok.mp hu
    exact ⟨hcanonical, toCanonicalBytes_ok.mpr ⟨u, hcanonical, hbytes⟩⟩

/-- A set of two numbers, as a map. -/
def numbers (m n : ℕ) : Value := .map [(.integer (.ofNat m), .null), (.integer (.ofNat n), .null)]

theorem readable_numbers {m n : ℕ} (hm : m < 256 ^ 8) (hn : n < 256 ^ 8) :
    Readable 1 (numbers m n) := by
  refine ⟨(by decide : 2 < 256 ^ 8), fun e he => ?_⟩
  simp only [List.mem_cons, List.not_mem_nil, or_false] at he
  rcases he with rfl | rfl
  · exact ⟨by rw [Readable]; exact hm, trivial⟩
  · exact ⟨by rw [Readable]; exact hn, trivial⟩

theorem distinct_numbers {Same : Value → Value → Prop} {m n : ℕ}
    (h : ¬Same (.integer (.ofNat m)) (.integer (.ofNat n))) : Distinct Same (numbers m n) :=
  ⟨List.pairwise_pair.mpr h, trivial, trivial, trivial, trivial, trivial⟩

theorem deterministic_numbers :
    (∃ c, canonicalize (numbers 1 2) = .ok c ∧ canonicalize c = .ok c ∧
      (∀ w, Reordered (numbers 1 2) w → canonicalize w = .ok c) ∧
      ∃ bytes, toCanonicalBytes (numbers 1 2) = .ok bytes ∧
        fromCanonicalBytes readPrefix bytes = .ok c) ∧
    ∀ bytes u, fromCanonicalBytes readPrefix bytes = .ok u →
      canonicalize u = .ok u ∧ toCanonicalBytes u = .ok bytes := by
  refine deterministic_encoding ⟨1, readable_numbers (by omega) (by omega)⟩
    (distinct_numbers ?_)
  intro h
  have hone : canonicalize (.integer (.ofNat 2)) = .ok (.integer (.ofNat 1)) :=
    (canonicalize_reordered h _).mp rfl
  cases hone

/-- Two keys that differ in the order of their entries are one key. -/
theorem reordered_keys_rejected :
    ¬∀ v, Encodable v → Distinct Eq v → ∃ c, canonicalize v = .ok c := by
  intro h
  let keys : Value := .map [(numbers 1 2, .null), (numbers 2 1, .null)]
  have hencodable : Readable 2 keys := by
    refine ⟨by decide, fun e he => ?_⟩
    simp only [List.mem_cons, List.not_mem_nil, or_false] at he
    rcases he with rfl | rfl
    · exact ⟨readable_numbers (by omega) (by omega), trivial⟩
    · exact ⟨readable_numbers (by omega) (by omega), trivial⟩
  have hdistinct : Distinct Eq keys :=
    ⟨List.pairwise_pair.mpr (by decide), distinct_numbers (by decide), trivial,
      distinct_numbers (by decide), trivial, trivial⟩
  obtain ⟨c, hc⟩ := h keys ⟨2, hencodable⟩ hdistinct
  have hfails : canonicalize keys = .error (.notCanonical "duplicate map key") := by
    decide +kernel
  rw [hfails] at hc
  cases hc

end Duplicates

end Tessra.Cbor
