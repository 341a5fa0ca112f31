import Tessra.Cbor.Signatures

namespace Tessra.Cbor

open Tessra.Core Tessra.Data
open Tessra.Redb (utf8)

/-! Whoever holds the bytes of a signed object can write others that verify: an unknown key
is ignored when the object is read and left out when its payload is written. -/

section Decoded

variable [Libraries] {type : SignedType} {bytes : Bytes} {obj : TypedObject}
  {entries : List (Value × Value)}

/-- The entries that bytes in deterministic form are written from. -/
structure Written (bytes : Bytes) (entries : List (Value × Value)) : Prop where
  canonical : Canonical (.map entries)
  readable : Readable recursionLimit (.map entries)
  bytes_eq : bytes = write (.map entries)

theorem decode_ok (h : decode type bytes = .ok obj) :
    ∃ entries, Written bytes entries ∧ decodeEntries type entries = .ok obj := by
  rw [decode] at h
  split at h
  · cases h
  · rename_i value hread
    obtain ⟨canonical, hcanonical, h⟩ := bind_eq_ok.mp h
    split at h
    · cases h
    · rename_i hbytes
      have hwrite := not_not.mp hbytes
      obtain ⟨rfl, hc⟩ := read_eq_some_of_canonical hread hcanonical hwrite
      cases value with
      | map entries => exact ⟨entries, ⟨hc, readable_of_read hread, hwrite.symm⟩, h⟩
      | _ => cases h

theorem decode_write (h : Written bytes entries) :
    decode type bytes = decodeEntries type entries := by
  have hcanonical : canonicalize (.map entries) = .ok (.map entries) := h.canonical
  rw [h.bytes_eq, decode, read_write h.readable]
  change canonicalize (.map entries) >>= _ = _
  rw [hcanonical]
  exact if_neg (not_not.mpr rfl)

end Decoded

section Toggling

variable {bytes : Bytes} {entries entries' : List (Value × Value)}

theorem Written.ne (h : Written bytes entries) {bytes' : Bytes} (h' : Written bytes' entries')
    (hne : entries' ≠ entries) : bytes' ≠ bytes := by
  rintro rfl
  have hread := read_write h.readable
  rw [← h.bytes_eq, h'.bytes_eq, read_write h'.readable] at hread
  cases hread
  exact hne rfl

theorem one_le_length_write (v : Value) : 1 ≤ (write v).length := by
  have hroom : ∀ major n (rest : Bytes), 1 ≤ (head major n ++ rest).length := by
    intro major n rest
    have := one_le_length_head major n
    rw [List.length_append]
    omega
  cases v with
  | integer i => cases i <;> rw [write] <;> exact one_le_length_head _ _
  | bool b => cases b <;> rw [write] <;> exact one_le_length_head _ _
  | null => rw [write]; exact one_le_length_head _ _
  | bytes b => exact hroom _ _ _
  | text t => exact hroom _ _ _
  | array items => exact hroom _ _ _
  | map entries => exact hroom _ _ _

theorem length_le_writeEntries : ∀ entries, entries.length ≤ (writeEntries entries).length
  | [] => Nat.le_refl _
  | (k, v) :: entries => by
      have hk := one_le_length_write k
      have hrest := length_le_writeEntries entries
      rw [writeEntries, List.length_append, List.length_append, List.length_cons]
      omega

theorem Written.length_le (h : Written bytes entries) : entries.length ≤ bytes.length := by
  have := length_le_writeEntries entries
  rw [h.bytes_eq, write, List.length_append]
  omega

/-- Take the entry under the unknown key away, or add one where there is none. -/
def toggled (entries : List (Value × Value)) : List (Value × Value) :=
  if unknown ∈ entries.map Prod.fst then others entries
  else sortEntries ((unknown, .null) :: entries)

theorem Written.sublist (h : Written bytes entries) (hsub : entries'.Sublist entries) :
    Written (write (.map entries')) entries' := by
  obtain ⟨hmem, hascending⟩ := canonical_map_iff.mp h.canonical
  obtain ⟨hlength, hread⟩ := h.readable
  exact ⟨canonical_map (fun e he => hmem e (hsub.subset he)) (hascending.sublist hsub),
    ⟨hsub.length_le.trans_lt hlength, fun e he => hread e (hsub.subset he)⟩, rfl⟩

theorem readable_unknown (d : ℕ) : Readable d unknown := by
  have hlength : (utf8 "x").length < 256 ^ 8 := by decide +kernel
  rw [unknown, Readable]
  exact hlength

theorem write_unknown_ne (h : Written bytes entries) (hfresh : unknown ∉ entries.map Prod.fst) :
    write unknown ∉ entries.map fun e => write e.1 := by
  intro hmem
  obtain ⟨e, he, heq⟩ := List.mem_map.mp hmem
  have hkey := readValue_write (h.readable.2 e he).1 []
  rw [heq, readValue_write (readable_unknown _)] at hkey
  have hfst : unknown = e.1 := congrArg Prod.fst (Option.some.inj hkey)
  exact hfresh (List.mem_map.mpr ⟨e, he, hfst.symm⟩)

theorem Written.insert (h : Written bytes entries) (hlength : bytes.length < 2 ^ 63)
    (hfresh : unknown ∉ entries.map Prod.fst) :
    Written (write (.map (sortEntries ((unknown, .null) :: entries))))
      (sortEntries ((unknown, .null) :: entries)) := by
  obtain ⟨hmem, hascending⟩ := canonical_map_iff.mp h.canonical
  obtain ⟨_, hread⟩ := h.readable
  have hperm := sortEntries_perm ((unknown, .null) :: entries)
  have hroom := h.length_le
  refine ⟨canonical_map (fun e he => ?_) (ascending_sortEntries_of_nodup ?_), ⟨?_, fun e he => ?_⟩,
    rfl⟩
  · rcases List.mem_cons.mp (hperm.subset he) with rfl | he
    · exact ⟨rfl, rfl⟩
    · exact hmem e he
  · exact List.nodup_cons.mpr ⟨write_unknown_ne h hfresh, hascending.nodup⟩
  · rw [hperm.length_eq, List.length_cons]
    omega
  · rcases List.mem_cons.mp (hperm.subset he) with rfl | he
    · exact ⟨readable_unknown _, by trivial⟩
    · exact hread e he

theorem others_insert {bytes' : Bytes} (h : Written bytes entries)
    (h' : Written bytes' (sortEntries ((unknown, .null) :: entries))) :
    others (sortEntries ((unknown, .null) :: entries)) = others entries := by
  have hperm := (sortEntries_perm ((unknown, .null) :: entries)).filter fun e => e.1 ≠ unknown
  rw [List.filter_cons_of_neg (by simp)] at hperm
  refine hperm.eq_of_pairwise (fun a b _ _ hab hba => absurd hba hab.asymm)
    ((canonical_map_iff.mp h'.canonical).2.sublist List.filter_sublist)
    ((canonical_map_iff.mp h.canonical).2.sublist List.filter_sublist)

theorem Written.toggle (h : Written bytes entries) (hlength : bytes.length < 2 ^ 63) :
    Written (write (.map (toggled entries))) (toggled entries) ∧ toggled entries ≠ entries ∧
      others (toggled entries) = others entries := by
  unfold toggled
  split
  · rename_i hmem
    refine ⟨h.sublist List.filter_sublist, ?_, ?_⟩
    · intro heq
      obtain ⟨e, he, hkey⟩ := List.mem_map.mp hmem
      rw [← heq] at he
      exact of_decide_eq_true (List.mem_filter.mp he).2 hkey
    · exact List.filter_filter.trans (by simp only [Bool.and_self]; rfl)
  · rename_i hfresh
    have hwritten := h.insert hlength hfresh
    refine ⟨hwritten, ?_, others_insert h hwritten⟩
    intro heq
    have hcount := (sortEntries_perm ((unknown, .null) :: entries)).length_eq
    rw [heq, List.length_cons] at hcount
    omega

end Toggling

section Malleable

variable [Libraries] {type : SignedType} {bytes : Bytes} {obj : TypedObject} {key : PublicKey}

/-- Different bytes decode to the same object. -/
theorem exists_other (htype : type ∈ signedTypes) (hlength : bytes.length < 2 ^ 63)
    (h : decode type bytes = .ok obj) : ∃ other, other ≠ bytes ∧ decode type other = .ok obj := by
  obtain ⟨entries, hwritten, hentries⟩ := decode_ok h
  obtain ⟨htoggled, hne, hothers⟩ := hwritten.toggle hlength
  refine ⟨write (.map (toggled entries)), hwritten.ne htoggled hne, ?_⟩
  rw [decode_write htoggled, ← decodeEntries_others htype, hothers, decodeEntries_others htype]
  exact hentries

/-- No bytes that verify are the only ones under their signature. -/
theorem verified_not_sole (htype : type ∈ signedTypes) (hlength : bytes.length < 2 ^ 63)
    (hdecode : decode type bytes = .ok obj) (hverify : verifyWith type obj key = .ok ()) :
    ¬Sole type key (sig obj) bytes := by
  intro hsole
  obtain ⟨other, hne, hother⟩ := exists_other htype hlength hdecode
  exact hne (hsole other obj hother hverify rfl)

/-- A hash without collisions, and signatures over one message each. -/
structure Ideal : Prop where
  blake3_injective : Function.Injective Libraries.blake3
  signed : ∀ {key : PublicKey} {s : Sig} {message message' : Bytes},
    Libraries.verifyStrict key message s = true →
      Libraries.verifyStrict key message' s = true → message = message'

end Malleable

section Sample

def sampleKey : PublicKey := ⟨List.replicate 32 1, rfl⟩

def sampleSig : Sig := ⟨List.replicate 64 7, rfl⟩

def sampleFields : TypedObject :=
  [(.text "replica", .bytes (List.replicate 16 0)), (.text "serves", .array []),
    (.text "time", .integer 0)]

def sampleObject : TypedObject := sampleFields ++ [(.text "sig", .bytes sampleSig.bytes)]

/-- The entries of a manifest, in the order of their encoded keys. -/
def manifestEntries (unknowns signature : List (Value × Value)) : List (Value × Value) :=
  [(.text "t", .text "manifest"), (.text "v", .integer 1)] ++ unknowns ++ signature ++
    [(.text "time", .integer 0), (.text "serves", .array []),
      (.text "replica", .bytes (List.replicate 16 0))]

def signedBytes (unknowns : List (Value × Value)) : Bytes :=
  write (.map (manifestEntries unknowns [(.text "sig", .bytes sampleSig.bytes)]))

def sampleField : Value → Except String Value
  | .bytes b => if b.length = 16 then .ok (.bytes b) else .error "entity id must be 16 bytes"
  | .array [] => .ok (.array [])
  | .integer n => .ok (.integer n)
  | _ => .error "invalid type"

def sampleByteBuf : Value → Except String Bytes
  | .bytes b => .ok b
  | _ => .error "invalid type"

/-- One signature was made, over the manifest. -/
@[reducible] def sampleLibraries : Libraries where
  field _ _ := sampleField
  byteBuf := sampleByteBuf
  blake3 := id
  verifyStrict key message s := key = sampleKey ∧ s = sampleSig ∧
    message = utf8 "tessra:sig:" ++ utf8 "manifest" ++ utf8 "\n" ++
      write (.map (manifestEntries [] []))

theorem sampleLibraries_ideal : @Ideal sampleLibraries :=
  @Ideal.mk sampleLibraries Function.injective_id fun h h' =>
    (of_decide_eq_true h).2.2.trans (of_decide_eq_true h').2.2.symm

theorem signed_manifest_not_sole :
    ¬@Sole sampleLibraries manifest sampleKey (sig sampleObject) (signedBytes []) :=
  @verified_not_sole sampleLibraries manifest (signedBytes []) sampleObject sampleKey
    (by decide) (by decide +kernel) (by decide +kernel) (by decide +kernel)

/-- A null under a key that manifests do not have changes the bytes, and the signature
still verifies. -/
theorem manifest_with_unknown_key_verifies :
    @Ideal sampleLibraries ∧ signedBytes [(unknown, .null)] ≠ signedBytes [] ∧
      @decode sampleLibraries manifest (signedBytes []) = .ok sampleObject ∧
      @decode sampleLibraries manifest (signedBytes [(unknown, .null)]) = .ok sampleObject ∧
      @verifyWith sampleLibraries manifest sampleObject sampleKey = .ok () :=
  ⟨sampleLibraries_ideal, by decide +kernel, by decide +kernel, by decide +kernel,
    by decide +kernel⟩

end Sample

end Tessra.Cbor
