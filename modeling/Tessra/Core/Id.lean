import Mathlib

namespace Tessra.Core

/-! Bytes, object and entity identifiers, keys and signatures. -/

abbrev Byte := Fin 256

abbrev Bytes := List Byte

/-- A 32-byte content hash, ordered as its bytes are. -/
structure ObjectId where
  bytes : Bytes
  length_bytes : bytes.length = 32
deriving DecidableEq

/-- The 16 random bytes that name an entity, ordered as bytes. -/
structure EntityId where
  bytes : Bytes
  length_bytes : bytes.length = 16
deriving DecidableEq

structure PublicKey where
  bytes : Bytes
  length_bytes : bytes.length = 32
deriving DecidableEq

structure Sig where
  bytes : Bytes
  length_bytes : bytes.length = 64
deriving DecidableEq

theorem ObjectId.bytes_injective : Function.Injective ObjectId.bytes := by
  rintro ⟨_, _⟩ ⟨_, _⟩ h
  cases h
  rfl

theorem EntityId.bytes_injective : Function.Injective EntityId.bytes := by
  rintro ⟨_, _⟩ ⟨_, _⟩ h
  cases h
  rfl

instance : LinearOrder ObjectId := LinearOrder.lift' _ ObjectId.bytes_injective

instance : LinearOrder EntityId := LinearOrder.lift' _ EntityId.bytes_injective

instance neZero256 : NeZero 256 := ⟨by decide⟩

def Byte.ofNat (n : ℕ) : Byte := Fin.ofNat 256 n

def Byte.high (b : Byte) : Fin 16 := ⟨b.val / 16, by omega⟩

def Byte.low (b : Byte) : Fin 16 := ⟨b.val % 16, by omega⟩

/-- The high nibble of a byte, then the low one. -/
def Byte.nibbles (b : Byte) : List (Fin 16) := [b.high, b.low]

theorem Byte.nibbles_injective : Function.Injective Byte.nibbles := by
  intro b c h
  simp only [nibbles, high, low, List.cons.injEq, Fin.mk.injEq, and_true] at h
  exact Fin.ext (by omega)

/-- One character of an alphabet for each nibble of the bytes. -/
def spell (alphabet : Fin 16 → Char) (bytes : Bytes) : String :=
  String.ofList ((bytes.flatMap Byte.nibbles).map alphabet)

namespace ObjectId

def toHex (id : ObjectId) : String :=
  spell (fun n => "0123456789abcdef".toList.getD n '0') id.bytes

instance : ToString ObjectId := ⟨toHex⟩

def debug (id : ObjectId) : String :=
  let short := String.ofList (id.toHex.toList.take 12)
  s!"ObjectId({short})"

/-- The identifier `[n; 32]`. -/
def splat (n : ℕ) : ObjectId := ⟨List.replicate 32 (Byte.ofNat n), List.length_replicate⟩

theorem splat_inj {n m : ℕ} (hn : n < 256) (hm : m < 256) (h : splat n = splat m) :
    n = m := by
  have hbyte : Byte.ofNat n = Byte.ofNat m := by
    simpa [splat, List.replicate_right_inj] using h
  have hmod : n % 256 = m % 256 := congrArg Fin.val hbyte
  omega

def fromSlice (v : Bytes) : Option ObjectId :=
  if h : v.length = 32 then some ⟨v, h⟩ else none

@[simp] theorem fromSlice_bytes (id : ObjectId) : fromSlice id.bytes = some id := by
  simp [fromSlice, id.length_bytes]

end ObjectId

namespace EntityId

/-- Thirty-two letters, one for each nibble, high nibble first. -/
def toLetters (id : EntityId) : String :=
  spell (fun n => "klmnopqrstuvwxyz".toList.getD n 'k') id.bytes

instance : ToString EntityId := ⟨toLetters⟩

/-- The identifier `[n; 16]`. -/
def splat (n : ℕ) : EntityId := ⟨List.replicate 16 (Byte.ofNat n), List.length_replicate⟩

def fromSlice (v : Bytes) : Option EntityId :=
  if h : v.length = 16 then some ⟨v, h⟩ else none

@[simp] theorem fromSlice_bytes (id : EntityId) : fromSlice id.bytes = some id := by
  simp [fromSlice, id.length_bytes]

end EntityId

end Tessra.Core
