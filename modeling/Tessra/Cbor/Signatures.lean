import Tessra.Cbor.Canonical

namespace Tessra.Cbor

open Tessra.Core Tessra.Data
open Tessra.Redb (utf8)

/-! Signed objects as bytes.  The bytes of an object are decoded into its type, and its
signature is checked over what the type encodes to without the signature. -/

section Types

/-- A field of an object type; an optional one is left out of the bytes when absent. -/
structure Field where
  name : String
  optional : Bool
deriving DecidableEq

def required (name : String) : Field := ⟨name, false⟩

def optional (name : String) : Field := ⟨name, true⟩

structure SignedType where
  tag : String
  /-- The schema version the code emits and the newest it understands. -/
  version : ℕ := 1
  fields : List Field
deriving DecidableEq

def attestation : SignedType where
  tag := "attestation"
  fields := [required "kind", optional "subject", optional "bodies", optional "subject_type",
    optional "scope", required "result", optional "env", required "verifier", optional "runner",
    optional "evidence", required "time", required "sigkind", optional "sig"]

def principal : SignedType where
  tag := "principal"
  fields := [required "id", optional "prev", optional "key", required "kind", required "name",
    optional "parent", optional "model", optional "runtime", optional "bindings",
    required "status", optional "expires", required "time", optional "sig"]

def capability : SignedType where
  tag := "capability"
  fields := [required "issuer", required "subject", required "verbs", required "write",
    required "read", optional "hard", optional "advisory", required "delegable",
    optional "parent", required "nonce", required "time", optional "sig"]

def manifest : SignedType where
  tag := "manifest"
  fields := [required "replica", required "serves", required "time", optional "sig"]

def release : SignedType where
  tag := "release"
  fields := [required "name", required "line", required "revision", optional "since",
    required "changelog", optional "attestations", required "signer", required "time",
    optional "sig"]

def op : SignedType where
  tag := "op"
  fields := [required "parents", required "author", required "key", optional "cap",
    required "kind", required "args", required "effects", required "view", required "time",
    optional "desc", optional "sig"]

def anchor : SignedType where
  tag := "anchor"
  fields := [required "heads", required "by", required "time", optional "sig"]

def signedTypes : List SignedType :=
  [attestation, principal, capability, manifest, release, op, anchor]

/-- What the code takes from libraries. -/
class Libraries where
  /-- The value of a field, read as its type and serialized again. -/
  field : (tag name : String) → Value → Except String Value
  byteBuf : Value → Except String Bytes
  blake3 : Bytes → Bytes
  verifyStrict : PublicKey → Bytes → Sig → Bool

/-- A typed object, as the entries it serializes to. -/
abbrev TypedObject := List (Value × Value)

end Types

section Decoding

variable [Libraries]

def deserializeSig (v : Value) : Except String Value := do
  let b ← Libraries.byteBuf v
  if b.length = 64 then .ok (.bytes b)
  else .error s!"signature must be 64 bytes, got {b.length}"

def deserializeField (tag name : String) (v : Value) : Except String Value :=
  if name = "sig" then deserializeSig v else Libraries.field tag name v

/-- Read a field out of the entries of a map.  A null is an absent optional. -/
def readField (tag : String) (entries : List (Value × Value)) (f : Field) :
    Except String TypedObject :=
  match Value.lookupText f.name entries with
  | none => if f.optional then .ok [] else .error s!"missing field {f.name}"
  | some v =>
      if f.optional ∧ v = .null then .ok []
      else (deserializeField tag f.name v).map fun v => [(.text f.name, v)]

/-- Read the entries of a map as a typed object.  Only the fields of the type are looked at:
other text keys are ignored. -/
def deserialize (type : SignedType) (entries : List (Value × Value)) :
    Except String TypedObject :=
  if entries.all fun e => e.1.asText.isSome then
    (type.fields.mapM (readField type.tag entries)).map List.flatten
  else .error "invalid type"

/-- The reserved keys of an object, and its other entries. -/
structure Envelope where
  tag : Option String
  version : Option ℕ
  rest : List (Value × Value)

def Envelope.keep (env : Envelope) (e : Value × Value) : Envelope :=
  { env with rest := env.rest ++ [e] }

def Envelope.take (env : Envelope) : Value × Value → Except CborError Envelope
  | (.text key, .text t) =>
      if key = "t" then .ok { env with tag := some t } else .ok (env.keep (.text key, .text t))
  | (.text key, .integer n) =>
      if key = "v" then
        if 0 ≤ n ∧ n < 2 ^ 64 then .ok { env with version := some n.toNat }
        else .error (.decode "v out of range")
      else .ok (env.keep (.text key, .integer n))
  | e => .ok (env.keep e)

def Envelope.open (type : SignedType) (env : Envelope) : Except CborError TypedObject :=
  match env.tag, env.version with
  | none, _ => .error (.decode "missing t")
  | some tag, found =>
      if tag ≠ type.tag then .error (.wrongType type.tag tag)
      else
        match found with
        | none => .error (.decode "missing v")
        | some found =>
            if type.version < found then .error (.version type.tag found type.version)
            else (deserialize type env.rest).mapError fun e => .decode s!"{type.tag}: {e}"

def decodeEntries (type : SignedType) (entries : List (Value × Value)) :
    Except CborError TypedObject := do
  let env ← entries.foldlM Envelope.take ⟨none, none, []⟩
  env.open type

/-- Decode canonical bytes into an object, checking the envelope. -/
def decode (type : SignedType) (bytes : Bytes) : Except CborError TypedObject :=
  match read bytes with
  | none => .error (.decode "bytes")
  | some value => do
      let canonical ← canonicalize value
      if write canonical ≠ bytes then
        .error (.notCanonical s!"{type.tag} bytes are not in deterministic form")
      else
        match value with
        | .map entries => decodeEntries type entries
        | _ => .error (.decode s!"{type.tag} is not a map")

/-- Encode an object into canonical bytes with its envelope. -/
def encode (type : SignedType) (obj : TypedObject) : Except CborError Bytes := do
  let canonical ← canonicalize (.map (obj ++
    [(.text "t", .text type.tag), (.text "v", .integer type.version)]))
  .ok (write canonical)

end Decoding

section Verifying

variable [Libraries]

def sig (obj : TypedObject) : Option Sig :=
  match Value.lookupText "sig" obj with
  | some (.bytes b) => if h : b.length = 64 then some ⟨b, h⟩ else none
  | _ => none

/-- The canonical bytes of an object with its signature removed. -/
def payload (type : SignedType) (obj : TypedObject) : Except CborError Bytes :=
  encode type (obj.filter fun e => e.1 ≠ .text "sig")

def signingMessage (tag : String) (payload : Bytes) : Bytes :=
  Libraries.blake3 (utf8 "tessra:sig:" ++ utf8 tag ++ utf8 "\n" ++ payload)

def verifyWith (type : SignedType) (obj : TypedObject) (key : PublicKey) :
    Except CborError Unit :=
  match sig obj with
  | none => .error (.signature s!"{type.tag} is unsigned")
  | some sig => do
      let payload ← payload type obj
      if Libraries.verifyStrict key (signingMessage type.tag payload) sig then .ok ()
      else .error (.signature s!"invalid signature on {type.tag}")

/-- No other bytes decode to an object that verifies under the key with this signature. -/
def Sole (type : SignedType) (key : PublicKey) (s : Option Sig) (bytes : Bytes) : Prop :=
  ∀ other obj, decode type other = .ok obj → verifyWith type obj key = .ok () →
    sig obj = s → other = bytes

end Verifying

section Unknown

/-- A key that no signed type knows. -/
def unknown : Value := .text "x"

/-- The entries under other keys. -/
def others (entries : List (Value × Value)) : List (Value × Value) :=
  entries.filter fun e => e.1 ≠ unknown

theorem others_append (l m : List (Value × Value)) : others (l ++ m) = others l ++ others m :=
  List.filter_append ..

theorem lookupText_others {name : String} (h : name ≠ "x") (entries : List (Value × Value)) :
    Value.lookupText name (others entries) = Value.lookupText name entries := by
  rw [Value.lookupText, others, List.find?_filter, Value.lookupText]
  congr 2
  funext e
  refine decide_eq_decide.mpr
    ⟨fun hboth => of_decide_eq_true hboth.2, fun he => ⟨decide_eq_true ?_, decide_eq_true he⟩⟩
  rw [he]
  intro heq
  cases heq
  exact h rfl

theorem all_asText_others (entries : List (Value × Value)) :
    ((others entries).all fun e => e.1.asText.isSome) =
      entries.all fun e => e.1.asText.isSome := by
  rw [others, List.all_filter]
  congr 1
  funext e
  by_cases he : e.1 = unknown
  · rw [he]
    rfl
  · simp [he]

theorem fields_known : ∀ type ∈ signedTypes, ∀ f ∈ type.fields, f.name ≠ "x" := by
  decide

def Envelope.others (env : Envelope) : Envelope := { env with rest := Cbor.others env.rest }

theorem keep_unknown {env : Envelope} {e : Value × Value} (h : e.1 = unknown) :
    (env.keep e).others = env.others := by
  rw [Envelope.others, Envelope.keep, others_append, others, others, List.filter_singleton,
    decide_eq_false (not_not.mpr h)]
  exact congrArg (Envelope.mk _ _) (List.append_nil _)

theorem keep_known {env : Envelope} {e : Value × Value} (h : e.1 ≠ unknown) :
    (env.keep e).others = env.others.keep e := by
  rw [Envelope.others, Envelope.keep, others_append, others, others, List.filter_singleton,
    decide_eq_true h]
  rfl

theorem take_unknown {env : Envelope} {e : Value × Value} (h : e.1 = unknown) :
    env.take e = .ok (env.keep e) := by
  obtain ⟨k, v⟩ := e
  cases h
  cases v <;> rfl

theorem take_known {env : Envelope} {e : Value × Value} (h : e.1 ≠ unknown) :
    (env.take e).map Envelope.others = env.others.take e := by
  have kept : (Except.ok (env.keep e) : Except CborError Envelope).map Envelope.others =
      .ok (env.others.keep e) := congrArg Except.ok (keep_known h)
  unfold Envelope.take
  split
  · split_ifs
    · rfl
    · exact kept
  · split_ifs
    · rfl
    · rfl
    · exact kept
  · exact kept

theorem foldlM_take_others (entries : List (Value × Value)) : ∀ env : Envelope,
    (entries.foldlM Envelope.take env).map Envelope.others =
      (others entries).foldlM Envelope.take env.others := by
  induction entries with
  | nil => exact fun env => rfl
  | cons e entries ih =>
      intro env
      by_cases he : e.1 = unknown
      · rw [List.foldlM_cons, take_unknown he, others,
          List.filter_cons_of_neg (by simpa using he), ← keep_unknown he]
        exact ih _
      · rw [List.foldlM_cons, others, List.filter_cons_of_pos (by simpa using he),
          List.foldlM_cons, ← take_known he]
        cases env.take e with
        | error e => rfl
        | ok env' => exact ih env'

variable [Libraries] {type : SignedType}

theorem deserialize_others (htype : type ∈ signedTypes) (entries : List (Value × Value)) :
    deserialize type (others entries) = deserialize type entries := by
  have hfields : type.fields.mapM (readField type.tag (others entries)) =
      type.fields.mapM (readField type.tag entries) := by
    refine mapM_congr fun f hf => ?_
    rw [readField, readField, lookupText_others (fields_known type htype f hf)]
  rw [deserialize, deserialize, all_asText_others, hfields]

theorem open_others (htype : type ∈ signedTypes) (env : Envelope) :
    env.others.open type = env.open type := by
  rw [Envelope.open, Envelope.open, Envelope.others, deserialize_others htype]

theorem decodeEntries_others (htype : type ∈ signedTypes) (entries : List (Value × Value)) :
    decodeEntries type (others entries) = decodeEntries type entries := by
  have hfold := foldlM_take_others entries ⟨none, none, []⟩
  change _ = (others entries).foldlM Envelope.take ⟨none, none, []⟩ at hfold
  rw [decodeEntries, decodeEntries, ← hfold]
  cases entries.foldlM Envelope.take ⟨none, none, []⟩ with
  | error e => rfl
  | ok env => exact open_others htype env

end Unknown

end Tessra.Cbor
