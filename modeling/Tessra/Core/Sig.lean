import Tessra.Core.Store

namespace Tessra.Core

/-! Objects that carry an optional signature over the rest of themselves. -/

class SignedObject (T : Type) extends TessraObject T where
  sig : T → Option Sig
  setSig : Option Sig → T → T

instance : SignedObject Op where
  sig := Op.sig
  setSig s op := { op with sig := s }

instance : SignedObject Principal where
  sig := Principal.sig
  setSig s principal := { principal with sig := s }

instance : SignedObject Capability where
  sig := Capability.sig
  setSig s cap := { cap with sig := s }

instance : SignedObject Attestation where
  sig := Attestation.sig
  setSig s attestation := { attestation with sig := s }

/-- Verify a signed object against a public key. -/
def verifyWith [Crypto] {T : Type} [SignedObject T] (t : T) (key : PublicKey) :
    Except Error Unit :=
  match SignedObject.sig t with
  | none => .error (.signature s!"{TessraObject.tag T} is unsigned")
  | some sig =>
      if Crypto.verifies key (TessraObject.toObject (SignedObject.setSig none t)) sig then .ok ()
      else .error (.signature s!"invalid signature on {TessraObject.tag T}")

def Error.message : Error → String
  | .id reason => s!"invalid identifier: {reason}"
  | .signature reason => s!"signature: {reason}"
  | .decode reason => s!"decoding: {reason}"
  | .notFound oid => s!"object not found: {oid}"
  | .invariant reason => s!"invariant violated: {reason}"
  | .store reason => s!"store: {reason}"
  | .rejected step name reason => s!"rejected at step {step} ({name}): {reason}"
  | .unknownParent oid => s!"unknown parent op {oid}"
  | .other reason | .verb _ reason | .panic reason => reason
  | .outOfFuel => "out of fuel"

end Tessra.Core
