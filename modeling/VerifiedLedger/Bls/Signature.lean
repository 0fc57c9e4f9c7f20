import VerifiedLedger.Bls.Encoding
import VerifiedLedger.Bls.HashToCurve
import VerifiedLedger.Bls.Pairing
import VerifiedLedger.Bytes.Fixed
/-! # Signatures

Public keys are points of the curve and signatures are points of its twist. A signature verifies if
both points lie in their subgroups, neither is infinity, and pairing the key with the message's
point gives the same value as pairing the generator with the signature.
-/
namespace VerifiedLedger

/-- A compressed public key, as bytes that have not been decoded yet. -/
structure PublicKey where
  bytes : FixedBytes 48
deriving DecidableEq

/-- A compressed signature, as bytes that have not been decoded yet. -/
structure Signature where
  bytes : FixedBytes 96
deriving DecidableEq

def PublicKey.size : Nat := 48

def Signature.size : Nat := 96

def PublicKey.ofBytes? (bytes : List UInt8) : Option PublicKey := (⟨·⟩) <$> FixedBytes.ofList? bytes

def Signature.ofBytes? (bytes : List UInt8) : Option Signature := (⟨·⟩) <$> FixedBytes.ofList? bytes

inductive SignatureError where
  | badKey (reason : Bls.DecodeFault)
  | badEncoding (reason : Bls.DecodeFault)
  | doesNotVerify
deriving DecidableEq, Repr

def SignatureError.message : SignatureError → String
  | .badKey reason => "Invalid BLS public key: " ++ reason.message
  | .badEncoding reason => "Invalid BLS signature encoding: " ++ reason.message
  | .doesNotVerify => "BLS signature does not verify against the public key"

namespace Bls

def equationHolds (key : Affine Fp) (message : List UInt8) (signature : Affine Fp2) : Bool :=
  let negGenerator : Affine Fp := ⟨generator.x, -generator.y⟩
  let hashed := HashToCurve.hash message
  if hashed.isInfinity then Pairing.productIsOne [(negGenerator, signature)]
  else Pairing.productIsOne [(key, hashed.toAffine), (negGenerator, signature)]

end Bls

/-- Checks a signature of `message` under a public key. A point at infinity never verifies. -/
def verifySignature (key : PublicKey) (message : List UInt8) (signature : Signature) :
    Except SignatureError Unit :=
  match Bls.decodeG1 key.bytes.toList with
  | .error fault => .error (.badKey fault)
  | .ok keyPoint =>
    match Bls.decodeG2 signature.bytes.toList with
    | .error fault => .error (.badEncoding fault)
    | .ok signaturePoint =>
      match keyPoint, signaturePoint with
      | some k, some s =>
        if Bls.inSubgroup s && Bls.inSubgroup k && Bls.equationHolds k message s then .ok ()
        else .error .doesNotVerify
      | _, _ => .error .doesNotVerify

end VerifiedLedger
