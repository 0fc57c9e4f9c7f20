import VerifiedLedger.Format.Collection
import VerifiedLedger.Bls.Signature
/-! # Formats of digests, keys and signatures

In JSON all of them are hexadecimal text. A digest is encoded as its 32 bytes alone; keys and
signatures announce their length, which must be the right one.
-/
namespace VerifiedLedger

def hexJson (bytes : List UInt8) : Json := .string (Hex.encode bytes)

def hexOfJson : Json → Option (List UInt8)
  | .text (some s) => (Hex.decode (Hex.dropPrefix (Utf8.encode s))).toOption
  | _ => none

namespace Format

/-- The bytes alone. -/
def fixed (n : Nat) : Format (FixedBytes n) where
  encode := FixedBytes.toList
  decode := takeFixed n
  toJson b := some (hexJson b.toList)
  ofJson _ j := do
    let read ← hexOfJson j
    FixedBytes.ofList? read

/-- The bytes behind their length, which has to be `n`. -/
def sized (n : Nat) (lengthFault : String) : Format (FixedBytes n) where
  encode b := bytes.encode b.toList
  decode input := do
    let (read, rest) ← bytes.decode input
    match FixedBytes.ofList? read with
    | some b => return (b, rest)
    | none => .error (.refused lengthFault)
  toJson := (fixed n).toJson
  ofJson := (fixed n).ofJson

end Format

def Digest.format : Format Digest := (Format.fixed 32).map mk bytes

def PublicKey.format : Format PublicKey :=
  (Format.sized 48 "Invalid BLS public key length").map mk bytes

def Signature.format : Format Signature :=
  (Format.sized 96 "Invalid BLS signature length").map mk bytes

end VerifiedLedger
