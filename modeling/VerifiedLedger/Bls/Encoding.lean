import VerifiedLedger.Bls.Curve
import VerifiedLedger.Bytes.LittleEndian
/-! # Compressed points

A point is the big-endian `x` coordinate with three flags in its first byte: compressed, infinity
and "the larger of the two roots". Decoding checks the flags, the range of the coordinate and the
curve equation, in this order; it does not check the subgroup.
-/
namespace VerifiedLedger.Bls

inductive DecodeFault where
  | badEncoding
  | notOnCurve
  | notInGroup
deriving DecidableEq, Repr

def DecodeFault.message : DecodeFault → String
  | .badEncoding => "BLST_BAD_ENCODING"
  | .notOnCurve => "BLST_POINT_NOT_ON_CURVE"
  | .notInGroup => "BLST_POINT_NOT_IN_GROUP"

structure Flagged where
  compressed : Bool
  infinity : Bool
  larger : Bool
  body : List UInt8

def Flagged.ofBytes : List UInt8 → Flagged
  | [] => ⟨false, false, false, []⟩
  | b :: bs => ⟨b &&& 0x80 != 0, b &&& 0x40 != 0, b &&& 0x20 != 0, (b &&& 0x1f) :: bs⟩

/-- A coordinate of 48 bytes, which must be below `p`. -/
def readCoordinate (bytes : List UInt8) : Option Fp :=
  let n := Bytes.ofBigEndian bytes
  if n < p then some ⟨n⟩ else none

/-- The point with that `x`; `none` stands for infinity. -/
def decodeWith {F : Type} [FieldOps F] [DecidableEq F] (readX : List UInt8 → Option F)
    (sqrt? : F → Option F) (isLarge : F → Bool) (b : F) (bytes : List UInt8) :
    Except DecodeFault (Option (Affine F)) :=
  let flagged := Flagged.ofBytes bytes
  if !flagged.compressed then .error .badEncoding
  else if flagged.infinity then
    if !flagged.larger && flagged.body.all (· == 0) then .ok none else .error .badEncoding
  else
    match readX flagged.body with
    | none => .error .badEncoding
    | some x =>
      match sqrt? (x * x * x + b) with
      | none => .error .notOnCurve
      | some y =>
        if x = 0 then .error .notInGroup
        else .ok (some ⟨x, if isLarge y = flagged.larger then y else -y⟩)

def decodeG1 : List UInt8 → Except DecodeFault (Option (Affine Fp)) :=
  decodeWith readCoordinate Fp.sqrt? Fp.isLarge ⟨4⟩

/-- A point of the twist `y² = x³ + 4 * (1 + u)` from 96 bytes, the imaginary part first. -/
def decodeG2 : List UInt8 → Except DecodeFault (Option (Affine Fp2)) :=
  decodeWith
    (fun bytes => do
      let im ← readCoordinate (bytes.take 48)
      let re ← readCoordinate (bytes.drop 48)
      return ⟨re, im⟩)
    Fp2.sqrt? Fp2.isLarge ⟨⟨4⟩, ⟨4⟩⟩

end VerifiedLedger.Bls
