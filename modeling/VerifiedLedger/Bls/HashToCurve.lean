import VerifiedLedger.Bls.Curve
import VerifiedLedger.Hash.Sha256
import VerifiedLedger.Bytes.Utf8
/-! # Messages as curve points

A message is spread to two elements of `Fp2`; each is mapped to a curve with a simple map, carried
over to the twist by a map of degree three, and the sum is multiplied into the subgroup.
-/
namespace VerifiedLedger.Bls

/-- Keeps the hashes of this signature scheme apart from those of others. -/
def domainTag : String := "BLS_SIG_BLS12381G2_XMD:SHA-256_SSWU_RO_POP_"

namespace HashToCurve

def tagBytes : List UInt8 :=
  let tag := Utf8.encode domainTag
  tag ++ [UInt8.ofNat tag.length]

/-- The blocks after the first; each hashes the block before it, mixed with `base`. -/
def expandFrom (base : List UInt8) : (count index : Nat) → List UInt8 → List (List UInt8)
  | 0, _, _ => []
  | count + 1, index, previous =>
    let mixed := base.zipWith (· ^^^ ·) previous
    let block := Sha256.hash (mixed ++ UInt8.ofNat index :: tagBytes)
    block :: expandFrom base count (index + 1) block

/-- The message spread over `32 * count` bytes. -/
def expand (message : List UInt8) (count : Nat) : List UInt8 :=
  let base := Sha256.hash (List.replicate 64 0 ++ message ++ Bytes.bigEndian 2 (32 * count) ++
    0 :: tagBytes)
  (expandFrom base count 1 (List.replicate 32 0)).flatten

def residue (bytes : List UInt8) (i : Nat) : Fp :=
  .ofNat (Bytes.ofBigEndian ((bytes.drop (64 * i)).take 64))

/-- The curve `y² = x³ + a * x + b` that the simple map reaches. -/
def a : Fp2 := ⟨0, ⟨240⟩⟩

def b : Fp2 := ⟨⟨1012⟩, ⟨1012⟩⟩

def z : Fp2 := -⟨⟨2⟩, 1⟩

def isOdd (e : Fp2) : Bool := e.re.val % 2 = 1 || (e.re.val = 0 && e.im.val % 2 = 1)

def rhs (x : Fp2) : Fp2 := (x * x + a) * x + b

/-- A point of the auxiliary curve: of the two candidates for `x` the first on the curve, and the
root that is odd exactly if `t` is. -/
def simpleMap (t : Fp2) : Affine Fp2 :=
  let zt := z * t * t
  let s := zt * zt + zt
  let x1 :=
    if s = 0 then b * FieldOps.inv (z * a)
    else -b * FieldOps.inv a * (1 + FieldOps.inv s)
  let (x, y) := match (rhs x1).sqrt? with
    | some y => (x1, y)
    | none => (zt * x1, ((rhs (zt * x1)).sqrt?).getD 0)
  ⟨x, if isOdd t = isOdd y then y else -y⟩

/-- The abscissa of the points of order three that the map to the twist sends to infinity. -/
def kernelX : Fp2 := ⟨-⟨6⟩, ⟨6⟩⟩

def three (e : Fp2) : Fp2 := e + e + e

def ninth : Fp := FieldOps.inv ⟨9⟩

def twentySeventh : Fp := FieldOps.inv ⟨27⟩

/-- The quotient of the auxiliary curve by its subgroup of order three, scaled onto the twist. The
coordinates move by the sums of `v / (x - kernelX)` and `w / (x - kernelX)²` over that subgroup. -/
def toTwist (q : Affine Fp2) : Point Fp2 :=
  let v := double (three (kernelX * kernelX) + a)
  let w := double (double (rhs kernelX))
  let d := q.x - kernelX
  if d = 0 then .infinity
  else
    let i := FieldOps.inv d
    let vi := v * i
    let wi := w * i * i
    let y := q.y * (1 - vi * i - double wi * i)
    .ofAffine ⟨(q.x + vi + wi).scale ninth, -y.scale twentySeventh⟩

/-- The number of points of the twist, divided by `order`. -/
def twistCofactor : Nat :=
  let u := parameter
  let u2 := u * u
  let u3 := u2 * u
  let u4 := u2 * u2
  (u4 * u4 + 4 * (u4 * u3) + 5 * (u3 * u3) + 4 * u + 13 - 4 * u4 - 6 * u3 - 4 * u2) / 9

/-- Multiplying by it takes every point of the twist into the subgroup. -/
def cofactor : Nat := 3 * (parameter * parameter - 1) * twistCofactor

def hash (message : List UInt8) : Point Fp2 :=
  let bytes := expand message 8
  let t0 : Fp2 := ⟨residue bytes 0, residue bytes 1⟩
  let t1 : Fp2 := ⟨residue bytes 2, residue bytes 3⟩
  ((toTwist (simpleMap t0)).add (toTwist (simpleMap t1))).scale cofactor

end HashToCurve
end VerifiedLedger.Bls
