import VerifiedLedger.Bls.PrimeField
/-! # The extension tower

`Fp2` adjoins a square root `u` of minus one, `Fp6` a cube root `v` of `1 + u` and `Fp12` a square
root `w` of `v`. The pairing takes its values in `Fp12`.
-/
namespace VerifiedLedger.Bls

/-- `re + im * u` with `u² = -1`. -/
structure Fp2 where
  re : Fp
  im : Fp
deriving DecidableEq

namespace Fp2

def mul (a b : Fp2) : Fp2 :=
  let x := a.re * b.re
  let y := a.im * b.im
  ⟨x - y, (a.re + a.im) * (b.re + b.im) - x - y⟩

instance : Add Fp2 := ⟨fun a b => ⟨a.re + b.re, a.im + b.im⟩⟩
instance : Sub Fp2 := ⟨fun a b => ⟨a.re - b.re, a.im - b.im⟩⟩
instance : Mul Fp2 := ⟨mul⟩
instance : Neg Fp2 := ⟨fun a => ⟨-a.re, -a.im⟩⟩
instance : Zero Fp2 := ⟨⟨0, 0⟩⟩
instance : One Fp2 := ⟨⟨1, 0⟩⟩

def conj (a : Fp2) : Fp2 := ⟨a.re, -a.im⟩

def scale (a : Fp2) (c : Fp) : Fp2 := ⟨a.re * c, a.im * c⟩

def norm (a : Fp2) : Fp := a.re * a.re + a.im * a.im

instance : FieldOps Fp2 where
  inv a := a.conj.scale (FieldOps.inv a.norm)

/-- `1 + u`, which has neither a square root nor a cube root. -/
def nonResidue : Fp2 := ⟨1, 1⟩

def mulNonResidue (a : Fp2) : Fp2 := ⟨a.re - a.im, a.re + a.im⟩

def half (a : Fp) : Fp := a * ⟨(p + 1) / 2⟩

/-- The root of a number with an imaginary part: the norm of `x + y * u` is `s²` where
`x² = (re + s) / 2` for one of the two roots `s`. -/
def sqrtMixed? (a : Fp2) : Option Fp2 := do
  let s ← a.norm.sqrt?
  let x ← match (half (a.re + s)).sqrt? with
    | some x => some x
    | none => (half (a.re - s)).sqrt?
  let root : Fp2 := ⟨x, half (a.im * FieldOps.inv x)⟩
  if root * root = a then some root else none

def sqrt? (a : Fp2) : Option Fp2 :=
  if a.im = 0 then
    match a.re.sqrt? with
    | some x => some ⟨x, 0⟩
    | none => (fun y => ⟨0, y⟩) <$> (-a.re).sqrt?
  else a.sqrtMixed?

/-- Whether an element is larger than its negative; the imaginary part decides first. -/
def isLarge (a : Fp2) : Bool := if a.im = 0 then a.re.isLarge else a.im.isLarge

end Fp2

/-- `c0 + c1 * v + c2 * v²` with `v³ = 1 + u`. -/
structure Fp6 where
  c0 : Fp2
  c1 : Fp2
  c2 : Fp2
deriving DecidableEq

namespace Fp6

def mul (a b : Fp6) : Fp6 :=
  let x := a.c0 * b.c0
  let y := a.c1 * b.c1
  let z := a.c2 * b.c2
  ⟨x + ((a.c1 + a.c2) * (b.c1 + b.c2) - y - z).mulNonResidue,
    (a.c0 + a.c1) * (b.c0 + b.c1) - x - y + z.mulNonResidue,
    (a.c0 + a.c2) * (b.c0 + b.c2) - x - z + y⟩

instance : Add Fp6 := ⟨fun a b => ⟨a.c0 + b.c0, a.c1 + b.c1, a.c2 + b.c2⟩⟩
instance : Sub Fp6 := ⟨fun a b => ⟨a.c0 - b.c0, a.c1 - b.c1, a.c2 - b.c2⟩⟩
instance : Mul Fp6 := ⟨mul⟩
instance : Neg Fp6 := ⟨fun a => ⟨-a.c0, -a.c1, -a.c2⟩⟩
instance : Zero Fp6 := ⟨⟨0, 0, 0⟩⟩
instance : One Fp6 := ⟨⟨1, 0, 0⟩⟩

def mulByV (a : Fp6) : Fp6 := ⟨a.c2.mulNonResidue, a.c0, a.c1⟩

def inv (a : Fp6) : Fp6 :=
  let x := a.c0 * a.c0 - (a.c1 * a.c2).mulNonResidue
  let y := (a.c2 * a.c2).mulNonResidue - a.c0 * a.c1
  let z := a.c1 * a.c1 - a.c0 * a.c2
  let t := FieldOps.inv (a.c0 * x + (a.c1 * z + a.c2 * y).mulNonResidue)
  ⟨x * t, y * t, z * t⟩

instance : FieldOps Fp6 := { inv := inv }

end Fp6

/-- `c0 + c1 * w` with `w² = v`. -/
structure Fp12 where
  c0 : Fp6
  c1 : Fp6
deriving DecidableEq

namespace Fp12

def mul (a b : Fp12) : Fp12 :=
  let x := a.c0 * b.c0
  let y := a.c1 * b.c1
  ⟨x + y.mulByV, (a.c0 + a.c1) * (b.c0 + b.c1) - x - y⟩

instance : Add Fp12 := ⟨fun a b => ⟨a.c0 + b.c0, a.c1 + b.c1⟩⟩
instance : Sub Fp12 := ⟨fun a b => ⟨a.c0 - b.c0, a.c1 - b.c1⟩⟩
instance : Mul Fp12 := ⟨mul⟩
instance : Neg Fp12 := ⟨fun a => ⟨-a.c0, -a.c1⟩⟩
instance : Zero Fp12 := ⟨⟨0, 0⟩⟩
instance : One Fp12 := ⟨⟨1, 0⟩⟩

def conj (a : Fp12) : Fp12 := ⟨a.c0, -a.c1⟩

def inv (a : Fp12) : Fp12 :=
  let t := FieldOps.inv (a.c0 * a.c0 - (a.c1 * a.c1).mulByV)
  ⟨a.c0 * t, -(a.c1 * t)⟩

instance : FieldOps Fp12 := { inv := inv }

/-- What `w` gains when it is raised to the power `p`. -/
def frobeniusFactor : Fp2 := pow Fp2.nonResidue ((p - 1) / 6)

def frobeniusFactor2 : Fp2 := frobeniusFactor * frobeniusFactor
def frobeniusFactor3 : Fp2 := frobeniusFactor2 * frobeniusFactor
def frobeniusFactor4 : Fp2 := frobeniusFactor3 * frobeniusFactor
def frobeniusFactor5 : Fp2 := frobeniusFactor4 * frobeniusFactor

def frobenius (a : Fp12) : Fp12 :=
  ⟨⟨a.c0.c0.conj, a.c0.c1.conj * frobeniusFactor2, a.c0.c2.conj * frobeniusFactor4⟩,
    ⟨a.c1.c0.conj * frobeniusFactor, a.c1.c1.conj * frobeniusFactor3,
      a.c1.c2.conj * frobeniusFactor5⟩⟩

end Fp12
end VerifiedLedger.Bls
