import VerifiedLedger.Bls.Extension
/-! # Curve points

Points of a curve `y² = x³ + b` in Jacobian coordinates: `(x, y, z)` stands for
`(x / z², y / z³)`, and every triple with `z = 0` for the point at infinity. None of the formulas
needs `b`, so that one type serves the curve over `Fp` and its twist over `Fp2`.
-/
namespace VerifiedLedger.Bls

structure Affine (F : Type) where
  x : F
  y : F
deriving DecidableEq

structure Point (F : Type) where
  x : F
  y : F
  z : F
deriving DecidableEq

namespace Point

variable {F : Type} [FieldOps F] [DecidableEq F]

def infinity : Point F := ⟨1, 1, 0⟩

def isInfinity (q : Point F) : Bool := q.z = 0

def ofAffine (a : Affine F) : Point F := ⟨a.x, a.y, 1⟩

@[specialize] def double (q : Point F) : Point F :=
  let a := q.x * q.x
  let b := q.y * q.y
  let c := b * b
  let d := Bls.double (square (q.x + b) - a - c)
  let e := a + a + a
  let x := e * e - d - d
  ⟨x, e * (d - x) - Bls.double (Bls.double (Bls.double c)), Bls.double (q.y * q.z)⟩

@[specialize] def add (q r : Point F) : Point F :=
  if q.z = 0 then r
  else if r.z = 0 then q
  else
    let qzz := q.z * q.z
    let rzz := r.z * r.z
    let u := q.x * rzz
    let s := q.y * r.z * rzz
    let h := r.x * qzz - u
    let d := r.y * q.z * qzz - s
    if h = 0 then if d = 0 then q.double else infinity
    else
      let hh := h * h
      let hhh := hh * h
      let v := u * hh
      let x := d * d - hhh - v - v
      ⟨x, d * (v - x) - s * hhh, q.z * r.z * h⟩

@[specialize] def scale (n : Nat) (q : Point F) : Point F :=
  if n = 0 then infinity
  else
    let twice := (scale (n / 2) q).double
    if n % 2 = 1 then twice.add q else twice
termination_by n

def toAffine (q : Point F) : Affine F :=
  let i := FieldOps.inv q.z
  let ii := i * i
  ⟨q.x * ii, q.y * (ii * i)⟩

end Point

/-- The negative of the number in which the sizes of the fields and groups are polynomials. -/
def parameter : Nat := 0xd201000000010000

def order : Nat :=
  let square := parameter * parameter
  square * square - square + 1

def generatorX : Nat :=
  0x17f1d3a73197d7942695638c4fa9ac0fc3688c4f9774b905a14e3a3f171bac586c55e83ff97a1aeffb3af00adb22c6bb

def generatorY : Nat :=
  0x08b3f481e3aaa0f1a09e30ed741d8ae4fcf5e095d5d00af600db18cb2c04b3edd03cc744a2888ae40caa232946c5e7e1

def generator : Affine Fp := ⟨⟨generatorX⟩, ⟨generatorY⟩⟩

def inSubgroup {F : Type} [FieldOps F] [DecidableEq F] (a : Affine F) : Bool :=
  ((Point.ofAffine a).scale order).isInfinity

end VerifiedLedger.Bls
