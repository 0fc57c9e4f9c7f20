import VerifiedLedger.Bls.Curve
/-! # The pairing

A product of pairings of points of the curve with points of the twist, as far as it takes to tell
whether it is one. Each line of a Miller loop is scaled by a factor in `Fp2`, which the final power
removes; the sign of the loop count is dropped, because a product is one exactly if its conjugate
is.
-/
namespace VerifiedLedger.Bls

namespace Pairing

def lowerBits (n : Nat) : List Bool := ((List.range n.log2).map n.testBit).reverse

/-- A line through points of the twist, evaluated at a point of the curve. -/
def line (c : Fp2) (cv cvw : Fp2) : Fp12 := ⟨⟨c, cv, 0⟩, ⟨0, cvw, 0⟩⟩

def doubleStep (q : Affine Fp) (t : Point Fp2) : Point Fp2 × Fp12 :=
  let next := t.double
  let xx := t.x * t.x
  let zz := t.z * t.z
  let slope := xx + xx + xx
  let constant := slope * t.x - double (t.y * t.y)
  (next, line constant (-(slope * zz).scale q.x) ((next.z * zz).scale q.y))

def addStep (q : Affine Fp) (r : Affine Fp2) (t : Point Fp2) : Point Fp2 × Fp12 :=
  let zz := t.z * t.z
  let h := r.x * zz - t.x
  let d := r.y * zz * t.z - t.y
  let hh := h * h
  let hhh := hh * h
  let v := t.x * hh
  let x := d * d - hhh - v - v
  let next : Point Fp2 := ⟨x, d * (v - x) - t.y * hhh, t.z * h⟩
  (next, line (d * r.x - next.z * r.y) (-d.scale q.x) (next.z.scale q.y))

/-- A pair of points and the multiple of the second that the loop has reached. -/
structure Track where
  q : Affine Fp
  r : Affine Fp2
  t : Point Fp2

def advance (step : Track → Point Fp2 × Fp12) : Fp12 → List Track → Fp12 × List Track
  | f, [] => (f, [])
  | f, track :: tracks =>
    let (t, l) := step track
    let (f', tracks') := advance step (f * l) tracks
    (f', { track with t := t } :: tracks')

def loopStep (state : Fp12 × List Track) (bit : Bool) : Fp12 × List Track :=
  let doubled := advance (fun k => doubleStep k.q k.t) (square state.1) state.2
  if bit then advance (fun k => addStep k.q k.r k.t) doubled.1 doubled.2 else doubled

def millerLoop (pairs : List (Affine Fp × Affine Fp2)) : Fp12 :=
  let tracks := pairs.map fun (q, r) => Track.mk q r (.ofAffine r)
  ((lowerBits parameter).foldl loopStep (1, tracks)).1

/-- The power with the parameter as exponent, in the subgroup where a conjugate is an inverse. The
parameter is negative. -/
def powParameter (f : Fp12) : Fp12 := (pow f parameter).conj

/-- Three times the exponent that takes a value to the subgroup of order `order`. With the parameter
`x` the hard part is `(x - 1)² * (x + p) * (x² + p² - 1) + 3`. -/
def finalPower (f : Fp12) : Fp12 :=
  let easy := f.conj * FieldOps.inv f
  let g := easy.frobenius.frobenius * easy
  let h := powParameter g * g.conj
  let k := powParameter h * h.conj
  let m := powParameter k * k.frobenius
  let n := powParameter (powParameter m) * m.frobenius.frobenius * m.conj
  n * (g * g * g)

def productIsOne (pairs : List (Affine Fp × Affine Fp2)) : Bool :=
  finalPower (millerLoop pairs) = 1

end Pairing
end VerifiedLedger.Bls
