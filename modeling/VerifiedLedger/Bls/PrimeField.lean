/-! # The prime field

Numbers modulo the 381-bit prime `p`, and the operations that every field of the pairing tower
shares. As `p` leaves three when divided by four, a power gives the square root.
-/
namespace VerifiedLedger.Bls

def p : Nat :=
  0x1a0111ea397fe69a4b1ba7b6434bacd764774b84f38512bf6730d2a0f6b0f6241eabfffeb153ffffb9feffffffffaaab

/-- The operations that curve arithmetic needs of a field. -/
class FieldOps (F : Type) extends Add F, Sub F, Mul F, Neg F, Zero F, One F where
  inv : F → F

section

variable {F : Type} [FieldOps F]

@[specialize] def pow (a : F) (n : Nat) : F :=
  if n = 0 then 1
  else
    let half := pow a (n / 2)
    if n % 2 = 1 then half * half * a else half * half
termination_by n

@[inline] def double (a : F) : F := a + a

@[inline] def square (a : F) : F := a * a

end

/-- A residue; every operation keeps `val` below `p`. -/
structure Fp where
  val : Nat
deriving DecidableEq

namespace Fp

def ofNat (n : Nat) : Fp := ⟨n % p⟩

def add (a b : Fp) : Fp :=
  let s := a.val + b.val
  if s < p then ⟨s⟩ else ⟨s - p⟩

def sub (a b : Fp) : Fp := if b.val ≤ a.val then ⟨a.val - b.val⟩ else ⟨a.val + p - b.val⟩

def mul (a b : Fp) : Fp := ⟨a.val * b.val % p⟩

def neg (a : Fp) : Fp := if a.val = 0 then a else ⟨p - a.val⟩

instance : Add Fp := ⟨add⟩
instance : Sub Fp := ⟨sub⟩
instance : Mul Fp := ⟨mul⟩
instance : Neg Fp := ⟨neg⟩
instance : Zero Fp := ⟨⟨0⟩⟩
instance : One Fp := ⟨⟨1⟩⟩

def powNat (a : Nat) (n : Nat) : Nat :=
  if n = 0 then 1
  else
    let half := powNat a (n / 2)
    if n % 2 = 1 then half * half % p * a % p else half * half % p
termination_by n

instance : FieldOps Fp where
  inv a := ⟨powNat a.val (p - 2)⟩

def sqrt? (a : Fp) : Option Fp :=
  let root : Fp := ⟨powNat a.val ((p + 1) / 4)⟩
  if root * root = a then some root else none

def isLarge (a : Fp) : Bool := p < 2 * a.val

end Fp
end VerifiedLedger.Bls
