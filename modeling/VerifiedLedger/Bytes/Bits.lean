/-! # Bits of a number

Counts over the binary digits of a number. In a tree of `n` leaves each one bit is a full subtree
and the trailing bits say what the next leaf completes.
-/
namespace VerifiedLedger.Bits

def ones (n : Nat) : Nat := if n = 0 then 0 else n % 2 + ones (n / 2)
termination_by n

/-- The number of one bits below the lowest zero bit. -/
def trailingOnes (n : Nat) : Nat := if n % 2 = 1 then 1 + trailingOnes (n / 2) else 0
termination_by n

/-- The number of zero bits below the lowest one bit; zero for zero. -/
def trailingZeros (n : Nat) : Nat :=
  if n = 0 ∨ n % 2 = 1 then 0 else 1 + trailingZeros (n / 2)
termination_by n

end VerifiedLedger.Bits
