import VerifiedLedger.Proofs.Checks
/-! # Numbers in words

Counts, versions and powers are kept in words of a fixed width. On words an operation also fails if
a value on its way is no word; where none is, it answers as on numbers.
-/
namespace VerifiedLedger
variable {ε α β : Type}

inductive WordFault (ε : Type) where
  /-- A value was no word. -/
  | overflow
  | refused (error : ε)
deriving DecidableEq

namespace Word

/-- The answer of an operation on numbers, with its result in words. -/
def answer (words : α → β) : Except ε α → Except (WordFault ε) β
  | .ok a => .ok (words a)
  | .error e => .error (.refused e)

def exact (value : ℕ) : Except (WordFault ε) UInt64 :=
  if value < UInt64.size then .ok (UInt64.ofNat value) else .error .overflow

def add (a b : UInt64) : Except (WordFault ε) UInt64 := exact (a.toNat + b.toNat)

def sub (a b : UInt64) : Except (WordFault ε) UInt64 :=
  if b ≤ a then exact (a.toNat - b.toNat) else .error .overflow

def shiftLeft (a : UInt64) (bits : ℕ) : Except (WordFault ε) UInt64 := exact (a.toNat <<< bits)

theorem exact_of_lt {value : ℕ} (h : value < UInt64.size) :
    exact value = (.ok (UInt64.ofNat value) : Except (WordFault ε) UInt64) := if_pos h

end Word
end VerifiedLedger
