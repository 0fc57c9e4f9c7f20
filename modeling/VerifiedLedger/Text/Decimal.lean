/-! # Decimal text of 64-bit numbers

Reading takes one optional plus sign and ASCII digits, leading zeros included, and goes from left to
right: the first character that is no digit and the first digit that leaves the range are faults,
and of the two the one further left is reported.
-/
namespace VerifiedLedger.Decimal

inductive Fault where
  | empty
  | badDigit
  | tooLarge
deriving DecidableEq, Repr

def Fault.message : Fault → String
  | .empty => "cannot parse integer from empty string"
  | .badDigit => "invalid digit found in string"
  | .tooLarge => "number too large to fit in target type"

def digitValue (c : Char) : Option Nat :=
  if '0' ≤ c ∧ c ≤ '9' then some (c.toNat - 48) else none

def readDigits : (value : Nat) → List Char → Except Fault Nat
  | value, [] => .ok value
  | value, c :: rest =>
    match digitValue c with
    | none => .error .badDigit
    | some d =>
      if 10 * value + d < UInt64.size then readDigits (10 * value + d) rest else .error .tooLarge

def read : List Char → Except Fault Nat
  | [] => .error .empty
  | '+' :: [] => .error .badDigit
  | '+' :: rest => readDigits 0 rest
  | text => readDigits 0 text

end VerifiedLedger.Decimal
