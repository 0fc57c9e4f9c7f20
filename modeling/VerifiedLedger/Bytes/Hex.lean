import VerifiedLedger.Bytes.Fixed
/-! # Hexadecimal text

Two digits a byte. Writing gives lower-case digits; reading takes either case. Reading works on
the bytes of the text, so that a fault names the offset of a byte.
-/
namespace VerifiedLedger.Hex

def digitChars : List Char :=
  ['0', '1', '2', '3', '4', '5', '6', '7', '8', '9', 'a', 'b', 'c', 'd', 'e', 'f']

def digit (n : Nat) : Char := digitChars.getD n '0'

def encodeChars : List UInt8 → List Char
  | [] => []
  | b :: bs => digit (b.toNat / 16) :: digit (b.toNat % 16) :: encodeChars bs

def encode (bytes : List UInt8) : String := String.ofList (encodeChars bytes)

/-- The value of a digit of either case, given as an ASCII byte. -/
def digitValue (b : UInt8) : Option Nat :=
  let n := b.toNat
  if 48 ≤ n ∧ n ≤ 57 then some (n - 48)
  else if 97 ≤ n ∧ n ≤ 102 then some (n - 87)
  else if 65 ≤ n ∧ n ≤ 70 then some (n - 55)
  else none

inductive Fault where
  | oddLength
  | badCharacter (byte : UInt8) (position : Nat)
deriving DecidableEq, Repr

def decodePairs : (position : Nat) → List UInt8 → Except Fault (List UInt8)
  | position, a :: b :: rest =>
    match digitValue a, digitValue b with
    | none, _ => .error (.badCharacter a position)
    | some _, none => .error (.badCharacter b (position + 1))
    | some high, some low => do
      let bytes ← decodePairs (position + 2) rest
      return UInt8.ofNat (16 * high + low) :: bytes
  | _, _ => .ok []

/-- The bytes that `digits` spells. An odd count of digits is found before a bad digit. -/
def decode (digits : List UInt8) : Except Fault (List UInt8) :=
  if digits.length % 2 = 1 then .error .oddLength else decodePairs 0 digits

/-- The bytes after one leading `0x`, if there is one. -/
def dropPrefix : List UInt8 → List UInt8
  | 48 :: 120 :: rest => rest
  | bytes => bytes

/-- A number below 256 in lower-case digits, without a leading zero. -/
def short (n : Nat) : List Char :=
  if n < 16 then [digit n] else [digit (n / 16), digit (n % 16)]

/-- A byte shown as the character with that code, in single quotes and with escapes. -/
def quoteByte (b : UInt8) : List Char :=
  let n := b.toNat
  let body :=
    if n = 0 then ['\\', '0']
    else if n = 9 then ['\\', 't']
    else if n = 10 then ['\\', 'n']
    else if n = 13 then ['\\', 'r']
    else if n = 39 then ['\\', '\x27']
    else if n = 92 then ['\\', '\\']
    else if n < 32 ∨ (127 ≤ n ∧ n ≤ 160) ∨ n = 173 then
      ['\\', 'u', '\x7b'] ++ short n ++ ['\x7d']
    else [Char.ofNat n]
  ['\x27'] ++ body ++ ['\x27']

def Fault.message : Fault → String
  | .oddLength => "Odd number of digits"
  | .badCharacter b position =>
    "Invalid character " ++ String.ofList (quoteByte b) ++ " at position " ++ toString position

end VerifiedLedger.Hex
