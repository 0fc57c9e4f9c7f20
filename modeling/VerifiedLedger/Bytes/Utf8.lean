/-! # UTF-8

Reading follows the table of well-formed byte sequences: no overlong form, no surrogate and
nothing above `U+10FFFF`. A fault says where the sound text ends and how many bytes are known to be
wrong, or that the bytes end inside a character.
-/
namespace VerifiedLedger.Utf8

def encodeChar (c : Char) : List UInt8 :=
  let n := c.toNat
  if n < 0x80 then [UInt8.ofNat n]
  else if n < 0x800 then [UInt8.ofNat (0xC0 + n / 64), UInt8.ofNat (0x80 + n % 64)]
  else if n < 0x10000 then
    [UInt8.ofNat (0xE0 + n / 4096), UInt8.ofNat (0x80 + n / 64 % 64), UInt8.ofNat (0x80 + n % 64)]
  else
    [UInt8.ofNat (0xF0 + n / 262144), UInt8.ofNat (0x80 + n / 4096 % 64),
      UInt8.ofNat (0x80 + n / 64 % 64), UInt8.ofNat (0x80 + n % 64)]

def encodeChars (cs : List Char) : List UInt8 := cs.flatMap encodeChar

def encode (s : String) : List UInt8 := encodeChars s.toList

inductive Fault where
  /-- The `length` bytes from `index` on begin no character. -/
  | invalid (length index : Nat)
  /-- The bytes end inside the character that begins at `index`. -/
  | incomplete (index : Nat)
deriving DecidableEq, Repr

def Fault.message : Fault → String
  | .invalid length index =>
    "invalid utf-8 sequence of " ++ toString length ++ " bytes from index " ++ toString index
  | .incomplete index => "incomplete utf-8 byte sequence from index " ++ toString index

/-- How many bytes follow a first byte, and the range of the first of them. -/
def tailShape (first : Nat) : Option (Nat × Nat × Nat) :=
  if first < 0x80 then some (0, 0, 0)
  else if 0xC2 ≤ first ∧ first ≤ 0xDF then some (1, 0x80, 0xBF)
  else if first = 0xE0 then some (2, 0xA0, 0xBF)
  else if first = 0xED then some (2, 0x80, 0x9F)
  else if 0xE1 ≤ first ∧ first ≤ 0xEF then some (2, 0x80, 0xBF)
  else if first = 0xF0 then some (3, 0x90, 0xBF)
  else if 0xF1 ≤ first ∧ first ≤ 0xF3 then some (3, 0x80, 0xBF)
  else if first = 0xF4 then some (3, 0x80, 0x8F)
  else none

/-- The first byte's share of the code point when `following` bytes come after it. -/
def leadBits (first following : Nat) : Nat :=
  match following with
  | 0 => first
  | 1 => first - 0xC0
  | 2 => first - 0xE0
  | _ => first - 0xF0

/-- Reads `count` following bytes, the next of which lies between `low` and `high` and the later
ones anywhere among the continuation bytes. `seen` bytes of the character are already known good. -/
def decodeTail (index : Nat) :
    (count seen low high code : Nat) → List UInt8 → Except Fault (Nat × List UInt8)
  | 0, _, _, _, code, rest => .ok (code, rest)
  | _ + 1, _, _, _, _, [] => .error (.incomplete index)
  | count + 1, seen, low, high, code, b :: rest =>
    if low ≤ b.toNat ∧ b.toNat ≤ high then
      decodeTail index count (seen + 1) 0x80 0xBF (64 * code + (b.toNat - 0x80)) rest
    else .error (.invalid seen index)

def decodeFirst (index : Nat) (first : UInt8) (rest : List UInt8) :
    Except Fault (Nat × List UInt8) :=
  match tailShape first.toNat with
  | none => .error (.invalid 1 index)
  | some (following, low, high) =>
    decodeTail index following 1 low high (leadBits first.toNat following) rest

/-- Every character read takes at least one byte, so `fuel` need not exceed the number of bytes. -/
def decodeFrom : (fuel index : Nat) → List UInt8 → Except Fault (List Char)
  | _, _, [] => .ok []
  | 0, index, _ :: _ => .error (.incomplete index)
  | fuel + 1, index, first :: rest => do
    let (code, rest') ← decodeFirst index first rest
    let cs ← decodeFrom fuel (index + 1 + rest.length - rest'.length) rest'
    return Char.ofNat code :: cs

def decodeChars (bytes : List UInt8) : Except Fault (List Char) := decodeFrom bytes.length 0 bytes

def decode (bytes : List UInt8) : Except Fault String := String.ofList <$> decodeChars bytes

end VerifiedLedger.Utf8
