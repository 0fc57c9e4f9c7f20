import VerifiedLedger.Bytes.LittleEndian
/-! # Bit paths

A string of bits read from the most significant one. A path leads from the root of a tree to a leaf:
`bits` lists its turns from the root down and `bitsRev` from the leaf up, each with its position in
that order.
-/
namespace VerifiedLedger

structure BitPath where
  toList : List Bool
deriving DecidableEq, Repr

def byteBits (b : UInt8) : List Bool := (List.range 8).map fun i => b.toNat.testBit (7 - i)

namespace BitPath

def ofBytes (bytes : List UInt8) : BitPath := ⟨bytes.flatMap byteBits⟩

def ofIndex (index : UInt64) : BitPath := ofBytes (Bytes.bigEndian 8 index.toNat)

def capacity (p : BitPath) : Nat := p.toList.length

def bits (p : BitPath) : List (Nat × Bool) := p.toList.zipIdx.map fun (b, i) => (i, b)

def bitsRev (p : BitPath) : List (Nat × Bool) := p.toList.reverse.zipIdx.map fun (b, i) => (i, b)

def get? (p : BitPath) (i : Nat) : Option Bool := p.toList[i]?

def ones (p : BitPath) : Nat := p.toList.count true

/-- The length of the leading run of zeros; the capacity if no bit is set. -/
def leadingZeros (p : BitPath) : Nat := (p.toList.takeWhile (· == false)).length

/-- The length of the trailing run of zeros; the capacity if no bit is set. -/
def trailingZeros (p : BitPath) : Nat := (p.toList.reverse.takeWhile (· == false)).length

end BitPath

/-- The zero bits above the highest one bit of a byte. -/
def byteLeadingZeros (b : UInt8) : Nat := if b = 0 then 8 else 7 - b.toNat.log2

/-- How many leading bits two byte strings share. The first unequal pair of bytes decides. -/
def commonPrefixBits : List UInt8 → List UInt8 → Nat
  | a :: as, b :: bs =>
    if a = b then 8 + commonPrefixBits as bs else byteLeadingZeros (a ^^^ b)
  | _, _ => 0

end VerifiedLedger
