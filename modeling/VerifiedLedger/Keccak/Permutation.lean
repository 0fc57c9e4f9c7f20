/-! # The Keccak permutation

The state is five planes of five 64-bit lanes. A round mixes the column parities into every lane,
rotates the lanes, moves them between the planes, combines neighbours in a plane and adds a round
constant; `permute` makes 24 rounds.
-/
namespace VerifiedLedger.Keccak

structure Plane where
  l0 : UInt64
  l1 : UInt64
  l2 : UInt64
  l3 : UInt64
  l4 : UInt64
deriving DecidableEq

structure State where
  p0 : Plane
  p1 : Plane
  p2 : Plane
  p3 : Plane
  p4 : Plane
deriving DecidableEq

/-- A shift by 64 is a shift by zero, so `n` may be zero too. -/
def rotateLeft (w n : UInt64) : UInt64 := w <<< n ||| w >>> (64 - n)

namespace Plane

def zero : Plane := ⟨0, 0, 0, 0, 0⟩

def xor (a b : Plane) : Plane :=
  ⟨a.l0 ^^^ b.l0, a.l1 ^^^ b.l1, a.l2 ^^^ b.l2, a.l3 ^^^ b.l3, a.l4 ^^^ b.l4⟩

def rotate (a r : Plane) : Plane :=
  ⟨rotateLeft a.l0 r.l0, rotateLeft a.l1 r.l1, rotateLeft a.l2 r.l2, rotateLeft a.l3 r.l3,
    rotateLeft a.l4 r.l4⟩

/-- What the column parities add to each lane: the parity to its left and, rotated by one, the
parity to its right. -/
def spread (c : Plane) : Plane :=
  ⟨c.l4 ^^^ rotateLeft c.l1 1, c.l0 ^^^ rotateLeft c.l2 1, c.l1 ^^^ rotateLeft c.l3 1,
    c.l2 ^^^ rotateLeft c.l4 1, c.l3 ^^^ rotateLeft c.l0 1⟩

/-- Each lane, changed where the next lane is zero and the one after it is one. -/
def combine (a : Plane) : Plane :=
  ⟨a.l0 ^^^ (~~~a.l1 &&& a.l2), a.l1 ^^^ (~~~a.l2 &&& a.l3), a.l2 ^^^ (~~~a.l3 &&& a.l4),
    a.l3 ^^^ (~~~a.l4 &&& a.l0), a.l4 ^^^ (~~~a.l0 &&& a.l1)⟩

end Plane

namespace State

def zero : State := ⟨.zero, .zero, .zero, .zero, .zero⟩

def xor (a b : State) : State :=
  ⟨a.p0.xor b.p0, a.p1.xor b.p1, a.p2.xor b.p2, a.p3.xor b.p3, a.p4.xor b.p4⟩

def parity (s : State) : Plane := s.p0.xor (s.p1.xor (s.p2.xor (s.p3.xor s.p4)))

def mixColumns (s : State) : State :=
  let d := s.parity.spread
  ⟨s.p0.xor d, s.p1.xor d, s.p2.xor d, s.p3.xor d, s.p4.xor d⟩

def rotateLanes (s : State) : State :=
  ⟨s.p0.rotate ⟨0, 1, 62, 28, 27⟩, s.p1.rotate ⟨36, 44, 6, 55, 20⟩, s.p2.rotate ⟨3, 10, 43, 25, 39⟩,
    s.p3.rotate ⟨41, 45, 15, 21, 8⟩, s.p4.rotate ⟨18, 2, 61, 56, 14⟩⟩

/-- Plane `y` of the result takes at `x` the lane `x + 3 * y` of plane `x`. -/
def moveLanes (s : State) : State :=
  ⟨⟨s.p0.l0, s.p1.l1, s.p2.l2, s.p3.l3, s.p4.l4⟩, ⟨s.p0.l3, s.p1.l4, s.p2.l0, s.p3.l1, s.p4.l2⟩,
    ⟨s.p0.l1, s.p1.l2, s.p2.l3, s.p3.l4, s.p4.l0⟩, ⟨s.p0.l4, s.p1.l0, s.p2.l1, s.p3.l2, s.p4.l3⟩,
    ⟨s.p0.l2, s.p1.l3, s.p2.l4, s.p3.l0, s.p4.l1⟩⟩

def combinePlanes (s : State) : State :=
  ⟨s.p0.combine, s.p1.combine, s.p2.combine, s.p3.combine, s.p4.combine⟩

def addConstant (s : State) (c : UInt64) : State :=
  { s with p0 := { s.p0 with l0 := s.p0.l0 ^^^ c } }

def round (s : State) (c : UInt64) : State :=
  s.mixColumns.rotateLanes.moveLanes.combinePlanes.addConstant c

end State

def roundConstants : List UInt64 :=
  [0x0000000000000001, 0x0000000000008082, 0x800000000000808A, 0x8000000080008000,
    0x000000000000808B, 0x0000000080000001, 0x8000000080008081, 0x8000000000008009,
    0x000000000000008A, 0x0000000000000088, 0x0000000080008009, 0x000000008000000A,
    0x000000008000808B, 0x800000000000008B, 0x8000000000008089, 0x8000000000008003,
    0x8000000000008002, 0x8000000000000080, 0x000000000000800A, 0x800000008000000A,
    0x8000000080008081, 0x8000000000008080, 0x0000000080000001, 0x8000000080008008]

def permute (s : State) : State := roundConstants.foldl State.round s

end VerifiedLedger.Keccak
