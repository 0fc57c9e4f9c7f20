import VerifiedLedger.Keccak.Permutation
import VerifiedLedger.Bytes.Fixed
/-! # SHA3-256

`sha3` hashes a whole message: it pads it to blocks of 136 bytes, absorbs them and reads off 32
bytes. A `Sponge` hashes a message that comes in pieces. `absorb_absorb` and `finish_start_absorb`
say that the cuts between the pieces do not matter.
-/
namespace VerifiedLedger.Keccak

/-- The bytes that one permutation absorbs. -/
def rate : Nat := 136

def lane (bytes : List UInt8) : UInt64 := bytes.foldr (fun b w => w <<< 8 ||| b.toUInt64) 0

def laneBytes (w : UInt64) : List UInt8 :=
  [w.toUInt8, (w >>> 8).toUInt8, (w >>> 16).toUInt8, (w >>> 24).toUInt8, (w >>> 32).toUInt8,
    (w >>> 40).toUInt8, (w >>> 48).toUInt8, (w >>> 56).toUInt8]

/-- The five lanes that begin at byte `40 * i` of a block; bytes beyond its end count as zero. -/
def planeOf (block : List UInt8) (i : Nat) : Plane :=
  let part := block.drop (40 * i)
  ⟨lane (part.take 8), lane ((part.drop 8).take 8), lane ((part.drop 16).take 8),
    lane ((part.drop 24).take 8), lane ((part.drop 32).take 8)⟩

def stateOf (block : List UInt8) : State :=
  ⟨planeOf block 0, planeOf block 1, planeOf block 2, planeOf block 3, planeOf block 4⟩

def absorbBlock (s : State) (block : List UInt8) : State := permute (s.xor (stateOf block))

/-- Absorbs every full block and hands back the bytes that are left. -/
def absorbBlocks (s : State) (bytes : List UInt8) : State × List UInt8 :=
  if bytes.length < rate then (s, bytes)
  else absorbBlocks (absorbBlock s (bytes.take rate)) (bytes.drop rate)
termination_by bytes.length
decreasing_by
  simp only [List.length_drop]
  have : rate = 136 := rfl
  omega

/-- What a message of that length needs to end with a full block. -/
def padding (length : Nat) : List UInt8 :=
  match rate - 1 - length % rate with
  | 0 => [0x86]
  | gap + 1 => 0x06 :: (List.replicate gap 0 ++ [0x80])

def squeeze (s : State) : FixedBytes 32 :=
  ⟨laneBytes s.p0.l0 ++ laneBytes s.p0.l1 ++ laneBytes s.p0.l2 ++ laneBytes s.p0.l3, rfl⟩

def sha3 (message : List UInt8) : FixedBytes 32 :=
  squeeze (absorbBlocks .zero (message ++ padding message.length)).1

/-- A hash in progress: what has been absorbed, and the bytes that wait for a full block. -/
structure Sponge where
  state : State
  pending : List UInt8
deriving DecidableEq

namespace Sponge

def start : Sponge := ⟨.zero, []⟩

def absorb (s : Sponge) (bytes : List UInt8) : Sponge :=
  let (state, pending) := absorbBlocks s.state (s.pending ++ bytes)
  ⟨state, pending⟩

def finish (s : Sponge) : FixedBytes 32 :=
  squeeze (absorbBlocks s.state (s.pending ++ padding s.pending.length)).1

end Sponge

theorem absorbBlocks_of_le (s : State) (bytes : List UInt8) (h : rate ≤ bytes.length) :
    absorbBlocks s bytes = absorbBlocks (absorbBlock s (bytes.take rate)) (bytes.drop rate) := by
  rw [absorbBlocks, if_neg (Nat.not_lt.2 h)]

/-- What is left over may be put in front of later bytes. -/
theorem absorbBlocks_append (s : State) (a b : List UInt8) :
    absorbBlocks s (a ++ b) =
      absorbBlocks (absorbBlocks s a).1 ((absorbBlocks s a).2 ++ b) := by
  fun_induction absorbBlocks s a with
  | case1 => rfl
  | case2 s a h ih =>
    have hle : rate ≤ a.length := Nat.not_lt.1 h
    rw [absorbBlocks_of_le s (a ++ b) (by simp; omega), List.take_append_of_le_length hle,
      List.drop_append_of_le_length hle, ih]

theorem length_absorbBlocks (s : State) (bytes : List UInt8) :
    (absorbBlocks s bytes).2.length = bytes.length % rate := by
  fun_induction absorbBlocks s bytes with
  | case1 s bytes h => exact (Nat.mod_eq_of_lt h).symm
  | case2 s bytes h ih =>
    have hle : rate ≤ bytes.length := Nat.not_lt.1 h
    rw [ih, List.length_drop, Nat.mod_eq_sub_mod hle]

theorem padding_mod (length : Nat) : padding (length % rate) = padding length := by
  simp [padding]

namespace Sponge

theorem absorb_absorb (s : Sponge) (a b : List UInt8) :
    (s.absorb a).absorb b = s.absorb (a ++ b) := by
  simp only [absorb]
  rw [← List.append_assoc, absorbBlocks_append s.state (s.pending ++ a) b]

theorem finish_start_absorb (message : List UInt8) :
    (start.absorb message).finish = sha3 message := by
  simp only [absorb, start, List.nil_append, finish, sha3]
  rw [absorbBlocks_append .zero message, length_absorbBlocks, padding_mod]

end Sponge
end VerifiedLedger.Keccak
