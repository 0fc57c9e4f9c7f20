import VerifiedLedger.Bytes.Hex
import VerifiedLedger.Bytes.Utf8
import VerifiedLedger.Bytes.BitPath
/-! # Digests

A digest is 32 bytes. Its text is 64 lower-case hexadecimal digits; read back, either case and one
leading `0x` are taken.
-/
namespace VerifiedLedger

structure Digest where
  bytes : FixedBytes 32
deriving DecidableEq

namespace Digest

def size : Nat := 32

def toList (d : Digest) : List UInt8 := d.bytes.toList

theorem length_toList (d : Digest) : d.toList.length = 32 := d.bytes.length_toList

theorem toList_inj {a b : Digest} : a.toList = b.toList ↔ a = b := by
  constructor
  · intro h
    cases a
    cases b
    exact congrArg Digest.mk (FixedBytes.ext h)
  · rintro rfl
    rfl

def zero : Digest := ⟨.replicate 32 0⟩

inductive Fault where
  | badHex (fault : Hex.Fault)
  | wrongLength (got : Nat)
deriving DecidableEq, Repr

def Fault.message : Fault → String
  | .badHex fault => "Invalid hash hex: " ++ fault.message
  | .wrongLength got => "Invalid hash length: expected 32 bytes, got " ++ toString got

def ofBytes (bytes : List UInt8) : Except Fault Digest :=
  match FixedBytes.ofList? bytes with
  | some fixed => .ok ⟨fixed⟩
  | none => .error (.wrongLength bytes.length)

def ofHex (text : String) : Except Fault Digest :=
  match Hex.decode (Hex.dropPrefix (Utf8.encode text)) with
  | .ok bytes => ofBytes bytes
  | .error fault => .error (.badHex fault)

def toHex (d : Digest) : String := Hex.encode d.toList

def describe (d : Digest) : String := "HashValue(" ++ d.toHex ++ ")"

def describeAll (ds : List Digest) : String := "[" ++ ", ".intercalate (ds.map describe) ++ "]"

/-- The 256 turns that a key takes through a tree. -/
def path (d : Digest) : BitPath := .ofBytes d.toList

def commonPrefixBits (a b : Digest) : Nat := VerifiedLedger.commonPrefixBits a.toList b.toList

/-- Stands for an empty subtree of an accumulator: the ASCII name, filled up with zeros. -/
def accumulatorPlaceholder : Digest := ⟨.padded (Utf8.encode "ACCUMULATOR_PLACEHOLDER_HASH")⟩

def sparsePlaceholder : Digest := ⟨.padded (Utf8.encode "SPARSE_MERKLE_PLACEHOLDER_HASH")⟩

end Digest
end VerifiedLedger
