import VerifiedLedger.Format.Hex
/-! # Account addresses

An address is 32 bytes, written like a digest. Its hash is the account's key in the state tree.
-/
namespace VerifiedLedger

structure Address where
  bytes : FixedBytes 32
deriving DecidableEq

namespace Address

def size : Nat := 32

def toList (a : Address) : List UInt8 := a.bytes.toList

theorem toList_inj {a b : Address} : a.toList = b.toList ↔ a = b := by
  constructor
  · intro h
    cases a
    cases b
    exact congrArg Address.mk (FixedBytes.ext h)
  · rintro rfl
    rfl

instance : ByteKey Address := ⟨toList, fun _ _ => toList_inj.1⟩

def zero : Address := ⟨.replicate 32 0⟩

inductive Fault where
  | badHex (fault : Hex.Fault)
  | wrongLength
deriving DecidableEq, Repr

def Fault.message : Fault → String
  | .badHex fault => "Invalid account address hex: " ++ fault.message
  | .wrongLength => "Invalid account address length"

def ofBytes (bytes : List UInt8) : Except Fault Address :=
  match FixedBytes.ofList? bytes with
  | some fixed => .ok ⟨fixed⟩
  | none => .error .wrongLength

def ofHex (text : String) : Except Fault Address :=
  match Hex.decode (Hex.dropPrefix (Utf8.encode text)) with
  | .ok bytes => ofBytes bytes
  | .error fault => .error (.badHex fault)

def toHex (a : Address) : String := Hex.encode a.toList

def describe (a : Address) : String := "AccountAddress(" ++ a.toHex ++ ")"

def hash (a : Address) : Digest := Domain.accountAddress.hash a.toList

def format : Format Address := (Format.fixed 32).map mk bytes

end Address
end VerifiedLedger
