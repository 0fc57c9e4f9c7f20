/-! # Byte strings of a fixed length

The length is part of the type, so that a digest, an address or a key cannot be too short.
-/
namespace VerifiedLedger

structure FixedBytes (n : Nat) where
  toList : List UInt8
  length_toList : toList.length = n
deriving DecidableEq

namespace FixedBytes

variable {n : Nat}

@[ext] theorem ext {a b : FixedBytes n} (h : a.toList = b.toList) : a = b := by
  cases a
  cases b
  simp_all

def ofList? (bytes : List UInt8) : Option (FixedBytes n) :=
  if h : bytes.length = n then some ⟨bytes, h⟩ else none

def replicate (n : Nat) (b : UInt8) : FixedBytes n := ⟨List.replicate n b, List.length_replicate⟩

/-- The bytes followed by zeros, cut to `n`. -/
def padded (bytes : List UInt8) : FixedBytes n :=
  ⟨(bytes ++ List.replicate n 0).take n, by simp⟩

theorem ofList?_toList (a : FixedBytes n) : ofList? a.toList = some a := by
  simp [ofList?, a.length_toList]

theorem ofList?_eq_some_iff {bytes : List UInt8} {a : FixedBytes n} :
    ofList? bytes = some a ↔ bytes = a.toList := by
  constructor
  · intro h
    unfold ofList? at h
    split at h
    · cases h
      rfl
    · cases h
  · rintro rfl
    exact ofList?_toList a

end FixedBytes
end VerifiedLedger
