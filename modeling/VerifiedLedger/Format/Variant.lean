import VerifiedLedger.Format.Basic
/-! # Formats of alternatives

The variants of a sum, in order. The bytes begin with the variant's index. In JSON a variant without
data is its name, and one with data an object whose one member has its name.
-/
namespace VerifiedLedger

/-- A sequence of variants, with the sum of their data. Indices count from the first variant of the
whole type. -/
structure Variants (α : Type) where
  count : Nat
  encode : (index : Nat) → α → List UInt8
  /-- The decoder of the data of the variant that many places further. -/
  decodeAt : (place : Nat) → Option (Decoder α)
  toJson : α → Option Json
  /-- Reads the variant of that name; `none` stands for a name without data. -/
  ofName : (budget : Nat) → (name : String) → Option Json → Option α

namespace Variants

variable {α β σ : Type}

def encodeIndex (index : Nat) : List UInt8 := Bytes.littleEndian 4 index

def dataJson (name : String) (f : Format α) (a : α) : Option Json := do
  let j ← f.toJson a
  return .record [(name, j)]

def last (name : String) (f : Format α) : Variants α where
  count := 1
  encode index a := encodeIndex index ++ f.encode a
  decodeAt
    | 0 => some f.decode
    | _ => none
  toJson := dataJson name f
  ofName budget key payload := if key = name then payload.bind (f.ofJson budget) else none

def lastBare (name : String) : Variants Unit where
  count := 1
  encode index _ := encodeIndex index
  decodeAt
    | 0 => some fun bytes => .ok ((), bytes)
    | _ => none
  toJson _ := some (.string name)
  ofName _ key payload :=
    if key = name then
      match payload with
      | none => some ()
      | some .null => some ()
      | _ => none
    else none

def orElse (first : Variants α) (rest : Variants β) : Variants (α ⊕ β) where
  count := first.count + rest.count
  encode index
    | .inl a => first.encode index a
    | .inr b => rest.encode (index + first.count) b
  decodeAt place :=
    if place < first.count then
      (first.decodeAt place).map fun decode bytes => do
        let (a, after) ← decode bytes
        return (.inl a, after)
    else
      (rest.decodeAt (place - first.count)).map fun decode bytes => do
        let (b, after) ← decode bytes
        return (.inr b, after)
  toJson
    | .inl a => first.toJson a
    | .inr b => rest.toJson b
  ofName budget key payload :=
    match first.ofName budget key payload with
    | some a => some (.inl a)
    | none => .inr <$> rest.ofName budget key payload

def data (name : String) (f : Format α) (rest : Variants β) : Variants (α ⊕ β) :=
  (last name f).orElse rest

def bare (name : String) (rest : Variants β) : Variants (Unit ⊕ β) := (lastBare name).orElse rest

/-- The type with these variants; `split` and `join` go over to the sum of their data and back. -/
def format (variants : Variants α) (split : σ → α) (join : α → σ) : Format σ where
  encode s := variants.encode 0 (split s)
  decode bytes := do
    let (index, rest) ← Format.decodeNat 4 bytes
    match variants.decodeAt index with
    | none => .error (.badVariant index variants.count)
    | some decode =>
      let (a, after) ← decode rest
      return (join a, after)
  toJson s := variants.toJson (split s)
  ofJson
    | budget, .text (some name) => join <$> variants.ofName budget name none
    | budget + 1, .object [(some name, payload)] =>
      join <$> variants.ofName budget name (some payload)
    | _, _ => none

end Variants
end VerifiedLedger
