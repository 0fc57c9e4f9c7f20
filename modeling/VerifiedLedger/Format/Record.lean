import VerifiedLedger.Format.Basic
/-! # Formats of records

The fields of a record, in order. Its bytes are those of the fields one after another. In JSON it is
an object with the fields' names, or an array of the fields; an object may hold other names too, but
none of the fields twice.
-/
namespace VerifiedLedger

structure FieldRule (α : Type) where
  absent : Option α
  /-- Whether an array may end before the field, which then has its absent value. -/
  trailing : Bool
  /-- The values that are not written at all. -/
  skips : α → Bool

namespace FieldRule

variable {α : Type}

def required : FieldRule α := ⟨none, false, fun _ => false⟩

/-- An object may leave the field out; it is always written. -/
def optional : FieldRule (Option α) := ⟨some none, false, fun _ => false⟩

/-- An object or an array may leave the field out; it is always written. -/
def withDefault (a : α) : FieldRule α := ⟨some a, true, fun _ => false⟩

/-- The field may be left out, and is if it has no value. -/
def sparse : FieldRule (Option α) := ⟨some none, true, Option.isNone⟩

end FieldRule

/-- A sequence of fields, with the tuple of their values. -/
structure Fields (α : Type) where
  encode : α → List UInt8
  decode : Decoder α
  toMembers : α → Option (List (String × Json))
  ofMembers : (budget : Nat) → List (JsonText × Json) → Option α
  ofItems : (budget : Nat) → List Json → Option α

namespace Fields

variable {α β σ : Type}

def encodeField (rule : FieldRule α) (f : Format α) (a : α) : List UInt8 :=
  if rule.skips a then [] else f.encode a

def fieldMembers (name : String) (rule : FieldRule α) (f : Format α) (a : α) :
    Option (List (String × Json)) :=
  if rule.skips a then some []
  else do
    let j ← f.toJson a
    return [(name, j)]

/-- The value of the one member with that name. -/
def fieldOfMembers (name : String) (rule : FieldRule α) (f : Format α) (budget : Nat)
    (members : List (JsonText × Json)) : Option α :=
  match members.filter fun m => m.1 == some name with
  | [] => rule.absent
  | [m] => f.ofJson budget m.2
  | _ => none

def trailingValue (rule : FieldRule α) : Option α := if rule.trailing then rule.absent else none

def last (name : String) (rule : FieldRule α) (f : Format α) : Fields α where
  encode := encodeField rule f
  decode := f.decode
  toMembers := fieldMembers name rule f
  ofMembers := fieldOfMembers name rule f
  ofItems budget
    | [] => trailingValue rule
    | [j] => f.ofJson budget j
    | _ => none

def field (name : String) (rule : FieldRule α) (f : Format α) (rest : Fields β) :
    Fields (α × β) where
  encode ab := encodeField rule f ab.1 ++ rest.encode ab.2
  decode bytes := do
    let (a, tail) ← f.decode bytes
    let (b, after) ← rest.decode tail
    return ((a, b), after)
  toMembers ab := do
    let own ← fieldMembers name rule f ab.1
    let others ← rest.toMembers ab.2
    return own ++ others
  ofMembers budget members := do
    let a ← fieldOfMembers name rule f budget members
    let b ← rest.ofMembers budget members
    return (a, b)
  ofItems budget
    | [] => do
      let a ← trailingValue rule
      let b ← rest.ofItems budget []
      return (a, b)
    | j :: items => do
      let a ← f.ofJson budget j
      let b ← rest.ofItems budget items
      return (a, b)

def record (fields : Fields α) (split : σ → α) (join : α → σ) : Format σ where
  encode s := fields.encode (split s)
  decode bytes := do
    let (a, rest) ← fields.decode bytes
    return (join a, rest)
  toJson s := Json.record <$> fields.toMembers (split s)
  ofJson
    | budget + 1, .object members =>
      if members.any fun m => m.1.isNone then none else join <$> fields.ofMembers budget members
    | budget + 1, .array items => join <$> fields.ofItems budget items
    | _, _ => none

end Fields
end VerifiedLedger
