import VerifiedLedger.Hash.Domain
import VerifiedLedger.Json.Basic
/-! # Formats

A format describes a record once and gives it two written forms: canonical bytes, which are hashed
and stored, and a JSON value. Reading bytes hands back what follows the value. Reading JSON takes a
budget of nested arrays and objects; `nestingLimit` is the budget of a whole text.
-/
namespace VerifiedLedger

/-- The first problem met when bytes are decoded. -/
inductive DecodeError where
  | unexpectedEnd
  | textBeyondEnd
  | badText (fault : Utf8.Fault)
  | badOption (tag : Nat)
  | badBool (byte : Nat)
  | badVariant (index count : Nat)
  /-- The bytes are sound but the type refuses their value for the given reason. -/
  | refused (reason : String)
deriving DecidableEq, Repr

def DecodeError.reason : DecodeError → String
  | .unexpectedEnd => "io error: unexpected end of file"
  | .textBeyondEnd => "io error: "
  | .badText fault => "string is not valid utf8: " ++ fault.message
  | .badOption tag => "tag for enum is not valid, found " ++ toString tag
  | .badBool byte => "invalid u8 while decoding bool, expected 0 or 1, found " ++ toString byte
  | .badVariant index count =>
    "invalid value: integer `" ++ toString index ++ "`, expected variant index 0 <= i < " ++
      toString count
  | .refused reason => reason

def DecodeError.message (e : DecodeError) : String := "Canonical codec error: " ++ e.reason

abbrev Decoder (α : Type) := List UInt8 → Except DecodeError (α × List UInt8)

structure Format (α : Type) where
  encode : α → List UInt8
  decode : Decoder α
  /-- `none` for a value without a JSON form. -/
  toJson : α → Option Json
  ofJson : (budget : Nat) → Json → Option α

namespace Format

variable {α β : Type}

/-- How many arrays and objects may be open at once in a JSON text. -/
def nestingLimit : Nat := 127

/-- The value that `bytes` begin with; what follows it is ignored. -/
def ofBytes (f : Format α) (bytes : List UInt8) : Except DecodeError α := (·.1) <$> f.decode bytes

/-- The digest of a record: its canonical bytes, hashed in the domain of its kind. -/
def hash (f : Format α) (d : Domain) (a : α) : Digest := d.hash (f.encode a)

def takeBytes (n : Nat) : Decoder (List UInt8) := fun bytes =>
  let front := bytes.take n
  if front.length = n then .ok (front, bytes.drop n) else .error .unexpectedEnd

def takeFixed (n : Nat) : Decoder (FixedBytes n) := fun bytes =>
  if h : (bytes.take n).length = n then .ok (⟨bytes.take n, h⟩, bytes.drop n)
  else .error .unexpectedEnd

/-- Has no values: what nested formats end with. -/
def refuse : Format α where
  encode _ := []
  decode _ := .error .unexpectedEnd
  toJson _ := none
  ofJson _ _ := none

def byte : Format UInt8 where
  encode b := [b]
  decode
    | [] => .error .unexpectedEnd
    | b :: rest => .ok (b, rest)
  toJson b := some (.nat b.toNat)
  ofJson _
    | .nat n => if n < 256 then some (UInt8.ofNat n) else none
    | _ => none

def decodeNat (width : Nat) : Decoder Nat := fun bytes => do
  let (front, rest) ← takeBytes width bytes
  return (Bytes.ofLittleEndian front, rest)

def word : Format UInt64 where
  encode w := Bytes.littleEndian 8 w.toNat
  decode bytes := do
    let (n, rest) ← decodeNat 8 bytes
    return (UInt64.ofNat n, rest)
  toJson w := some (.nat w.toNat)
  ofJson _
    | .nat n => if n < UInt64.size then some (UInt64.ofNat n) else none
    | _ => none

def bool : Format Bool where
  encode b := [if b then 1 else 0]
  decode
    | [] => .error .unexpectedEnd
    | b :: rest =>
      if b = 0 then .ok (false, rest)
      else if b = 1 then .ok (true, rest)
      else .error (.badBool b.toNat)
  toJson b := some (.bool b)
  ofJson _
    | .bool b => some b
    | _ => none

/-- The eight bytes that stand before a list, a text or a map of `n` items. -/
def encodeLength (n : Nat) : List UInt8 := Bytes.littleEndian 8 n

def text : Format String where
  encode s :=
    let bytes := Utf8.encode s
    encodeLength bytes.length ++ bytes
  decode bytes := do
    let (n, rest) ← decodeNat 8 bytes
    match takeBytes n rest with
    | .error _ => .error .textBeyondEnd
    | .ok (front, after) =>
      match Utf8.decode front with
      | .ok s => return (s, after)
      | .error fault => .error (.badText fault)
  toJson s := some (.string s)
  ofJson _
    | .text (some s) => some s
    | _ => none

def refine (f : Format α) (accept : α → Except String β) (forget : β → α) : Format β where
  encode b := f.encode (forget b)
  decode bytes := do
    let (a, rest) ← f.decode bytes
    match accept a with
    | .ok b => return (b, rest)
    | .error reason => .error (.refused reason)
  toJson b := f.toJson (forget b)
  ofJson budget j := do
    let a ← f.ofJson budget j
    (accept a).toOption

def map (f : Format α) (wrap : α → β) (unwrap : β → α) : Format β where
  encode b := f.encode (unwrap b)
  decode bytes := do
    let (a, rest) ← f.decode bytes
    return (wrap a, rest)
  toJson b := f.toJson (unwrap b)
  ofJson budget j := wrap <$> f.ofJson budget j

/-- A format that is not built before it is used; a format of nested values refers to itself so. -/
def delay (f : Unit → Format α) : Format α where
  encode a := (f ()).encode a
  decode bytes := (f ()).decode bytes
  toJson a := (f ()).toJson a
  ofJson budget j := (f ()).ofJson budget j

end Format
end VerifiedLedger
