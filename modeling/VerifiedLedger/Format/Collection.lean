import VerifiedLedger.Format.Basic
import VerifiedLedger.Bytes.OrderedMap
/-! # Formats of lists, options, pairs and maps

A list and a map announce how many items follow. A map is written in key order; it is read in any
order, and of repeated keys the last entry counts.
-/
namespace VerifiedLedger.Format

variable {α β κ : Type}

def decodeMany (decode : Decoder α) : Nat → Decoder (List α)
  | 0, bytes => .ok ([], bytes)
  | n + 1, bytes => do
    let (a, rest) ← decode bytes
    let (as, rest') ← decodeMany decode n rest
    return (a :: as, rest')

def list (f : Format α) : Format (List α) where
  encode as := encodeLength as.length ++ as.flatMap f.encode
  decode bytes := do
    let (n, rest) ← decodeNat 8 bytes
    decodeMany f.decode n rest
  toJson as := .array <$> as.mapM f.toJson
  ofJson
    | budget + 1, .array items => items.mapM (f.ofJson budget)
    | _, _ => none

def bytes : Format (List UInt8) := list byte

def option (f : Format α) : Format (Option α) where
  encode
    | none => [0]
    | some a => 1 :: f.encode a
  decode
    | [] => .error .unexpectedEnd
    | b :: rest =>
      if b = 0 then .ok (none, rest)
      else if b = 1 then do
        let (a, rest') ← f.decode rest
        return (some a, rest')
      else .error (.badOption b.toNat)
  toJson
    | none => some .null
    | some a => f.toJson a
  ofJson
    | _, .null => some none
    | budget, j => some <$> f.ofJson budget j

/-- Two values in order; in JSON an array of exactly two. -/
def pair (f : Format α) (g : Format β) : Format (α × β) where
  encode ab := f.encode ab.1 ++ g.encode ab.2
  decode bytes := do
    let (a, rest) ← f.decode bytes
    let (b, rest') ← g.decode rest
    return ((a, b), rest')
  toJson ab := do
    let a ← f.toJson ab.1
    let b ← g.toJson ab.2
    return .array [a, b]
  ofJson
    | budget + 1, .array [j, k] => do
      let a ← f.ofJson budget j
      let b ← g.ofJson budget k
      return (a, b)
    | _, _ => none

/-- The JSON member of an entry; only a key that is written as a text has one. -/
def memberOf (key : Format κ) (value : Format β) (e : κ × β) : Option (JsonText × Json) :=
  match key.toJson e.1 with
  | some (.text name) => do
    let v ← value.toJson e.2
    return (name, v)
  | _ => none

def entryOf (key : Format κ) (value : Format β) (budget : Nat) (m : JsonText × Json) :
    Option (κ × β) := do
  let k ← key.ofJson budget (.text m.1)
  let v ← value.ofJson budget m.2
  return (k, v)

def orderedMap [ByteKey κ] (key : Format κ) (value : Format β) : Format (OrderedMap κ β) where
  encode m := (list (pair key value)).encode m.entries
  decode bytes := do
    let (entries, rest) ← (list (pair key value)).decode bytes
    return (.ofList entries, rest)
  toJson m := .object <$> m.entries.mapM (memberOf key value)
  ofJson
    | budget + 1, .object members => .ofList <$> members.mapM (entryOf key value budget)
    | _, _ => none

end VerifiedLedger.Format
