/-! # JSON values

A value keeps what its text says: members stay in order, repeated names included, and a number that
is not written as a plain natural number keeps its spelling.
-/
namespace VerifiedLedger

/-- The content of a string literal; `none` if an escape in it names half of a surrogate pair. -/
abbrev JsonText := Option String

inductive Json where
  | null
  | bool (value : Bool)
  | nat (value : Nat)
  /-- Any other number, as it is written. -/
  | numeral (spelling : List Char)
  | text (content : JsonText)
  | array (items : List Json)
  | object (members : List (JsonText × Json))

namespace Json

def string (s : String) : Json := .text (some s)

def record (members : List (String × Json)) : Json :=
  .object (members.map fun (name, value) => (some name, value))

def member? (name : String) : Json → Option Json
  | .object members => (members.find? fun (key, _) => key == some name).map (·.2)
  | _ => none

end Json
end VerifiedLedger
