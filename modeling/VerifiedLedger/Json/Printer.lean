import VerifiedLedger.Json.Basic
import VerifiedLedger.Bytes.Hex
/-! # Writing JSON

One printer serves two layouts. `compact` writes no blanks; `pretty` puts every item on a line of
its own, indented by two spaces a level, and a blank after each colon. A string escapes the quote,
the backslash and the control characters below `U+0020`, and nothing else.
-/
namespace VerifiedLedger.Json

inductive Layout where
  | compact
  | pretty
deriving DecidableEq, Repr

def Layout.lineBreak : Layout → (depth : Nat) → List Char
  | .compact, _ => []
  | .pretty, depth => '\n' :: List.replicate (2 * depth) ' '

def Layout.colon : Layout → List Char
  | .compact => [':']
  | .pretty => [':', ' ']

def escapeChar (c : Char) : List Char :=
  if c = '"' then ['\\', '"']
  else if c = '\\' then ['\\', '\\']
  else if c = '\n' then ['\\', 'n']
  else if c = '\t' then ['\\', 't']
  else if c = '\r' then ['\\', 'r']
  else if c.toNat = 8 then ['\\', 'b']
  else if c.toNat = 12 then ['\\', 'f']
  else if c.toNat < 32 then
    ['\\', 'u', '0', '0', Hex.digit (c.toNat / 16), Hex.digit (c.toNat % 16)]
  else [c]

/-- Text that lost half of a surrogate pair is written as one such half. -/
def renderText : JsonText → List Char
  | some s => '"' :: s.toList.flatMap escapeChar ++ ['"']
  | none => ['"', '\\', 'u', 'd', '8', '0', '0', '"']

variable (layout : Layout)

mutual

def renderChars (depth : Nat) : Json → List Char
  | .null => ['n', 'u', 'l', 'l']
  | .bool true => ['t', 'r', 'u', 'e']
  | .bool false => ['f', 'a', 'l', 's', 'e']
  | .nat n => Nat.toDigits 10 n
  | .numeral spelling => spelling
  | .text content => renderText content
  | .array [] => ['[', ']']
  | .array (item :: items) =>
    '[' :: layout.lineBreak (depth + 1) ++ renderChars (depth + 1) item ++
      renderItems (depth + 1) items ++ layout.lineBreak depth ++ [']']
  | .object [] => ['\x7b', '\x7d']
  | .object ((name, value) :: members) =>
    '\x7b' :: layout.lineBreak (depth + 1) ++ renderText name ++ layout.colon ++
      renderChars (depth + 1) value ++ renderMembers (depth + 1) members ++
      layout.lineBreak depth ++ ['\x7d']

def renderItems (depth : Nat) : List Json → List Char
  | [] => []
  | item :: items =>
    ',' :: layout.lineBreak depth ++ renderChars depth item ++ renderItems depth items

def renderMembers (depth : Nat) : List (JsonText × Json) → List Char
  | [] => []
  | (name, value) :: members =>
    ',' :: layout.lineBreak depth ++ renderText name ++ layout.colon ++
      renderChars depth value ++ renderMembers depth members

end

def render (value : Json) : String := String.ofList (renderChars layout 0 value)

end VerifiedLedger.Json
