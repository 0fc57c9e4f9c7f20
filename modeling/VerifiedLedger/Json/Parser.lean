import VerifiedLedger.Json.Basic
/-! # Reading JSON

The strict grammar: no leading zeros, no trailing commas, no control characters inside strings, and
nothing but blanks around the one value. Nesting is not limited here; who turns a value into a
record decides how deep it may be.
-/
namespace VerifiedLedger.Json

def isBlank (c : Char) : Bool := c == ' ' || c == '\n' || c == '\t' || c == '\r'

def skipBlanks (cs : List Char) : List Char := cs.dropWhile isBlank

def isDigit (c : Char) : Bool := '0' ≤ c && c ≤ '9'

def hexValue (c : Char) : Option Nat :=
  if '0' ≤ c ∧ c ≤ '9' then some (c.toNat - 48)
  else if 'a' ≤ c ∧ c ≤ 'f' then some (c.toNat - 87)
  else if 'A' ≤ c ∧ c ≤ 'F' then some (c.toNat - 55)
  else none

/-- A piece of a string literal: a character, or the code unit of a `u` escape. -/
inductive Piece where
  | char (c : Char)
  | unit (code : Nat)

def shortEscape (c : Char) : Option Char :=
  match c with
  | '"' => some '"'
  | '\\' => some '\\'
  | '/' => some '/'
  | 'b' => some '\x08'
  | 'f' => some '\x0c'
  | 'n' => some '\n'
  | 'r' => some '\r'
  | 't' => some '\t'
  | _ => none

/-- The pieces up to the closing quote, and what follows it. -/
def scanString : List Char → Option (List Piece × List Char)
  | [] => none
  | '"' :: rest => some ([], rest)
  | '\\' :: 'u' :: a :: b :: c :: d :: rest => do
    let code := 4096 * (← hexValue a) + 256 * (← hexValue b) + 16 * (← hexValue c) + (← hexValue d)
    let (pieces, after) ← scanString rest
    return (.unit code :: pieces, after)
  | '\\' :: c :: rest => do
    let plain ← shortEscape c
    let (pieces, after) ← scanString rest
    return (.char plain :: pieces, after)
  | c :: rest =>
    if c.toNat < 32 ∨ c = '\\' then none
    else do
      let (pieces, after) ← scanString rest
      return (.char c :: pieces, after)

def isHighSurrogate (code : Nat) : Bool := 0xD800 ≤ code && code < 0xDC00

def isLowSurrogate (code : Nat) : Bool := 0xDC00 ≤ code && code < 0xE000

/-- The characters of the pieces. A high surrogate must be followed by a low one; the two make one
character. -/
def joinPieces : List Piece → Option (List Char)
  | [] => some []
  | .char c :: rest => (c :: ·) <$> joinPieces rest
  | .unit high :: .unit low :: rest =>
    if isHighSurrogate high then
      if isLowSurrogate low then
        (Char.ofNat (0x10000 + 0x400 * (high - 0xD800) + (low - 0xDC00)) :: ·) <$> joinPieces rest
      else none
    else if isLowSurrogate high then none
    else (Char.ofNat high :: ·) <$> joinPieces (.unit low :: rest)
  | .unit code :: rest =>
    if isHighSurrogate code || isLowSurrogate code then none
    else (Char.ofNat code :: ·) <$> joinPieces rest

def parseText (cs : List Char) : Option (JsonText × List Char) := do
  let (pieces, rest) ← scanString cs
  return (String.ofList <$> joinPieces pieces, rest)

def digitsValue (digits : List Char) : Nat :=
  digits.foldl (fun n c => 10 * n + (c.toNat - 48)) 0

def scanInteger : List Char → Option (List Char × List Char)
  | '0' :: rest => some (['0'], rest)
  | cs =>
    match cs.takeWhile isDigit with
    | [] => none
    | digits => some (digits, cs.dropWhile isDigit)

/-- A run of digits that is not empty, behind what has been read of the number. -/
def scanDigits (before cs : List Char) : Option (List Char × List Char) :=
  match cs.takeWhile isDigit with
  | [] => none
  | digits => some (before ++ digits, cs.dropWhile isDigit)

def scanFraction : List Char → Option (List Char × List Char)
  | '.' :: rest => scanDigits ['.'] rest
  | cs => some ([], cs)

def scanExponent : List Char → Option (List Char × List Char)
  | c :: rest =>
    if c = 'e' ∨ c = 'E' then
      match rest with
      | '+' :: digits => scanDigits [c, '+'] digits
      | '-' :: digits => scanDigits [c, '-'] digits
      | digits => scanDigits [c] digits
    else some ([], c :: rest)
  | [] => some ([], [])

def scanMinus : List Char → List Char × List Char
  | '-' :: rest => (['-'], rest)
  | cs => ([], cs)

def parseNumber (cs : List Char) : Option (Json × List Char) := do
  let (minus, unsigned) := scanMinus cs
  let (digits, rest) ← scanInteger unsigned
  let (fraction, rest) ← scanFraction rest
  let (exponent, rest) ← scanExponent rest
  if minus.isEmpty && fraction.isEmpty && exponent.isEmpty then
    return (.nat (digitsValue digits), rest)
  else
    return (.numeral (minus ++ digits ++ fraction ++ exponent), rest)

mutual

/-- A value and what follows it. Each call takes a character or hands on to one that does, so fuel
beyond twice the length of the text is never used up. -/
def parseValue : (fuel : Nat) → List Char → Option (Json × List Char)
  | 0, _ => none
  | fuel + 1, cs =>
    match skipBlanks cs with
    | '\x7b' :: rest =>
      match skipBlanks rest with
      | '\x7d' :: after => some (.object [], after)
      | rest' => do
        let (members, after) ← parseMembers fuel rest'
        return (.object members, after)
    | '[' :: rest =>
      match skipBlanks rest with
      | ']' :: after => some (.array [], after)
      | rest' => do
        let (items, after) ← parseItems fuel rest'
        return (.array items, after)
    | '"' :: rest => do
      let (content, after) ← parseText rest
      return (.text content, after)
    | 'n' :: 'u' :: 'l' :: 'l' :: rest => some (.null, rest)
    | 't' :: 'r' :: 'u' :: 'e' :: rest => some (.bool true, rest)
    | 'f' :: 'a' :: 'l' :: 's' :: 'e' :: rest => some (.bool false, rest)
    | rest => parseNumber rest

def parseItems : (fuel : Nat) → List Char → Option (List Json × List Char)
  | 0, _ => none
  | fuel + 1, cs => do
    let (item, rest) ← parseValue fuel cs
    match skipBlanks rest with
    | ',' :: rest' =>
      let (items, after) ← parseItems fuel rest'
      return (item :: items, after)
    | ']' :: after => return ([item], after)
    | _ => none

def parseMembers : (fuel : Nat) → List Char → Option (List (JsonText × Json) × List Char)
  | 0, _ => none
  | fuel + 1, cs =>
    match skipBlanks cs with
    | '"' :: opened => do
      let (name, rest) ← parseText opened
      match skipBlanks rest with
      | ':' :: rest' =>
        let (value, rest'') ← parseValue fuel rest'
        match skipBlanks rest'' with
        | ',' :: next =>
          let (members, after) ← parseMembers fuel next
          return ((name, value) :: members, after)
        | '\x7d' :: after => return ([(name, value)], after)
        | _ => none
      | _ => none
    | _ => none

end

def parseChars (cs : List Char) : Option Json := do
  let (value, rest) ← parseValue (2 * cs.length + 2) cs
  if (skipBlanks rest).isEmpty then return value else none

def parse (text : String) : Option Json := parseChars text.toList

end VerifiedLedger.Json
