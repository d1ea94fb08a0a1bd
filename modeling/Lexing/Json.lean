/-!
# Data exchange texts

Records and lists in the notation of JSON, in a compact form on one line and
in an indented form with one member a line. Numbers are kept as the text they
are to be written with, so no number loses digits on the way out.
-/

namespace Lexing

/-- A datum to be written. -/
inductive Json where
  | null
  | bool (b : Bool)
  /-- a number, already written -/
  | number (text : List Char)
  | text (s : List Char)
  | array (items : List Json)
  | object (fields : List (String × Json))

namespace Json

/-- A text of any characters. -/
def ofString (s : String) : Json := text s.toList

/-- A natural number. -/
def ofNat (n : Nat) : Json := number (Nat.toDigits 10 n)

/-- The escape of a control character that has none of its own. -/
def unicodeEscape (c : Char) : List Char :=
  let digits := Nat.toDigits 16 c.toNat
  '\\' :: 'u' :: List.replicate (4 - digits.length) '0' ++ digits

/-- One character of a quoted text. Only what the notation forbids is
escaped. -/
def escapeChar (c : Char) : List Char :=
  if c = '"' then ['\\', '"']
  else if c = '\\' then ['\\', '\\']
  else if c = '\n' then ['\\', 'n']
  else if c = '\r' then ['\\', 'r']
  else if c = '\t' then ['\\', 't']
  else if c = '\x08' then ['\\', 'b']
  else if c = '\x0c' then ['\\', 'f']
  else if c.toNat < 0x20 then unicodeEscape c
  else [c]

/-- A quoted text. -/
def quote (s : List Char) : List Char := '"' :: s.flatMap escapeChar ++ ['"']

mutual

/-- The compact form: no blank anywhere. -/
def compact : Json → List Char
  | null => "null".toList
  | bool b => (if b then "true" else "false").toList
  | number t => t
  | text s => quote s
  | array items => '[' :: compactItems items ++ [']']
  | object fields => '\x7b' :: compactFields fields ++ ['\x7d']

/-- The items of a list, separated by commas. -/
def compactItems : List Json → List Char
  | [] => []
  | [x] => compact x
  | x :: y :: rest => compact x ++ ',' :: compactItems (y :: rest)

/-- The members of a record, separated by commas. -/
def compactFields : List (String × Json) → List Char
  | [] => []
  | [(k, x)] => quote k.toList ++ ':' :: compact x
  | (k, x) :: y :: rest =>
    quote k.toList ++ ':' :: compact x ++ ',' :: compactFields (y :: rest)

end

/-- A line break and the blanks of a nesting depth. -/
def newline (depth : Nat) : List Char := '\n' :: List.replicate (2 * depth) ' '

mutual

/-- The indented form: every item and member on a line of its own, two blanks
deeper than what holds it. What holds nothing stays on one line. -/
def pretty (depth : Nat) : Json → List Char
  | null => "null".toList
  | bool b => (if b then "true" else "false").toList
  | number t => t
  | text s => quote s
  | array [] => "[]".toList
  | array (x :: rest) =>
    '[' :: prettyItems (depth + 1) (x :: rest) ++ newline depth ++ [']']
  | object [] => ['\x7b', '\x7d']
  | object (x :: rest) =>
    '\x7b' :: prettyFields (depth + 1) (x :: rest) ++ newline depth ++ ['\x7d']

/-- The items of a list, each on its own line. -/
def prettyItems (depth : Nat) : List Json → List Char
  | [] => []
  | [x] => newline depth ++ pretty depth x
  | x :: y :: rest => newline depth ++ pretty depth x ++ ',' :: prettyItems depth (y :: rest)

/-- The members of a record, each on its own line. -/
def prettyFields (depth : Nat) : List (String × Json) → List Char
  | [] => []
  | [(k, x)] => newline depth ++ quote k.toList ++ ':' :: ' ' :: pretty depth x
  | (k, x) :: y :: rest =>
    newline depth ++ quote k.toList ++ ':' :: ' ' :: pretty depth x
      ++ ',' :: prettyFields depth (y :: rest)

end

end Json

end Lexing
