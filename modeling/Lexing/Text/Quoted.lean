import Lexing.Text.Printable

/-!
# Quoted texts

A text is shown between quotation marks, a single character between
apostrophes, with a backslash before what would end or confuse the quotation.
A character without a visible form is shown by its code point in braces.

The quotation mark is escaped in texts only and the apostrophe in characters
only, since each is harmless inside the other's marks.
-/

namespace Lexing.Text

/-- The digits of a number in a base up to 16, most significant first. -/
def digits (base n : Nat) : List Char := Nat.toDigits base n

/-- A code point in braces: `\u{1a}`. -/
def codePoint (c : Char) : List Char :=
  '\\' :: 'u' :: '\x7b' :: digits 16 c.toNat ++ ['\x7d']

/-- One character of a quotation closed by `mark`. -/
def escapeChar (mark c : Char) : List Char :=
  if c = '\x00' then ['\\', '0']
  else if c = '\t' then ['\\', 't']
  else if c = '\r' then ['\\', 'r']
  else if c = '\n' then ['\\', 'n']
  else if c = '\\' ∨ c = mark then ['\\', c]
  else if isInvisible c then codePoint c
  else [c]

/-- A text in quotation marks. -/
def quote (s : List Char) : List Char :=
  '"' :: s.flatMap (escapeChar '"') ++ ['"']

/-- A text in quotation marks, as a string. -/
def quoted (s : List Char) : String := String.ofList (quote s)

/-- A character in apostrophes, as a string. -/
def quotedChar (c : Char) : String :=
  String.ofList ('\'' :: escapeChar '\'' c ++ ['\''])

/-- How many bytes of UTF-8 a text takes. -/
def byteLength (s : List Char) : Nat := s.foldr (fun c n => c.utf8Size + n) 0

end Lexing.Text
