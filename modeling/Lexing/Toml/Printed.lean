import Lexing.Number.Layout
import Lexing.Text.Quoted
import Lexing.Toml.Value

/-!
# Writing parts of a TOML document

A text is written between quotation marks, unless it holds a quotation mark or
a backslash and can stand between apostrophes as it is. A text with a line end
is written over several lines. What fits none of these is escaped.
-/

namespace Lexing.Toml

/-- Whether a character must be escaped in every notation: a control character
other than tab and line feed. -/
def needsEscape (c : Char) : Bool :=
  (c.toNat < 0x20 && c != '\t' && c != '\n') || c.toNat == 0x7f

/-- The longest run of a character in a text. -/
def longestRun (c : Char) (s : List Char) : Nat :=
  (s.foldl (fun (longest, run) d =>
    if d = c then (max longest (run + 1), run + 1) else (longest, 0)) (0, 0)).1

/-- A code point in four hexadecimal digits. -/
def fourDigits (c : Char) : List Char :=
  let digits := (Nat.toDigits 16 c.toNat).map Char.toUpper
  List.replicate (4 - digits.length) '0' ++ digits

/-- One character between quotation marks. -/
def printChar (lines : Bool) (c : Char) : List Char :=
  if c = '\x08' then ['\\', 'b']
  else if c = '\t' then ['\\', 't']
  else if c = '\n' then (if lines then ['\n'] else ['\\', 'n'])
  else if c = '\x0c' then ['\\', 'f']
  else if c = '\r' then ['\\', 'r']
  else if c = '"' then ['\\', '"']
  else if c = '\\' then ['\\', '\\']
  else if needsEscape c then '\\' :: 'u' :: fourDigits c
  else [c]

/-- A text between quotation marks. -/
def printBasic (s : List Char) : List Char := '"' :: s.flatMap (printChar false) ++ ['"']

/-- A text over several lines. -/
def printLines (s : List Char) : List Char :=
  ['"', '"', '"', '\n'] ++ s.flatMap (printChar true) ++ ['"', '"', '"']

/-- A text over several lines with single quotation marks left as they are. -/
def printOpenLines (s : List Char) : List Char :=
  ['"', '"', '"', '\n']
    ++ s.flatMap (fun c => if c = '"' then [c] else printChar true c) ++ ['"', '"', '"']

/-- A text over several lines between apostrophes. -/
def printLiteralLines (s : List Char) : List Char :=
  ['\'', '\'', '\'', '\n'] ++ s ++ ['\'', '\'', '\'']

/-- A text between apostrophes. -/
def printLiteral (s : List Char) : List Char := '\'' :: s ++ ['\'']

/-- **The written form of a text.** -/
def printText (s : List Char) : List Char :=
  let control := s.any needsEscape
  let backslash := s.contains '\\'
  let lines := s.contains '\n'
  if !control && !backslash && !s.contains '"' && !lines then printBasic s
  else if !control && !s.contains '\'' && !lines then printLiteral s
  else if !control && !backslash && longestRun '"' s ≤ 2 then printOpenLines s
  else if !control && longestRun '\'' s ≤ 2 then printLiteralLines s
  else if lines then printLines s
  else printBasic s

/-- A list of texts: none or one on the line, several on a line each. -/
def printTexts : List (List Char) → List Char
  | [] => ['[', ']']
  | [s] => '[' :: printText s ++ [']']
  | texts =>
    '[' :: '\n' :: texts.flatMap (fun s => "    ".toList ++ printText s ++ [',', '\n']) ++ [']']

/-- A line that gives a name a value. -/
def printLine (name : String) (v : List Char) : List Char :=
  name.toList ++ " = ".toList ++ v ++ ['\n']

/-- A truth value. -/
def printBool (b : Bool) : List Char := (if b then "true" else "false").toList

/-- A natural number. -/
def printNat (n : Nat) : List Char := Number.decimalDigits n

end Lexing.Toml
