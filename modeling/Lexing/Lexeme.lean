import Lexing.Fault
import Lexing.Source.Span
import Lexing.Value

/-!
# Lexemes

A lexeme is a finished piece of a source. It is recognized if a token made it;
its text is then one that the token holds valid, and its value is what the
token decodes it to. Otherwise it is a piece that no token wanted.

Offsets count code units. The text is what tokens saw, so it holds a
substitute for each character outside ASCII.
-/

namespace Lexing

/-- Which token made a lexeme. Two tokens may have the same name; the number
tells them apart. -/
structure TokenTag where
  id : Nat
  name : String
  deriving DecidableEq

/-- A finished piece of a source. -/
structure Lexeme where
  /-- the offset of the first unit -/
  start : Nat
  /-- the offset behind the last unit -/
  stop : Nat
  /-- the line on which the lexeme starts -/
  line : Nat
  /-- the distance of the start from the start of its line -/
  lineOffset : Nat
  /-- the characters as tokens saw them -/
  text : List Char
  /-- the decoded value -/
  value : Option Value := none
  /-- the token that made the lexeme -/
  token : Option TokenTag := none

namespace Lexeme

/-- Whether a token made the lexeme. -/
def isRecognized (l : Lexeme) : Bool := l.token.isSome

/-- Whether a given token made the lexeme. -/
def isFrom (l : Lexeme) (id : Nat) : Bool := l.token.any (·.id == id)

/-- The name of the token that made the lexeme. -/
def tokenName (l : Lexeme) : Option String := l.token.map (·.name)

/-- The number of units covered. -/
def size (l : Lexeme) : Nat := l.stop - l.start

/-- Whether the lexeme covers nothing. -/
def isEmpty (l : Lexeme) : Bool := l.start == l.stop

/-- The span, with a column that counts from 1. -/
def span (l : Lexeme) : Span := .atLineOffset l.start l.stop l.line l.lineOffset

/-- Equality: the same token, place and text, and equal values. -/
instance : BEq Lexeme where
  beq a b :=
    a.token.map (·.id) == b.token.map (·.id)
      && a.start == b.start && a.stop == b.stop
      && a.line == b.line && a.lineOffset == b.lineOffset
      && a.text == b.text && a.value == b.value

/-- The value and its kind behind an equals sign, if there is a value. -/
def renderValue (l : Lexeme) : String :=
  match l.value with
  | some v => s!" = {String.ofList v.render} ({v.kind.name})"
  | none => ""

/-- One line for a reader: token, text, place and value. -/
def render (l : Lexeme) : String :=
  let name := l.tokenName.getD "<unrecognized>"
  s!"{name} {Text.quoted l.text} @ {l.span.render}" ++ l.renderValue

/-- A value that may be missing, in full detail. -/
def renderOption (x : Option (List Char)) : String :=
  match x with
  | some x => s!"Some({String.ofList x})"
  | none => "None"

/-- Every field with its name. -/
def renderDetailed (l : Lexeme) : String :=
  let name := renderOption (l.tokenName.map fun n => Text.quote n.toList)
  let value := renderOption (l.value.map Value.renderDetailed)
  "Lexeme \x7b " ++ s!"token: {name}, range: {l.start}..{l.stop}, line: {l.line}, "
    ++ s!"line_offset: {l.lineOffset}, text: {Text.quoted l.text}, value: {value}" ++ " \x7d"

/-- The lexeme as a record. The column counts from 1. -/
def toJson (l : Lexeme) : Json :=
  .object
    [("token", (l.tokenName.map Json.ofString).getD .null),
     ("start", .ofNat l.start),
     ("end", .ofNat l.stop),
     ("line", .ofNat l.line),
     ("column", .ofNat (l.lineOffset + 1)),
     ("text", .text l.text),
     ("value", (l.value.map Value.toJson).getD .null)]

end Lexeme

end Lexing
