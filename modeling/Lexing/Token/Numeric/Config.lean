import Lexing.Text.Quoted

/-!
# How numeric literals are written

Two characters of the literal grammar can be chosen: the one that separates
digits for the reader's eye, and the one between whole and fraction. They must
be ASCII, must differ, and must have no other meaning in a literal.
-/

namespace Lexing

/-- A width of floating-point numbers. -/
inductive FloatWidth where
  | f32
  | f64
  deriving DecidableEq

namespace FloatWidth

/-- The written name of a width. -/
def name : FloatWidth → String
  | f32 => "f32"
  | f64 => "f64"

/-- The width with a given name. -/
def ofName? (s : String) : Option FloatWidth := [f32, f64].find? (·.name == s)

end FloatWidth

/-- The two characters that can be chosen. -/
inductive SeparatorRole where
  | digit
  | fraction
  deriving DecidableEq

namespace SeparatorRole

/-- What messages call a chosen character. -/
def name : SeparatorRole → String
  | digit => "digit separator"
  | fraction => "fraction separator"

end SeparatorRole

/-- What can be wrong with the chosen characters. -/
inductive SeparatorError where
  /-- a character is not ASCII, so no token would ever see it -/
  | nonAscii (role : SeparatorRole) (c : Char)
  /-- a character already has a meaning in literals -/
  | taken (role : SeparatorRole) (c : Char)
  /-- the two characters are the same -/
  | same (c : Char)
  deriving DecidableEq

namespace SeparatorError

/-- The message of an error. -/
def message : SeparatorError → String
  | nonAscii role c => s!"Numeric {role.name} {Text.quotedChar c} is not ASCII"
  | taken role c =>
    s!"Numeric {role.name} {Text.quotedChar c} collides with the literal grammar"
  | same c => s!"Digit separator and fraction separator are both {Text.quotedChar c}"

end SeparatorError

/-- How numeric literals are written. -/
structure NumericConfig where
  /-- may stand among digits and means nothing -/
  separator : Char := '\''
  /-- stands between the whole and its fraction -/
  fraction : Char := '.'
  /-- the width of a floating-point literal that names none -/
  defaultFloat : FloatWidth := .f32
  deriving DecidableEq

namespace NumericConfig

/-- The characters to which every literal grammar gives a meaning. -/
def takenChars : List Char := "0123456789abcdefABCDEFxXlLiIsSuU+-".toList

/-- Check one of the chosen characters. -/
def checkChar (role : SeparatorRole) (c : Char) : Except SeparatorError Unit :=
  if 0x80 ≤ c.toNat then .error (.nonAscii role c)
  else if c ∈ takenChars then .error (.taken role c)
  else .ok ()

/-- **Check the chosen characters**, the digit separator first. -/
def validate (config : NumericConfig) : Except SeparatorError Unit := do
  checkChar .digit config.separator
  checkChar .fraction config.fraction
  if config.separator = config.fraction then .error (.same config.separator)

end NumericConfig

end Lexing
