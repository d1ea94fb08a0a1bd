import Lexing.Charset.Category
import Lexing.Token.Machine
import Lexing.Token.Numeric.Config

/-!
# The grammar of numeric literals

Integers in base 2, 8, 10 and 16 and decimal numbers with fraction and
exponent, with suffixes for the type:

* `0b101`, `0x1F`, `017`: binary, hexadecimal, and octal after a bare zero;
* `1.5`, `.5`, `1.`: a fraction makes a floating-point number;
* `2e3`, `2e-3`: an exponent, and a negative one makes a floating-point number;
* `s`, `i`, `l`, `ll`: integers of 8, 16, 32 and 64 bits, and `u` before or
  after these for one without sign;
* `f`, `d`: floating-point numbers of 32 and 64 bits.

A literal is read by a state table. The state says which kind of character
came last; what the characters add up to is remembered beside it.
-/

namespace Lexing.Numeric

/-- The kind of the character read last. -/
inductive Stage where
  /-- nothing has been read -/
  | start
  /-- a single zero -/
  | leadZero
  /-- the first digit, other than zero -/
  | leadDigit
  /-- the letter of a base, behind a zero -/
  | baseSpecifier
  /-- a digit of the base, or a separator -/
  | digit
  /-- the sign of the literal or of its exponent -/
  | sign
  /-- the fraction character -/
  | fraction
  /-- the letter of the exponent -/
  | exponent
  /-- the suffix for a number without sign -/
  | signSpecifier
  /-- the suffix for an integer width -/
  | widthSpecifier
  /-- the second letter of the suffix for 64 bits -/
  | longSpecifier
  /-- the suffix for a floating-point width -/
  | floatSpecifier
  deriving DecidableEq

namespace Stage

/-- Every stage, in the order of the table. -/
def all : List Stage :=
  [start, leadZero, leadDigit, baseSpecifier, digit, sign, fraction, exponent,
   signSpecifier, widthSpecifier, longSpecifier, floatSpecifier]

/-- The name of a stage. -/
def name : Stage → String
  | start => "Begin"
  | leadZero => "LeadZero"
  | leadDigit => "LeadDigit"
  | baseSpecifier => "BaseSpecifier"
  | digit => "Digit"
  | sign => "Sign"
  | fraction => "Fraction"
  | exponent => "Exponent"
  | signSpecifier => "SignSpecifier"
  | widthSpecifier => "IprecSpecifier"
  | longSpecifier => "LlprecSpecifier"
  | floatSpecifier => "FprecSpecifier"

/-- The stages that may follow, preferred ones first. -/
def targets : Stage → List Stage
  | start => [leadZero, leadDigit, sign, fraction]
  | leadZero =>
    [baseSpecifier, digit, fraction, exponent, signSpecifier, widthSpecifier, floatSpecifier]
  | leadDigit => [digit, fraction, exponent, signSpecifier, widthSpecifier, floatSpecifier]
  | baseSpecifier => [digit]
  | digit => [digit, exponent, fraction, floatSpecifier, signSpecifier, widthSpecifier]
  | sign => [leadZero, leadDigit, fraction, digit]
  | fraction => [digit, exponent, floatSpecifier]
  | exponent => [sign, digit]
  | signSpecifier => [widthSpecifier]
  | widthSpecifier => [longSpecifier, signSpecifier]
  | longSpecifier => [signSpecifier]
  | floatSpecifier => []

end Stage

/-- The base of the digits being read. -/
inductive Base where
  | binary
  | octal
  | decimal
  | hex
  deriving DecidableEq

namespace Base

/-- The number of digits of a base. -/
def radix : Base → Nat
  | binary => 2
  | octal => 8
  | decimal => 10
  | hex => 16

/-- The name of a base. -/
def name : Base → String
  | binary => "Binary"
  | octal => "Octal"
  | decimal => "Decimal"
  | hex => "Hex"

end Base

/-- The part of a literal to which the next digit belongs. -/
inductive Part where
  | integral
  | fraction
  | exponent
  deriving DecidableEq

namespace Part

/-- The name of a part. -/
def name : Part → String
  | integral => "Integral"
  | fraction => "Fraction"
  | exponent => "Exponent"

end Part

/-- A sign that has been written, or none. -/
inductive Sign where
  | unwritten
  | positive
  | negative
  deriving DecidableEq

namespace Sign

/-- The name of a sign. -/
def name : Sign → String
  | unwritten => "Unknown"
  | positive => "Positive"
  | negative => "Negative"

end Sign

/-- The type that suffixes and the form of a literal have settled so far. -/
inductive NumberType where
  /-- an integer, of a width to be inferred -/
  | unknown
  /-- a floating-point number of the usual width -/
  | unknownFloat
  | byte
  | short
  | int
  | long
  | float
  | double
  deriving DecidableEq

namespace NumberType

/-- The name of a type. -/
def name : NumberType → String
  | unknown => "Unknown"
  | unknownFloat => "UnknownFloat"
  | byte => "Byte"
  | short => "Short"
  | int => "Int"
  | long => "Long"
  | float => "Float"
  | double => "Double"

/-- Whether a type is one of integers. -/
def isIntegral : NumberType → Bool
  | unknown | byte | short | int | long => true
  | unknownFloat | float | double => false

end NumberType

/-- What is remembered of the characters read. The numbers behind the three
parts are 64-bit words and wrap around, except for the fraction, where a digit
that would not fit is dropped. -/
structure Progress where
  stage : Stage := .start
  valid : Bool := false
  base : Base := .decimal
  part : Part := .integral
  integral : Int64 := 0
  fraction : Int64 := 0
  exponent : Int64 := 0
  /-- how many digits of the fraction have been taken -/
  fractionDigits : Nat := 0
  sign : Sign := .unwritten
  exponentSign : Sign := .unwritten
  unsigned : Bool := false
  type : NumberType := .unknown
  deriving DecidableEq

/-- Whether an edge of the table is open. An edge that is not mentioned is
always open. -/
def allows (source target : Stage) (s : Progress) : Bool :=
  let decimal := s.base == .decimal
  match source, target with
  | .digit, .digit => true
  | .digit, .exponent => s.valid && decimal && s.part != .exponent
  | .digit, .fraction => s.valid && decimal && s.part == .integral
  | .digit, .floatSpecifier => s.valid && decimal
  | .digit, .signSpecifier | .digit, .widthSpecifier => s.valid && s.type == .unknown
  | .sign, .digit => s.part == .exponent
  | .sign, _ => s.part == .integral
  | .fraction, .exponent => s.valid && s.part != .exponent
  | .fraction, .floatSpecifier => s.valid
  | .signSpecifier, .widthSpecifier => s.type == .unknown
  | .widthSpecifier, .longSpecifier => s.type == .int
  | .widthSpecifier, .signSpecifier | .longSpecifier, .signSpecifier => !s.unsigned
  | _, _ => true

/-- The characters that enter a stage. -/
def entryChars (config : NumericConfig) (target : Stage) (s : Progress) : List Char :=
  match target with
  | .start => []
  | .leadZero => ['0']
  | .leadDigit => ['1', '2', '3', '4', '5', '6', '7', '8', '9']
  | .baseSpecifier => ['B', 'X', 'b', 'x']
  | .digit => baseDigits s.base.radix ++ [config.separator]
  | .sign => ['+', '-']
  | .fraction => [config.fraction]
  | .exponent => ['E', 'e']
  | .signSpecifier => ['U', 'u']
  | .widthSpecifier => ['I', 'L', 'S', 'i', 'l', 's']
  | .longSpecifier => ['L', 'l']
  | .floatSpecifier => ['D', 'F', 'd', 'f']

/-- Whether a character enters a stage. -/
def canEnter (config : NumericConfig) (target : Stage) (s : Progress) (c : Char) : Bool :=
  match target with
  | .start => false
  | .leadZero => c == '0'
  | .leadDigit => '1' ≤ c && c ≤ '9'
  | .baseSpecifier => c ∈ ['b', 'B', 'x', 'X']
  | .digit => c == config.separator || isDigitIn s.base.radix c
  | .sign => c ∈ ['+', '-']
  | .fraction => c == config.fraction
  | .exponent => c ∈ ['e', 'E']
  | .signSpecifier => c ∈ ['u', 'U']
  | .widthSpecifier => c ∈ ['i', 'I', 'l', 'L', 's', 'S']
  | .longSpecifier => c ∈ ['l', 'L']
  | .floatSpecifier => c ∈ ['f', 'F', 'd', 'D']

/-- The value of a hexadecimal digit, and 0 for any other character. -/
def digitValue (c : Char) : Nat := (digitIn? 16 c).getD 0

/-- Add a digit to a number in a base, wrapping around. -/
def appendDigit (n : Int64) (radix digit : Nat) : Int64 :=
  n * Int64.ofNat radix + Int64.ofNat digit

/-- Add a digit to a number in a base, unless the result is too large. -/
def appendDigit? (n : Int64) (radix digit : Nat) : Option Int64 :=
  let next := n.toInt * radix + digit
  if next ≤ Int64.maxValue.toInt then some (Int64.ofInt next) else none

/-- Take a digit into the part it belongs to. A digit of the fraction that does
not fit is dropped: it could not change the nearest 64-bit number. -/
def takeDigit (s : Progress) (digit : Nat) : Progress :=
  let radix := s.base.radix
  match s.part with
  | .integral => { s with integral := appendDigit s.integral radix digit }
  | .exponent => { s with exponent := appendDigit s.exponent radix digit }
  | .fraction =>
    match appendDigit? s.fraction radix digit with
    | some next => { s with fraction := next, fractionDigits := s.fractionDigits + 1 }
    | none => s

/-- Take a sign. A negative exponent makes a floating-point number. -/
def takeSign (s : Progress) (sign : Sign) : Progress :=
  match s.part with
  | .exponent =>
    { s with
      exponentSign := sign
      type := if sign = .negative then .unknownFloat else s.type }
  | _ => { s with sign := sign }

/-- What a character changes on entering a stage. -/
def onEnter (config : NumericConfig) (target : Stage) (s : Progress) (c : Char) : Progress :=
  match target with
  | .start => s
  | .leadZero => { s with valid := true, base := .octal }
  | .leadDigit => { s with valid := true, integral := Int64.ofNat (digitValue c) }
  | .baseSpecifier =>
    { s with valid := false, base := if c.toLower = 'b' then .binary else .hex }
  | .digit =>
    if c = config.separator then s
    else takeDigit { s with valid := true } (digitValue c)
  | .sign => takeSign s (if c = '-' then .negative else .positive)
  | .fraction => { s with type := .unknownFloat, base := .decimal, part := .fraction }
  | .exponent => { s with valid := false, part := .exponent }
  | .signSpecifier => { s with unsigned := true }
  | .widthSpecifier =>
    { s with type :=
        if c.toLower = 's' then .byte else if c.toLower = 'i' then .short else .int }
  | .longSpecifier => { s with type := .long }
  | .floatSpecifier => { s with type := if c.toLower = 'd' then .double else .float }

namespace Progress

/-- Every remembered fact with its name. -/
def renderDetailed (s : Progress) : String :=
  "NumericState \x7b "
    ++ s!"at: {s.stage.name}, valid: {s.valid}, base: {s.base.name}, part: {s.part.name}, "
    ++ s!"parts: [{s.integral}, {s.fraction}, {s.exponent}], "
    ++ s!"fraction_digits: {s.fractionDigits}, sign: {s.sign.name}, "
    ++ s!"exp_sign: {s.exponentSign.name}, unsigned: {s.unsigned}, ty: {s.type.name}"
    ++ " \x7d"

end Progress

end Lexing.Numeric
