import Lexing.Token.Numeric.Decode

/-!
# Writing a value as a literal

Every integer and every finite floating-point number has a literal that reads
as a value of its kind. Integers carry the suffix of their width. A
floating-point number is written with an exponent, since without one a large
number would overflow the digits of its whole part; zero is written with a
fraction instead, because `0e0` would read as an integer.
-/

namespace Lexing.Numeric

/-- The suffix of an integer kind; none for the other kinds. -/
def suffix : ValueKind → List Char
  | .i8 => ['s']
  | .u8 => ['s', 'u']
  | .i16 => ['i']
  | .u16 => ['i', 'u']
  | .i32 => ['l']
  | .u32 => ['l', 'u']
  | .i64 => ['l', 'l']
  | .u64 => ['l', 'l', 'u']
  | .f32 => ['f']
  | .f64 => ['d']

/-- The digits of a floating-point number, with the configured fraction
character; none for what is not finite. -/
def floatBody? (config : NumericConfig) (format : Number.BinaryFormat) (x : Number.Decoded) :
    Option (List Char) :=
  if !x.isFinite then none
  else
    let body :=
      if x.isZero then (if x.isNegative then ['-'] else []) ++ ['0', '.', '0']
      else x.render format .scientific
    some (body.map fun c => if c = '.' then config.fraction else c)

/-- **The literal of a value**; infinities and what is no number have none. -/
def written (config : NumericConfig) (v : Value) : Option (List Char) :=
  let body := match v with
    | .f32 x => floatBody? config .single (Number.decodeSingle x)
    | .f64 x => floatBody? config .double (Number.decodeDouble x)
    | v => v.toInt?.map Number.integerDigits
  body.map (· ++ suffix v.kind)

end Lexing.Numeric
