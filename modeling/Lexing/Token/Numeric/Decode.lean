import Lexing.Token.Numeric.Grammar

/-!
# What a numeric literal stands for

Integers are computed modulo `2^64` and cut down to their width, so a literal
that is too large for its type wraps around. An integer without a suffix takes
the narrowest of 8, 16 and 32 bits that holds its magnitude.

A floating-point literal is computed in 64-bit arithmetic as whole plus
fraction, scaled by its exponent, and then rounded to its width.
-/

namespace Lexing.Numeric

/-- A power of ten modulo `2^64`. From the exponent 64 on it is a multiple of
`2^64`; a negative exponent counts as one that is too large. -/
def powerOfTen (e : Int64) : Int64 :=
  if 0 ≤ e.toInt ∧ e.toInt < 64 then Int64.ofNat (Nat.pow 10 e.toInt.toNat) else 0

/-- The narrowest integer type for a magnitude, never the 64-bit one. -/
def inferWidth (magnitude : Int64) (unsigned : Bool) : NumberType :=
  let byteMax : Int64 := if unsigned then 255 else 127
  let shortMax : Int64 := if unsigned then 65535 else 32767
  if shortMax < magnitude then .int
  else if byteMax < magnitude then .short
  else .byte

/-- A 64-bit word cut down to the width of a type. -/
def cutDown (type : NumberType) (unsigned : Bool) (v : Int64) : Value :=
  match type, unsigned with
  | .byte, false => .i8 v.toInt8
  | .byte, true => .u8 v.toUInt64.toUInt8
  | .short, false => .i16 v.toInt16
  | .short, true => .u16 v.toUInt64.toUInt16
  | .int, false => .i32 v.toInt32
  | .int, true => .u32 v.toUInt64.toUInt32
  | _, false => .i64 v
  | _, true => .u64 v.toUInt64

/-- The magnitude of an integer literal. -/
def magnitude (s : Progress) : Int64 :=
  if s.part = .exponent then s.integral * powerOfTen s.exponent else s.integral

/-- **The value of an integer literal.** -/
def decodeInteger (s : Progress) : Value :=
  let v := magnitude s
  let type := if s.type = .unknown then inferWidth v s.unsigned else s.type
  cutDown type s.unsigned (if s.sign = .negative then -v else v)

/-- A power by repeated squaring: `result · base^n`, each product rounded. -/
def floatPowerFrom (result base : Float) (n : Nat) : Float :=
  let result := if n % 2 = 1 then result * base else result
  if n / 2 = 0 then result else floatPowerFrom result (base * base) (n / 2)
termination_by n
decreasing_by omega

/-- A power with a natural exponent, by repeated squaring. -/
def floatPower (base : Float) (n : Nat) : Float := floatPowerFrom 1.0 base n

/-- Whole and fraction of a floating-point literal. -/
def mantissa (s : Progress) : Float :=
  let whole := Number.doubleOfInt s.integral.toInt
  if 0 < s.fractionDigits then
    whole + Number.doubleOfInt s.fraction.toInt / floatPower 10.0 s.fractionDigits
  else whole

/-- A mantissa scaled by the exponent. The power of ten has a positive
exponent in either case, and a division stands for the negative one. -/
def scaled (s : Progress) (v : Float) : Float :=
  if s.part = .exponent then
    let power := Float.pow 10.0 (Number.doubleOfInt s.exponent.toInt)
    if s.exponentSign = .negative ∧ 0.0 < power then v / power else v * power
  else v

/-- The width of a floating-point literal: its suffix, or the usual width. -/
def floatWidth (config : NumericConfig) : NumberType → FloatWidth
  | .double => .f64
  | .float => .f32
  | _ => config.defaultFloat

/-- **The value of a floating-point literal.** -/
def decodeFloat (config : NumericConfig) (s : Progress) : Value :=
  let v := scaled s (mantissa s)
  let v := if s.sign = .negative then -v else v
  match floatWidth config s.type with
  | .f32 => .f32 (Number.singleOfDouble v)
  | .f64 => .f64 v

/-- The value of a literal. -/
def decode (config : NumericConfig) (s : Progress) : Value :=
  if s.type.isIntegral then decodeInteger s else decodeFloat config s

end Lexing.Numeric
