/-!
# Binary floating-point formats

A finite number of a binary format is `m · 2^q` with a natural `m` below
`2^precision`. This module reads a bit pattern as such a product and rounds a
product to the nearest number of a format, ties to the even neighbour, all in
exact integer arithmetic. Conversions between integers and formats of
different width are instances of that one rounding.
-/

namespace Lexing.Number

/-- A binary interchange format: the digits of its significand, the leading
one included, and the width of its exponent field. -/
structure BinaryFormat where
  precision : Nat
  exponentBits : Nat
  deriving DecidableEq

namespace BinaryFormat

/-- The 32-bit format. -/
def single : BinaryFormat := ⟨24, 8⟩

/-- The 64-bit format. -/
def double : BinaryFormat := ⟨53, 11⟩

/-- The number of stored bits of the significand. -/
def fractionBits (f : BinaryFormat) : Nat := f.precision - 1

/-- The exponent field of infinities and of what is no number. -/
def maxField (f : BinaryFormat) : Nat := Nat.pow 2 f.exponentBits - 1

/-- The exponent of the last bit of the smallest numbers: all numbers of the
format are multiples of `2^minExponent`. -/
def minExponent (f : BinaryFormat) : Int :=
  3 - (f.precision : Int) - Nat.pow 2 (f.exponentBits - 1)

/-- The bit that marks a negative number. -/
def signBit (f : BinaryFormat) : Nat := Nat.pow 2 (f.fractionBits + f.exponentBits)

end BinaryFormat

/-- What a bit pattern stands for. -/
inductive Decoded where
  /-- no number -/
  | nan
  | infinite (negative : Bool)
  /-- the number `m · 2^q`, with a sign that zero has too -/
  | finite (negative : Bool) (m : Nat) (q : Int)
  deriving DecidableEq

/-- **Read a bit pattern.** -/
def decodeBits (f : BinaryFormat) (bits : Nat) : Decoded :=
  let negative := f.signBit ≤ bits
  let magnitude := bits % f.signBit
  let field := magnitude / Nat.pow 2 f.fractionBits
  let fraction := magnitude % Nat.pow 2 f.fractionBits
  if field = f.maxField then
    if fraction = 0 then .infinite negative else .nan
  else if field = 0 then .finite negative fraction f.minExponent
  else .finite negative (Nat.pow 2 f.fractionBits + fraction) (f.minExponent + (field - 1))

/-- The quotient `num / den`, rounded to the nearest natural number and a tie
to the even one. -/
def roundQuotient (num den : Nat) : Nat :=
  let quotient := num / den
  let rest := num % den
  if 2 * rest < den then quotient
  else if den < 2 * rest then quotient + 1
  else quotient + quotient % 2

/-- `m · 2^q` as a multiple of `2^target`, rounded. -/
def roundScaled (m : Nat) (q target : Int) : Nat :=
  if target ≤ q then m * Nat.pow 2 (q - target).toNat
  else roundQuotient m (Nat.pow 2 (target - q).toNat)

/-- **Round to a format**: the bits of the number nearest to `m · 2^q`.

The last bit kept has the exponent `target`, so that `precision` bits remain,
fewer for numbers too small for that. A significand that rounding fills up
carries into the exponent field by itself. -/
def encodeBits (f : BinaryFormat) (negative : Bool) (m : Nat) (q : Int) : Nat :=
  let sign := if negative then f.signBit else 0
  let target := max (q + Nat.log2 m + 1 - f.precision) f.minExponent
  let n := roundScaled m q target
  let magnitude :=
    if n < Nat.pow 2 f.fractionBits then n
    else
      ((target - f.minExponent).toNat + 1) * Nat.pow 2 f.fractionBits
        + (n - Nat.pow 2 f.fractionBits)
  sign + min magnitude (f.maxField * Nat.pow 2 f.fractionBits)

/-- Read a 64-bit number. -/
def decodeDouble (x : Float) : Decoded := decodeBits .double x.toBits.toNat

/-- Read a 32-bit number. -/
def decodeSingle (x : Float32) : Decoded := decodeBits .single x.toBits.toNat

/-- The 64-bit number nearest to an integer. -/
def doubleOfInt (n : Int) : Float :=
  Float.ofBits (encodeBits .double (n < 0) n.natAbs 0).toUInt64

/-- The 32-bit pattern of something that is no number. -/
def singleNan : Float32 := Float32.ofBits 0x7fc00000

/-- The 64-bit pattern of something that is no number. -/
def doubleNan : Float := Float.ofBits 0x7ff8000000000000

/-- The 32-bit number nearest to a 64-bit one. -/
def singleOfDouble (x : Float) : Float32 :=
  match decodeDouble x with
  | .nan => singleNan
  | .infinite negative => Float32.ofBits (if negative then 0xff800000 else 0x7f800000)
  | .finite negative m q => Float32.ofBits (encodeBits .single negative m q).toUInt32

/-- A 32-bit number as a 64-bit one; nothing is rounded. -/
def doubleOfSingle (x : Float32) : Float :=
  match decodeSingle x with
  | .nan => doubleNan
  | .infinite negative =>
    Float.ofBits (if negative then 0xfff0000000000000 else 0x7ff0000000000000)
  | .finite negative m q => Float.ofBits (encodeBits .double negative m q).toUInt64

/-- Whether a bit pattern stands for a number. -/
def Decoded.isFinite : Decoded → Bool
  | .finite .. => true
  | _ => false

/-- Whether a bit pattern carries a minus sign. -/
def Decoded.isNegative : Decoded → Bool
  | .nan => false
  | .infinite negative => negative
  | .finite negative _ _ => negative

/-- Whether a bit pattern stands for a zero. -/
def Decoded.isZero : Decoded → Bool
  | .finite _ m _ => m == 0
  | _ => false

end Lexing.Number
