import Lexing.Number.Shortest

/-!
# Written forms of binary numbers

How a number looks once its digits are chosen: which numbers are written with
an exponent and how that exponent looks, whether a whole number keeps a `.0`,
and what stands for the values that are no numbers.
-/

namespace Lexing.Number

/-- When a number is written with an exponent. The bounds are on the exponent
`e` of the form `d.ddd · 10^e`. -/
inductive ExponentRule where
  | never
  | always
  /-- outside `low ≤ e < high`, zero excepted -/
  | outside (low high : Int)
  deriving DecidableEq

/-- The decisions of one written form. -/
structure Layout where
  /-- the digit taken when two decimals are equally near -/
  tie : Tie
  exponentRule : ExponentRule
  /-- what stands between the `e` and a positive exponent -/
  plus : List Char
  /-- whether a whole number written without exponent ends in `.0` -/
  keepsPoint : Bool
  /-- the text of infinity -/
  infinity : List Char
  /-- the text of what is no number -/
  nan : List Char
  /-- whether infinity carries its sign -/
  infinitySigned : Bool

namespace Layout

/-- The plain form: never an exponent, no point in a whole number. -/
def plain : Layout :=
  ⟨.away, .never, [], false, "inf".toList, "NaN".toList, true⟩

/-- The form that shows a number to be no integer: a point or an exponent,
the latter below `10^-4` and from `10^16` on. -/
def detailed : Layout :=
  ⟨.away, .outside (-4) 16, [], true, "inf".toList, "NaN".toList, true⟩

/-- The form with an exponent throughout. -/
def scientific : Layout :=
  ⟨.away, .always, [], false, "inf".toList, "NaN".toList, true⟩

/-- The form of data exchange: an exponent below `10^-5` and from `10^16` on,
and no text for what is no number. -/
def exchange : Layout :=
  ⟨.even, .outside (-5) 16, ['+'], true, "null".toList, "null".toList, false⟩

end Layout

/-- The decimal digits of a natural number. -/
def decimalDigits (n : Nat) : List Char := Nat.toDigits 10 n

/-- An integer in decimal. -/
def integerDigits (n : Int) : List Char :=
  if n < 0 then '-' :: decimalDigits n.natAbs else decimalDigits n.natAbs

/-- Digits with a point after the first, followed by the exponent. -/
def withExponent (layout : Layout) (digits : List Char) (e : Int) : List Char :=
  let mantissa := match digits with
    | [] => []
    | [d] => [d]
    | d :: rest => d :: '.' :: rest
  mantissa ++ 'e' :: (if e < 0 then [] else layout.plus) ++ integerDigits e

/-- Digits at their places: zeros before or behind them, or a point between
them. `point` is the number of digits before the point. -/
def positional (layout : Layout) (digits : List Char) (point : Int) : List Char :=
  if point ≤ 0 then
    '0' :: '.' :: List.replicate (-point).toNat '0' ++ digits
  else if digits.length ≤ point.toNat then
    digits ++ List.replicate (point.toNat - digits.length) '0'
      ++ (if layout.keepsPoint then ['.', '0'] else [])
  else digits.take point.toNat ++ '.' :: digits.drop point.toNat

/-- A decimal without its sign. -/
def layOut (layout : Layout) (d : Decimal) : List Char :=
  let digits := decimalDigits d.coefficient
  let point : Int := if d.coefficient = 0 then 1 else d.exponent + digits.length
  let useExponent := match layout.exponentRule with
    | .never => false
    | .always => true
    | .outside low high =>
      d.coefficient ≠ 0 && (point - 1 < low || high ≤ point - 1)
  if useExponent then withExponent layout digits (point - 1)
  else positional layout digits point

/-- **The written form** of a bit pattern of a format. -/
def Decoded.render (f : BinaryFormat) (layout : Layout) : Decoded → List Char
  | .nan => layout.nan
  | .infinite negative =>
    (if negative && layout.infinitySigned then ['-'] else []) ++ layout.infinity
  | .finite negative m q =>
    (if negative then ['-'] else []) ++ layOut layout (shortest f layout.tie m q)

/-- The written form of a 64-bit number. -/
def renderDouble (layout : Layout) (x : Float) : List Char :=
  (decodeDouble x).render .double layout

/-- The written form of a 32-bit number. -/
def renderSingle (layout : Layout) (x : Float32) : List Char :=
  (decodeSingle x).render .single layout

end Lexing.Number
