import Lexing.Number.Binary

/-!
# The shortest decimal that reads back

Of all decimals that a correctly rounding reader turns back into a given
number of a binary format, the one written has the fewest digits, and among
those it is the nearest.

The decimals that read back fill an interval around the number, from the
middle towards the neighbour below to the middle towards the neighbour above,
both ends included when the significand is even. For `n = 1, 2, …` digits the
two decimals next to the number on the grid of `n` digits are tried; if any
point of that grid lies in the interval, one of these two does.
-/

namespace Lexing.Number

/-- The number `coefficient · 10^exponent`. -/
structure Decimal where
  coefficient : Nat
  exponent : Int
  deriving DecidableEq

/-- Which neighbour is taken when two decimals are equally near. -/
inductive Tie where
  /-- the one further from zero -/
  | away
  /-- the one with an even last digit -/
  | even
  deriving DecidableEq

/-- The decimals that read back as one positive number: the number itself, the
two ends of the interval as numerators over one denominator, and whether the
ends belong to it. -/
structure ReadBack where
  low : Nat
  value : Nat
  high : Nat
  den : Nat
  closed : Bool

namespace ReadBack

/-- The interval of `m · 2^q`. The neighbour below is half as far away when
`m` is the least significand of its exponent and the exponent is not the
least. -/
def of (f : BinaryFormat) (m : Nat) (q : Int) : ReadBack :=
  let below := if m = Nat.pow 2 f.fractionBits ∧ f.minExponent < q then 1 else 2
  let scale := Nat.pow 2 (q - 2).toNat
  { low := (4 * m - below) * scale
    value := 4 * m * scale
    high := (4 * m + 2) * scale
    den := Nat.pow 2 (2 - q).toNat
    closed := m % 2 == 0 }

/-- Whether the decimal `c · 10^t`, given as a quotient of natural numbers,
lies in the interval. -/
def admits (r : ReadBack) (c : Nat) (up down : Nat) : Bool :=
  let x := c * up * r.den
  if r.closed then r.low * down ≤ x && x ≤ r.high * down
  else r.low * down < x && x < r.high * down

end ReadBack

/-- The number of decimal digits of a positive number. -/
def decimalLength (n : Nat) : Nat := (Nat.toDigits 10 n).length

/-- The place of the first digit: the `k` with `10^(k-1) ≤ num / den < 10^k`. -/
def leadingPlace (num den : Nat) : Int :=
  if den ≤ num then decimalLength (num / den)
  else
    let length := decimalLength (den / num)
    -- `10^(-length) ≤ num / den`, and equality only for a power of ten
    if den ≤ num * Nat.pow 10 (length - 1) then 2 - length else 1 - length

/-- Choose between a grid point below a number and the next one above it, each
if it reads back: the nearer, of two equally near the one `tie` names. -/
def chooseNeighbour (tie : Tie) (r : ReadBack) (t : Int) : Option Nat :=
  let up := Nat.pow 10 t.toNat
  let down := Nat.pow 10 (-t).toNat
  let num := r.value * down
  let den := up * r.den
  let c := num / den
  let rest := num % den
  let lower := r.admits c up down && 0 < c
  let upper := r.admits (c + 1) up down
  if lower && upper then
    if 2 * rest < den then some c
    else if den < 2 * rest then some (c + 1)
    else match tie with
      | .away => some (c + 1)
      | .even => some (c + c % 2)
  else if lower then some c
  else if upper then some (c + 1)
  else none

/-- Try the grids of `n`, `n + 1`, … digits. -/
def searchGrids (tie : Tie) (r : ReadBack) (place : Int) : Nat → Nat → Option Decimal
  | 0, _ => none
  | fuel + 1, n =>
    let t := place - n
    match chooseNeighbour tie r t with
    | some c => some ⟨c, t⟩
    | none => searchGrids tie r place fuel (n + 1)

/-- Move the trailing zeros of a coefficient into the exponent. -/
def stripZeros : Nat → Decimal → Decimal
  | 0, d => d
  | fuel + 1, d =>
    if d.coefficient ≠ 0 ∧ d.coefficient % 10 = 0 then
      stripZeros fuel ⟨d.coefficient / 10, d.exponent + 1⟩
    else d

/-- The decimal that is equal to `m · 2^q`, with all its digits. -/
def exactDecimal (m : Nat) (q : Int) : Decimal :=
  if 0 ≤ q then ⟨m * Nat.pow 2 q.toNat, 0⟩ else ⟨m * Nat.pow 5 (-q).toNat, q⟩

/-- Seventeen digits tell any two numbers of the 64-bit format apart. -/
def maxDigits : Nat := 17

/-- **The shortest decimal** that reads back as `m · 2^q`. -/
def shortest (f : BinaryFormat) (tie : Tie) (m : Nat) (q : Int) : Decimal :=
  if m = 0 then ⟨0, 0⟩
  else
    let r := ReadBack.of f m q
    let place := leadingPlace r.value r.den
    match searchGrids tie r place maxDigits 1 with
    | some d => stripZeros maxDigits d
    | none => exactDecimal m q

end Lexing.Number
