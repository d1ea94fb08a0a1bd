import Lexing.Fault

/-!
# Character classes and the characters tokens see

Tokens work on ASCII text alone. Every character above `0x7F` reaches them as
one stand-in, the *substitute* control character, so a token's grammar can be
written without a word about the rest of Unicode.

The first eight categories cut the characters into disjoint classes, with one
exception: the underscore is a symbol of no class and belongs to `word` alone.
The last three are unions of the others.
-/

namespace Lexing

/-- The stand-in for every character outside ASCII. -/
def substitute : Char := '\x1a'

/-- **The ASCII image of a character**: itself, or the substitute. -/
def toAscii (c : Char) : Char :=
  if c.toNat < 0x80 then c else substitute

theorem toAscii_of_lt {c : Char} (h : c.toNat < 0x80) : toAscii c = c := by
  simp [toAscii, h]

theorem toNat_toAscii_lt (c : Char) : (toAscii c).toNat < 0x80 := by
  unfold toAscii
  split
  · assumption
  · decide

theorem toAscii_toAscii (c : Char) : toAscii (toAscii c) = toAscii c :=
  toAscii_of_lt (toNat_toAscii_lt c)

/-- A broad class of characters, the unit in which policies are assigned. -/
inductive Category where
  /-- everything above `0x7F` -/
  | notAscii
  /-- space, horizontal and vertical tab -/
  | whitespace
  /-- line feed, form feed, carriage return -/
  | newline
  /-- the substitute character -/
  | substitute
  /-- the other control characters, and delete -/
  | control
  | lowercaseLetter
  | uppercaseLetter
  | digit
  /-- printable, and no word character -/
  | symbol
  /-- both kinds of letters -/
  | letter
  /-- letters and digits -/
  | alphanumeric
  /-- letters, digits and the underscore -/
  | word
  deriving DecidableEq

namespace Category

/-- Every category, the disjoint classes first. -/
def all : List Category :=
  [notAscii, whitespace, newline, substitute, control, lowercaseLetter,
   uppercaseLetter, digit, symbol, letter, alphanumeric, word]

/-- **The class of a character.** Of the three unions only `word` is ever the
answer, for the underscore. -/
def of (c : Char) : Category :=
  if 0x80 ≤ c.toNat then notAscii
  else if c = ' ' ∨ c = '\t' ∨ c = '\x0b' then whitespace
  else if c = '\n' ∨ c = '\x0c' ∨ c = '\r' then newline
  else if c = Lexing.substitute then substitute
  else if c.toNat < 0x20 ∨ c.toNat = 0x7f then control
  else if c.isLower then lowercaseLetter
  else if c.isUpper then uppercaseLetter
  else if c.isDigit then digit
  else if c = '_' then word
  else symbol

/-- Membership: the unions hold all their members, every other category
exactly the characters it is the class of. -/
def contains (k : Category) (c : Char) : Bool :=
  match k with
  | letter => c.isAlpha
  | alphanumeric => c.isAlphanum
  | word => c.isAlphanum || c == '_'
  | k => of c == k

/-- The 128 ASCII characters in code order. -/
def asciiChars : List Char := (List.range 128).map Char.ofNat

/-- The ASCII members of a category in code order; none for `notAscii`. -/
def members (k : Category) : List Char := asciiChars.filter k.contains

/-- The written name of a category. -/
def name : Category → String
  | notAscii => "not-ascii"
  | whitespace => "whitespace"
  | newline => "newline"
  | substitute => "substitute"
  | control => "control"
  | lowercaseLetter => "lowercase-letter"
  | uppercaseLetter => "uppercase-letter"
  | digit => "digit"
  | symbol => "symbol"
  | letter => "letter"
  | alphanumeric => "alphanumeric"
  | word => "word"

/-- The category with a given name. -/
def ofName? (s : String) : Option Category := all.find? (·.name == s)

end Category

/-! ## Digits and identifiers -/

/-- The value of `c` as a digit or letter of base 36, in either case. -/
def digitValue? (c : Char) : Option Nat :=
  if c.isDigit then some (c.toNat - '0'.toNat)
  else if c.isLower then some (c.toNat - 'a'.toNat + 10)
  else if c.isUpper then some (c.toNat - 'A'.toNat + 10)
  else none

/-- The value of `c` as a digit of `base`. -/
def digitIn? (base : Nat) (c : Char) : Option Nat :=
  (digitValue? c).filter (· < base)

/-- Whether `c` is a digit of `base`. -/
def isDigitIn (base : Nat) (c : Char) : Bool := (digitIn? base c).isSome

/-- The largest base with a character for each digit. -/
def maxBase : Nat := 36

/-- The lower-case character of a digit below 36. -/
def digitChar (d : Nat) : Char :=
  if d < 10 then Char.ofNat ('0'.toNat + d) else Char.ofNat ('a'.toNat + (d - 10))

/-- The upper-case character of a digit below 36. -/
def upperDigitChar (d : Nat) : Char :=
  if d < 10 then Char.ofNat ('0'.toNat + d) else Char.ofNat ('A'.toNat + (d - 10))

/-- The digits of a base: the lower-case forms, then the upper-case letters. -/
def baseDigits (base : Nat) : List Char :=
  (List.range base).map digitChar
    ++ ((List.range base).filter (10 ≤ ·)).map upperDigitChar

/-- The digits of a base; a base above 36 has no characters for all of them. -/
def digitsOfBase (base : Nat) : Except Fault (List Char) :=
  if base ≤ maxBase then .ok (baseDigits base) else .error (.baseTooLarge base)

/-- A character that may begin an identifier. -/
def isIdentStart (c : Char) : Bool := c.isAlpha || c == '_'

/-- A character that may continue an identifier. -/
def isIdentContinue (c : Char) : Bool := c.isAlphanum || c == '_'

end Lexing
