import Lexing.Token.Numeric

/-!
# The written forms of numeric literals

The state table of numeric literals defines a set of texts only through what
may follow what. Here that set is written down as one would explain it to
somebody who writes literals: an optional sign, then one of a few forms, each
a sequence of named parts. Nothing in this module refers to the stages of the
table; `Lexing.Proofs.Numeric.Language` shows that both describe the same
texts.

Two parts deserve a word. A *digit run* may hold separators anywhere, even in
front, and may consist of separators alone; where a digit is required, that is
said apart. And the digits of an exponent are digits of the base in force,
which behind a bare zero is the octal one.
-/

namespace Lexing.Numeric

/-! ## Runs of digits -/

/-- Digits of a base, with separators anywhere among them. -/
def DigitRun (config : NumericConfig) (base : Base) (w : List Char) : Prop :=
  ∀ c ∈ w, c = config.separator ∨ isDigitIn base.radix c = true

/-- At least one digit of a base. -/
def HasDigit (base : Base) (w : List Char) : Prop :=
  ∃ c ∈ w, isDigitIn base.radix c = true

theorem digitRun_nil (config : NumericConfig) (base : Base) : DigitRun config base [] :=
  fun _ hc => absurd hc List.not_mem_nil

theorem digitRun_cons {config : NumericConfig} {base : Base} {c : Char} {w : List Char} :
    DigitRun config base (c :: w)
      ↔ (c = config.separator ∨ isDigitIn base.radix c = true) ∧ DigitRun config base w :=
  List.forall_mem_cons

theorem not_hasDigit_nil (base : Base) : ¬ HasDigit base [] :=
  fun ⟨_, hc, _⟩ => absurd hc List.not_mem_nil

theorem hasDigit_cons {base : Base} {c : Char} {w : List Char} :
    HasDigit base (c :: w) ↔ isDigitIn base.radix c = true ∨ HasDigit base w := by
  simp [HasDigit]

/-! ## Suffixes -/

/-- The suffix for an integer width: 8, 16, 32 or, with both letters, 64
bits. -/
inductive WidthSuffix : List Char → Prop
  | single {c : Char} (hc : c ∈ ['i', 'I', 'l', 'L', 's', 'S']) : WidthSuffix [c]
  | long {c d : Char} (hc : c ∈ ['l', 'L']) (hd : d ∈ ['l', 'L']) : WidthSuffix [c, d]

/-- **The suffixes of integers**: unsigned, a width, or both in either
order. -/
inductive IntegerSuffix : List Char → Prop
  | unsigned {u : Char} (hu : u ∈ ['u', 'U']) : IntegerSuffix [u]
  | width {w : List Char} (hw : WidthSuffix w) : IntegerSuffix w
  | unsignedWidth {u : Char} {w : List Char} (hu : u ∈ ['u', 'U']) (hw : WidthSuffix w) :
      IntegerSuffix (u :: w)
  | widthUnsigned {u : Char} {w : List Char} (hw : WidthSuffix w) (hu : u ∈ ['u', 'U']) :
      IntegerSuffix (w ++ [u])

/-- The suffixes of floating-point numbers. -/
inductive FloatSuffix : List Char → Prop
  | intro {c : Char} (hc : c ∈ ['f', 'F', 'd', 'D']) : FloatSuffix [c]

/-! ## Exponents -/

/-- **An exponent**: its letter, a sign or none, and digits of a base. The
flag tells whether it is negative. -/
inductive Exponent (config : NumericConfig) (base : Base) : Bool → List Char → Prop
  | plain {e : Char} {ds : List Char} (he : e ∈ ['e', 'E'])
      (hds : DigitRun config base ds) (hd : HasDigit base ds) :
      Exponent config base false (e :: ds)
  | positive {e : Char} {ds : List Char} (he : e ∈ ['e', 'E'])
      (hds : DigitRun config base ds) (hd : HasDigit base ds) :
      Exponent config base false (e :: '+' :: ds)
  | negative {e : Char} {ds : List Char} (he : e ∈ ['e', 'E'])
      (hds : DigitRun config base ds) (hd : HasDigit base ds) :
      Exponent config base true (e :: '-' :: ds)

/-! ## Literals -/

/-- The digits in front of the fraction character: a bare zero, or a digit
other than zero with further ones. -/
inductive Whole (config : NumericConfig) : List Char → Prop
  | zero : Whole config ['0']
  | digits {d : Char} {ds : List Char} (hd : '1' ≤ d ∧ d ≤ '9')
      (hds : DigitRun config .decimal ds) : Whole config (d :: ds)

/-- What may follow the digits of a fraction: nothing, a suffix, or an
exponent with a suffix or without. -/
inductive FractionEnd (config : NumericConfig) : List Char → Prop
  | bare : FractionEnd config []
  | suffix {f : List Char} (hf : FloatSuffix f) : FractionEnd config f
  | exponent {negative : Bool} {x f : List Char} (hx : Exponent config .decimal negative x)
      (hf : f = [] ∨ FloatSuffix f) : FractionEnd config (x ++ f)

/-- **The forms of a literal without its sign.** -/
inductive UnsignedLiteral (config : NumericConfig) : List Char → Prop
  /-- binary digits behind `0b` -/
  | binary {b : Char} {ds t : List Char} (hb : b ∈ ['b', 'B'])
      (hds : DigitRun config .binary ds) (hd : HasDigit .binary ds)
      (ht : t = [] ∨ IntegerSuffix t) : UnsignedLiteral config ('0' :: b :: (ds ++ t))
  /-- hexadecimal digits behind `0x` -/
  | hex {x : Char} {ds t : List Char} (hx : x ∈ ['x', 'X'])
      (hds : DigitRun config .hex ds) (hd : HasDigit .hex ds)
      (ht : t = [] ∨ IntegerSuffix t) : UnsignedLiteral config ('0' :: x :: (ds ++ t))
  /-- octal digits behind a zero, or the zero alone -/
  | octal {ds t : List Char} (hds : DigitRun config .octal ds)
      (ht : t = [] ∨ IntegerSuffix t) : UnsignedLiteral config ('0' :: (ds ++ t))
  /-- a bare zero of a floating-point type -/
  | zeroFloat {t : List Char} (ht : FloatSuffix t) : UnsignedLiteral config ('0' :: t)
  /-- decimal digits -/
  | decimal {d : Char} {ds t : List Char} (hd : '1' ≤ d ∧ d ≤ '9')
      (hds : DigitRun config .decimal ds)
      (ht : t = [] ∨ IntegerSuffix t ∨ FloatSuffix t) :
      UnsignedLiteral config (d :: (ds ++ t))
  /-- decimal digits with an exponent -/
  | scaled {d : Char} {negative : Bool} {ds x t : List Char} (hd : '1' ≤ d ∧ d ≤ '9')
      (hds : DigitRun config .decimal ds) (hx : Exponent config .decimal negative x)
      (ht : t = [] ∨ FloatSuffix t ∨ negative = false ∧ IntegerSuffix t) :
      UnsignedLiteral config (d :: (ds ++ (x ++ t)))
  /-- a fraction behind a whole -/
  | fraction {whole ds t : List Char} (hw : Whole config whole)
      (hds : DigitRun config .decimal ds) (ht : FractionEnd config t) :
      UnsignedLiteral config (whole ++ config.fraction :: (ds ++ t))
  /-- a fraction alone, which needs a digit -/
  | bareFraction {ds t : List Char} (hds : DigitRun config .decimal ds)
      (hd : HasDigit .decimal ds) (ht : FractionEnd config t) :
      UnsignedLiteral config (config.fraction :: (ds ++ t))
  /-- a bare zero with an exponent, which is octal like the zero -/
  | scaledZero {negative : Bool} {x t : List Char} (hx : Exponent config .octal negative x)
      (ht : t = [] ∨ negative = false ∧ IntegerSuffix t) :
      UnsignedLiteral config ('0' :: (x ++ t))

/-- **The numeric literals**: a sign or none, and a literal without sign. -/
inductive Literal (config : NumericConfig) : List Char → Prop
  | unsigned {w : List Char} (hw : UnsignedLiteral config w) : Literal config w
  | signed {sign : Char} {w : List Char} (hs : sign ∈ ['+', '-'])
      (hw : UnsignedLiteral config w) : Literal config (sign :: w)

end Lexing.Numeric
