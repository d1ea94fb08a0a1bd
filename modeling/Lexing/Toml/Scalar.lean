import Lexing.Charset.Category
import Lexing.Toml.Value

/-!
# The words of a TOML document

Each reader takes what it wants from the beginning of a text and gives what
follows it, or fails. Blanks are spaces and tabs; a line ends with a line feed,
with a carriage return before it or not; comments and texts hold any character
but control characters, the tab excepted.
-/

namespace Lexing.Toml

/-! ## Blanks, line ends, comments -/

/-- A space or a tab. -/
def isBlank (c : Char) : Bool := c == ' ' || c == '\t'

/-- A character that comments and texts may hold. -/
def isPlain (c : Char) : Bool := c == '\t' || (0x20 ≤ c.toNat && c.toNat != 0x7f)

/-- What follows blanks. -/
def skipBlanks (s : List Char) : List Char := s.dropWhile isBlank

/-- What follows a line end. -/
def newline? : List Char → Option (List Char)
  | '\n' :: rest => some rest
  | '\r' :: '\n' :: rest => some rest
  | _ => none

/-- What follows a comment, if there is one. -/
def skipComment : List Char → List Char
  | '#' :: rest => rest.dropWhile isPlain
  | s => s

/-- What follows the end of a line, with blanks and a comment before it. The
end of the document ends its last line. -/
def lineEnd? (s : List Char) : Option (List Char) :=
  match skipComment (skipBlanks s) with
  | [] => some []
  | s => newline? s

/-- What follows blanks, comments and line ends. A comment counts only with
the end of its line. -/
def skipLines : Nat → List Char → List Char
  | 0, s => s
  | fuel + 1, s =>
    match newline? (skipComment (skipBlanks s)) with
    | some rest => skipLines fuel rest
    | none => skipBlanks s

/-! ## Texts -/

/-- The character that a letter behind a backslash stands for. -/
def escaped? (c : Char) : Option Char :=
  match c with
  | 'b' => some '\x08'
  | 't' => some '\t'
  | 'n' => some '\n'
  | 'f' => some '\x0c'
  | 'r' => some '\r'
  | '"' => some '"'
  | '\\' => some '\\'
  | _ => none

/-- The number that digits of a base make up. -/
def ofDigits (base : Nat) (digits : List Char) : Nat :=
  digits.foldl (fun n c => n * base + (digitIn? base c).getD 0) 0

/-- The character with a code point in hexadecimal digits. -/
def ofCodePoint? (digits : List Char) : Option Char :=
  let n := ofDigits 16 digits
  if digits.all (isDigitIn 16) && (n < 0xd800 || (0xdfff < n && n < 0x110000)) then
    some (Char.ofNat n)
  else none

/-- What stands behind a backslash: the character meant, and how many
characters mean it. -/
def escape? : List Char → Option (Char × Nat)
  | 'u' :: rest =>
    if 4 ≤ rest.length then (ofCodePoint? (rest.take 4)).map (·, 5) else none
  | 'U' :: rest =>
    if 8 ≤ rest.length then (ofCodePoint? (rest.take 8)).map (·, 9) else none
  | c :: _ => (escaped? c).map (·, 1)
  | [] => none

/-- Put a character in front of a text that has been read. -/
def consTo (c : Char) (r : Option (List Char × List Char)) : Option (List Char × List Char) :=
  r.map fun (content, rest) => (c :: content, rest)

/-- The rest of a text in quotation marks. -/
def basicText : Nat → List Char → Option (List Char × List Char)
  | 0, _ => none
  | fuel + 1, s =>
    match s with
    | '"' :: rest => some ([], rest)
    | '\\' :: rest => do
      let (c, length) ← escape? rest
      consTo c (basicText fuel (rest.drop length))
    | c :: rest => if isPlain c then consTo c (basicText fuel rest) else none
    | [] => none

/-- The rest of a text in apostrophes. -/
def literalText : List Char → Option (List Char × List Char)
  | [] => none
  | c :: rest =>
    if c = '\'' then some ([], rest)
    else if isPlain c then consTo c (literalText rest)
    else none

/-- What closes a text of several lines: three marks, of which the text may
own up to two before them. -/
def closing? (mark : Char) (s : List Char) : Option (List Char × List Char) :=
  let marks := (s.takeWhile (· == mark)).length
  if marks < 3 then none
  else
    let own := min (marks - 3) 2
    some (List.replicate own mark, s.drop (own + 3))

/-- What follows blanks and line ends. -/
def skipBlankLines : Nat → List Char → List Char
  | 0, s => s
  | fuel + 1, s =>
    match newline? (skipBlanks s) with
    | some rest => skipBlankLines fuel rest
    | none => skipBlanks s

/-- What follows a backslash that ends a line, and the blank lines behind
it. -/
def joinedLine? (s : List Char) : Option (List Char) :=
  (newline? (skipBlanks s)).map fun rest => skipBlankLines (rest.length + 1) rest

/-- The rest of a text of several lines in quotation marks. -/
def longBasicText : Nat → List Char → Option (List Char × List Char)
  | 0, _ => none
  | fuel + 1, s =>
    match closing? '"' s with
    | some done => some done
    | none =>
      match s with
      | '\\' :: rest =>
        match joinedLine? rest with
        | some rest => longBasicText fuel rest
        | none => do
          let (c, length) ← escape? rest
          consTo c (longBasicText fuel (rest.drop length))
      | _ =>
        match newline? s with
        | some rest => consTo '\n' (longBasicText fuel rest)
        | none =>
          match s with
          | c :: rest => if isPlain c then consTo c (longBasicText fuel rest) else none
          | [] => none

/-- The rest of a text of several lines in apostrophes. -/
def longLiteralText : Nat → List Char → Option (List Char × List Char)
  | 0, _ => none
  | fuel + 1, s =>
    match closing? '\'' s with
    | some done => some done
    | none =>
      match newline? s with
      | some rest => consTo '\n' (longLiteralText fuel rest)
      | none =>
        match s with
        | c :: rest => if isPlain c then consTo c (longLiteralText fuel rest) else none
        | [] => none

/-- The beginning of a text of several lines: a line end right behind the
marks is not part of it. -/
def openLines (s : List Char) : List Char := (newline? s).getD s

/-- **A text**, in any of the four notations. -/
def text? (s : List Char) : Option (List Char × List Char) :=
  match s with
  | '"' :: '"' :: '"' :: rest => longBasicText (rest.length + 1) (openLines rest)
  | '"' :: rest => basicText (rest.length + 1) rest
  | '\'' :: '\'' :: '\'' :: rest => longLiteralText (rest.length + 1) (openLines rest)
  | '\'' :: rest => literalText rest
  | _ => none

/-! ## Names -/

/-- A character of a name without quotes. -/
def isNameChar (c : Char) : Bool := c.isAlphanum || c == '_' || c == '-'

/-- A name, with or without quotes. -/
def name? (s : List Char) : Option (List Char × List Char) :=
  match s with
  | '"' :: rest => basicText (rest.length + 1) rest
  | '\'' :: rest => literalText rest
  | _ =>
    let name := s.takeWhile isNameChar
    if name = [] then none else some (name, s.dropWhile isNameChar)

/-- How deep values may be nested, and how many parts a name may have. -/
def maxDepth : Nat := 79

/-- A name of parts with dots between them, and blanks around each part. -/
def dottedName? : Nat → List Char → Option (List (List Char) × List Char)
  | 0, _ => none
  | fuel + 1, s => do
    let (name, rest) ← name? (skipBlanks s)
    match skipBlanks rest with
    | '.' :: rest => do
      let (path, rest) ← dottedName? fuel rest
      return (name :: path, rest)
    | rest => return ([name], rest)

/-! ## Numbers and dates -/

/-- Digits behind a digit. An underscore may stand between two digits. -/
def moreDigits (isDigit : Char → Bool) : List Char → Option (List Char × List Char)
  | [] => some ([], [])
  | '_' :: rest =>
    match rest with
    | c :: rest => if isDigit c then consTo c (moreDigits isDigit rest) else none
    | [] => none
  | c :: rest =>
    if isDigit c then consTo c (moreDigits isDigit rest) else some ([], c :: rest)

/-- Digits, at least one, with underscores between them. -/
def digits? (isDigit : Char → Bool) : List Char → Option (List Char × List Char)
  | c :: rest => if isDigit c then consTo c (moreDigits isDigit rest) else none
  | [] => none

/-- The least integer that does not fit into 64 bits. -/
def integerBound : Nat := 0x8000000000000000

/-- A whole number in a base, without sign. -/
def based? (base : Nat) (s : List Char) : Option (Toml × List Char) := do
  let (digits, rest) ← digits? (isDigitIn base) s
  let n := ofDigits base digits
  if n < integerBound then some (.integer n, rest) else none

/-- Whether `n · 10^e` is too large for a 64-bit floating-point number. -/
def overflows (n : Nat) (e : Int) : Bool :=
  let bound := Nat.pow 2 1024 - Nat.pow 2 970
  let size := (Nat.toDigits 10 n).length + e
  if n = 0 || size < 300 then false
  else if 320 < size then true
  else if 0 ≤ e then bound ≤ n * Nat.pow 10 e.toNat
  else bound * Nat.pow 10 (-e).toNat ≤ n

/-- The digits behind a point, if there is one. -/
def fraction? (s : List Char) : Option (List Char × List Char) :=
  match s with
  | '.' :: rest => digits? Char.isDigit rest
  | _ => some ([], s)

/-- The number behind the letter of an exponent, if there is one. -/
def exponent? (s : List Char) : Option (Int × List Char) :=
  match s with
  | c :: rest =>
    if c = 'e' ∨ c = 'E' then
      let (negative, rest) := match rest with
        | '-' :: rest => (true, rest)
        | '+' :: rest => (false, rest)
        | rest => (false, rest)
      do
        let (digits, rest) ← digits? Char.isDigit rest
        let n := ofDigits 10 digits
        return (if negative then -(n : Int) else n, rest)
    else some (0, s)
  | [] => some (0, s)

/-- A decimal number behind its sign. The whole part has no zeros in front of
other digits. A number with a fraction or an exponent must not be too large. -/
def decimal? (negative : Bool) (s : List Char) : Option (Toml × List Char) := do
  let (whole, rest) ← digits? Char.isDigit s
  if whole.length ≠ 1 ∧ whole.head? = some '0' then none
  else if rest.head? = some '.' ∨ rest.head? = some 'e' ∨ rest.head? = some 'E' then do
    let (fraction, rest) ← fraction? rest
    let (exponent, rest) ← exponent? rest
    let n := ofDigits 10 (whole ++ fraction)
    if !negative && overflows n (exponent - fraction.length) then none
    else some (.float, rest)
  else
    let n := ofDigits 10 whole
    if n < integerBound then some (.integer (if negative then -(n : Int) else n), rest)
    else if negative && n = integerBound then some (.integer (-(n : Int)), rest)
    else none

/-- What follows the words for infinity and for what is no number. -/
def special? : List Char → Option (List Char)
  | 'i' :: 'n' :: 'f' :: rest => some rest
  | 'n' :: 'a' :: 'n' :: rest => some rest
  | _ => none

/-- A number of exactly `length` digits in a range. -/
def field? (length low high : Nat) (s : List Char) : Option (Nat × List Char) :=
  let digits := s.take length
  let n := ofDigits 10 digits
  if digits.length = length ∧ digits.all Char.isDigit ∧ low ≤ n ∧ n ≤ high then
    some (n, s.drop length)
  else none

/-- What follows one given character. -/
def expect? (c : Char) : List Char → Option (List Char)
  | d :: rest => if d = c then some rest else none
  | [] => none

/-- The number of days of a month. -/
def daysIn (year month : Nat) : Nat :=
  let leap := year % 4 = 0 && (year % 100 ≠ 0 || year % 400 = 0)
  if month = 2 then (if leap then 29 else 28)
  else if month ∈ [4, 6, 9, 11] then 30
  else 31

/-- What follows a time of day. -/
def time? (s : List Char) : Option (List Char) := do
  let (_, s) ← field? 2 0 23 s
  let s ← expect? ':' s
  let (_, s) ← field? 2 0 59 s
  let s ← expect? ':' s
  let (_, s) ← field? 2 0 60 s
  match s with
  | '.' :: rest =>
    let digits := rest.takeWhile Char.isDigit
    if digits = [] then none else some (rest.dropWhile Char.isDigit)
  | s => some s

/-- What follows the distance of a time zone, if there is one. -/
def zone? (s : List Char) : Option (List Char) :=
  match s with
  | c :: rest =>
    if c = 'Z' ∨ c = 'z' then some rest
    else if c = '+' ∨ c = '-' then do
      let (_, s) ← field? 2 0 23 rest
      let s ← expect? ':' s
      let (_, s) ← field? 2 0 59 s
      return s
    else some s
  | [] => some s

/-- What follows the time of a date, if there is one. -/
def timeOfDate? (s : List Char) : Option (List Char) :=
  match s with
  | c :: rest =>
    if c = 'T' ∨ c = 't' ∨ c = ' ' then
      match time? rest with
      | some rest => zone? rest
      | none => some s
    else some s
  | [] => some s

/-- What follows a date, or a time of day alone. -/
def date? (s : List Char) : Option (List Char) :=
  if (s.drop 2).head? = some ':' then time? s
  else do
    let (year, s) ← field? 4 0 9999 s
    let s ← expect? '-' s
    let (month, s) ← field? 2 1 12 s
    let s ← expect? '-' s
    let (_, s) ← field? 2 1 (daysIn year month) s
    timeOfDate? s

/-- Whether a text begins like a date or a time: four digits and a dash, or
two digits and a colon. -/
def looksLikeDate (s : List Char) : Bool :=
  let digits := (s.takeWhile Char.isDigit).length
  (digits = 4 && (s.drop 4).head? = some '-') || (digits = 2 && (s.drop 2).head? = some ':')

/-- **A number or a date.** -/
def number? (s : List Char) : Option (Toml × List Char) :=
  if looksLikeDate s then (date? s).map (.date, ·)
  else
    match s with
    | '0' :: 'x' :: rest => based? 16 rest
    | '0' :: 'o' :: rest => based? 8 rest
    | '0' :: 'b' :: rest => based? 2 rest
    | '+' :: rest => ((special? rest).map (.float, ·)).or (decimal? false rest)
    | '-' :: rest => ((special? rest).map (.float, ·)).or (decimal? true rest)
    | s => ((special? s).map (.float, ·)).or (decimal? false s)

/-- **A value that holds no other values.** -/
def scalar? (s : List Char) : Option (Toml × List Char) :=
  match s with
  | 't' :: 'r' :: 'u' :: 'e' :: rest => some (.boolean true, rest)
  | 'f' :: 'a' :: 'l' :: 's' :: 'e' :: rest => some (.boolean false, rest)
  | c :: _ =>
    if c = '"' ∨ c = '\'' then (text? s).map fun (t, rest) => (.text t, rest)
    else number? s
  | [] => none

end Lexing.Toml
