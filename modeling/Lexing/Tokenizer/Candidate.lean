import Lexing.Token

/-!
# Candidates

A candidate is a token in the middle of a match. It remembers the longest
complete lexeme it has passed through, its *fallback*, and is finished with
that one when it meets a character it cannot take. So `12e+;` gives `12` and
then the rest, rather than nothing at all.

Candidates that started at the same character form a bucket. All candidates of
a tokenizer share one *signature*, the characters read since the oldest of
them started, each with its offset; a bucket knows at which place of the
signature it started.
-/

namespace Lexing

/-- Characters that have been read, each with its offset. -/
abbrev Signature := List (Char × Nat)

namespace Signature

/-- The characters of a signature. -/
def text (s : Signature) : List Char := s.map Prod.fst

/-- The characters from a place on. -/
def textFrom (s : Signature) (key : Nat) : Except Fault (List Char) :=
  if key ≤ s.length then .ok (text (s.drop key)) else .error (.outOfRange key s.length)

/-- A number of characters from a place on. -/
def slice (s : Signature) (key length : Nat) : Except Fault (List Char) :=
  if key + length ≤ s.length then .ok (text ((s.drop key).take length))
  else .error (.outOfRange (key + length) s.length)

/-- The offset of the character at a place. Behind the last character stands
`stop`, if it is known. -/
def offsetAt (s : Signature) (stop : Option Nat) (i : Nat) : Except Fault Nat :=
  match s[i]? with
  | some (_, offset) => .ok offset
  | none => match stop with
    | some stop => .ok stop
    | none => .error (.outOfRange i s.length)

end Signature

/-- A token in the middle of a match. -/
structure Candidate (σ : Type) where
  token : Token σ
  state : σ
  /-- the place of the token among those of the tokenizer -/
  rank : Nat
  /-- the length of the longest lexeme passed through, and the state there -/
  fallback : Option (Nat × σ)

/-- The candidates that started at the same character. -/
structure Bucket (σ : Type) where
  /-- the place of the first character in the signature -/
  key : Nat
  /-- the offset of the first character -/
  start : Nat
  /-- the line of the first character, and where that line starts -/
  line : Nat
  lineStart : Nat
  live : List (Candidate σ)

/-- A finished lexeme that waits to be taken, with the rank of its token. An
unrecognized lexeme has none. -/
structure Ready where
  lexeme : Lexeme
  rank : Option Nat

/-- Make a lexeme, after checking that it does not end before it starts nor
start before its line. -/
def Lexeme.make (start stop line lineStart : Nat) (text : List Char)
    (value : Option Value) (token : Option TokenTag) : Except Fault Lexeme :=
  if stop < start then .error (.reversedSpan start stop)
  else if start < lineStart then .error (.offsetBeforeLine start lineStart)
  else .ok ⟨start, stop, line, start - lineStart, text, value, token⟩

namespace Candidate

variable {σ : Type}

/-- Begin a match with its first character, if the token takes that one. -/
def begin? (token : Token σ) (reserved : Option Reserved) (rank : Nat) (c : Char) :
    Option (Candidate σ) :=
  (token.advance (token.fresh reserved) [] c).map fun s =>
    ⟨token, s, rank, if token.isValid s [c] then some (1, s) else none⟩

/-- Take one more character behind `text`, if the token does. -/
def advance? (x : Candidate σ) (text : List Char) (c : Char) : Option (Candidate σ) :=
  (x.token.advance x.state text c).map fun s =>
    { x with
      state := s
      fallback :=
        if x.token.isValid s (text ++ [c]) then some (text.length + 1, s) else x.fallback }

/-- The lexeme a candidate has come to when it cannot go on behind `text`: the
whole text if that is complete, or else its fallback. -/
def settled (x : Candidate σ) (text : List Char) : Option (Nat × σ) :=
  if x.token.isValid x.state text then some (text.length, x.state) else x.fallback

end Candidate

namespace Bucket

variable {σ : Type}

/-- The lexeme of a candidate that has settled for a length and a state. -/
def emit (b : Bucket σ) (signature : Signature) (stop : Option Nat) (x : Candidate σ)
    (length : Nat) (s : σ) : Except Fault Ready := do
  let text ← signature.slice b.key length
  let stop ← signature.offsetAt stop (b.key + length)
  let value ← x.token.decode? s text
  let lexeme ← Lexeme.make b.start stop b.line b.lineStart text value (some x.token.tag)
  return ⟨lexeme, some x.rank⟩

/-- **Finish a candidate** behind `text`: it gives a lexeme if it has settled
for one. -/
def finish (b : Bucket σ) (signature : Signature) (stop : Option Nat) (text : List Char)
    (x : Candidate σ) : Except Fault (List Ready) :=
  match x.settled text with
  | none => .ok []
  | some (length, s) => do return [← b.emit signature stop x length s]

end Bucket

end Lexing
