import Lexing.Lexeme
import Lexing.Random.Draws
import Lexing.Reserved

/-!
# Tokens

A token decides, one character at a time, whether a text can still grow into
one of its lexemes. What it has to remember between two characters is its
state, so one token can take part in any number of matches at a time.

`Token σ` describes a token whose states are of type `σ`. Nothing else about a
token is visible to the rest of the library: the tokenizer, extraction and
generation work for every token.
-/

namespace Lexing

/-- A recognizer of lexemes with states of type `σ`. -/
structure Token (σ : Type) where
  /-- which token this is, and its name -/
  tag : TokenTag
  /-- the state before the first character; `none` if a scan has no set of
  reserved words at all -/
  fresh : Option Reserved → σ
  /-- accept one more character behind a text, or refuse it -/
  advance : σ → List Char → Char → Option σ
  /-- whether a text is a complete lexeme -/
  isValid : σ → List Char → Bool
  /-- the value of a complete lexeme -/
  decode : σ → List Char → Option Value
  /-- whether decoding insists on a complete lexeme -/
  strict : Bool := false

namespace Token

variable {σ τ : Type}

/-- The name of a token. -/
def name (t : Token σ) : String := t.tag.name

/-- Decode a text. A strict token refuses one that is no complete lexeme. -/
def decode? (t : Token σ) (s : σ) (text : List Char) : Except Fault (Option Value) :=
  if t.strict && !t.isValid s text then .error (.decodeInvalid t.name text)
  else .ok (t.decode s text)

/-- **Accept a whole text** behind another one, character by character. -/
def run (t : Token σ) (s : σ) (seen : List Char) : List Char → Option σ
  | [] => some s
  | c :: rest => (t.advance s seen c).bind fun s' => t.run s' (seen ++ [c]) rest

/-- Whether a text is a lexeme of the token: every character is accepted and
the whole is complete. -/
def accepts (t : Token σ) (reserved : Option Reserved) (text : List Char) : Bool :=
  (t.run (t.fresh reserved) [] text).any (t.isValid · text)

/-- The same token with states of a larger type, of which `view?` recognizes
its own. A foreign state accepts nothing. -/
def lift (t : Token σ) (inject : σ → τ) (view? : τ → Option σ) : Token τ where
  tag := t.tag
  fresh r := inject (t.fresh r)
  advance s text c := (view? s).bind fun s => (t.advance s text c).map inject
  isValid s text := (view? s).any (t.isValid · text)
  decode s text := (view? s).bind (t.decode · text)
  strict := t.strict

end Token

/-- A token that can also make lexemes: propose characters at random, and
write values. -/
structure Generator (σ : Type) extends Token σ where
  /-- a character that may come next, and the state after it -/
  propose : σ → List Char → Draws → Option (Char × σ) × Draws
  /-- a text that reads as a given value -/
  written : Value → Option (List Char) := fun _ => none

namespace Generator

variable {σ τ : Type}

/-- The same generator with states of a larger type. -/
def lift (g : Generator σ) (inject : σ → τ) (view? : τ → Option σ) : Generator τ where
  toToken := g.toToken.lift inject view?
  propose s text draws :=
    match view? s with
    | none => (none, draws)
    | some s =>
      let (proposal, draws) := g.propose s text draws
      (proposal.map fun (c, s) => (c, inject s), draws)
  written := g.written

end Generator

end Lexing
