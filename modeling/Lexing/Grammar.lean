import Lexing.Tokenizer

/-!
# Grammars over lexemes

A grammar watches a scan and steers it: it says which tokens may begin at each
point, which of several lexemes is committed, and how the tokenizer is set up
for the next one. What it has seen is its state. The simplest grammar is a
fixed set of tokens.
-/

namespace Lexing

/-- A grammar for tokens with states in `σ`, with a state in `S` of its own. -/
structure Grammar (σ S : Type) where
  /-- the state before the first lexeme -/
  initial : S
  /-- the tokens that may begin, the preferred ones first -/
  tokens : S → List (Token σ)
  /-- the place of the lexeme to commit; one too large stands for the last -/
  select : S → List Lexeme → Nat := fun _ _ => 0
  /-- the state after a committed lexeme -/
  handle : S → Lexeme → S := fun s _ => s
  /-- further settings of the tokenizer, besides its tokens -/
  adjust : S → Tokenizer σ → Tokenizer σ := fun _ t => t

namespace Grammar

variable {σ S : Type}

/-- Set up the tokenizer for the next lexeme. -/
def setup (g : Grammar σ S) (s : S) (t : Tokenizer σ) : Tokenizer σ :=
  g.adjust s { t with tokens := g.tokens s }

/-- **Whether a lexeme may stand here**: its token is one of those that may
begin. -/
def permits (g : Grammar σ S) (s : S) (l : Lexeme) : Bool :=
  match l.token with
  | some tag => (g.tokens s).any (·.tag.id == tag.id)
  | none => false

/-- The grammar of a fixed set of tokens. -/
def ofTokens (tokens : List (Token σ)) : Grammar σ Unit where
  initial := ()
  tokens _ := tokens

end Grammar

/-- A lexeme that a grammar refuses, with its place in the stream. -/
structure Rejection where
  index : Nat
  text : List Char
  line : Nat
  column : Nat
  deriving DecidableEq

namespace Rejection

/-- The message about a refused lexeme. -/
def message (r : Rejection) : String :=
  s!"Lexeme {r.index} ({Text.quoted r.text} at {r.line}:{r.column}) is not valid here"

end Rejection

namespace Grammar

variable {σ S : Type}

/-- Check lexemes from a state on; `index` counts those before them. -/
def checkFrom (g : Grammar σ S) (s : S) (index : Nat) : List Lexeme → Except Rejection S
  | [] => .ok s
  | l :: rest =>
    if g.permits s l then g.checkFrom (g.handle s l) (index + 1) rest
    else .error ⟨index, l.text, l.line, l.span.column⟩

/-- **Check a stream of lexemes**, and give the state behind the last. -/
def check (g : Grammar σ S) (lexemes : List Lexeme) : Except Rejection S :=
  g.checkFrom g.initial 0 lexemes

end Grammar

end Lexing
