import Lexing.Grammar

/-!
# Grammars given by rows

A grammar with numbered states, each described by a row: the tokens that may
begin, the state that follows each of them, and how the tokenizer is set up.
-/

namespace Lexing

/-- One state of a grammar. -/
structure GrammarRow (σ : Type) where
  tokens : List (Token σ) := []
  /-- the state that follows a token, or an unrecognized lexeme (`none`) -/
  next : List (Option Nat × Nat) := []
  /-- the place of the lexeme to commit -/
  select : Nat := 0
  /-- a token whose first lexeme is committed, instead of the one at a place -/
  prefer : Option Nat := none
  policies : List (Char × Policy) := []

namespace Grammar

variable {σ : Type}

/-- The row of a state. A state without a row permits nothing. -/
def rowAt (rows : List (GrammarRow σ)) (s : Nat) : GrammarRow σ := rows.getD s {}

/-- **The grammar of a list of rows.** A lexeme that a row does not mention
leaves the state as it is. -/
def ofRows (initial : Nat) (rows : List (GrammarRow σ)) : Grammar σ Nat where
  initial := initial
  tokens s := (rowAt rows s).tokens
  select s lexemes :=
    match (rowAt rows s).prefer with
    | some id => (lexemes.findIdx? (·.isFrom id)).getD 0
    | none => (rowAt rows s).select
  handle s l := ((rowAt rows s).next.lookup (l.token.map (·.id))).getD s
  adjust s t :=
    { t with
      policies :=
        (rowAt rows s).policies.foldl (fun table (c, p) => table.set c p) t.policies }

end Grammar

end Lexing
