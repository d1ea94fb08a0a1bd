import Lexing.Extract

/-!
# Making lexemes at random

A generator is asked for characters until the text is as long as wanted, and
then on until it is a complete lexeme. Lengths count bytes. A generator may
decline to go on; then the text stays as it is, and is an unrecognized lexeme
if it is not complete.

A lexeme made in this way should read back: extracting its text should give
the same text and a value of the same kind.
-/

namespace Lexing

/-- The greatest length of a generated text. -/
def maxGenerated : Nat := 256

variable {σ : Type}

/-- A text being generated. -/
structure Draft (σ : Type) where
  state : σ
  text : List Char
  draws : Draws

namespace Draft

/-- Ask for characters while `wanted` holds of state and text. A character is
at least one byte, so no text needs more steps than its greatest length. -/
def extend (g : Generator σ) (wanted : σ → List Char → Bool) : Nat → Draft σ → Draft σ
  | 0, d => d
  | fuel + 1, d =>
    if wanted d.state d.text then
      match g.propose d.state d.text d.draws with
      | (none, draws) => { d with draws }
      | (some (c, s), draws) => extend g wanted fuel ⟨s, d.text ++ [c], draws⟩
    else d

end Draft

/-- The length to ask for: drawn if there is a choice. -/
def drawLength (draws : Draws) (low high : Nat) : Nat × Draws :=
  if low < high then draws.between low high else (low, draws)

/-- **Make a lexeme** of a length between two bounds, as far as the token
allows. -/
def generate (g : Generator σ) (reserved : Option Reserved) (low high : Nat) (draws : Draws) :
    Except Fault (Lexeme × Draws) := do
  let (length, draws) := drawLength draws low high
  let short (_ : σ) (text : List Char) : Bool :=
    Text.byteLength text < min length maxGenerated
  let incomplete (s : σ) (text : List Char) : Bool :=
    !g.isValid s text && Text.byteLength text < maxGenerated
  let draft := Draft.extend g short maxGenerated ⟨g.fresh reserved, [], draws⟩
  let draft := Draft.extend g incomplete maxGenerated draft
  let stop := Text.byteLength draft.text
  if g.isValid draft.state draft.text then
    let value ← g.decode? draft.state draft.text
    return (⟨0, stop, 1, 0, draft.text, value, some g.tag⟩, draft.draws)
  else return (⟨0, stop, 1, 0, draft.text, none, none⟩, draft.draws)

/-- Make several lexemes, one after the other. -/
def generateMany (g : Generator σ) (reserved : Option Reserved) (low high : Nat) :
    Nat → Draws → Except Fault (List Lexeme)
  | 0, _ => .ok []
  | count + 1, draws => do
    let (lexeme, draws) ← generate g reserved low high draws
    return lexeme :: (← generateMany g reserved low high count draws)

end Lexing
