import Lexing.Token

/-!
# Fixed texts

Tokens with exactly one lexeme: a single character, or a text such as a
keyword or an operator of several characters. They need no state.

Characters are counted as bytes: a fixed text asks for its `n`-th character
once `n` bytes have been accepted. On the ASCII characters that tokens see,
this is the number of characters.
-/

namespace Lexing.Token

/-- The token of one character. -/
def char (id : Nat) (c : Char) : Generator Unit where
  tag := ⟨id, String.ofList ['\'', c, '\'']⟩
  fresh _ := ()
  advance _ text d := if text = [] ∧ d = c then some () else none
  isValid _ text := text == [c]
  decode _ _ := none
  propose _ text draws := (if text = [] then some (c, ()) else none, draws)

/-- The token of a text; the text must not be empty. -/
def fixed (id : Nat) (content : List Char) : Except Fault (Generator Unit) :=
  if content = [] then .error .emptyFixedText
  else .ok {
    tag := ⟨id, Text.quoted content⟩
    fresh := fun _ => ()
    advance := fun _ text c =>
      if content[Text.byteLength text]? = some c then some () else none
    isValid := fun _ text => text == content
    decode := fun _ _ => none
    propose := fun _ text draws =>
      (content[Text.byteLength text]?.map fun c => (c, ()), draws) }

end Lexing.Token
