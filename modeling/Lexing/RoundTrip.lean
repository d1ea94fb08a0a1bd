import Lexing.Generate

/-!
# Generated lexemes that read back

A generated lexeme should survive two ways back: extracting its text should
give the whole text again and a value of the same kind, and so should
extracting the written form of its value. A value without a written form has
nothing to survive.
-/

namespace Lexing

/-- How a generated lexeme fails to read back. -/
inductive RoundTripProblem where
  /-- the generator stopped at a text that is no lexeme -/
  | incomplete
  /-- only a part of the text is read -/
  | stopped (text : List Char)
  /-- another kind of value is read -/
  | readAs (value : Option Value)
  /-- the written form of the value reads as something else -/
  | writtenAs (text : List Char) (value : Option Value)

namespace RoundTripProblem

/-- What to say about a problem. -/
def message : RoundTripProblem → String
  | incomplete => "generator stopped before reaching a valid literal"
  | stopped text => s!"extraction stopped at {Text.quoted text}"
  | readAs value =>
    s!"read back as {Lexeme.renderOption (value.map Value.renderDetailed)}"
  | writtenAs text value =>
    s!"serialized form {Text.quoted text} reads back as "
      ++ Lexeme.renderOption (value.map Value.renderDetailed)

end RoundTripProblem

variable {σ : Type}

/-- Whether a lexeme has a given text and a value of a given kind. -/
def readsAs (l : Lexeme) (text : List Char) (kind : ValueKind) : Bool :=
  l.text == text && l.value.map Value.kind == some kind

/-- **How a generated lexeme fails to read back**, if it does. -/
def roundTripProblem (g : Generator σ) (l : Lexeme) :
    Except Fault (Option RoundTripProblem) :=
  match l.value with
  | none => .ok (some .incomplete)
  | some v => do
    let again ← extract g.toToken l.text
    if again.text ≠ l.text then return some (.stopped again.text)
    else if !readsAs again l.text v.kind then return some (.readAs again.value)
    else
      match g.written v with
      | none => return none
      | some text =>
        let again ← extract g.toToken text
        return if readsAs again text v.kind then none else some (.writtenAs text again.value)

end Lexing
