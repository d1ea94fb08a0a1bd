import Mathlib.Tactic.Common
import Lexing.Token

/-!
# Running a token over a text

A run over two pieces is a run over the first and then over the second, so a
run can be followed one character at a time from either end. What a run has
come to can be decoded if it is complete.
-/

namespace Lexing

namespace Token

variable {σ : Type} {token : Token σ}

theorem run_append (token : Token σ) (s : σ) (seen xs ys : List Char) :
    token.run s seen (xs ++ ys)
      = (token.run s seen xs).bind fun s' => token.run s' (seen ++ xs) ys := by
  induction xs generalizing s seen with
  | nil => simp [run]
  | cons x xs ih =>
    rw [List.cons_append, run, run]
    cases token.advance s seen x with
    | none => rfl
    | some s' =>
      rw [Option.bind_some, Option.bind_some, ih, List.append_assoc]
      rfl

/-- One more character is one more advance. -/
theorem run_snoc (token : Token σ) (s : σ) (text : List Char) (c : Char) :
    token.run s [] (text ++ [c]) = (token.run s [] text).bind (token.advance · text c) := by
  rw [run_append]
  simp [run]

/-- A complete lexeme is decoded without complaint. -/
theorem decode?_eq {s : σ} {text : List Char} (h : token.isValid s text = true) :
    token.decode? s text = .ok (token.decode s text) := by
  rw [decode?, h, Bool.not_true, Bool.and_false]
  rfl

end Token

end Lexing
