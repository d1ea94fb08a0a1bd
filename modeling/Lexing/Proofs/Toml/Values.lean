import Lexing.Proofs.Number.Printed
import Lexing.Proofs.Toml.Texts
import Lexing.Toml.Document

/-!
# Values read back

What stands behind the equals sign of a written line is read as the value that
was written, up to the end of the line (`Written`): truth values, natural
numbers that fit, texts, and lists of texts in each of their layouts.
-/

namespace Lexing.Toml

variable {c : Char} {s rest : List Char}

/-- A character that passes a test is none that fails it. -/
theorem ne_of_test {p : Char → Bool} (hc : p c = true) {d : Char} (hd : p d = false) : c ≠ d := by
  rintro rfl
  exact Bool.noConfusion (hc.symm.trans hd)

/-! ## Blanks -/

/-- What begins with a character of its own is not passed over. -/
def Solid (s : List Char) : Prop := ∃ c t, s = c :: t ∧ isBlank c = false ∧ c ∉ ['\n', '\r', '#']

/-- **A written value**: wherever a line ends behind it, it is read as the
value. -/
structure Written (v : List Char) (value : Toml) : Prop where
  solid : Solid v
  read : ∀ rest, value? maxDepth (v ++ '\n' :: rest) = some (value, '\n' :: rest)

/-! ## Truth values -/

end Lexing.Toml
