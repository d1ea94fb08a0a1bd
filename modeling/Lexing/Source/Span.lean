/-!
# Spans of a source text

A span is a half-open range of offsets, counted in code units, together with
the line and the column where it begins. Columns count from 1 and stop at the
largest 32-bit number, since lines may be longer than that.
-/

namespace Lexing

/-- A half-open range of offsets and the place where it begins. -/
structure Span where
  start : Nat
  stop : Nat
  line : Nat
  column : Nat
  deriving DecidableEq

namespace Span

/-- The span of something that has no place in a source. -/
def none : Span := ⟨0, 0, 0, 0⟩

/-- The largest column a span can name. -/
def maxColumn : Nat := 0xffffffff

/-- **A span at an offset within its line.** The offset counts from 0 and the
column from 1. -/
def atLineOffset (start stop line lineOffset : Nat) : Span :=
  ⟨start, stop, line, min (lineOffset + 1) maxColumn⟩

/-- Whether the span covers nothing. -/
def isEmpty (s : Span) : Bool := s.start == s.stop

/-- The number of units covered. -/
def size (s : Span) : Nat := s.stop - s.start

/-- Whether an offset lies in the span. -/
def contains (s : Span) (offset : Nat) : Bool :=
  s.start ≤ offset && offset < s.stop

/-- Line and column, as in `2:5`. -/
def render (s : Span) : String := s!"{s.line}:{s.column}"

end Span

end Lexing
