/-!
# Line starts found so far

A source that arrives piece by piece cannot be cut into lines beforehand, so
the starts of its lines are recorded as they are found, and forgotten again
when the reader moves back before them.

The first start is the offset where reading began; it is never forgotten, and
offsets before it count to the first line. The statements about a table read
it as the list of its starts (`starts`): a look-up answers with the last
start at or before the offset.
-/

namespace Lexing

/-- The line starts found so far, in increasing order; the first is apart, so
the table is never empty. -/
structure LineTable where
  /-- the number of the first line -/
  firstLine : Nat
  /-- where the first line starts -/
  origin : Nat
  /-- where the following lines start -/
  later : List Nat
  deriving DecidableEq

namespace LineTable

/-- A table that knows one line. -/
def new (line start : Nat) : LineTable := ⟨line, start, []⟩

/-- Every recorded start, in the order of the lines. -/
def starts (t : LineTable) : List Nat := t.origin :: t.later

@[simp] theorem starts_new (line start : Nat) : (new line start).starts = [start] := rfl

theorem starts_ne_nil (t : LineTable) : t.starts ≠ [] := List.cons_ne_nil _ _

/-- The start recorded last. -/
def lastStart (t : LineTable) : Nat := t.later.getLastD t.origin

/-- The line found last and its start. -/
def current (t : LineTable) : Nat × Nat :=
  (t.firstLine + t.later.length, t.lastStart)

/-- Record the start of the next line; `none` if it does not lie behind the
start recorded last. -/
def push? (t : LineTable) (start : Nat) : Option LineTable :=
  if t.lastStart < start then some { t with later := t.later ++ [start] } else none

theorem push?_isSome_iff (t : LineTable) (start : Nat) :
    (t.push? start).isSome ↔ t.lastStart < start := by
  simp [push?]

theorem starts_push? {t u : LineTable} {start : Nat} (h : t.push? start = some u) :
    u.starts = t.starts ++ [start] := by
  unfold push? at h
  split at h
  · obtain rfl := Option.some.inj h
    rfl
  · exact nomatch h

/-- How many lines after the first start at or before an offset. -/
def indexOf (t : LineTable) (offset : Nat) : Nat :=
  (t.later.takeWhile (· ≤ offset)).length

/-- **The line that an offset lies in**, and where that line starts. -/
def lookup (t : LineTable) (offset : Nat) : Nat × Nat :=
  (t.firstLine + t.indexOf offset, t.starts.getD (t.indexOf offset) t.origin)

/-- **Forget every line that starts after an offset.** -/
def truncateAfter (t : LineTable) (offset : Nat) : LineTable :=
  { t with later := t.later.take (t.indexOf offset) }

theorem later_truncateAfter (t : LineTable) (offset : Nat) :
    (t.truncateAfter offset).later = t.later.takeWhile (· ≤ offset) :=
  List.prefix_iff_eq_take.1 (List.takeWhile_prefix _) |>.symm

end LineTable

end Lexing
