import Lexing.Proofs.Source.Lines

/-!
# Tables that grow and are cut back

While a source is read its table of line starts changes in two ways only: the
start of the next line is found, or the lines behind an offset are forgotten.
However often and in whatever order that happens, the starts stay in order, and
that is all a look-up relies on: it stops at the first start behind the offset
and gives what a search over all starts would give (`lastStart_indexOf`). So a
table that is cut back knows every line up to the cut as before, and answers
everything behind it with the line of the cut (`edited_answers`).
-/

namespace Lexing

namespace LineTable

variable {t u : LineTable} {offset start i : Nat}

/-- **A change of a table.** -/
inductive Edit where
  /-- the start of the next line is found -/
  | push (start : Nat)
  /-- the lines that start behind an offset are forgotten -/
  | truncateAfter (offset : Nat)
  deriving DecidableEq

/-- Make one change; `none` if a line is found that does not lie behind the
last one. -/
def edit? (t : LineTable) : Edit → Option LineTable
  | .push start => t.push? start
  | .truncateAfter offset => some (t.truncateAfter offset)

/-- **Make changes**, one after the other. -/
def edits? (t : LineTable) : List Edit → Option LineTable
  | [] => some t
  | e :: rest => (t.edit? e).bind fun u => u.edits? rest

/-! ## What changes keep -/

theorem firstLine_push? (hu : t.push? start = some u) : u.firstLine = t.firstLine := by
  unfold push? at hu
  split at hu
  · obtain rfl := Option.some.inj hu
    rfl
  · exact nomatch hu

/-- **A table in use**: its starts are in order, and it begins with a given line
and start. -/
structure Spans (t : LineTable) (line start : Nat) : Prop where
  firstLine_eq : t.firstLine = line
  origin_eq : t.origin = start
  ordered : t.Ordered

theorem spans_new (line start : Nat) : (new line start).Spans line start :=
  ⟨rfl, rfl, ordered_new line start⟩

/-- One change leaves a table in use. -/
theorem Spans.edit {line : Nat} (h : t.Spans line start) {e : Edit} (he : t.edit? e = some u) :
    u.Spans line start := by
  cases e with
  | push next =>
    exact ⟨(firstLine_push? he).trans h.firstLine_eq, (origin_push? he).trans h.origin_eq,
      h.ordered.push he⟩
  | truncateAfter offset =>
    obtain rfl := Option.some.inj he
    exact ⟨h.firstLine_eq, h.origin_eq, h.ordered.truncateAfter offset⟩

/-- And so do many. -/
theorem Spans.edits {line : Nat} {es : List Edit} (h : t.Spans line start)
    (hes : t.edits? es = some u) : u.Spans line start := by
  induction es generalizing t with
  | nil =>
    obtain rfl := Option.some.inj hes
    exact h
  | cons e es ih =>
    obtain ⟨next, he, hrest⟩ := Option.bind_eq_some_iff.1 hes
    exact ih (h.edit he) hrest

/-! ## Looking up as a search -/

/-- **The last start at or before an offset**, by its place among all starts; the
first place if every start lies behind the offset. -/
structure IsLastStart (starts : List Nat) (offset i : Nat) : Prop where
  lt_length : i < starts.length
  greatest : ∀ j s, starts[j]? = some s → s ≤ offset → j ≤ i
  le_or_first : (∃ s, starts[i]? = some s ∧ s ≤ offset) ∨ i = 0 ∧ ∀ s ∈ starts, offset < s

/-- Of starts in order those at or before an offset come first. -/
theorem lt_length_takeWhile {starts : List Nat} (hordered : starts.Pairwise (· < ·)) {j s : Nat}
    (hj : starts[j]? = some s) (hle : s ≤ offset) : j < (starts.takeWhile (· ≤ offset)).length := by
  induction starts generalizing j with
  | nil => exact nomatch hj
  | cons a starts ih =>
    obtain ⟨ha, hrest⟩ := List.pairwise_cons.1 hordered
    have hfirst : a ≤ offset := by
      obtain rfl | hmem := List.mem_cons.1 (List.mem_of_getElem? hj)
      · exact hle
      · exact Nat.le_trans (Nat.le_of_lt (ha s hmem)) hle
    rw [List.takeWhile_cons_of_pos (by simpa using hfirst), List.length_cons]
    cases j with
    | zero => exact Nat.succ_pos _
    | succ j => exact Nat.succ_lt_succ (ih hrest hj)

/-- **A look-up finds the last start at or before the offset**, although it
stops at the first one behind it. -/
theorem Ordered.lastStart_indexOf (h : t.Ordered) (offset : Nat) :
    IsLastStart t.starts offset (t.indexOf offset) := by
  obtain ⟨horigin, hordered⟩ := List.pairwise_cons.1 h
  refine ⟨Nat.lt_succ_of_le (List.takeWhile_sublist _).length_le, fun j s hj hle => ?_, ?_⟩
  · cases j with
    | zero => exact Nat.zero_le _
    | succ j => exact lt_length_takeWhile hordered hj hle
  · cases hindex : t.indexOf offset with
    | zero =>
      by_cases hle : t.origin ≤ offset
      · exact .inl ⟨t.origin, rfl, hle⟩
      · refine .inr ⟨rfl, List.forall_mem_cons.2 ⟨Nat.lt_of_not_le hle, fun s hs => ?_⟩⟩
        exact Nat.lt_trans (Nat.lt_of_not_le hle) (horigin s hs)
    | succ k =>
      -- the place found is the last one that was not stopped at
      have hk : k < (t.later.takeWhile (· ≤ offset)).length := by
        show k < t.indexOf offset
        rw [hindex]
        exact Nat.lt_succ_self k
      have hmem := List.mem_takeWhile_imp (List.getElem_mem hk)
      exact .inl ⟨_, List.prefix_iff_getElem?.1 (List.takeWhile_prefix _) k hk,
        of_decide_eq_true hmem⟩

/-- The line that is looked up is the one of that place. -/
theorem Spans.lookup_eq {line : Nat} (h : t.Spans line start) (offset : Nat) :
    ∃ i s, IsLastStart t.starts offset i ∧ t.starts[i]? = some s ∧
      t.lookup offset = (line + i, s) := by
  have hlast := h.ordered.lastStart_indexOf offset
  have hs := List.getElem?_eq_getElem hlast.lt_length
  refine ⟨t.indexOf offset, _, hlast, hs, ?_⟩
  rw [lookup, h.firstLine_eq, List.getD_eq_getElem?_getD, hs, Option.getD_some]

/-! ## Cutting a table back -/

/-- Behind the offset that a table is cut back to, every look-up gives the line
of that offset. -/
theorem lookup_truncateAfter_of_le (t : LineTable) {place : Nat} (h : offset ≤ place) :
    (t.truncateAfter offset).lookup place = t.lookup offset := by
  rw [lookup_eq_current, truncateAfter_truncateAfter, Nat.min_eq_left h, lookup_eq_current]

/-- **A table answers as a search over all its starts would**, whatever lines
have been found and forgotten before. The first start stays, the starts increase,
and a look-up gives the last of them at or before the offset with its line. When
the table is cut back once more, nothing changes up to the cut, and the line of
the cut is the last one. -/
theorem edited_answers {line start : Nat} {es : List Edit} {t : LineTable}
    (hes : (new line start).edits? es = some t) :
    t.starts.head? = some start ∧ t.starts.Pairwise (· < ·) ∧
      (∀ offset, ∃ i s, IsLastStart t.starts offset i ∧ t.starts[i]? = some s ∧
        t.lookup offset = (line + i, s)) ∧
      ∀ offset, (t.truncateAfter offset).current = t.lookup offset ∧
        (∀ place ≤ offset, (t.truncateAfter offset).lookup place = t.lookup place) ∧
        ∀ place > offset, (t.truncateAfter offset).lookup place = t.lookup offset := by
  have h := (spans_new line start).edits hes
  refine ⟨congrArg some h.origin_eq, h.ordered, h.lookup_eq, fun offset => ⟨?_, ?_, ?_⟩⟩
  · exact (lookup_eq_current t offset).symm
  · intro place hplace
    exact lookup_truncateAfter t hplace
  · intro place hplace
    exact lookup_truncateAfter_of_le t (Nat.le_of_lt hplace)

/-- A table that has been cut back inside a line, and grows again from there. -/
theorem edited_answers_regrown :
    (new 7 20).edits? [.push 25, .push 29, .truncateAfter 26, .push 27] = some ⟨7, 20, [25, 27]⟩ ∧
      (⟨7, 20, [25, 27]⟩ : LineTable).starts.head? = some 20 ∧
      (⟨7, 20, [25, 27]⟩ : LineTable).starts.Pairwise (· < ·) ∧
      (∀ offset, ∃ i s, IsLastStart [20, 25, 27] offset i ∧ [20, 25, 27][i]? = some s ∧
        (⟨7, 20, [25, 27]⟩ : LineTable).lookup offset = (7 + i, s)) ∧
      ∀ offset, (truncateAfter ⟨7, 20, [25, 27]⟩ offset).current
          = lookup ⟨7, 20, [25, 27]⟩ offset ∧
        (∀ place ≤ offset, (truncateAfter ⟨7, 20, [25, 27]⟩ offset).lookup place
          = lookup ⟨7, 20, [25, 27]⟩ place) ∧
        ∀ place > offset, (truncateAfter ⟨7, 20, [25, 27]⟩ offset).lookup place
          = lookup ⟨7, 20, [25, 27]⟩ offset :=
  have hes : (new 7 20).edits? [.push 25, .push 29, .truncateAfter 26, .push 27]
      = some ⟨7, 20, [25, 27]⟩ := rfl
  ⟨hes, edited_answers hes⟩

end LineTable

end Lexing
