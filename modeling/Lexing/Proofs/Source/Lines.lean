import Mathlib.Data.List.TakeWhile
import Lexing.Source.LineTable

/-!
# The order of line starts

The starts in a table increase, whether lines are found or forgotten. What the
tokenizer relies on is that the line of an offset starts at or before it, both
for the line found last and for one that is looked up. A table that is cut back
and grows again finds the lines it had before (`Ordered.push?_truncateAfter`).
-/

namespace Lexing

namespace LineTable

variable {t u : LineTable} {offset start a b : Nat}

/-- The recorded starts increase. -/
def Ordered (t : LineTable) : Prop := t.starts.Pairwise (· < ·)

theorem ordered_new (line start : Nat) : (new line start).Ordered :=
  List.pairwise_singleton _ _

theorem lastStart_eq_getLast (t : LineTable) : t.lastStart = t.starts.getLast t.starts_ne_nil :=
  (List.getLast_eq_getLastD t.starts_ne_nil).symm

theorem lastStart_mem (t : LineTable) : t.lastStart ∈ t.starts := by
  rw [lastStart_eq_getLast]
  exact List.getLast_mem _

theorem Ordered.le_lastStart (h : t.Ordered) (hs : start ∈ t.starts) : start ≤ t.lastStart := by
  rw [lastStart_eq_getLast]
  obtain ⟨front, hfront⟩ : ∃ front, t.starts = front ++ [t.starts.getLast t.starts_ne_nil] :=
    ⟨_, (List.dropLast_concat_getLast t.starts_ne_nil).symm⟩
  rw [hfront, List.mem_append, List.mem_singleton] at hs
  obtain hs | rfl := hs
  · rw [Ordered, hfront, List.pairwise_append] at h
    exact Nat.le_of_lt (h.2.2 _ hs _ (List.mem_singleton_self _))
  · exact Nat.le_refl _

/-! ## Finding a line -/

theorem Ordered.push (h : t.Ordered) (hu : t.push? start = some u) : u.Ordered := by
  have hlt : t.lastStart < start := by
    rw [← push?_isSome_iff, hu]
    rfl
  rw [Ordered, starts_push? hu, List.pairwise_append]
  refine ⟨h, List.pairwise_singleton _ _, fun a ha b hb => ?_⟩
  rw [List.mem_singleton.1 hb]
  exact Nat.lt_of_le_of_lt (h.le_lastStart ha) hlt

theorem lastStart_push? (hu : t.push? start = some u) : u.lastStart = start := by
  rw [lastStart_eq_getLast]
  simp [starts_push? hu]

theorem origin_push? (hu : t.push? start = some u) : u.origin = t.origin := by
  have := starts_push? hu
  rw [starts, starts, List.cons_append] at this
  exact (List.cons.inj this).1

/-! ## Forgetting lines -/

theorem starts_truncateAfter (t : LineTable) (offset : Nat) :
    (t.truncateAfter offset).starts = t.origin :: t.later.takeWhile (· ≤ offset) := by
  rw [starts, later_truncateAfter]
  rfl

theorem starts_truncateAfter_sublist (t : LineTable) (offset : Nat) :
    (t.truncateAfter offset).starts.Sublist t.starts := by
  rw [starts_truncateAfter]
  exact (List.takeWhile_sublist _).cons_cons _

theorem Ordered.truncateAfter (h : t.Ordered) (offset : Nat) : (t.truncateAfter offset).Ordered :=
  List.Pairwise.sublist (t.starts_truncateAfter_sublist offset) h

theorem Ordered.lastStart_truncateAfter_le (h : t.Ordered) (offset : Nat) :
    (t.truncateAfter offset).lastStart ≤ t.lastStart :=
  h.le_lastStart ((t.starts_truncateAfter_sublist offset).subset (lastStart_mem _))

/-- The lines that are left start at or before the offset. -/
theorem lastStart_truncateAfter_le_offset (t : LineTable) (h : t.origin ≤ offset) :
    (t.truncateAfter offset).lastStart ≤ offset := by
  have hmem := lastStart_mem (t.truncateAfter offset)
  rw [starts_truncateAfter, List.mem_cons] at hmem
  obtain hmem | hmem := hmem
  · rw [hmem]
    exact h
  · have hle := List.mem_takeWhile_imp hmem
    exact of_decide_eq_true hle

/-! ## Looking up a line -/

/-- The line that is found is the last one left when those behind the offset
are forgotten. -/
theorem lookup_start_eq (t : LineTable) (offset : Nat) :
    (t.lookup offset).2 = (t.truncateAfter offset).lastStart := by
  have hle : t.indexOf offset < t.starts.length :=
    Nat.lt_succ_of_le (List.takeWhile_sublist _).length_le
  show t.starts.getD (t.indexOf offset) t.origin
    = (t.later.take (t.indexOf offset)).getLastD t.origin
  have hlast : (t.starts.take (t.indexOf offset + 1)).getLast? = t.starts[t.indexOf offset]? := by
    rw [List.getLast?_take, if_neg (Nat.succ_ne_zero _), Nat.add_sub_cancel,
      List.getElem?_eq_getElem hle, Option.some_or]
  rw [starts, List.take_succ_cons, List.getLast?_cons] at hlast
  rw [List.getD_eq_getElem?_getD, starts, ← hlast, List.getLastD_eq_getLast?, Option.getD_some]

/-- A line that is looked up starts at or before the offset. -/
theorem lookup_start_le (t : LineTable) (h : t.origin ≤ offset) :
    (t.lookup offset).2 ≤ offset := by
  rw [lookup_start_eq]
  exact t.lastStart_truncateAfter_le_offset h

/-! ## Tables cut back

A table that has been cut back knows the lines up to an offset. Which offset
that was shows only in the starts it has kept, so two offsets with no start
between them give the same table. -/

theorem takeWhile_le_congr {starts : List Nat} (h : ∀ s ∈ starts, s ≤ a ↔ s ≤ b) :
    starts.takeWhile (· ≤ a) = starts.takeWhile (· ≤ b) := by
  induction starts with
  | nil => rfl
  | cons s starts ih =>
    obtain ⟨hs, hrest⟩ := List.forall_mem_cons.1 h
    simp only [List.takeWhile_cons, hs, ih hrest]

/-- Up to the next start, one more start is taken. -/
theorem takeWhile_le_next {starts : List Nat} (hordered : starts.Pairwise (· < ·))
    (hmem : start ∈ starts) (hlt : offset < start)
    (hnext : ∀ s ∈ starts, offset < s → start ≤ s) :
    starts.takeWhile (· ≤ offset) ++ [start] = starts.takeWhile (· ≤ start) := by
  induction starts with
  | nil => exact absurd hmem List.not_mem_nil
  | cons s starts ih =>
    obtain ⟨hs, hrest⟩ := List.pairwise_cons.1 hordered
    obtain ⟨hfirst, hnext⟩ := List.forall_mem_cons.1 hnext
    by_cases hle : s ≤ offset
    · have hmem : start ∈ starts := (List.mem_cons.1 hmem).resolve_left (by omega)
      have hstart : s ≤ start := by omega
      simp only [List.takeWhile_cons, hle, hstart, decide_true, if_true, List.cons_append,
        ih hrest hmem hnext]
    · -- the first start behind the offset can only be the next one
      have hge := hfirst (by omega)
      obtain rfl : start = s := (List.mem_cons.1 hmem).resolve_right fun hin => by
        have := hs start hin
        omega
      have hnone : starts.takeWhile (· ≤ start) = [] := by
        cases starts with
        | nil => rfl
        | cons s starts =>
          have := hs s List.mem_cons_self
          simp [this]
      simp [hle, hnone]

theorem takeWhile_le_eq_filter {starts : List Nat} (hordered : starts.Pairwise (· < ·))
    (offset : Nat) : starts.takeWhile (· ≤ offset) = starts.filter (· ≤ offset) := by
  induction starts with
  | nil => rfl
  | cons s starts ih =>
    obtain ⟨hs, hrest⟩ := List.pairwise_cons.1 hordered
    by_cases hle : s ≤ offset
    · simp [hle, ih hrest]
    · have hnone : starts.filter (· ≤ offset) = [] :=
        List.filter_eq_nil_iff.2 fun a ha => by
          have := hs a ha
          simp only [decide_eq_true_eq]
          omega
      simp [hle, hnone]

/-- Cutting a table twice is cutting it at the smaller offset. -/
theorem truncateAfter_truncateAfter (t : LineTable) (a b : Nat) :
    (t.truncateAfter a).truncateAfter b = t.truncateAfter (min a b) := by
  have hlater : ((t.truncateAfter a).truncateAfter b).later
      = (t.truncateAfter (min a b)).later := by
    rw [later_truncateAfter, later_truncateAfter, later_truncateAfter, List.takeWhile_takeWhile]
    congr 1
    funext s
    simp only [Nat.le_min, Bool.decide_and, Bool.and_comm, Bool.decide_eq_true]
  exact congrArg (LineTable.mk t.firstLine t.origin) hlater

/-- Offsets with no line start between them are on the same line. -/
theorem truncateAfter_congr (h : ∀ s ∈ t.later, s ≤ a ↔ s ≤ b) :
    t.truncateAfter a = t.truncateAfter b := by
  have hlater : (t.truncateAfter a).later = (t.truncateAfter b).later := by
    rw [later_truncateAfter, later_truncateAfter, takeWhile_le_congr h]
  exact congrArg (LineTable.mk t.firstLine t.origin) hlater

/-- At the start of the first line no other line is known. -/
theorem Ordered.truncateAfter_origin (h : t.Ordered) :
    t.truncateAfter t.origin = .new t.firstLine t.origin := by
  have hlater : (t.truncateAfter t.origin).later = [] := by
    rw [later_truncateAfter, takeWhile_le_eq_filter (List.pairwise_cons.1 h).2]
    refine List.filter_eq_nil_iff.2 fun s hs => ?_
    have := (List.pairwise_cons.1 h).1 s hs
    simpa using this
  exact congrArg (LineTable.mk t.firstLine t.origin) hlater

/-- **Finding the next start of a table** gives the table cut one line later. -/
theorem Ordered.push?_truncateAfter (h : t.Ordered) (hmem : start ∈ t.later) (hlt : offset < start)
    (hnext : ∀ s ∈ t.later, offset < s → start ≤ s) :
    (t.truncateAfter offset).push? start = some (t.truncateAfter start) := by
  obtain ⟨horigin, hordered⟩ := List.pairwise_cons.1 h
  have hlast : (t.truncateAfter offset).lastStart < start := by
    have hin := lastStart_mem (t.truncateAfter offset)
    rw [starts_truncateAfter, List.mem_cons] at hin
    obtain hin | hin := hin
    · rw [hin]
      exact horigin start hmem
    · have hle := List.mem_takeWhile_imp hin
      exact Nat.lt_of_le_of_lt (of_decide_eq_true hle) hlt
  rw [push?, if_pos hlast, later_truncateAfter, takeWhile_le_next hordered hmem hlt hnext,
    ← later_truncateAfter]
  rfl

/-- The line that is found is the last one left when those behind the offset
are forgotten. -/
theorem lookup_eq_current (t : LineTable) (offset : Nat) :
    t.lookup offset = (t.truncateAfter offset).current := by
  refine Prod.ext ?_ (lookup_start_eq t offset)
  show t.firstLine + t.indexOf offset = t.firstLine + (t.truncateAfter offset).later.length
  rw [later_truncateAfter]
  rfl

/-- Forgetting lines does not change the line of an offset before them. -/
theorem lookup_truncateAfter (t : LineTable) (h : offset ≤ a) :
    (t.truncateAfter a).lookup offset = t.lookup offset := by
  rw [lookup_eq_current, truncateAfter_truncateAfter, Nat.min_eq_right h, lookup_eq_current]

/-- Finding a line does not change the line of an offset before it. -/
theorem lookup_push? (hu : t.push? start = some u) (h : offset < start) :
    u.lookup offset = t.lookup offset := by
  have hlater : (t.later ++ [start]).takeWhile (· ≤ offset) = t.later.takeWhile (· ≤ offset) := by
    rw [List.takeWhile_append, List.takeWhile_cons_of_neg (by simpa using h), List.append_nil]
    split_ifs with hwhole
    · exact ((List.takeWhile_prefix _).eq_of_length hwhole).symm
    · rfl
  unfold push? at hu
  split at hu
  · obtain rfl := Option.some.inj hu
    have hcut : (LineTable.truncateAfter { t with later := t.later ++ [start] } offset).later
        = (t.truncateAfter offset).later := by
      rw [later_truncateAfter, later_truncateAfter, hlater]
    rw [lookup_eq_current, lookup_eq_current]
    exact congrArg current (congrArg (LineTable.mk t.firstLine t.origin) hcut)
  · exact nomatch hu

/-- **The line of an offset** is told by the starts at or before it. -/
theorem Ordered.lookup_eq_filter (h : t.Ordered) (offset : Nat) :
    t.lookup offset = (t.firstLine + (t.later.filter (· ≤ offset)).length,
      (t.later.filter (· ≤ offset)).getLastD t.origin) := by
  have hlater := later_truncateAfter t offset
  rw [takeWhile_le_eq_filter (List.pairwise_cons.1 h).2] at hlater
  rw [lookup_eq_current, current, lastStart, hlater]
  rfl

end LineTable

end Lexing
