import Lexing.Proofs.Source.Breaks
import Lexing.Proofs.Tokenizer.Feed

/-!
# The lines that a tokenizer knows

A tokenizer finds the lines of its stream one by one and forgets them again
when it moves back. Still, what it knows is told by its place alone: the lines
of the whole stream, cut back there (`Tracks`). Only directly behind line
breaks there are two possibilities, since a line that starts at this place may
have been found before, or may be found with the next unit. After that unit
nothing is left of the difference (`Tracks.trackLines_eq`), and the line of a
place that has been read is never in doubt (`Tracks.lookup_eq`).
-/

namespace Lexing

variable {σ : Type}

namespace LineTable.Charts

variable {T : LineTable} {s : UnitStream} {a b : Nat}

/-- No line starts at a line break. -/
theorem not_mem_of_breakAt (h : T.Charts s) (hbreak : s.BreakAt a) : a ∉ T.later := fun hmem => by
  obtain ⟨p, rfl, -, hnext⟩ := (h.mem_later a).1 hmem
  exact hnext hbreak

/-- Within a run of line breaks the line does not change. -/
theorem truncateAfter_eq_of_breaks (h : T.Charts s) (hle : a ≤ b)
    (hbreaks : ∀ q, a < q → q ≤ b → s.BreakAt q) : T.truncateAfter a = T.truncateAfter b := by
  refine truncateAfter_congr fun q hq => ⟨fun hqa => Nat.le_trans hqa hle, fun hqb => ?_⟩
  by_contra hlt
  exact h.not_mem_of_breakAt (hbreaks q (Nat.lt_of_not_le hlt) hqb) hq

/-- Without line breaks the line does not change. -/
theorem truncateAfter_eq_of_no_breaks (h : T.Charts s) (hle : a ≤ b)
    (hnone : ∀ q, a ≤ q → q < b → ¬s.BreakAt q) : T.truncateAfter a = T.truncateAfter b := by
  refine truncateAfter_congr fun q hq => ⟨fun hqa => Nat.le_trans hqa hle, fun hqb => ?_⟩
  obtain ⟨p, rfl, hp, -⟩ := (h.mem_later q).1 hq
  by_contra hlt
  exact hnone p (by omega) (by omega) hp

/-- Behind a run of line breaks the next line is found. -/
theorem push?_truncateAfter (h : T.Charts s) (hlt : a < b)
    (hbreaks : ∀ q, a ≤ q → q < b → s.BreakAt q) (hend : ¬s.BreakAt b) :
    (T.truncateAfter a).push? b = some (T.truncateAfter b) := by
  obtain ⟨p, rfl⟩ := Nat.exists_eq_add_one_of_ne_zero (Nat.ne_zero_of_lt hlt)
  have hmem : p + 1 ∈ T.later := (h.mem_later _).2
    ⟨p, rfl, hbreaks p (Nat.le_of_lt_succ hlt) (Nat.lt_succ_self p), hend⟩
  refine h.ordered.push?_truncateAfter hmem hlt fun q hq haq => ?_
  by_contra hqb
  exact h.not_mem_of_breakAt (hbreaks q (Nat.le_of_lt haq) (Nat.lt_of_not_le hqb)) hq

end LineTable.Charts

namespace Tokenizer

variable {t v : Tokenizer σ} {T : LineTable} {s : UnitStream} {u : UInt32} {floor place : Nat}

/-- **A tokenizer knows the lines of its stream** up to its place. -/
inductive Tracks (t : Tokenizer σ) (T : LineTable) (s : UnitStream) : Prop
  /-- every line that starts up to here has been found -/
  | settled (hrun : t.newlineRun = none) (hlines : t.lines = T.truncateAfter t.position)
  /-- there have been nothing but line breaks from `first` on -/
  | pending (first : Nat) (hrun : t.newlineRun = some first)
    (hlines : t.lines = T.truncateAfter first) (hlt : first < t.position)
    (hbreaks : ∀ q, first ≤ q → q < t.position → s.BreakAt q)

namespace Tracks

/-- What a tokenizer knows of the lines is told by three of its fields. -/
theorem congr (h : t.Tracks T s) (hposition : v.position = t.position) (hlines : v.lines = t.lines)
    (hrun : v.newlineRun = t.newlineRun) : v.Tracks T s := by
  cases h with
  | settled hr hl => exact .settled (hrun.trans hr) (by rw [hlines, hposition, hl])
  | pending first hr hl hlt hbreaks =>
    exact .pending first (hrun.trans hr) (hlines.trans hl) (by rwa [hposition])
      (by rwa [hposition])

theorem origin_eq (h : t.Tracks T s) : t.lines.origin = T.origin := by
  cases h with
  | settled _ hlines => rw [hlines]; rfl
  | pending _ _ hlines => rw [hlines]; rfl

/-- **The line of a place that has been read** is the one it has in the
stream. -/
theorem lookup_eq (h : t.Tracks T s) (hT : T.Charts s) {q : Nat} (hq : q < t.position) :
    t.lines.lookup q = T.lookup q := by
  cases h with
  | settled _ hlines => rw [hlines, T.lookup_truncateAfter (Nat.le_of_lt hq)]
  | pending first _ hlines hlt hbreaks =>
    have hlast : t.lines = T.truncateAfter (t.position - 1) := by
      rw [hlines]
      exact hT.truncateAfter_eq_of_breaks (by omega) fun q hq hle =>
        hbreaks q (Nat.le_of_lt hq) (by omega)
    rw [hlast, T.lookup_truncateAfter (by omega)]

/-- **Noting a character** gives the lines up to it, whether or not the last
of them had been found before. -/
theorem trackLines_eq (h : t.Tracks T s) (hT : T.Charts s) (hu : s.at? t.position = some u) :
    t.step.trackLines t.position (leadToChar u) = .ok (t.tracked (T.truncateAfter t.position)
      (if IsBreak u then some (t.newlineRun.getD t.position) else none)) := by
  rw [trackLines]
  by_cases hbreak : IsBreak u
  · rw [if_pos hbreak, if_pos (show Category.of (leadToChar u) = .newline from hbreak)]
    have hlines : t.lines = T.truncateAfter t.position := by
      cases h with
      | settled _ hlines => exact hlines
      | pending first _ hlines hlt hbreaks =>
        rw [hlines]
        refine hT.truncateAfter_eq_of_breaks (Nat.le_of_lt hlt) fun q hq hle => ?_
        obtain hlt | rfl := Nat.lt_or_eq_of_le hle
        · exact hbreaks q (Nat.le_of_lt hq) hlt
        · exact ⟨u, hu, hbreak⟩
    rw [← hlines]
    rfl
  · rw [if_neg hbreak, if_neg (show ¬Category.of (leadToChar u) = .newline from hbreak)]
    cases h with
    | settled hrun hlines =>
      have hnone : t.step.newlineRun.isNone = true := by
        show t.newlineRun.isNone = true
        rw [hrun]
        rfl
      rw [if_pos hnone, ← hlines, ← hrun]
      rfl
    | pending first hrun hlines hlt hbreaks =>
      have hsome : ¬t.step.newlineRun.isNone = true := by
        show ¬t.newlineRun.isNone = true
        rw [hrun]
        exact Bool.false_ne_true
      have hend : ¬s.BreakAt t.position := by
        rintro ⟨w, hw, hbreak'⟩
        obtain rfl := Option.some.inj (hu.symm.trans hw)
        exact hbreak hbreak'
      have hpush := hT.push?_truncateAfter hlt hbreaks hend
      rw [← hlines] at hpush
      rw [if_neg hsome, show t.step.lines.push? t.position = _ from hpush]
      rfl

/-- After a character that has been noted, the lines are known again. -/
theorem tracked (h : t.Tracks T s) (hT : T.Charts s) (hu : s.at? t.position = some u) :
    (t.tracked (T.truncateAfter t.position)
      (if IsBreak u then some (t.newlineRun.getD t.position) else none)).Tracks T s := by
  by_cases hbreak : IsBreak u
  · have hat : s.BreakAt t.position := ⟨u, hu, hbreak⟩
    rw [if_pos hbreak]
    cases h with
    | settled hrun hlines =>
      rw [hrun]
      refine .pending t.position rfl rfl (Nat.lt_succ_self _) fun q hq hlt => ?_
      obtain rfl : q = t.position := Nat.le_antisymm (Nat.le_of_lt_succ hlt) hq
      exact hat
    | pending first hrun hlines hlt hbreaks =>
      have hall (q : Nat) (hq : first ≤ q) (hle : q ≤ t.position) : s.BreakAt q := by
        obtain hlt | rfl := Nat.lt_or_eq_of_le hle
        · exact hbreaks q hq hlt
        · exact hat
      rw [hrun]
      refine .pending first rfl ?_ (Nat.lt_succ_of_lt hlt) fun q hq hlt =>
        hall q hq (Nat.le_of_lt_succ hlt)
      exact (hT.truncateAfter_eq_of_breaks (Nat.le_of_lt hlt) fun q hq hle =>
        hall q (Nat.le_of_lt hq) hle).symm
  · rw [if_neg hbreak]
    refine .settled rfl (hT.truncateAfter_eq_of_no_breaks (Nat.le_succ _) fun q hq hlt => ?_)
    obtain rfl : q = t.position := Nat.le_antisymm (Nat.le_of_lt_succ hlt) hq
    rintro ⟨w, hw, hbreak'⟩
    obtain rfl := Option.some.inj (hu.symm.trans hw)
    exact hbreak hbreak'

/-- A unit that leads nothing never stands behind line breaks. -/
theorem settled_of_continuesAt (h : t.Tracks T s) (hs : s.Glyphs t.encoding)
    (hcont : s.ContinuesAt t.encoding t.position) :
    t.newlineRun = none ∧ t.lines = T.truncateAfter t.position := by
  cases h with
  | settled hrun hlines => exact ⟨hrun, hlines⟩
  | pending first _ _ hlt hbreaks =>
    obtain ⟨p, hp⟩ := Nat.exists_eq_add_one_of_ne_zero (Nat.ne_zero_of_lt hlt)
    rw [hp] at hcont
    exact (hs.behind p (hbreaks p (by omega) (by omega)) hcont).elim

/-- **Feeding the next unit** of the stream keeps the lines known. -/
theorem fed {r : Bool} (h : t.Tracks T s) (hT : T.Charts s) (hs : s.Glyphs t.encoding)
    (hu : s.at? t.position = some u) (hfed : Fed t u r v) : v.Tracks T s := by
  cases hfed with
  | passed hunit =>
    have hcont : s.ContinuesAt t.encoding t.position := ⟨u, hu, hunit⟩
    obtain ⟨hrun, hlines⟩ := h.settled_of_continuesAt hs hcont
    refine .settled hrun (hlines.trans ?_)
    refine hT.truncateAfter_eq_of_no_breaks (Nat.le_succ _) fun q hq hlt => ?_
    obtain rfl : q = t.position := Nat.le_antisymm (Nat.le_of_lt_succ hlt) hq
    exact hcont.not_breakAt
  | led _ lines run hlines _ _ htreated =>
    obtain ⟨hposition, hsame, hrun⟩ := htreated.frame
    have hnoted := Except.ok.inj (hlines.symm.trans (h.trackLines_eq hT hu))
    have htracks := h.tracked hT hu
    rw [← hnoted] at htracks
    exact htracks.congr hposition hsame hrun

/-- The end of the stream leaves the lines as they are. -/
theorem finished (h : t.Tracks T s) : t.finished.Tracks T s :=
  have ⟨hposition, hlines, hrun⟩ := frame_finished t
  h.congr hposition hlines hrun

/-- **Moving keeps the lines known**, wherever the tokenizer moves back to. It
may also move forward within a glyph. -/
theorem rewind (h : t.Tracks T s) (hT : T.Charts s) (hs : s.Glyphs t.encoding)
    (hplace : ∀ q, t.position ≤ q → q < place → s.ContinuesAt t.encoding q) :
    (t.rewind place).Tracks T s := by
  have hcut (a : Nat) (hlines : t.lines = T.truncateAfter a) :
      (t.rewind place).lines = T.truncateAfter (min a place) := by
    rw [← LineTable.truncateAfter_truncateAfter, ← hlines]
    rfl
  obtain hforward | hback := Nat.lt_or_ge t.position place
  · -- within a glyph no line starts
    obtain ⟨hrun, hlines⟩ := h.settled_of_continuesAt hs (hplace _ (Nat.le_refl _) hforward)
    refine .settled (by show t.newlineRun.filter _ = none; rw [hrun]; rfl) ?_
    rw [hcut _ hlines, Nat.min_eq_left (Nat.le_of_lt hforward)]
    exact hT.truncateAfter_eq_of_no_breaks (Nat.le_of_lt hforward) fun q hq hlt =>
      (hplace q hq hlt).not_breakAt
  cases h with
  | settled hrun hlines =>
    refine .settled (by show t.newlineRun.filter _ = none; rw [hrun]; rfl) ?_
    rw [hcut _ hlines, Nat.min_eq_right hback]
    rfl
  | pending first hrun hlines hlt hbreaks =>
    have hfilter : (t.rewind place).newlineRun = if first < place then some first else none := by
      show t.newlineRun.filter _ = _
      rw [hrun, Option.filter_some]
      simp
    by_cases hfirst : first < place
    · rw [if_pos hfirst] at hfilter
      refine .pending first hfilter ?_ hfirst fun q hq hlt =>
        hbreaks q hq (Nat.lt_of_lt_of_le hlt hback)
      rw [hcut _ hlines, Nat.min_eq_left (Nat.le_of_lt hfirst)]
    · rw [if_neg hfirst] at hfilter
      refine .settled hfilter ?_
      rw [hcut _ hlines, Nat.min_eq_right (Nat.le_of_not_lt hfirst)]
      rfl

end Tracks

/-- A tokenizer at the start of its stream knows the first line. -/
theorem tracks_of_start (hT : T.Charts s) (hposition : t.position = T.origin)
    (hlines : t.lines = .new T.firstLine T.origin) (hrun : t.newlineRun = none) :
    t.Tracks T s :=
  .settled hrun (by rw [hlines, hposition, hT.ordered.truncateAfter_origin])

end Tokenizer

end Lexing
