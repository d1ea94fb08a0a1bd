import Lexing.Proofs.Scanner.Characters
import Lexing.Proofs.Tokenizer.Origin
import Lexing.Proofs.Tokenizer.Tracked

/-!
# The lines of committed lexemes

A lexeme gets its line from what the tokenizer knows when the lexeme begins,
and that is the line its start has in the whole source (`Located`). This holds
for all that a tokenizer has in hand: the candidates, the unmatched run and the
lexemes that wait.

Every commit moves the tokenizer back to the end of a lexeme. There is one case
in which that is a move forward, a lexeme that ends with the very glyph whose
first unit has just been fed, and then nothing but the rest of that glyph lies
in between (`RestOfGlyph`). So the lines are known after every commit, and each
lexeme of a scan has the line that its source gives it, however often the
scanner has moved (`scan_locates`).
-/

namespace Lexing

variable {σ : Type}

namespace UnitStream

variable {s : UnitStream} {e : Encoding} {p q : Nat} {unit : UInt32} {units : List UInt32}

/-- From a place up to another there is nothing but the rest of a glyph. -/
def RestOfGlyph (s : UnitStream) (e : Encoding) (p q : Nat) : Prop :=
  ∀ i, p ≤ i → i < q → s.ContinuesAt e i

theorem restOfGlyph_of_le (h : q ≤ p) : s.RestOfGlyph e p q :=
  fun _ hi hlt => absurd hlt (Nat.not_lt.2 (Nat.le_trans h hi))

theorem RestOfGlyph.mono (h : s.RestOfGlyph e p q) {p' : Nat} (hle : p ≤ p') :
    s.RestOfGlyph e p' q :=
  fun i hi hlt => h i (Nat.le_trans hle hi) hlt

/-- Behind a lead stands the rest of its glyph. -/
theorem Glyphs.restOfGlyph (h : s.Glyphs e) (hunit : s.at? p = some unit) :
    s.RestOfGlyph e (p + 1) (p + e.glyphUnits unit) := fun i hi hlt => by
  obtain ⟨j, rfl⟩ := Nat.exists_eq_add_of_le (Nat.le_of_succ_le hi)
  exact h.whole p unit hunit j (by omega) (by omega)

/-- These are the units from a place on. -/
def From (s : UnitStream) (p : Nat) (units : List UInt32) : Prop :=
  ∀ i, s.at? (p + i) = units[i]?

theorem From.head (h : s.From p (unit :: units)) : s.at? p = some unit := h 0

theorem From.drop (h : s.From p units) (n : Nat) : s.From (p + n) (units.drop n) := fun i => by
  rw [Nat.add_assoc, h, List.getElem?_drop]

theorem from_offset (s : UnitStream) : s.From s.offset s.units := s.at?_offset_add

end UnitStream

variable {T : LineTable} {s : UnitStream} {e : Encoding} {p : Nat}

/-- **A lexeme that is where it says to be**: it has the line of its start, and
it ends before a place or with the glyph that stands there. -/
structure Lexeme.Located (l : Lexeme) (T : LineTable) (s : UnitStream) (e : Encoding) (p : Nat) :
    Prop where
  line_eq : l.line = (T.lookup l.start).1
  start_eq : l.start = (T.lookup l.start).2 + l.lineOffset
  rest : s.RestOfGlyph e p l.stop

theorem Lexeme.Located.mono {l : Lexeme} (h : l.Located T s e p) {p' : Nat} (hle : p ≤ p') :
    l.Located T s e p' :=
  ⟨h.line_eq, h.start_eq, h.rest.mono hle⟩

theorem Lexeme.located_of_lookup {l : Lexeme} {lineStart : Nat}
    (hlookup : T.lookup l.start = (l.line, lineStart))
    (hoffset : l.lineOffset = l.start - lineStart) (horigin : T.origin ≤ l.start)
    (hrest : s.RestOfGlyph e p l.stop) : l.Located T s e p where
  line_eq := by rw [hlookup]
  start_eq := by
    have hle := T.lookup_start_le horigin
    rw [hlookup] at hle ⊢
    rw [hoffset]
    exact (Nat.add_sub_cancel' hle).symm
  rest := hrest

namespace Tokenizer

variable {t u v : Tokenizer σ} {floor here width place : Nat} {c : Char} {r : Bool}

/-- **All that a tokenizer has in hand** is where it says to be. -/
structure Located (t : Tokenizer σ) (T : LineTable) (s : UnitStream) : Prop where
  buckets : ∀ b ∈ t.active, T.lookup b.start = (b.line, b.lineStart)
  run : ∀ run, t.unmatched = some run → run.ready.lexeme.Located T s t.encoding t.position
  results : ∀ q ∈ t.results, q.lexeme.Located T s t.encoding t.position

/-- Moving on loses nothing. -/
theorem Located.moved (h : t.Located T s) (hactive : u.active = t.active)
    (hunmatched : u.unmatched = t.unmatched) (hresults : u.results = t.results)
    (hencoding : u.encoding = t.encoding) (hposition : t.position ≤ u.position) :
    u.Located T s where
  buckets := by
    rw [hactive]
    exact h.buckets
  run run hrun := by
    rw [hencoding]
    exact (h.run run (hunmatched.symm.trans hrun)).mono hposition
  results q hq := by
    rw [hencoding]
    rw [hresults] at hq
    exact (h.results q hq).mono hposition

/-- **Treating a character** keeps all in its place. -/
theorem Treated.located (htreated : Treated t here width c r u) (h : t.Located T s)
    (hb : t.Between floor here) (hfloor : floor ≤ here) (horigin : T.origin ≤ floor)
    (hlines : t.lines = T.truncateAfter here) (hposition : t.position = here + 1)
    (hglyph : s.RestOfGlyph t.encoding (here + 1) (here + width)) : u.Located T s := by
  have hcurrent : T.lookup here = t.lines.current := by rw [hlines, T.lookup_eq_current]
  have hhere := Nat.le_trans horigin hfloor
  have hpast {stop : Nat} (hstop : stop ≤ here) : s.RestOfGlyph t.encoding (here + 1) stop :=
    UnitStream.restOfGlyph_of_le (Nat.le_succ_of_le hstop)
  obtain ⟨hbuckets, hrun, hresults⟩ := h
  rw [hposition] at hrun hresults
  have hplace := htreated.frame.1.trans hposition
  refine ⟨fun b hmem => ?_, fun run hunmatched => ?_, fun q hq => ?_⟩
  · obtain ⟨a, ha, live, rfl, -⟩ | rfl := htreated.bucket_from hmem
    · exact hbuckets a ha
    · exact hcurrent
  · rw [htreated.setupAs.encoding, hplace]
    obtain hsame | rfl := htreated.run_from hunmatched
    · exact hrun run hsame
    · rw [extendedRun]
      cases hbefore : t.unmatched with
      | none => exact Lexeme.located_of_lookup hcurrent rfl hhere hglyph
      | some before => exact ⟨(hrun before hbefore).line_eq, (hrun before hbefore).start_eq, hglyph⟩
  · rw [htreated.setupAs.encoding, hplace]
    cases htreated.given hq with
    | waiting hq => exact hresults q hq
    | yielded b hmem x hx hq =>
      obtain ⟨n, st, -, rfl⟩ := Bucket.mem_yield.1 hq
      have hstart := (hb.fits b hmem).floor_le_start hb.within
      exact Lexeme.located_of_lookup (hbuckets b hmem) rfl (Nat.le_trans horigin hstart)
        (hpast (hb.within.boundary_le _))
    | alone => exact Lexeme.located_of_lookup hcurrent rfl hhere hglyph
    | run run hunmatched => exact hrun run hunmatched
    | wasted hlength =>
      have hstart := Nat.le_trans horigin (hb.within.floor_le_boundary hlength)
      have hlookup := T.lookup_truncateAfter (hb.within.boundary_le 0)
      rw [← hlines] at hlookup
      exact Lexeme.located_of_lookup hlookup.symm rfl hstart (hpast (Nat.le_refl _))

/-- **A tokenizer in order that knows its lines**, with all in its place. -/
structure Surveyed (t : Tokenizer σ) (T : LineTable) (s : UnitStream) (floor : Nat) : Prop where
  placed : t.Placed floor
  glyphs : s.Glyphs t.encoding
  tracks : t.Tracks T s
  located : t.Located T s

namespace Surveyed

theorem origin_le (h : t.Surveyed T s floor) : T.origin ≤ floor := by
  rw [← h.tracks.origin_eq]
  exact h.placed.lines.origin_le

/-- **Feeding the next unit** keeps all in its place. -/
theorem fed {unit : UInt32} (h : t.Surveyed T s floor) (hT : T.Charts s)
    (hunit : s.at? t.position = some unit) (hfed : Fed t unit r v) : v.Surveyed T s floor := by
  refine ⟨hfed.placed h.placed, ?_, h.tracks.fed hT h.glyphs hunit hfed, ?_⟩
  · rw [hfed.setupAs.encoding]
    exact h.glyphs
  cases hfed with
  | passed => exact h.located.moved rfl rfl rfl rfl (Nat.le_succ _)
  | led _ lines run hlines _ _ htreated =>
    have hnoted := Except.ok.inj (hlines.symm.trans (h.tracks.trackLines_eq hT hunit))
    exact htreated.located (h.located.moved rfl rfl rfl rfl (Nat.le_succ _))
      (h.placed.held.tracked lines run) h.placed.floor_le h.origin_le
      (congrArg Tokenizer.lines hnoted) rfl (h.glyphs.restOfGlyph hunit)

/-- **The end of the stream** keeps all in its place. -/
theorem finished (h : t.Surveyed T s floor) (hT : T.Charts s) : t.finished.Surveyed T s floor := by
  have hsetup := setupAs_finished t
  refine ⟨h.placed.finished, by rw [hsetup.encoding]; exact h.glyphs, h.tracks.finished, ?_⟩
  have hw := h.placed.held.within
  refine ⟨fun b hb => ?_, fun run hrun => (nomatch hrun), fun q hq => ?_⟩
  · rw [active_finished] at hb
    exact nomatch hb
  · rw [hsetup.encoding, (frame_finished t).1]
    obtain hq | ⟨b, hb, x, -, hq⟩ | ⟨hactive, rfl⟩ | ⟨run, hrun, rfl⟩ := mem_finished hq
    · exact h.located.results q hq
    · obtain ⟨n, st, -, rfl⟩ := Bucket.mem_yield.1 hq
      have hstart := (h.placed.held.fits b hb).floor_le_start hw
      exact Lexeme.located_of_lookup (h.located.buckets b hb) rfl (Nat.le_trans h.origin_le hstart)
        (UnitStream.restOfGlyph_of_le (hw.boundary_le _))
    · have hlength := h.placed.held.length_pos hactive
      have hlookup := h.tracks.lookup_eq hT (hw.boundary_lt_stop hlength)
      exact Lexeme.located_of_lookup hlookup.symm rfl
        (Nat.le_trans h.origin_le (hw.floor_le_boundary hlength))
        (UnitStream.restOfGlyph_of_le (Nat.le_refl _))
    · exact h.located.run run hrun

/-- **Starting afresh** at the end of what has been read, or of its last
glyph. -/
theorem rewind (h : t.Surveyed T s floor) (hT : T.Charts s) (hfloor : floor ≤ place)
    (hrest : s.RestOfGlyph t.encoding t.position place) :
    (t.rewind place).Surveyed T s place where
  placed := placed_rewind h.placed.lines place (Nat.le_trans h.placed.lines.origin_le hfloor)
  glyphs := h.glyphs
  tracks := h.tracks.rewind hT h.glyphs hrest
  located := ⟨fun _ hb => (nomatch hb), fun _ hrun => (nomatch hrun), fun _ hq => (nomatch hq)⟩

end Surveyed

end Tokenizer

open Tokenizer

variable {t v : Tokenizer σ} {units : List UInt32} {lexemes : List Lexeme} {floor : Nat}

theorem Searched.surveyed (hsearch : Searched t units v) (hT : T.Charts s)
    (h : t.Surveyed T s floor) (hunits : s.From t.position units) : v.Surveyed T s floor := by
  induction hsearch with
  | finished t => exact h.finished hT
  | ready hfed => exact h.fed hT hunits.head hfed
  | onward hfed _ ih =>
    refine ih (h.fed hT hunits.head hfed) ?_
    rw [hfed.position_eq]
    exact hunits.drop 1

/-- What a scan commits has the lines of the stream. -/
theorem Committed.located (hcommitted : Committed t units lexemes) (hT : T.Charts s)
    (h : t.Surveyed T s floor) (hunits : s.From t.position units) :
    ∀ l ∈ lexemes,
      l.line = (T.lookup l.start).1 ∧ l.start = (T.lookup l.start).2 + l.lineOffset := by
  induction hcommitted generalizing floor with
  | done => exact fun l hl => nomatch hl
  | @commit t v units q n rest hsearch hfirst hstop _ ih =>
    have hv := hsearch.surveyed hT h hunits
    have hq := mem_of_first? hfirst
    have hlocated := hv.located.results q hq
    have habove := hv.placed.held.results q hq
    have hfloor := Nat.le_trans habove.floor_le (Nat.le_of_lt habove.nonempty)
    refine List.forall_mem_cons.2 ⟨⟨hlocated.line_eq, hlocated.start_eq⟩,
      ih (hv.rewind hT hfloor hlocated.rest) ?_⟩
    show s.From q.lexeme.stop (units.drop n)
    rw [hstop]
    exact hunits.drop n

/-- **A maximal run of line breaks** in a text, and where it ends if the text
starts at an offset. -/
structure BreakRun (e : Encoding) (o : Nat) (front run back : List Char) (stop : Nat) : Prop where
  nonempty : run ≠ []
  breaks : ∀ c ∈ run, Category.of c = .newline
  before : front.getLast?.map Category.of ≠ some .newline
  behind : back.head?.map Category.of ≠ some .newline
  stop_eq : stop = o + e.size (front ++ run)

/-- **The ends that are listed** are those of the maximal runs. -/
theorem mem_breakEnds_iff {e : Encoding} {o q : Nat} {text : List Char} :
    q ∈ breakEnds e o text ↔
      ∃ front run back, text = front ++ run ++ back ∧ BreakRun e o front run back q := by
  induction text generalizing o with
  | nil =>
    refine ⟨fun h => (nomatch h), fun ⟨front, run, back, htext, hrun⟩ => ?_⟩
    obtain ⟨hfront, -⟩ := List.append_eq_nil_iff.1 htext.symm
    exact absurd (List.append_eq_nil_iff.1 hfront).2 hrun.nonempty
  | cons c text ih =>
    rw [mem_breakEnds_cons, ih]
    constructor
    · rintro (⟨⟨hc, hnext⟩, rfl⟩ | ⟨front, run, back, rfl, hrun⟩)
      · exact ⟨[], [c], text, rfl, by simp, by simpa using hc, by simp, hnext, by simp⟩
      · have hstop (front' run' : List Char) (h : front' ++ run' = c :: (front ++ run)) :
            q = o + e.size (front' ++ run') := by
          rw [hrun.stop_eq, h, Encoding.size_cons, Nat.add_assoc]
        cases front with
        | cons d front =>
          refine ⟨c :: d :: front, run, back, rfl, hrun.nonempty, hrun.breaks, ?_, hrun.behind,
            hstop _ _ rfl⟩
          simpa using hrun.before
        | nil =>
          -- a break just before the run belongs to it
          by_cases hc : Category.of c = .newline
          · exact ⟨[], c :: run, back, rfl, by simp, List.forall_mem_cons.2 ⟨hc, hrun.breaks⟩,
              by simp, hrun.behind, hstop _ _ rfl⟩
          · exact ⟨[c], run, back, rfl, hrun.nonempty, hrun.breaks, by simpa using hc, hrun.behind,
              hstop _ _ rfl⟩
    · rintro ⟨front, run, back, htext, hrun⟩
      have hstop (front' run' : List Char) (h : front ++ run = c :: (front' ++ run')) :
          q = o + e.unitLen c + e.size (front' ++ run') := by
        rw [hrun.stop_eq, h, Encoding.size_cons, Nat.add_assoc]
      cases front with
      | cons d front =>
        obtain ⟨rfl, rfl⟩ := List.cons.inj htext
        refine .inr ⟨front, run, back, rfl, hrun.nonempty, hrun.breaks, ?_, hrun.behind,
          hstop _ _ rfl⟩
        have hbefore := hrun.before
        cases front with
        | nil => simp
        | cons => simpa using hbefore
      | nil =>
        cases run with
        | nil => exact absurd rfl hrun.nonempty
        | cons d run =>
          obtain ⟨rfl, rfl⟩ := List.cons.inj htext
          obtain ⟨hc, hbreaks⟩ := List.forall_mem_cons.1 hrun.breaks
          cases run with
          | nil => exact .inl ⟨⟨hc, hrun.behind⟩, by simpa using hrun.stop_eq⟩
          | cons d run =>
            exact .inr ⟨[], d :: run, back, rfl, by simp, hbreaks, by simp, hrun.behind,
              hstop _ _ rfl⟩

example : breakEnds .utf8 0 "a\n\r\nb\n".toList = [4, 6] := by decide

/-- **Line numbers survive moving back.** Whatever the encoding, the mode and
the policies are, and however often the scanner starts afresh, a committed
lexeme is on the line that the maximal runs of line breaks before its start
give it, and its offset counts from the end of the last of them. -/
theorem scan_locates (tokens : List (Token σ)) (config : TokenizerConfig)
    (reserved : Option Reserved) (policies : PolicyTable) (source : String) :
    ∃ lexemes s',
      (Scanner.ofTokens tokens config reserved policies).scan source = .ok (lexemes, s') ∧
      ∀ l ∈ lexemes, ∃ ends : List Nat, ends.Pairwise (· < ·) ∧
        (∀ q, q ∈ ends ↔ q ≤ l.start ∧ ∃ front run back, source.toList = front ++ run ++ back ∧
          BreakRun config.encoding config.offset front run back q) ∧
        l.line = config.line + ends.length ∧
        l.start = ends.getLastD config.offset + l.lineOffset := by
  obtain ⟨lexemes, s', hscan, hcommitted⟩ := Scanner.scanUnits_total tokens config reserved policies
    (config.encoding.units source)
  refine ⟨lexemes, s', hscan, fun l hl => ?_⟩
  have hT := charts_sourceLines config.line config.encoding config.offset source.toList
  have hs := UnitStream.glyphs_ofText config.encoding config.offset source.toList
  rw [config.encoding.units_eq_flatMap] at hcommitted
  have hsurveyed : (Scanner.ofTokens tokens config reserved policies).tokenizer.Surveyed
      (sourceLines config.line config.encoding config.offset source.toList)
      (.ofText config.encoding config.offset source.toList) config.offset :=
    ⟨Scanner.placed_ofTokens tokens config reserved policies, hs, tracks_of_start hT rfl rfl rfl,
      fun _ hb => (nomatch hb), fun _ hrun => (nomatch hrun), fun _ hq => (nomatch hq)⟩
  have hlocated := hcommitted.located hT hsurveyed (UnitStream.from_offset _) l hl
  rw [hT.ordered.lookup_eq_filter] at hlocated
  refine ⟨_, (List.pairwise_cons.1 hT.ordered).2.filter _, fun q => ?_, hlocated⟩
  rw [List.mem_filter, decide_eq_true_iff, and_comm]
  exact and_congr_right fun _ => mem_breakEnds_iff

end Lexing
