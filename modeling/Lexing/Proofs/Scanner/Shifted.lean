import Lexing.Proofs.Scanner.Scan
import Lexing.Proofs.Tokenizer.Shifted

/-!
# Where a source starts

The offset and the line at which a source starts are only added to what a scan
finds (`scan_shifted`). A scanner turns a place in the stream into an index of
its units and back again, and in both it counts from the first unit; so if the
first unit stands further on, and all places with it, each search reads the
same units, and each commit leaves the same ones (`Scanner.scanFrom_shift`).

The two scans of the theorem are each the shift of a third one, which starts
at offset and line zero: lines can then only be added, also to a source whose
first line is given as zero.
-/

namespace Lexing

variable {σ : Type} {d : Shift}

namespace Scanner

/-- Lexemes and what stands behind them, further on. -/
def shiftFound {α : Type} (d : Shift) (f : α → α) (p : List Lexeme × α) : List Lexeme × α :=
  (p.1.map (Lexeme.shift d), f p.2)

/-- **A search** finds the same lexemes, further on. -/
theorem search_shift (t : Tokenizer σ) (units : List UInt32) :
    search (t.shift d) units = d.answer (shiftFound d (Tokenizer.shift d)) (search t units) := by
  induction units generalizing t with
  | nil =>
    unfold search
    refine Shift.answer_bind t.finish_shift fun p => ?_
    show Except.ok (p.2.shift d).take = Except.ok _
    rw [Tokenizer.take_shift]
    rfl
  | cons unit rest ih =>
    unfold search
    refine Shift.answer_bind (t.feed_shift unit) fun p => ?_
    obtain ⟨ready, v⟩ := p
    show (if (ready && !(v.shift d).results.isEmpty) = true then Except.ok (v.shift d).take
      else search (v.shift d) rest) = d.answer _ (if _ then Except.ok v.take else search v rest)
    rw [Tokenizer.isEmpty_results_shift, Tokenizer.take_shift, ih]
    split <;> rfl

variable {tokens : List (Token σ)} {s : Scanner σ Unit}

/-- The same scanner, over a stream that starts elsewhere. -/
def shift (d : Shift) (s : Scanner σ Unit) : Scanner σ Unit :=
  { s with tokenizer := s.tokenizer.shift d }

theorem choose_shift (hg : s.grammar = .ofTokens tokens) (lexemes : List Lexeme) :
    (s.shift d).choose (lexemes.map (Lexeme.shift d))
      = (s.choose lexemes).map (Lexeme.shift d) := by
  rw [choose_eq_head? (s := s.shift d) hg, choose_eq_head? hg, List.head?_map]

theorem commit_shift (hg : s.grammar = .ofTokens tokens) (hlog : s.log = none) (t : Tokenizer σ)
    (l : Lexeme) : (s.shift d).commit (t.shift d) (l.shift d) = (s.commit t l).shift d := by
  have hrewind : (t.shift d).rewind (l.shift d).stop = (t.rewind l.stop).shift d :=
    t.rewind_shift l.stop
  unfold commit shift
  rw [hlog, hg, hrewind]
  rfl

/-- **A scan from an index on** commits the same lexemes, further on. -/
theorem scanFrom_shift (hg : s.grammar = .ofTokens tokens) (hlog : s.log = none) (base : Nat)
    (units : List UInt32) (next : Nat) :
    (s.shift d).scanFrom (base + d.places) units next
      = d.answer (shiftFound d (shift d)) (s.scanFrom base units next) := by
  induction hleft : units.length - next using Nat.strong_induction_on generalizing s next with
  | h left ih =>
    rw [scanFrom, scanFrom]
    refine Shift.answer_bind (search_shift s.tokenizer _) fun p => ?_
    obtain ⟨lexemes, t⟩ := p
    simp only [shiftFound, choose_shift hg]
    cases s.choose lexemes with
    | none => rfl
    | some l =>
      -- the index behind the lexeme is the same
      have hstop : (l.shift d).stop - (base + d.places) = l.stop - base :=
        Nat.add_sub_add_right ..
      simp only [Option.map_some, hstop]
      split
      next hforward =>
        have hcommit := commit_shift (d := d) hg hlog t l
        rw [hcommit]
        have hlater := ih (units.length - (l.stop - base)) (by omega) (s := s.commit t l) hg
          (by rw [commit, hlog]; rfl) (l.stop - base) rfl
        exact Shift.answer_bind hlater fun p => rfl
      · rfl

/-- **So does the scan of a source.** -/
theorem scan_shift (hg : s.grammar = .ofTokens tokens) (hlog : s.log = none) (source : String) :
    (s.shift d).scan source = d.answer (shiftFound d (shift d)) (s.scan source) :=
  scanFrom_shift hg hlog s.tokenizer.position _ 0

/-- A scanner whose source starts anywhere. -/
theorem ofTokens_eq_shift (tokens : List (Token σ)) (config : TokenizerConfig)
    (reserved : Option Reserved) (policies : PolicyTable) :
    ofTokens tokens config reserved policies
      = (ofTokens tokens { config with offset := 0, line := 0 } reserved policies).shift
          ⟨config.offset, config.line⟩ := by
  simp [ofTokens, new, shift, Tokenizer.shift, Tokenizer.new, LineTable.shift, LineTable.new,
    Signature.shift, Grammar.setup, Grammar.ofTokens, TokenizerConfig.mode,
    TokenizerConfig.policyTable]

end Scanner

/-- **Offset and line of the start are only added**: a scan commits the lexemes
of the same source at offset 0 and line 1, further on by the one and by one
less than the other. -/
theorem scan_shifted (tokens : List (Token σ)) (config : TokenizerConfig)
    (reserved : Option Reserved) (policies : PolicyTable) (source : String) :
    ∃ lexemes s s',
      (Scanner.ofTokens tokens { config with offset := 0, line := 1 } reserved policies).scan source
        = .ok (lexemes, s) ∧
      (Scanner.ofTokens tokens config reserved policies).scan source
        = .ok (lexemes.map fun l => { l with
            start := l.start + config.offset
            stop := l.stop + config.offset
            line := l.line + config.line - 1 }, s') := by
  obtain ⟨lexemes, s, hscan, -⟩ := Scanner.scanUnits_total tokens
    { config with offset := 0, line := 0 } reserved policies (config.encoding.units source)
  have hshifted (d : Shift) : ((Scanner.ofTokens tokens { config with offset := 0, line := 0 }
      reserved policies).shift d).scan source
      = .ok (lexemes.map (Lexeme.shift d), s.shift d) := by
    rw [Scanner.scan_shift rfl rfl]
    show d.answer _ (Scanner.scanUnits _ (config.encoding.units source)) = _
    rw [hscan]
    rfl
  refine ⟨lexemes.map (Lexeme.shift ⟨0, 1⟩), s.shift ⟨0, 1⟩, s.shift ⟨config.offset, config.line⟩,
    ?_, ?_⟩
  · rw [Scanner.ofTokens_eq_shift]
    exact hshifted ⟨0, 1⟩
  · rw [Scanner.ofTokens_eq_shift, hshifted, List.map_map]
    congr 3
    funext l
    -- the line of the third scan counts from zero
    have hline : l.line + 1 + config.line - 1 = l.line + config.line := by omega
    simp [Lexeme.shift, hline]

end Lexing
