import Lexing.Proofs.Tokenizer.Outcome

/-!
# Tokenizers that start elsewhere

The places that a tokenizer remembers are offsets into its whole stream: where
its lines start, the characters of its signature, its buckets, its unmatched
run, the line breaks just read and the lexemes that wait. It adds to them and
compares them with each other, and it counts lines on from the first. So it
makes no difference to a tokenizer where its stream starts. If all its places
are shifted by one distance, and all its lines by another, it treats the next
unit as before, up to the same shift (`Tokenizer.feed_shift`), and so it does
the end of the stream (`Tokenizer.finish_shift`).

The statements are equations between answers, faults included: a fault names
the shifted places (`Shift.answer`). None of them asks for a tokenizer in order.
-/

namespace Lexing

variable {σ : Type}

/-- **A shift**: the distance by which places are moved, and lines. -/
structure Shift where
  places : Nat
  lines : Nat

/-- A fault at shifted places. -/
def Fault.shift (d : Shift) : Fault → Fault
  | lineOutOfOrder start => lineOutOfOrder (start + d.places)
  | offsetBeforeLine offset lineStart => offsetBeforeLine (offset + d.places) (lineStart + d.places)
  | reversedSpan start stop => reversedSpan (start + d.places) (stop + d.places)
  | fault => fault

namespace Shift

variable {α α' β β' : Type} {d : Shift}

/-- An answer that is shifted, or else its fault. -/
def answer (d : Shift) (f : α → β) : Except Fault α → Except Fault β
  | .ok a => .ok (f a)
  | .error fault => .error (fault.shift d)

/-- A shift goes through one step after the other. -/
theorem answer_bind {x : Except Fault α} {x' : Except Fault α'} {f : α → α'} {k : β → β'}
    {g : α → Except Fault β} {g' : α' → Except Fault β'} (hx : x' = d.answer f x)
    (hg : ∀ a, g' (f a) = d.answer k (g a)) : x' >>= g' = d.answer k (x >>= g) := by
  subst hx
  cases x with
  | error fault => rfl
  | ok a => exact hg a

end Shift

variable {d : Shift}

/-! ## Lines -/

namespace LineTable

/-- The lines of a stream that starts elsewhere. -/
def shift (d : Shift) (t : LineTable) : LineTable :=
  ⟨t.firstLine + d.lines, t.origin + d.places, t.later.map (· + d.places)⟩

variable {t : LineTable}

/-- A line, and where it starts, once shifted. -/
def shiftLine (d : Shift) (p : Nat × Nat) : Nat × Nat := (p.1 + d.lines, p.2 + d.places)

theorem takeWhile_le_shift (o : Nat) (xs : List Nat) :
    (xs.map (· + d.places)).takeWhile (· ≤ o + d.places)
      = (xs.takeWhile (· ≤ o)).map (· + d.places) := by
  rw [List.takeWhile_map]
  congr 2
  funext x
  simp

theorem indexOf_shift (t : LineTable) (o : Nat) :
    (t.shift d).indexOf (o + d.places) = t.indexOf o := by
  rw [indexOf, indexOf, shift, takeWhile_le_shift, List.length_map]

theorem lastStart_shift (t : LineTable) :
    (t.shift d).lastStart = t.lastStart + d.places := by
  rw [lastStart, lastStart, shift, List.getLastD_eq_getLast?, List.getLast?_map,
    List.getLastD_eq_getLast?]
  cases t.later.getLast? <;> rfl

theorem current_shift (t : LineTable) : (t.shift d).current = shiftLine d t.current := by
  rw [current, lastStart_shift]
  show (t.firstLine + d.lines + (t.later.map (· + d.places)).length, _) = _
  rw [List.length_map, Nat.add_right_comm]
  rfl

theorem lookup_shift (t : LineTable) (o : Nat) :
    (t.shift d).lookup (o + d.places) = shiftLine d (t.lookup o) := by
  have hstarts : (t.shift d).starts = t.starts.map (· + d.places) := rfl
  have hstart : (t.shift d).starts.getD (t.indexOf o) (t.origin + d.places)
      = t.starts.getD (t.indexOf o) t.origin + d.places := by
    rw [hstarts, List.getD_eq_getElem?_getD, List.getD_eq_getElem?_getD, List.getElem?_map]
    cases t.starts[t.indexOf o]? <;> rfl
  rw [lookup, indexOf_shift]
  show (t.firstLine + d.lines + _, (t.shift d).starts.getD (t.indexOf o) (t.origin + d.places)) = _
  rw [hstart, Nat.add_right_comm]
  rfl

theorem push?_shift (t : LineTable) (start : Nat) :
    (t.shift d).push? (start + d.places) = (t.push? start).map (shift d) := by
  rw [push?, push?, lastStart_shift]
  simp only [Nat.add_lt_add_iff_right]
  split
  · simp [shift]
  · rfl

theorem truncateAfter_shift (t : LineTable) (o : Nat) :
    (t.shift d).truncateAfter (o + d.places) = (t.truncateAfter o).shift d := by
  rw [truncateAfter, indexOf_shift]
  show (⟨_, _, (t.later.map (· + d.places)).take _⟩ : LineTable) = ⟨_, _, _⟩
  rw [← List.map_take]
  rfl

end LineTable

/-! ## Signatures and lexemes -/

namespace Signature

/-- The same characters, further on. -/
def shift (d : Shift) (s : Signature) : Signature := s.map fun x => (x.1, x.2 + d.places)

@[simp] theorem length_shift (s : Signature) : (s.shift d).length = s.length := List.length_map ..

theorem text_shift (s : Signature) : (s.shift d).text = s.text := by
  rw [text, shift, List.map_map]
  rfl

theorem textFrom_shift (s : Signature) (key : Nat) :
    (s.shift d).textFrom key = d.answer id (s.textFrom key) := by
  rw [textFrom, textFrom, length_shift, text, text, List.map_drop, List.map_drop, ← text, ← text,
    text_shift]
  split <;> rfl

theorem slice_shift (s : Signature) (key length : Nat) :
    (s.shift d).slice key length = d.answer id (s.slice key length) := by
  rw [slice, slice, length_shift, text, text, List.map_take, List.map_take, List.map_drop,
    List.map_drop, ← text, ← text, text_shift]
  split <;> rfl

theorem offsetAt_shift (s : Signature) (stop : Option Nat) (i : Nat) :
    (s.shift d).offsetAt (stop.map (· + d.places)) i
      = d.answer (· + d.places) (s.offsetAt stop i) := by
  unfold offsetAt
  rw [length_shift, shift, List.getElem?_map]
  cases s[i]? with
  | some x => rfl
  | none => cases stop <;> rfl

theorem snoc_shift (s : Signature) (c : Char) (here : Nat) :
    s.shift d ++ [(c, here + d.places)] = Signature.shift d (s ++ [(c, here)]) := by
  rw [shift, shift, List.map_append]
  rfl

theorem dropLast_shift (s : Signature) :
    List.dropLast (s.shift d) = Signature.shift d (List.dropLast s) :=
  List.map_dropLast.symm

end Signature

/-- The same lexeme, further on. -/
def Lexeme.shift (d : Shift) (l : Lexeme) : Lexeme :=
  { l with
    start := l.start + d.places
    stop := l.stop + d.places
    line := l.line + d.lines }

/-- **The place within a line stays**, since the line starts further on, too. -/
theorem Lexeme.make_shift (start stop line lineStart : Nat) (text : List Char)
    (value : Option Value) (token : Option TokenTag) :
    make (start + d.places) (stop + d.places) (line + d.lines) (lineStart + d.places) text value
        token
      = d.answer (Lexeme.shift d) (make start stop line lineStart text value token) := by
  rw [make, make]
  simp only [Nat.add_lt_add_iff_right, Nat.add_sub_add_right]
  split
  · rfl
  split <;> rfl

/-- The same lexeme that waits, further on. -/
def Ready.shift (d : Shift) (r : Ready) : Ready := { r with lexeme := r.lexeme.shift d }

/-- Decoding knows no places. -/
theorem Token.decode?_shift (token : Token σ) (st : σ) (text : List Char) :
    token.decode? st text = d.answer id (token.decode? st text) := by
  rw [decode?]
  split <;> rfl

/-! ## Candidates -/

namespace Bucket

/-- The same candidates, further on. -/
def shift (d : Shift) (b : Bucket σ) : Bucket σ :=
  { b with
    start := b.start + d.places
    line := b.line + d.lines
    lineStart := b.lineStart + d.places }

variable {b : Bucket σ}

theorem emit_shift (s : Signature) (stop : Option Nat) (x : Candidate σ) (length : Nat) (st : σ) :
    (b.shift d).emit (s.shift d) (stop.map (· + d.places)) x length st
      = d.answer (Ready.shift d) (b.emit s stop x length st) := by
  rw [emit, emit]
  refine Shift.answer_bind (s.slice_shift _ _) fun text => ?_
  refine Shift.answer_bind (s.offsetAt_shift _ _) fun stop => ?_
  refine Shift.answer_bind (x.token.decode?_shift _ _) fun value => ?_
  exact Shift.answer_bind (Lexeme.make_shift ..) fun l => rfl

theorem finish_shift (s : Signature) (stop : Option Nat) (text : List Char) (x : Candidate σ) :
    (b.shift d).finish (s.shift d) (stop.map (· + d.places)) text x
      = d.answer (List.map (Ready.shift d)) (b.finish s stop text x) := by
  rw [finish, finish]
  cases x.settled text with
  | none => rfl
  | some settled => exact Shift.answer_bind (emit_shift ..) fun r => rfl

end Bucket

namespace Tokenizer

/-- What a step comes to, further on. -/
def Stepped.shift {α : Type} (d : Shift) (f : α → α) (st : Stepped α) : Stepped α :=
  ⟨st.kept.map f, st.ready.map (Ready.shift d), st.stopped⟩

theorem stepCandidates_shift (b : Bucket σ) (s : Signature) (text : List Char) (c : Char)
    (terminate firstOnly : Bool) (xs : List (Candidate σ)) :
    stepCandidates (b.shift d) (s.shift d) text c terminate firstOnly xs
      = d.answer (Stepped.shift d id) (stepCandidates b s text c terminate firstOnly xs) := by
  induction xs with
  | nil => rfl
  | cons x xs ih =>
    rw [stepCandidates, stepCandidates]
    refine Shift.answer_bind ih fun later => ?_
    obtain ⟨kept, ready, stopped⟩ := later
    simp only [Stepped.shift, List.map_id]
    cases stopped with
    | true => simp [Shift.answer, Stepped.shift, pure, Except.pure]
    | false =>
      cases if terminate then none else x.advance? text c with
      | some y => simp [Shift.answer, Stepped.shift, pure, Except.pure]
      | none =>
        refine Shift.answer_bind (b.finish_shift s none text x) fun found => ?_
        simp [Shift.answer, Stepped.shift, pure, Except.pure]

theorem stepBuckets_shift (s : Signature) (c : Char) (terminate firstOnly : Bool)
    (bs : List (Bucket σ)) :
    stepBuckets (s.shift d) c terminate firstOnly (bs.map (Bucket.shift d))
      = d.answer (Stepped.shift d (Bucket.shift d)) (stepBuckets s c terminate firstOnly bs) := by
  induction bs with
  | nil => rfl
  | cons b bs ih =>
    rw [List.map_cons, stepBuckets, stepBuckets, Signature.dropLast_shift]
    refine Shift.answer_bind (Signature.textFrom_shift _ _) fun text => ?_
    refine Shift.answer_bind (stepCandidates_shift b s text c terminate firstOnly b.live)
      fun own => ?_
    obtain ⟨kept, ready, stopped⟩ := own
    simp only [Stepped.shift, List.map_id]
    cases stopped with
    | true => rfl
    | false =>
      refine Shift.answer_bind ih fun later => ?_
      simp [Shift.answer, Stepped.shift, Bucket.shift, pure, Except.pure]

theorem finishCandidates_shift (b : Bucket σ) (s : Signature) (stop : Nat) (text : List Char)
    (xs : List (Candidate σ)) :
    finishCandidates (b.shift d) (s.shift d) (stop + d.places) text xs
      = d.answer (List.map (Ready.shift d)) (finishCandidates b s stop text xs) := by
  induction xs with
  | nil => rfl
  | cons x xs ih =>
    rw [finishCandidates, finishCandidates]
    refine Shift.answer_bind ih fun later => ?_
    refine Shift.answer_bind (b.finish_shift s (some stop) text x) fun found => ?_
    simp [Shift.answer, pure, Except.pure]

theorem finishBuckets_shift (s : Signature) (stop : Nat) (bs : List (Bucket σ)) :
    finishBuckets (s.shift d) (stop + d.places) (bs.map (Bucket.shift d))
      = d.answer (List.map (Ready.shift d)) (finishBuckets s stop bs) := by
  induction bs with
  | nil => rfl
  | cons b bs ih =>
    rw [List.map_cons, finishBuckets, finishBuckets]
    refine Shift.answer_bind (s.textFrom_shift _) fun text => ?_
    refine Shift.answer_bind (finishCandidates_shift b s stop text b.live) fun own => ?_
    refine Shift.answer_bind ih fun later => ?_
    simp [Shift.answer, pure, Except.pure]

/-! ## Tokenizers -/

end Tokenizer

/-- The same unmatched run, further on. -/
def UnmatchedRun.shift (d : Shift) (run : UnmatchedRun) : UnmatchedRun :=
  { run with
    start := run.start + d.places
    stop := run.stop + d.places
    line := run.line + d.lines
    lineStart := run.lineStart + d.places }

namespace Tokenizer

/-- **The tokenizer of a stream that starts elsewhere**, with all that it
holds. -/
def shift (d : Shift) (t : Tokenizer σ) : Tokenizer σ :=
  { t with
    offset := t.offset + d.places
    position := t.position + d.places
    lines := t.lines.shift d
    newlineRun := t.newlineRun.map (· + d.places)
    signature := t.signature.shift d
    active := t.active.map (Bucket.shift d)
    results := t.results.map (Ready.shift d)
    unmatched := t.unmatched.map (UnmatchedRun.shift d) }

/-- An answer, and the tokenizer behind it further on. -/
def shiftAnswer (d : Shift) (p : Bool × Tokenizer σ) : Bool × Tokenizer σ := (p.1, p.2.shift d)

variable (t : Tokenizer σ) (here width : Nat) (c : Char)

theorem isEmpty_active_shift : (t.shift d).active.isEmpty = t.active.isEmpty := List.isEmpty_map

theorem isEmpty_results_shift : (t.shift d).results.isEmpty = t.results.isEmpty := List.isEmpty_map

theorem beginning_shift : (t.shift d).beginning c = t.beginning c := rfl

theorem resultsComplete_shift : (t.shift d).resultsComplete = t.resultsComplete := by
  rw [resultsComplete, resultsComplete, isEmpty_active_shift]
  rfl

theorem step_shift : (t.shift d).step = t.step.shift d := by
  rw [step, isEmpty_active_shift]
  unfold step shift
  rw [Nat.add_right_comm]
  cases t.active.isEmpty <;> rfl

theorem trackLines_shift :
    (t.shift d).trackLines (here + d.places) c = d.answer (shift d) (t.trackLines here c) := by
  unfold trackLines
  split
  · show Except.ok _ = Except.ok _
    congr 1
    unfold shift
    cases t.newlineRun <;> rfl
  · have hnone : (t.shift d).newlineRun.isNone = t.newlineRun.isNone := Option.isNone_map
    have hpush : (t.shift d).lines.push? (here + d.places)
        = (t.lines.push? here).map (LineTable.shift d) := t.lines.push?_shift here
    rw [hnone, hpush]
    split
    · rfl
    · cases t.lines.push? here <;> rfl

theorem report_shift (start stop line lineStart : Nat) (text : List Char) :
    (t.shift d).report (start + d.places) (stop + d.places) (line + d.lines)
        (lineStart + d.places) text
      = d.answer (shift d) (t.report start stop line lineStart text) := by
  unfold report
  refine Shift.answer_bind (Lexeme.make_shift ..) fun l => ?_
  simp [Shift.answer, shift, Ready.shift, pure, Except.pure]

theorem flushUnmatched_shift :
    (t.shift d).flushUnmatched = d.answer (shiftAnswer d) t.flushUnmatched := by
  have hrun : (t.shift d).unmatched = t.unmatched.map (UnmatchedRun.shift d) := rfl
  unfold flushUnmatched
  rw [hrun]
  cases t.unmatched with
  | none => rfl
  | some run =>
    exact Shift.answer_bind (report_shift { t with unmatched := none } ..) fun v => rfl

theorem extendUnmatched_shift :
    (t.shift d).extendUnmatched (here + d.places) width c
      = (t.extendUnmatched here width c).shift d := by
  have hcurrent : (t.shift d).lines.current = LineTable.shiftLine d t.lines.current :=
    t.lines.current_shift
  have hrun : (t.shift d).unmatched = t.unmatched.map (UnmatchedRun.shift d) := rfl
  unfold extendUnmatched
  rw [hrun, hcurrent, Nat.add_right_comm]
  unfold shift
  cases t.unmatched <;> rfl

theorem flushSignature_shift (length stop : Nat) :
    (t.shift d).flushSignature length (stop + d.places)
      = d.answer (shift d) (t.flushSignature length stop) := by
  unfold flushSignature
  refine Shift.answer_bind (t.signature.offsetAt_shift none 0) fun start => ?_
  refine Shift.answer_bind (t.signature.slice_shift 0 length) fun text => ?_
  have hline : (t.shift d).lines.lookup (start + d.places)
      = LineTable.shiftLine d (t.lines.lookup start) := t.lines.lookup_shift start
  rw [hline]
  exact t.report_shift ..

theorem start_shift :
    (t.shift d).start (here + d.places) width c
      = d.answer (shiftAnswer d) (t.start here width c) := by
  unfold start
  rw [isEmpty_active_shift, beginning_shift, extendUnmatched_shift]
  dsimp only
  split
  · cases t.active.isEmpty <;> rfl
  · refine Shift.answer_bind t.flushUnmatched_shift fun p => ?_
    obtain ⟨flushed, v⟩ := p
    have hcurrent : (v.shift d).lines.current = LineTable.shiftLine d v.lines.current :=
      v.lines.current_shift
    cases flushed with
    | true => rfl
    | false =>
      simp only [shiftAnswer, Bool.false_eq_true, if_false, hcurrent]
      simp [Shift.answer, shiftAnswer, shift, Bucket.shift, LineTable.shiftLine, pure, Except.pure]

theorem offered_shift (st : Stepped (Bucket σ)) :
    (t.shift d).offered (here + d.places) c (st.shift d (Bucket.shift d))
      = (t.offered here c st).shift d := by
  have hlive : (fun b : Bucket σ => !(b.shift d).live.isEmpty) = fun b => !b.live.isEmpty := rfl
  unfold offered
  simp [shift, Stepped.shift, Signature.shift, List.filter_map, Function.comp_def, hlive]

theorem conclude_shift (before : Nat) (stopped disallow : Bool) :
    (t.shift d).conclude before (here + d.places) width c stopped disallow
      = d.answer (shiftAnswer d) (t.conclude before here width c stopped disallow) := by
  unfold conclude
  rw [isEmpty_active_shift, isEmpty_results_shift, resultsComplete_shift, flushSignature_shift,
    start_shift]
  show (if stopped = true then _ else if _ then _
    else if ((disallow || !t.mode.interleaved) && _ && _ && _) = true then _
    else if (t.mode.interleaved || _) = true then _ else _) = _
  split
  · rfl
  split
  · rfl
  split
  · cases t.flushSignature before here <;> rfl
  split <;> rfl

theorem consume_shift (disallow terminate : Bool) :
    (t.shift d).consume (here + d.places) width c disallow terminate
      = d.answer (shiftAnswer d) (t.consume here width c disallow terminate) := by
  have hstep := stepBuckets_shift (d := d) (t.signature ++ [(c, here)]) c terminate
    (t.mode.select = .first) t.active
  rw [← Signature.snoc_shift] at hstep
  rw [consume_eq, consume_eq]
  refine Shift.answer_bind hstep fun st => ?_
  rw [offered_shift, conclude_shift]
  show d.answer _ (Tokenizer.conclude _ (t.signature.shift d).length _ _ _ _ _) = _
  rw [Signature.length_shift]
  rfl

/-- **A character is treated alike**, wherever its stream starts. -/
theorem feedChar_shift :
    (t.shift d).feedChar (here + d.places) width c
      = d.answer (shiftAnswer d) (t.feedChar here width c) := by
  unfold feedChar
  dsimp only
  rw [isEmpty_active_shift, flushUnmatched_shift, consume_shift]
  show (if ((t.policies.get c).trim && _) = true then _
    else if ((t.policies.get c).disallow && _) = true then _
    else if (t.policies.get c).ignore = true then _ else _) = _
  split
  · rfl
  split
  · refine Shift.answer_bind rfl fun p => ?_
    obtain ⟨flushed, v⟩ := p
    cases flushed with
    | true => rfl
    | false =>
      have hcurrent : (v.shift d).lines.current = LineTable.shiftLine d v.lines.current :=
        v.lines.current_shift
      show ((v.shift d).report _ _ (v.shift d).lines.current.1 (v.shift d).lines.current.2 [c]
        >>= _) = _
      rw [hcurrent, Nat.add_right_comm]
      exact Shift.answer_bind (v.report_shift ..) fun w => rfl
  split <;> rfl

/-- **So is the next unit.** -/
theorem feed_shift (unit : UInt32) :
    (t.shift d).feed unit = d.answer (shiftAnswer d) (t.feed unit) := by
  unfold feed
  dsimp only
  rw [step_shift]
  show (if t.encoding.glyphUnits unit = 0 then _ else _) = _
  split
  · rfl
  · exact Shift.answer_bind (t.step.trackLines_shift _ _) fun v => v.feedChar_shift _ _ _

/-- **The end of the stream** comes to the same. -/
theorem finish_shift : (t.shift d).finish = d.answer (shiftAnswer d) t.finish := by
  have hlast (v : Tokenizer σ) : (do
      let p ← (v.shift d).flushUnmatched
      return (!p.2.results.isEmpty, { p.2 with signature := [] }))
      = d.answer (shiftAnswer d) (do
        let p ← v.flushUnmatched
        return (!p.2.results.isEmpty, { p.2 with signature := [] })) :=
    Shift.answer_bind v.flushUnmatched_shift fun p => by
      show Except.ok (!(p.2.shift d).results.isEmpty, _) = Except.ok (!p.2.results.isEmpty, _)
      rw [isEmpty_results_shift]
      rfl
  unfold finish
  refine Shift.answer_bind (finishBuckets_shift t.signature t.position t.active) fun ready => ?_
  have hsettled : { t.shift d with
        active := []
        results := (t.shift d).results ++ ready.map (Ready.shift d) }
      = shift d { t with active := [], results := t.results ++ ready } := by
    unfold shift
    simp
  rw [hsettled, isEmpty_active_shift]
  dsimp only
  rw [isEmpty_results_shift]
  show (if (_ && _ && !(t.signature.shift d).isEmpty) = true
    then Tokenizer.flushSignature _ (t.signature.shift d).length (t.position + d.places) >>= _
    else _) = _
  rw [Signature.length_shift, flushSignature_shift, Signature.shift, List.isEmpty_map]
  split
  · exact Shift.answer_bind rfl hlast
  · exact hlast _

/-- The same lexemes are taken, in the same order. -/
theorem take_shift : (t.shift d).take = (t.take.1.map (Lexeme.shift d), t.take.2.shift d) := by
  have hbefore (a b : Ready) : takenBefore (a.shift d) (b.shift d) = takenBefore a b := by
    have hsize (r : Ready) : (r.shift d).lexeme.size = r.lexeme.size :=
      Nat.add_sub_add_right ..
    have hstart (r : Ready) : (r.shift d).lexeme.start = r.lexeme.start + d.places := rfl
    unfold takenBefore
    simp only [hsize, hstart, ne_eq, Nat.add_right_cancel_iff, Nat.add_lt_add_iff_right]
    rfl
  have hsort := List.map_mergeSort (r := takenBefore) (s := takenBefore) (f := Ready.shift d)
    (l := t.results) fun a _ b _ => (hbefore a b).symm
  unfold take
  show ((List.mergeSort (t.results.map (Ready.shift d)) takenBefore).map (·.lexeme), _) = _
  rw [← hsort, List.map_map, List.map_map]
  rfl

theorem seek_shift (place : Nat) :
    (t.shift d).seek (place + d.places) = (t.seek place).shift d := by
  have hrun : (t.shift d).newlineRun.filter (· < place + d.places)
      = (t.newlineRun.filter (· < place)).map (· + d.places) := by
    show (t.newlineRun.map (· + d.places)).filter (· < place + d.places) = _
    cases t.newlineRun with
    | none => rfl
    | some run =>
      simp only [Option.map_some, Option.filter_some, Nat.add_lt_add_iff_right]
      split <;> rfl
  have hlines : (t.shift d).lines = t.lines.shift d := rfl
  unfold seek
  rw [hrun, hlines, LineTable.truncateAfter_shift]
  rfl

theorem rewind_shift (place : Nat) :
    (t.shift d).rewind (place + d.places) = (t.rewind place).shift d := by
  unfold rewind
  rw [seek_shift]
  rfl

end Tokenizer

end Lexing
