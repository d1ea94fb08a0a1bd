import Lexing.Proofs.Tokenizer.Driven
import Lexing.Proofs.Tokenizer.Tracked

/-!
# Moving back undoes what has been read

After a tokenizer has been moved back to a place, what it had read behind that
place is forgotten: it answers as a tokenizer that has read the stream up to
there once (`rewind_undoes`). The two are not equal. One may have found a line
that starts at this very place, and the other still have the line breaks before
it pending. So they are compared up to the lines that they know (`Alike`). A
character is treated when its line has been noted, and by then both know the
same lines; after that they differ at most in where the line breaks began that
are pending, and no answer depends on that (`feedChar_withRun`). Hence alike
tokenizers give the same answers for ever (`Alike.drive`).
-/

namespace Lexing

variable {σ : Type}

namespace Tokenizer

variable {t u v w : Tokenizer σ} {here width : Nat} {c : Char} {run : Option Nat}

/-! ## Pending line breaks do not matter -/

/-- The tokenizer with other line breaks pending. -/
def withRun (t : Tokenizer σ) (run : Option Nat) : Tokenizer σ := { t with newlineRun := run }

/-- An answer and the tokenizer behind it, with other line breaks pending. -/
def answerWithRun (run : Option Nat) (p : Bool × Tokenizer σ) : Bool × Tokenizer σ :=
  (p.1, p.2.withRun run)

theorem report_withRun (t : Tokenizer σ) (run : Option Nat) (start stop line lineStart : Nat)
    (text : List Char) : (t.withRun run).report start stop line lineStart text
      = (t.report start stop line lineStart text).map (·.withRun run) := by
  rw [report, report]
  cases Lexeme.make start stop line lineStart text none none <;> rfl

theorem flushUnmatched_withRun (t : Tokenizer σ) (run : Option Nat) :
    (t.withRun run).flushUnmatched = t.flushUnmatched.map (answerWithRun run) := by
  cases h : t.unmatched with
  | none =>
    rw [flushUnmatched_none h, flushUnmatched_none (t := t.withRun run) h]
    rfl
  | some r =>
    have hreport := report_withRun { t with unmatched := none } run r.start r.stop r.line
      r.lineStart r.text
    have hwith : (t.withRun run).flushUnmatched = (({ t with unmatched := none }.withRun run).report
        r.start r.stop r.line r.lineStart r.text).map fun t => (true, t) := by
      rw [flushUnmatched, show (t.withRun run).unmatched = some r from h]
      rfl
    have hwithout : t.flushUnmatched = ({ t with unmatched := none }.report
        r.start r.stop r.line r.lineStart r.text).map fun t => (true, t) := by
      rw [flushUnmatched, h]
      rfl
    rw [hwith, hwithout, hreport]
    cases { t with unmatched := none }.report r.start r.stop r.line r.lineStart r.text <;> rfl

theorem flushSignature_withRun (t : Tokenizer σ) (run : Option Nat) (length stop : Nat) :
    (t.withRun run).flushSignature length stop
      = (t.flushSignature length stop).map (·.withRun run) := by
  have hwith : (t.withRun run).flushSignature length stop =
      (t.signature.offsetAt none 0).bind fun start => (t.signature.slice 0 length).bind fun text =>
        (t.withRun run).report start stop (t.lines.lookup start).1 (t.lines.lookup start).2 text :=
    rfl
  have hwithout : t.flushSignature length stop =
      (t.signature.offsetAt none 0).bind fun start => (t.signature.slice 0 length).bind fun text =>
        t.report start stop (t.lines.lookup start).1 (t.lines.lookup start).2 text := rfl
  rw [hwith, hwithout]
  simp only [report_withRun]
  cases t.signature.offsetAt none 0 with
  | error e => rfl
  | ok start => cases t.signature.slice 0 length <;> rfl

theorem start_withRun (t : Tokenizer σ) (run : Option Nat) (here width : Nat) (c : Char) :
    (t.withRun run).start here width c = (t.start here width c).map (answerWithRun run) := by
  have hbeginning : (t.withRun run).beginning c = t.beginning c := rfl
  rw [start, start, hbeginning]
  by_cases hbegin : (t.beginning c).isEmpty = true
  · simp only [if_pos hbegin]
    show Except.ok (false, if t.active.isEmpty then (t.extendUnmatched here width c).withRun run
      else t.withRun run) = _
    cases t.active.isEmpty <;> rfl
  · simp only [if_neg hbegin, flushUnmatched_withRun]
    cases t.flushUnmatched with
    | error e => rfl
    | ok p =>
      obtain ⟨flushed, v⟩ := p
      cases flushed <;> rfl

theorem conclude_withRun (t : Tokenizer σ) (run : Option Nat) (before here width : Nat) (c : Char)
    (stopped disallow : Bool) : (t.withRun run).conclude before here width c stopped disallow
      = (t.conclude before here width c stopped disallow).map (answerWithRun run) := by
  rw [conclude, conclude, flushSignature_withRun, start_withRun]
  cases stopped with
  | true => rfl
  | false =>
    show (if false = true then _
      else if (!t.results.isEmpty && (disallow || t.resultsComplete)) = true then _
      else if ((disallow || !t.mode.interleaved) && t.active.isEmpty && t.results.isEmpty
        && decide (0 < before)) = true then _
      else if (t.mode.interleaved || t.active.isEmpty) = true then _ else _) = _
    simp only [if_neg Bool.false_ne_true]
    split
    · rfl
    split
    · cases t.flushSignature before here <;> rfl
    split <;> rfl

theorem consume_withRun (t : Tokenizer σ) (run : Option Nat) (here width : Nat) (c : Char)
    (disallow terminate : Bool) : (t.withRun run).consume here width c disallow terminate
      = (t.consume here width c disallow terminate).map (answerWithRun run) := by
  rw [consume_eq, consume_eq]
  show (stepBuckets (t.signature ++ [(c, here)]) c terminate (t.mode.select = .first)
    t.active).bind (fun st => ((t.offered here c st).withRun run).conclude t.signature.length here
      width c st.stopped disallow) = _
  simp only [conclude_withRun]
  cases stepBuckets (t.signature ++ [(c, here)]) c terminate (t.mode.select = .first) t.active <;>
    rfl

/-- **No answer depends on where pending line breaks began.** -/
theorem feedChar_withRun (t : Tokenizer σ) (run : Option Nat) (here width : Nat) (c : Char) :
    (t.withRun run).feedChar here width c
      = (t.feedChar here width c).map (answerWithRun run) := by
  rw [feedChar, feedChar, flushUnmatched_withRun, consume_withRun]
  show (if ((t.policies.get c).trim && t.active.isEmpty) = true then _
    else if ((t.policies.get c).disallow && t.active.isEmpty) = true then _
      else if (t.policies.get c).ignore = true then _ else _) = _
  split
  · rfl
  split
  · cases t.flushUnmatched with
    | error e => rfl
    | ok p =>
      obtain ⟨flushed, v⟩ := p
      cases flushed with
      | true => rfl
      | false =>
        have hreport := report_withRun v run here (here + width) v.lines.current.1
          v.lines.current.2 [c]
        show ((v.withRun run).report here (here + width) v.lines.current.1
          v.lines.current.2 [c]).bind (fun t => .ok (true, t)) = ((v.report here (here + width)
            v.lines.current.1 v.lines.current.2 [c]).bind fun t => .ok (true, t)).map _
        rw [hreport]
        cases v.report here (here + width) v.lines.current.1 v.lines.current.2 [c] <;> rfl
  split <;> rfl

/-! ## Tokenizers that differ in their lines only -/

/-- The tokenizer with other lines. -/
def withLines (t : Tokenizer σ) (lines : LineTable) (run : Option Nat) : Tokenizer σ :=
  { t with lines, newlineRun := run }

/-- **Two tokenizers are alike**, up to the lines that they know. -/
def Alike (t u : Tokenizer σ) : Prop := ∃ lines run, u = t.withLines lines run

theorem Alike.rewind (h : Alike t u) (place : Nat) : Alike (t.rewind place) (u.rewind place) := by
  obtain ⟨lines, run, rfl⟩ := h
  exact ⟨_, _, rfl⟩

theorem Alike.take (h : Alike t u) : u.take.1 = t.take.1 ∧ Alike t.take.2 u.take.2 := by
  obtain ⟨lines, run, rfl⟩ := h
  exact ⟨rfl, _, _, rfl⟩

/-- **The next unit** gets the same answer from both. -/
theorem Alike.feed {T : LineTable} {s : UnitStream} {unit : UInt32} {r : Bool} (h : Alike t u)
    (hT : T.Charts s) (ht : t.Tracks T s) (hu : u.Tracks T s)
    (hunit : s.at? t.position = some unit) (hfeed : t.feed unit = .ok (r, v)) :
    ∃ w, u.feed unit = .ok (r, w) ∧ Alike v w := by
  obtain ⟨lines, run, rfl⟩ := h
  by_cases hzero : t.encoding.glyphUnits unit = 0
  · obtain ⟨rfl, rfl⟩ := Prod.mk.inj (Except.ok.inj ((if_pos hzero).symm.trans hfeed))
    exact ⟨t.step.withLines lines run, if_pos hzero, lines, run, rfl⟩
  · have hboth (w : Tokenizer σ) (hencoding : w.encoding = t.encoding) :
        w.feed unit = (w.step.trackLines w.position (leadToChar unit)).bind
          fun x => x.feedChar w.position (t.encoding.glyphUnits unit) (leadToChar unit) := by
      rw [Tokenizer.feed, hencoding]
      exact if_neg hzero
    rw [hboth t rfl, ht.trackLines_eq hT hunit] at hfeed
    rw [hboth (t.withLines lines run) rfl, hu.trackLines_eq hT hunit]
    -- both have noted the same lines, so that only the pending breaks differ
    have hwithRun := feedChar_withRun (t.tracked (T.truncateAfter t.position)
      (if IsBreak unit then some (t.newlineRun.getD t.position) else none))
      (if IsBreak unit then some (run.getD t.position) else none) t.position
      (t.encoding.glyphUnits unit) (leadToChar unit)
    refine ⟨_, hwithRun.trans (congrArg _ hfeed), v.lines, _, rfl⟩

/-- **The end of the stream** is the same for both, if they agree on the line
of the signature. -/
theorem finished_withLines {lines : LineTable} (run : Option Nat)
    (h : t.active ≠ [] → lines.lookup (t.signature.boundary t.position 0)
      = t.lines.lookup (t.signature.boundary t.position 0)) :
    (t.withLines lines run).finished = t.finished.withLines lines run := by
  have hwasted (hactive : t.active ≠ []) :
      (t.withLines lines run).wasted t.signature.length t.position
        = t.wasted t.signature.length t.position := by
    show (⟨⟨_, _, (lines.lookup (t.signature.boundary t.position 0)).1,
      _ - (lines.lookup (t.signature.boundary t.position 0)).2, _, none, none⟩, none⟩ : Ready) = _
    rw [h hactive]
    rfl
  have hcovered : (t.withLines lines run).covered = t.covered.withLines lines run := by
    rw [covered, covered]
    show (if (!t.active.isEmpty && t.settled.results.isEmpty) = true then
      (t.settled.withLines lines run).reporting
        ((t.withLines lines run).wasted t.signature.length t.position)
      else t.settled.withLines lines run) = _
    split
    next hcondition =>
      rw [Bool.and_eq_true, Bool.not_eq_true', List.isEmpty_eq_false_iff] at hcondition
      rw [hwasted hcondition.1]
      rfl
    next => rfl
  rw [finished, hcovered]
  rfl

/-! ## Reading back and forth -/

/-- **One move of a reader** of a stream, from a place to a place. -/
inductive Move (s : UnitStream) : Nat → Command σ → Nat → Prop
  | feed {p : Nat} {unit : UInt32} (hunit : s.at? p = some unit) : Move s p (.feed unit) (p + 1)
  | finish {p : Nat} : Move s p .finish p
  | take {p : Nat} : Move s p .take p
  | rewind {p place : Nat} (hstart : s.offset ≤ place) (hback : place ≤ p) :
    Move s p (.rewind place) place

/-- **A stream read back and forth**, from a place to a place. -/
inductive Reads (s : UnitStream) : Nat → List (Command σ) → Nat → Prop
  | stay {p : Nat} : Reads s p [] p
  | move {p q r : Nat} {command : Command σ} {rest : List (Command σ)}
    (hmove : Move s p command q) (hrest : Reads s q rest r) : Reads s p (command :: rest) r

/-- **A tokenizer in the midst of a stream**, which was set up as another one
and knows the lines up to its place. -/
structure Amid (t base : Tokenizer σ) (T : LineTable) (s : UnitStream) (p : Nat) : Prop where
  position : t.position = p
  drivable : t.Drivable s.offset base.tokens
  tracks : t.Tracks T s
  setupAs : t.SetupAs base
  offset : t.offset = base.offset

section Reading

variable {base : Tokenizer σ} {T : LineTable} {s : UnitStream} {p q : Nat} {r : Bool}

theorem Treated.offset_eq (h : Treated t here width c r u) : u.offset = t.offset := by
  cases h with
  | consumed _ _ st hst _ _ hout => cases hout <;> rfl
  | _ => rfl

theorem Fed.offset_eq {unit : UInt32} (h : Fed t unit r v) : v.offset = t.offset := by
  cases h with
  | passed => rfl
  | led _ lines run _ _ _ htreated => exact htreated.offset_eq

theorem offset_finished (t : Tokenizer σ) : t.finished.offset = t.offset := by
  rw [finished, covered]
  split <;> rfl

theorem Amid.rewind (h : t.Amid base T s p) (hT : T.Charts s) (hs : s.Glyphs base.encoding)
    {place : Nat} (hstart : s.offset ≤ place) (hback : place ≤ p) :
    (t.rewind place).Amid base T s place := by
  obtain ⟨rfl, hdrivable, htracks, hsetup, hoffset⟩ := h
  rw [← hsetup.encoding] at hs
  exact ⟨rfl, hdrivable.rewind hstart,
    htracks.rewind hT hs fun q hq hlt => absurd hlt (Nat.not_lt.2 (Nat.le_trans hback hq)),
    (setupAs_rewind t _).trans hsetup, hoffset⟩

/-- **A move succeeds**, and the tokenizer still knows its lines. -/
theorem Amid.obey (h : t.Amid base T s p) (hT : T.Charts s) (hs : s.Glyphs base.encoding)
    {command : Command σ} (hmove : Move s p command q) :
    ∃ answer v, t.obey command = .ok (answer, v) ∧ v.Amid base T s q := by
  obtain ⟨rfl, hdrivable, htracks, hsetup, hoffset⟩ := id h
  obtain ⟨floor, hp⟩ := hdrivable.placed
  cases hmove with
  | @feed unit hunit =>
    obtain ⟨r, v, hfeed, hfed⟩ := feed_total hp unit
    rw [← hsetup.encoding] at hs
    exact ⟨.ready r, v, by rw [Tokenizer.obey, hfeed]; rfl, hfed.position_eq, hdrivable.feed hfed,
      htracks.fed hT hs hunit hfed, hfed.setupAs.trans hsetup, hfed.offset_eq.trans hoffset⟩
  | finish =>
    exact ⟨_, t.finished, by rw [Tokenizer.obey, finish_eq hp]; rfl, (frame_finished t).1,
      hdrivable.finish, htracks.finished, (setupAs_finished t).trans hsetup,
      (offset_finished t).trans hoffset⟩
  | take =>
    exact ⟨_, _, rfl, rfl, hdrivable.take, htracks.congr rfl rfl rfl,
      ⟨hsetup.tokens, hsetup.reserved, hsetup.mode, hsetup.encoding, hsetup.policies⟩, hoffset⟩
  | rewind hstart hback => exact ⟨.done, _, rfl, h.rewind hT hs hstart hback⟩

/-- The line of the signature of active candidates is known. -/
theorem Amid.lookup_eq (h : t.Amid base T s p) (hT : T.Charts s) (hactive : t.active ≠ []) :
    t.lines.lookup (t.signature.boundary t.position 0)
      = T.lookup (t.signature.boundary t.position 0) := by
  obtain ⟨floor, hp⟩ := h.drivable.placed
  exact h.tracks.lookup_eq hT (hp.held.within.boundary_lt_stop (hp.held.length_pos hactive))

/-- **Alike tokenizers answer a move alike**, and are alike afterwards. -/
theorem Alike.obey (h : Alike t u) (hT : T.Charts s) (ht : t.Amid base T s p)
    (hu : u.Amid base T s p) {command : Command σ} (hmove : Move s p command q) {answer : Answer}
    (hobey : t.obey command = .ok (answer, v)) :
    ∃ w, u.obey command = .ok (answer, w) ∧ Alike v w := by
  cases hmove with
  | @feed unit hunit =>
    rw [Tokenizer.obey] at hobey
    cases hfeed : t.feed unit with
    | error e =>
      rw [hfeed] at hobey
      cases hobey
    | ok p =>
      rw [hfeed] at hobey
      obtain ⟨rfl, rfl⟩ := Prod.mk.inj (Except.ok.inj hobey)
      rw [← ht.position] at hunit
      obtain ⟨w, hw, halike⟩ := h.feed hT ht.tracks hu.tracks hunit hfeed
      exact ⟨w, by rw [Tokenizer.obey, hw]; rfl, halike⟩
  | finish =>
    obtain ⟨floor, hp⟩ := ht.drivable.placed
    obtain ⟨floor', hp'⟩ := hu.drivable.placed
    obtain ⟨lines, run, rfl⟩ := h
    have hfinished : (t.withLines lines run).finished = t.finished.withLines lines run :=
      finished_withLines run fun hactive =>
        (hu.lookup_eq hT hactive).trans (ht.lookup_eq hT hactive).symm
    rw [Tokenizer.obey, finish_eq hp] at hobey
    obtain ⟨rfl, rfl⟩ := Prod.mk.inj (Except.ok.inj hobey)
    refine ⟨t.finished.withLines lines run, ?_, lines, run, rfl⟩
    rw [Tokenizer.obey, finish_eq hp', hfinished]
    rfl
  | take =>
    obtain ⟨rfl, rfl⟩ := Prod.mk.inj (Except.ok.inj hobey)
    exact ⟨u.take.2, by rw [Tokenizer.obey, h.take.1], h.take.2⟩
  | rewind =>
    obtain ⟨rfl, rfl⟩ := Prod.mk.inj (Except.ok.inj hobey)
    exact ⟨_, rfl, h.rewind _⟩

/-- **Reading succeeds**, and alike tokenizers give the same answers to all of
it. -/
theorem Alike.drive (h : Alike t u) (hT : T.Charts s) (hs : s.Glyphs base.encoding)
    (ht : t.Amid base T s p) (hu : u.Amid base T s p) {commands : List (Command σ)}
    (hreads : Reads s p commands q) :
    ∃ answers v w, t.drive commands = .ok (answers, v) ∧ u.drive commands = .ok (answers, w) ∧
      v.Amid base T s q ∧ w.Amid base T s q ∧ Alike v w := by
  induction hreads generalizing t u with
  | stay => exact ⟨[], t, u, rfl, rfl, ht, hu, h⟩
  | move hmove _ ih =>
    obtain ⟨answer, t', ht', hamid⟩ := ht.obey hT hs hmove
    obtain ⟨u', hu', halike⟩ := h.obey hT ht hu hmove ht'
    obtain ⟨answer', u'', hu'', hamid'⟩ := hu.obey hT hs hmove
    obtain ⟨rfl, rfl⟩ := Prod.mk.inj (Except.ok.inj (hu'.symm.trans hu''))
    obtain ⟨answers, v, w, hv, hw, hrest⟩ := ih halike hamid hamid'
    refine ⟨answer :: answers, v, w, ?_, ?_, hrest⟩
    · simp only [Tokenizer.drive, ht', hv, bind, Except.bind]
      rfl
    · simp only [Tokenizer.drive, hu', hw, bind, Except.bind]
      rfl

/-- Reading alone, too. -/
theorem Amid.drive (h : t.Amid base T s p) (hT : T.Charts s) (hs : s.Glyphs base.encoding)
    {commands : List (Command σ)} (hreads : Reads s p commands q) :
    ∃ answers v, t.drive commands = .ok (answers, v) ∧ v.Amid base T s q := by
  have hself : Alike t t := ⟨t.lines, t.newlineRun, rfl⟩
  obtain ⟨answers, v, -, hdrive, -, hamid, -⟩ := hself.drive hT hs h h hreads
  exact ⟨answers, v, hdrive, hamid⟩

/-- **Moved to the same place**, any two tokenizers of a setup are alike. -/
theorem Amid.alike_rewind {p' : Nat} (ht : t.Amid base T s p) (hu : u.Amid base T s p')
    (place : Nat) : Alike (t.rewind place) (u.rewind place) := by
  have htokens := hu.setupAs.tokens.trans ht.setupAs.tokens.symm
  have hreserved := hu.setupAs.reserved.trans ht.setupAs.reserved.symm
  have hmode := hu.setupAs.mode.trans ht.setupAs.mode.symm
  have hencoding := hu.setupAs.encoding.trans ht.setupAs.encoding.symm
  have hpolicies := hu.setupAs.policies.trans ht.setupAs.policies.symm
  have hoffset := hu.offset.trans ht.offset.symm
  refine ⟨(u.rewind place).lines, (u.rewind place).newlineRun, ?_⟩
  show (⟨u.tokens, u.reserved, u.mode, u.encoding, u.policies, u.offset, place, _, _, [], [], [],
    none⟩ : Tokenizer σ) = ⟨t.tokens, t.reserved, t.mode, t.encoding, t.policies, t.offset, place,
      _, _, [], [], [], none⟩
  rw [htokens, hreserved, hmode, hencoding, hpolicies, hoffset]
  rfl

/-- A place that is reached from within a stream lies within it. -/
theorem Reads.le_end {commands : List (Command σ)} (h : Reads s p commands q)
    (hp : p ≤ s.offset + s.units.length) : q ≤ s.offset + s.units.length := by
  induction h with
  | stay => exact hp
  | move hmove _ ih =>
    refine ih ?_
    cases hmove with
    | feed hunit => exact UnitStream.lt_end_of_at? hunit
    | finish => exact hp
    | take => exact hp
    | rewind _ hback => exact Nat.le_trans hback hp

/-- Units that stand one behind the other can be fed so. -/
theorem reads_feed (us : List UInt32) (hus : ∀ i u, us[i]? = some u → s.at? (p + i) = some u) :
    Reads s p (us.map Command.feed : List (Command σ)) (p + us.length) := by
  induction us generalizing p with
  | nil => exact .stay
  | cons u us ih =>
    have hrest := ih (p := p + 1) fun i v hv => by
      rw [Nat.add_right_comm]
      exact hus (i + 1) v hv
    rw [Nat.add_right_comm] at hrest
    exact .move (.feed (hus 0 u rfl)) hrest

/-- **What a journey has left behind does not count** once a tokenizer has moved
back: it might as well have read up to the place once. -/
theorem Amid.undo (h : base.Amid base T s s.offset) (hT : T.Charts s)
    (hs : s.Glyphs base.encoding) {journey rest : List (Command σ)} {here place there : Nat}
    (hjourney : Reads s s.offset journey here) (hstart : s.offset ≤ place) (hback : place ≤ here)
    (hrest : Reads s place rest there) :
    ∃ told t told' u answers v w, base.drive journey = .ok (told, t) ∧
      base.drive ((s.units.take (place - s.offset)).map .feed) = .ok (told', u) ∧
      (t.rewind place).drive rest = .ok (answers, v) ∧
      (u.rewind place).drive rest = .ok (answers, w) := by
  have hbefore : Reads s s.offset ((s.units.take (place - s.offset)).map .feed : List (Command σ))
      (s.offset + (s.units.take (place - s.offset)).length) :=
    reads_feed _ fun i u hu => by
      rw [List.getElem?_take] at hu
      split at hu
      · exact (s.at?_offset_add i).trans hu
      · exact nomatch hu
  have hend := hjourney.le_end (Nat.le_add_right _ _)
  have hthere : place ≤ s.offset + (s.units.take (place - s.offset)).length := by
    rw [List.length_take]
    omega
  obtain ⟨told, t, hdrive, ht⟩ := h.drive hT hs hjourney
  obtain ⟨told', u, hdrive', hu⟩ := h.drive hT hs hbefore
  obtain ⟨answers, v, w, hv, hw, -⟩ := (ht.alike_rewind hu place).drive hT hs
    (ht.rewind hT hs hstart hback) (hu.rewind hT hs hstart hthere) hrest
  exact ⟨told, t, told', u, answers, v, w, hdrive, hdrive', hv, hw⟩

end Reading

/-- **Moving back is a true undo.** However a text has been read, back and
forth, a tokenizer that is moved back to a place answers all further reading
as one that has read the text up to there once and was moved back to it. -/
theorem rewind_undoes (tokens : List (Token σ)) (config : TokenizerConfig)
    (reserved : Option Reserved) (source : String) (journey rest : List (Command σ))
    (here place there : Nat)
    (hjourney : Reads ⟨config.offset, config.encoding.units source⟩ config.offset journey here)
    (hstart : config.offset ≤ place) (hback : place ≤ here)
    (hrest : Reads ⟨config.offset, config.encoding.units source⟩ place rest there) :
    let start := { new tokens config with reserved }
    let before := (config.encoding.units source).take (place - config.offset)
    ∃ told t told' u answers v w, start.drive journey = .ok (told, t) ∧
      start.drive (before.map .feed) = .ok (told', u) ∧
      (t.rewind place).drive rest = .ok (answers, v) ∧
      (u.rewind place).drive rest = .ok (answers, w) := by
  intro start before
  have hT := charts_sourceLines config.line config.encoding config.offset source.toList
  have hs := UnitStream.glyphs_ofText config.encoding config.offset source.toList
  rw [UnitStream.ofText, ← config.encoding.units_eq_flatMap] at hT hs
  have hdrivable : start.Drivable config.offset tokens :=
    (drivable_new tokens config fun _ h => h).withSetup (fun _ h => h) reserved _ _ _
  have hamid : start.Amid start (sourceLines config.line config.encoding config.offset
      source.toList) ⟨config.offset, config.encoding.units source⟩ config.offset :=
    ⟨rfl, hdrivable, tracks_of_start hT rfl rfl rfl, ⟨rfl, rfl, rfl, rfl, rfl⟩, rfl⟩
  exact hamid.undo hT hs hjourney hstart hback hrest

/-- A number that is read again from within the line breaks before it. -/
theorem rewind_undoes_numeric :
    let tokens := [(Token.numeric {} 0).toToken]
    let config : TokenizerConfig := {}
    let stream : UnitStream := ⟨0, config.encoding.units "1\n\n2"⟩
    let journey : List (Command Numeric.Progress) :=
      [.feed 0x31, .feed 0x0a, .take, .feed 0x0a, .rewind 2, .feed 0x0a, .feed 0x32, .finish]
    let rest : List (Command Numeric.Progress) := [.feed 0x0a, .feed 0x32, .finish, .take]
    (Reads stream 0 journey 4 ∧ Reads stream 2 rest 4) ∧
      let start := new tokens config
      let before := (config.encoding.units "1\n\n2").take 2
      ∃ told t told' u answers v w, start.drive journey = .ok (told, t) ∧
        start.drive (before.map .feed) = .ok (told', u) ∧
        (t.rewind 2).drive rest = .ok (answers, v) ∧
        (u.rewind 2).drive rest = .ok (answers, w) := by
  intro tokens config stream journey rest
  have hrest : Reads stream 2 rest 4 :=
    .move (.feed rfl) <| .move (.feed rfl) <| .move .finish <| .move .take .stay
  have hjourney : Reads stream 0 journey 4 :=
    .move (.feed rfl) <| .move (.feed rfl) <| .move .take <| .move (.feed rfl) <|
      .move (.rewind (by decide) (by decide)) <| .move (.feed rfl) <| .move (.feed rfl) <|
        .move .finish .stay
  exact ⟨⟨hjourney, hrest⟩, rewind_undoes tokens config none "1\n\n2" journey rest 4 2 4 hjourney
    (by decide) (by decide) hrest⟩

end Tokenizer

end Lexing
