import Lexing.Proofs.Tokenizer.Placed

/-!
# Feeding never meets a fault

A tokenizer that is in order takes every unit, whatever the encoding, the mode
and the policies, and is in order afterwards (`feed_total`); the same holds for
the end of the stream (`finish_eq`). Moving to a place gives a tokenizer that
is in order above that place (`placed_rewind`).
-/

namespace Lexing

variable {σ : Type}

namespace Tokenizer

variable {t v : Tokenizer σ} {floor here : Nat}

/-! ## Lines -/

/-- The tokenizer over one unit, with other lines. -/
def tracked (t : Tokenizer σ) (lines : LineTable) (newlineRun : Option Nat) : Tokenizer σ :=
  { t.step with lines, newlineRun }

theorem signature_tracked_of_idle (lines : LineTable) (run : Option Nat) (h : t.active = []) :
    (t.tracked lines run).signature = [] := by
  simp [tracked, step, h]

theorem signature_tracked_of_live (lines : LineTable) (run : Option Nat) (h : t.active ≠ []) :
    (t.tracked lines run).signature = t.signature := by
  simp [tracked, step, h]

theorem signature_tracked_of_mem (lines : LineTable) (run : Option Nat) {b : Bucket σ}
    (hb : b ∈ t.active) : (t.tracked lines run).signature = t.signature :=
  signature_tracked_of_live lines run (List.ne_nil_of_mem hb)

/-- **Noting a character never fails**, and the line it is on starts at or
before it. -/
theorem trackLines_total (h : t.LinesKnown floor) (c : Char) :
    ∃ lines run, t.step.trackLines t.position c = .ok (t.tracked lines run) ∧
      lines.lastStart ≤ t.position ∧ (t.tracked lines run).LinesKnown floor := by
  rw [trackLines]
  by_cases hc : Category.of c = .newline
  · rw [if_pos hc]
    refine ⟨t.lines, _, rfl, h.lastStart_le, h.ordered, h.origin_le,
      Nat.le_succ_of_le h.lastStart_le, fun r hr => ?_⟩
    obtain rfl := Option.some.inj hr
    show t.lines.lastStart ≤ t.newlineRun.getD t.position ∧
      t.newlineRun.getD t.position < t.position + 1
    cases hrun : t.newlineRun with
    | none => exact ⟨h.lastStart_le, Nat.lt_succ_self _⟩
    | some r => exact ⟨(h.newlineRun r hrun).1, Nat.lt_succ_of_lt (h.newlineRun r hrun).2⟩
  rw [if_neg hc]
  cases hrun : t.newlineRun with
  | none =>
    have hnone : t.step.newlineRun.isNone = true := by
      show t.newlineRun.isNone = true
      rw [hrun]
      rfl
    rw [if_pos hnone]
    refine ⟨t.lines, none, ?_, h.lastStart_le, h.ordered, h.origin_le,
      Nat.le_succ_of_le h.lastStart_le, fun r hr => nomatch hr⟩
    rw [← hrun]
    rfl
  | some r =>
    have hnone : ¬t.step.newlineRun.isNone = true := by
      show ¬t.newlineRun.isNone = true
      rw [hrun]
      exact Bool.false_ne_true
    -- a run of line breaks ends here, and starts a line behind the last one
    rw [if_neg hnone]
    have hlt : t.lines.lastStart < t.position :=
      Nat.lt_of_le_of_lt (h.newlineRun r hrun).1 (h.newlineRun r hrun).2
    obtain ⟨lines, hlines⟩ := Option.isSome_iff_exists.1 ((t.lines.push?_isSome_iff _).2 hlt)
    have hlast := LineTable.lastStart_push? hlines
    rw [show t.step.lines.push? t.position = some lines from hlines]
    refine ⟨lines, none, rfl, Nat.le_of_eq hlast, h.ordered.push hlines, ?_, ?_,
      fun r hr => nomatch hr⟩
    · show lines.origin ≤ floor
      rw [LineTable.origin_push? hlines]
      exact h.origin_le
    · show lines.lastStart ≤ t.position + 1
      omega

/-! ## Feeding -/

theorem between_step (h : t.Between floor here) : t.step.Between floor here := by
  cases hactive : t.active with
  | nil =>
    have hs : t.step.signature = [] := by simp [step, hactive]
    refine ⟨?_, fun b hb => ?_, h.run, h.run_lt, h.results⟩
    · rw [hs]
      exact Signature.within_nil _ _
    · have : b ∈ t.active := hb
      rw [hactive] at this
      exact nomatch this
  | cons b bs =>
    have hs : t.step.signature = t.signature := by simp [step, hactive]
    refine ⟨?_, fun b hb => ?_, h.run, h.run_lt, h.results⟩
    · rw [hs]
      exact h.within
    · rw [hs]
      exact h.fits b hb

theorem Between.tracked (h : t.Between floor here) (lines : LineTable) (run : Option Nat) :
    (t.tracked lines run).Between floor here :=
  have hstep := between_step h
  ⟨hstep.within, hstep.fits, hstep.run, hstep.run_lt, hstep.results⟩

/-- **What feeding a unit comes to.** -/
inductive Fed (t : Tokenizer σ) (unit : UInt32) : Bool → Tokenizer σ → Prop
  /-- the unit leads no glyph -/
  | passed (hunit : t.encoding.glyphUnits unit = 0) : Fed t unit false t.step
  /-- the unit brings a character -/
  | led (hunit : t.encoding.glyphUnits unit ≠ 0) (lines : LineTable) (run : Option Nat)
    (hlines : t.step.trackLines t.position (leadToChar unit) = .ok (t.tracked lines run))
    (r : Bool) (v : Tokenizer σ)
    (htreated : Treated (t.tracked lines run) t.position (t.encoding.glyphUnits unit)
      (leadToChar unit) r v) :
    Fed t unit r v

/-- **Feeding a unit meets no fault.** -/
theorem feed_total (h : t.Placed floor) (unit : UInt32) :
    ∃ r v, t.feed unit = .ok (r, v) ∧ Fed t unit r v := by
  by_cases hunit : t.encoding.glyphUnits unit = 0
  · refine ⟨false, t.step, ?_, .passed hunit⟩
    simp only [feed, if_pos hunit]
  · obtain ⟨lines, run, hlines, hle, hknown⟩ := trackLines_total h.lines (leadToChar unit)
    obtain ⟨r, v, hv, htreated⟩ := feedChar_total (h.held.tracked lines run) hknown.origin_le hle
      (t.encoding.glyphUnits unit) (leadToChar unit)
    refine ⟨r, v, ?_, .led hunit lines run hlines r v htreated⟩
    simp only [feed, if_neg hunit, hlines, bind, Except.bind]
    exact hv

theorem Placed.step (h : t.Placed floor) : t.step.Placed floor :=
  ⟨Nat.le_succ_of_le h.floor_le,
    ⟨h.lines.ordered, h.lines.origin_le, Nat.le_succ_of_le h.lines.lastStart_le,
      fun r hr => ⟨(h.lines.newlineRun r hr).1, Nat.lt_succ_of_lt (h.lines.newlineRun r hr).2⟩⟩,
    (between_step h.held).mono (Nat.le_succ _)⟩

/-- The line of a character starts at or before it. -/
theorem lastStart_tracked {lines : LineTable} {run : Option Nat} {c : Char} (h : t.Placed floor)
    (hlines : t.step.trackLines t.position c = .ok (t.tracked lines run)) :
    lines.lastStart ≤ t.position ∧ (t.tracked lines run).LinesKnown floor := by
  obtain ⟨lines', run', hlines', hle, hknown⟩ := trackLines_total h.lines c
  have hsame := Except.ok.inj (hlines.symm.trans hlines')
  obtain rfl : lines = lines' := congrArg Tokenizer.lines hsame
  obtain rfl : run = run' := congrArg Tokenizer.newlineRun hsame
  exact ⟨hle, hknown⟩

/-- **Treating a character keeps a tokenizer in order.** -/
theorem Treated.placed {lines : LineTable} {run : Option Nat} {c : Char} {width : Nat} {r : Bool}
    (htreated : Treated (t.tracked lines run) t.position width c r v) (h : t.Placed floor)
    (hlines : t.step.trackLines t.position c = .ok (t.tracked lines run)) (hwidth : 0 < width) :
    v.Placed floor := by
  obtain ⟨hle, hknown⟩ := lastStart_tracked h hlines
  obtain ⟨hposition, hsame, hrun⟩ := htreated.frame
  refine ⟨?_, ?_, ?_⟩
  · rw [hposition]
    exact Nat.le_succ_of_le h.floor_le
  · exact ⟨by rw [hsame]; exact hknown.ordered, by rw [hsame]; exact hknown.origin_le,
      by rw [hsame, hposition]; exact hknown.lastStart_le,
      by rw [hsame, hposition, hrun]; exact hknown.newlineRun⟩
  · rw [hposition]
    exact htreated.between (h.held.tracked lines run) h.floor_le hle hwidth

/-- **Feeding a unit keeps a tokenizer in order.** -/
theorem Fed.placed {unit : UInt32} {r : Bool} (hfed : Fed t unit r v) (h : t.Placed floor) :
    v.Placed floor := by
  cases hfed with
  | passed => exact h.step
  | led hunit lines run hlines _ _ htreated =>
    exact htreated.placed h hlines (Nat.pos_of_ne_zero hunit)

theorem Fed.setupAs {unit : UInt32} {r : Bool} (h : Fed t unit r v) : v.SetupAs t := by
  cases h with
  | passed => exact ⟨rfl, rfl, rfl, rfl, rfl⟩
  | led _ lines run _ _ _ htreated => exact htreated.setupAs.trans ⟨rfl, rfl, rfl, rfl, rfl⟩

theorem Fed.position_eq {unit : UInt32} {r : Bool} (h : Fed t unit r v) :
    v.position = t.position + 1 := by
  cases h with
  | passed => rfl
  | led _ lines run _ _ _ htreated => exact htreated.frame.1

theorem Fed.results_ne_nil {unit : UInt32} (h : Fed t unit true v) : v.results ≠ [] := by
  cases h with
  | led _ lines run _ _ _ htreated => exact htreated.results_ne_nil

/-! ## The end of the stream -/

/-- What the candidates of a bucket yield at the end, the last one first. -/
def yieldedAtEnd (s : Signature) (stop : Nat) (b : Bucket σ) (xs : List (Candidate σ)) :
    List Ready :=
  xs.reverse.flatMap (b.yield s stop)

theorem finishCandidates_eq {b : Bucket σ} {s : Signature} {stop : Nat} (hb : b.Fits s)
    (hw : s.Within floor stop) (xs : List (Candidate σ)) (hxs : ∀ x ∈ xs, x ∈ b.live) :
    finishCandidates b s stop (b.text s) xs = .ok (yieldedAtEnd s stop b xs) := by
  induction xs with
  | nil => rfl
  | cons x xs ih =>
    have hx := hb.finish_end hw (hxs x List.mem_cons_self)
    simp only [finishCandidates, ih fun y hy => hxs y (List.mem_cons_of_mem _ hy), hx, bind,
      Except.bind]
    simp [yieldedAtEnd, pure, Except.pure]

theorem finishBuckets_eq {s : Signature} {stop : Nat} (hw : s.Within floor stop)
    (bs : List (Bucket σ)) (hbs : ∀ b ∈ bs, b.Fits s) :
    finishBuckets s stop bs = .ok (bs.flatMap fun b => yieldedAtEnd s stop b b.live) := by
  induction bs with
  | nil => rfl
  | cons b bs ih =>
    have hb := hbs b List.mem_cons_self
    have htext : s.textFrom b.key = .ok (b.text s) :=
      Signature.textFrom_eq (Nat.le_of_lt hb.key_lt)
    simp only [finishBuckets, htext, finishCandidates_eq hb hw b.live fun _ hx => hx,
      ih fun b' hb' => hbs b' (List.mem_cons_of_mem _ hb'), bind, Except.bind]
    rfl

/-- The tokenizer after every candidate has been finished. -/
def settled (t : Tokenizer σ) : Tokenizer σ :=
  { t with
    active := []
    results :=
      t.results ++ t.active.flatMap fun b => yieldedAtEnd t.signature t.position b b.live }

/-- The tokenizer after the signature has been reported, too, if its
candidates have all ended without a lexeme. -/
def covered (t : Tokenizer σ) : Tokenizer σ :=
  if !t.active.isEmpty && t.settled.results.isEmpty then
    t.settled.reporting (t.wasted t.signature.length t.position)
  else t.settled

/-- A tokenizer at the end of its stream. -/
def finished (t : Tokenizer σ) : Tokenizer σ :=
  { t.covered with
    unmatched := none
    signature := []
    results := t.covered.results ++ (t.covered.unmatched.map UnmatchedRun.ready).toList }

theorem flushUnmatched_eq (habove : ∀ run, t.unmatched = some run → run.Above floor) :
    t.flushUnmatched = .ok (t.unmatched.isSome, { t with
      unmatched := none
      results := t.results ++ (t.unmatched.map UnmatchedRun.ready).toList }) := by
  obtain ⟨_, _, _, _, _, _, _, _, _, _, _, results, unmatched⟩ := t
  cases unmatched with
  | none =>
    rw [flushUnmatched_none rfl]
    simp
  | some run => exact flushUnmatched_some rfl (habove run rfl)

theorem covered_eq (h : t.Placed floor) :
    (if !t.active.isEmpty && t.settled.results.isEmpty && !t.signature.isEmpty then
      t.settled.flushSignature t.signature.length t.position
    else .ok t.settled) = .ok t.covered := by
  rw [covered]
  cases hwasted : !t.active.isEmpty && t.settled.results.isEmpty with
  | false => rfl
  | true =>
    rw [Bool.and_eq_true, Bool.not_eq_true', List.isEmpty_eq_false_iff] at hwasted
    have hlength := h.held.length_pos hwasted.1
    have hsome : (!t.signature.isEmpty) = true := by
      simpa using List.ne_nil_of_length_pos hlength
    have horigin := Nat.le_trans h.lines.origin_le (h.held.within.floor_le_boundary hlength)
    rw [hsome, Bool.and_true, if_pos rfl, if_pos rfl]
    exact flushSignature_eq (t := t.settled) hlength (Nat.le_refl _) horigin
      (h.held.within.boundary_le 0)

theorem unmatched_covered (t : Tokenizer σ) : t.covered.unmatched = t.unmatched := by
  rw [covered]
  split <;> rfl

/-- **The end of the stream meets no fault.** -/
theorem finish_eq (h : t.Placed floor) :
    t.finish = .ok (!t.finished.results.isEmpty, t.finished) := by
  have hbuckets := finishBuckets_eq h.held.within t.active h.held.fits
  have habove (run : UnmatchedRun) (hrun : t.covered.unmatched = some run) : run.Above floor :=
    h.held.run run (by rwa [unmatched_covered] at hrun)
  have hflush := flushUnmatched_eq habove
  have hcovered := covered_eq h
  have hresults : (t.results ++ t.active.flatMap fun b =>
      yieldedAtEnd t.signature t.position b b.live) = t.settled.results := rfl
  have hsettled : { t with active := [], results := t.settled.results } = t.settled := rfl
  rw [finish, hbuckets]
  simp only [bind, Except.bind, hresults, hsettled]
  -- the end reports the signature first, and then the unmatched run
  by_cases hwasted : (!t.active.isEmpty && t.settled.results.isEmpty && !t.signature.isEmpty) = true
  · rw [if_pos hwasted] at hcovered ⊢
    simp only [hcovered, hflush]
    rfl
  · rw [if_neg hwasted] at hcovered ⊢
    simp only [Except.ok.inj hcovered, hflush]
    rfl

/-- Without candidates the end of the stream only ends the unmatched run. -/
theorem results_finished_of_idle (h : t.active = []) :
    t.finished.results = t.results ++ (t.unmatched.map UnmatchedRun.ready).toList := by
  have hcovered : t.covered = t.settled := by simp [covered, h]
  have hsettled : t.settled.results = t.results := by simp [settled, h]
  rw [finished, unmatched_covered, hcovered, hsettled]

/-- Where the lexemes at the end of the stream come from. -/
theorem mem_finished {r : Ready} (hr : r ∈ t.finished.results) :
    r ∈ t.results ∨
      (∃ b ∈ t.active, ∃ x ∈ b.live, r ∈ b.yield t.signature t.position x) ∨
      (t.active ≠ [] ∧ r = t.wasted t.signature.length t.position) ∨
      ∃ run, t.unmatched = some run ∧ r = run.ready := by
  obtain hr | hr := List.mem_append.1 hr
  · have hsettled (hr : r ∈ t.settled.results) : r ∈ t.results ∨
        ∃ b ∈ t.active, ∃ x ∈ b.live, r ∈ b.yield t.signature t.position x := by
      refine (List.mem_append.1 hr).imp_right fun hr => ?_
      obtain ⟨b, hb, hr⟩ := List.mem_flatMap.1 hr
      obtain ⟨x, hx, hr⟩ := List.mem_flatMap.1 hr
      exact ⟨b, hb, x, List.mem_reverse.1 hx, hr⟩
    rw [covered] at hr
    split at hr
    next hwasted =>
      rw [Bool.and_eq_true, Bool.not_eq_true', List.isEmpty_eq_false_iff] at hwasted
      obtain hr | hr := List.mem_append.1 hr
      · exact (hsettled hr).imp_right .inl
      · exact .inr (.inr (.inl ⟨hwasted.1, List.mem_singleton.1 hr⟩))
    next => exact (hsettled hr).imp_right .inl
  · rw [unmatched_covered, Option.mem_toList, Option.map_eq_some_iff] at hr
    obtain ⟨run, hrun, rfl⟩ := hr
    exact .inr (.inr (.inr ⟨run, hrun, rfl⟩))

theorem frame_finished (t : Tokenizer σ) : t.finished.position = t.position ∧
    t.finished.lines = t.lines ∧ t.finished.newlineRun = t.newlineRun := by
  rw [finished, covered]
  split <;> exact ⟨rfl, rfl, rfl⟩

theorem active_finished (t : Tokenizer σ) : t.finished.active = [] := by
  rw [finished, covered]
  split <;> rfl

theorem setupAs_finished (t : Tokenizer σ) : t.finished.SetupAs t := by
  rw [finished, covered]
  split <;> exact ⟨rfl, rfl, rfl, rfl, rfl⟩

theorem Placed.finished (h : t.Placed floor) : t.finished.Placed floor := by
  obtain ⟨hposition, hlines, hrun⟩ := frame_finished t
  refine ⟨by rw [hposition]; exact h.floor_le, ?_, ?_⟩
  · exact ⟨by rw [hlines]; exact h.lines.ordered, by rw [hlines]; exact h.lines.origin_le,
      by rw [hlines, hposition]; exact h.lines.lastStart_le,
      by rw [hlines, hposition, hrun]; exact h.lines.newlineRun⟩
  · refine ⟨Signature.within_nil _ _, fun b hb => ?_, fun _ h => (nomatch h),
      fun _ h => (nomatch h), fun r hr => ?_⟩
    · rw [active_finished] at hb
      exact nomatch hb
    · obtain hr | ⟨b, hb, x, hx, hr⟩ | ⟨hactive, rfl⟩ | ⟨run, hrun, rfl⟩ := mem_finished hr
      · exact h.held.results r hr
      · exact (h.held.fits b hb).above_of_mem_yield h.held.within hx hr
      · have hlength := h.held.length_pos hactive
        exact ⟨h.held.within.floor_le_boundary hlength, h.held.within.boundary_lt_stop hlength⟩
      · exact ⟨(h.held.run run hrun).floor_le, (h.held.run run hrun).nonempty⟩

/-! ## Moving -/

/-- **A tokenizer that starts afresh is in order**, wherever it moves to. -/
theorem placed_rewind (h : t.LinesKnown floor) (place : Nat) (hplace : t.lines.origin ≤ place) :
    (t.rewind place).Placed place where
  floor_le := Nat.le_refl _
  lines := by
    have hlast := t.lines.lastStart_truncateAfter_le_offset hplace
    refine ⟨h.ordered.truncateAfter place, hplace, hlast, fun r hr => ?_⟩
    obtain ⟨hrun, hlt⟩ := Option.filter_eq_some_iff.1 hr
    exact ⟨Nat.le_trans (h.ordered.lastStart_truncateAfter_le place) (h.newlineRun r hrun).1,
      of_decide_eq_true hlt⟩
  held := ⟨Signature.within_nil _ _, fun _ h => (nomatch h), fun _ h => (nomatch h),
    fun _ h => (nomatch h), fun _ h => (nomatch h)⟩

theorem setupAs_rewind (t : Tokenizer σ) (place : Nat) : (t.rewind place).SetupAs t :=
  ⟨rfl, rfl, rfl, rfl, rfl⟩

end Tokenizer

end Lexing
