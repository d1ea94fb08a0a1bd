import Lexing.Proofs.Source.Lines
import Lexing.Proofs.Tokenizer.Step

/-!
# What feeding a unit comes to

The ways in which a step can end are listed once (`Outcome`, `Treated`), each
with the tokenizer it leaves. They are the ways of a tokenizer whose offsets
are in order: what it holds lies between a floor, where it began afresh, and
the place it has reached. Such a tokenizer meets no fault, neither when it is
fed nor at the end of the stream.
-/

namespace Lexing

variable {σ : Type}

/-- What succeeds has succeeded step by step. -/
theorem exists_of_bind_eq_ok {α β : Type} {x : Except Fault α} {f : α → Except Fault β} {b : β}
    (h : x.bind f = .ok b) : ∃ a, x = .ok a ∧ f a = .ok b := by
  cases x with
  | error e => exact nomatch h
  | ok a => exact ⟨a, rfl, h⟩

theorem exists_of_map_eq_ok {α β : Type} {x : Except Fault α} {f : α → β} {b : β}
    (h : x.map f = .ok b) : ∃ a, x = .ok a ∧ f a = b := by
  cases x with
  | error e => exact nomatch h
  | ok a => exact ⟨a, rfl, Except.ok.inj h⟩

/-- A lexeme that starts at or above a floor, and is not empty. -/
structure Ready.Above (r : Ready) (floor : Nat) : Prop where
  floor_le : floor ≤ r.lexeme.start
  nonempty : r.lexeme.start < r.lexeme.stop

namespace UnmatchedRun

/-- The lexeme of an unmatched run. -/
def ready (run : UnmatchedRun) : Ready :=
  ⟨⟨run.start, run.stop, run.line, run.start - run.lineStart, run.text, none, none⟩, none⟩

/-- A run that starts at or above a floor, on its line, and is not empty. -/
structure Above (run : UnmatchedRun) (floor : Nat) : Prop where
  floor_le : floor ≤ run.start
  nonempty : run.start < run.stop
  lineStart_le : run.lineStart ≤ run.start

end UnmatchedRun

namespace Tokenizer

variable {t u : Tokenizer σ} {floor here width : Nat} {c : Char}

/-! ## The states that steps leave -/

/-- The tokenizer after its candidates have been offered a character. -/
def offered (t : Tokenizer σ) (here : Nat) (c : Char) (st : Stepped (Bucket σ)) : Tokenizer σ :=
  { t with
    signature := t.signature ++ [(c, here)]
    active := st.kept.filter (!·.live.isEmpty)
    results := t.results ++ st.ready }

/-- The tokenizer with one more lexeme that waits. -/
def reporting (t : Tokenizer σ) (r : Ready) : Tokenizer σ :=
  { t with results := t.results ++ [r] }

/-- The tokenizer after its unmatched run has been reported. -/
def interrupted (t : Tokenizer σ) (run : UnmatchedRun) : Tokenizer σ :=
  { t with
    unmatched := none
    results := t.results ++ [run.ready] }

/-- The tokenizer after candidates have begun. -/
def begun (t : Tokenizer σ) (here : Nat) (c : Char) : Tokenizer σ :=
  { t with
    active := t.active ++
      [⟨t.signature.length - 1, here, t.lines.current.1, t.lines.current.2, t.beginning c⟩] }

/-- The lexeme of one character that no token may have. -/
def alone (t : Tokenizer σ) (here width : Nat) (c : Char) : Ready :=
  ⟨⟨here, here + width, t.lines.current.1, here - t.lines.current.2, [c], none, none⟩, none⟩

/-- The lexeme of the first characters of the signature. -/
def wasted (t : Tokenizer σ) (length stop : Nat) : Ready :=
  let start := t.signature.boundary stop 0
  ⟨⟨start, stop, (t.lines.lookup start).1, start - (t.lines.lookup start).2,
    t.signature.text.take length, none, none⟩, none⟩

/-! ## Tokenizers in order -/

/-- **What a tokenizer holds lies in order**, between the floor and the place
it has reached. -/
structure Between (t : Tokenizer σ) (floor here : Nat) : Prop where
  within : t.signature.Within floor here
  fits : ∀ b ∈ t.active, b.Fits t.signature
  run : ∀ run, t.unmatched = some run → run.Above floor
  run_lt : ∀ run, t.unmatched = some run → run.start < here
  results : ∀ r ∈ t.results, r.Above floor

/-- The lines that a tokenizer has found are in order, and the breaks just
read lie behind the last of them. -/
structure LinesKnown (t : Tokenizer σ) (floor : Nat) : Prop where
  ordered : t.lines.Ordered
  origin_le : t.lines.origin ≤ floor
  lastStart_le : t.lines.lastStart ≤ t.position
  newlineRun : ∀ r, t.newlineRun = some r → t.lines.lastStart ≤ r ∧ r < t.position

/-- **A tokenizer in order** above a floor. -/
structure Placed (t : Tokenizer σ) (floor : Nat) : Prop where
  floor_le : floor ≤ t.position
  lines : t.LinesKnown floor
  held : t.Between floor t.position

/-! ## Unrecognized lexemes -/

theorem report_eq {start stop line lineStart : Nat} {text : List Char} (hstop : start ≤ stop)
    (hline : lineStart ≤ start) :
    t.report start stop line lineStart text
      = .ok (t.reporting ⟨⟨start, stop, line, start - lineStart, text, none, none⟩, none⟩) := by
  rw [report, Lexeme.make_eq hstop hline]
  rfl

theorem flushUnmatched_none (h : t.unmatched = none) : t.flushUnmatched = .ok (false, t) := by
  rw [flushUnmatched, h]

theorem flushUnmatched_some {run : UnmatchedRun} (h : t.unmatched = some run)
    (hrun : run.Above floor) : t.flushUnmatched = .ok (true, t.interrupted run) := by
  rw [flushUnmatched, h]
  simp only [report_eq (Nat.le_of_lt hrun.nonempty) hrun.lineStart_le, bind, Except.bind]
  rfl

/-- The first characters of a signature can be reported up to an offset
behind them. -/
theorem flushSignature_eq {length stop : Nat} (hlength : 0 < length)
    (hle : length ≤ t.signature.length) (horigin : t.lines.origin ≤ t.signature.boundary stop 0)
    (hstop : t.signature.boundary stop 0 ≤ stop) :
    t.flushSignature length stop = .ok (t.reporting (t.wasted length stop)) := by
  have hstart : t.signature.offsetAt none 0 = .ok (t.signature.boundary stop 0) :=
    Signature.offsetAt_none stop (by omega)
  have hslice : t.signature.slice 0 length = .ok (t.signature.text.take length) :=
    Signature.slice_eq (by omega)
  simp only [flushSignature, hstart, hslice, bind, Except.bind]
  exact report_eq hstop (t.lines.lookup_start_le horigin)

/-! ## A character for the candidates -/

/-- Neither the mode nor the policy of a character ends a step. -/
structure Undecided (t : Tokenizer σ) (before : Nat) (stopped disallow : Bool) : Prop where
  unbroken : stopped = false
  incomplete : t.results = [] ∨ disallow = false ∧ t.resultsComplete = false
  wanted : t.active = [] → t.results = [] → before = 0 ∨
    disallow = false ∧ t.mode.interleaved = true

/-- **What passing a character on comes to**, after the candidates of `t` have
been offered it. Before that the signature had `before` characters. -/
inductive Outcome (t : Tokenizer σ) (before here width : Nat) (c : Char)
    (stopped disallow : Bool) : Bool → Tokenizer σ → Prop
  /-- lexemes are ready -/
  | ready (hne : t.results ≠ [])
    (hwhy : stopped = true ∨ disallow = true ∨ t.resultsComplete = true) :
    Outcome t before here width c stopped disallow true t
  /-- every candidate has ended without a lexeme -/
  | wasted (hactive : t.active = []) (hresults : t.results = []) (hbefore : 0 < before)
    (hmode : disallow = true ∨ t.mode.interleaved = false) :
    Outcome t before here width c stopped disallow true (t.reporting (t.wasted before here))
  /-- the candidates go on, and none begins -/
  | waiting (hgo : t.Undecided before stopped disallow) (hactive : t.active ≠ [])
    (hbegin : t.mode.interleaved = false ∨ t.beginning c = []) :
    Outcome t before here width c stopped disallow false t
  /-- the character joins the unmatched run -/
  | unmatched (hgo : t.Undecided before stopped disallow) (hactive : t.active = [])
    (hbegin : t.beginning c = []) :
    Outcome t before here width c stopped disallow false (t.extendUnmatched here width c)
  /-- candidates could begin, but an unmatched run comes before them -/
  | interrupted (hgo : t.Undecided before stopped disallow)
    (hactive : t.mode.interleaved = true ∨ t.active = []) (hbegin : t.beginning c ≠ [])
    (run : UnmatchedRun) (hrun : t.unmatched = some run) :
    Outcome t before here width c stopped disallow true (t.interrupted run)
  /-- candidates begin -/
  | begun (hgo : t.Undecided before stopped disallow)
    (hactive : t.mode.interleaved = true ∨ t.active = []) (hbegin : t.beginning c ≠ [])
    (hrun : t.unmatched = none) :
    Outcome t before here width c stopped disallow false (t.begun here c)

/-- With no candidate at work, nothing waits that is not decided. -/
theorem Undecided.results_of_idle {before : Nat} {stopped disallow : Bool}
    (h : t.Undecided before stopped disallow) (hactive : t.active = []) : t.results = [] := by
  have hcomplete : t.resultsComplete = true := by
    rw [resultsComplete, hactive]
    cases t.mode.select <;> rfl
  exact h.incomplete.resolve_right fun h => Bool.noConfusion (h.2.symm.trans hcomplete)

/-- Without interleaving candidates begin only where nothing is under way. -/
theorem Undecided.idle {before : Nat} {stopped disallow : Bool}
    (h : t.Undecided before stopped disallow) (hmode : t.mode.interleaved = false)
    (hactive : t.active = []) : before = 0 ∧ t.results = [] := by
  have hresults := h.results_of_idle hactive
  refine ⟨(h.wanted hactive hresults).resolve_right fun h => ?_, hresults⟩
  rw [hmode] at h
  exact absurd h.2 (by decide)

theorem start_total {before : Nat} {stopped disallow : Bool}
    (hgo : t.Undecided before stopped disallow)
    (hactive : t.mode.interleaved = true ∨ t.active = [])
    (habove : ∀ run, t.unmatched = some run → run.Above floor) :
    ∃ r u, t.start here width c = .ok (r, u) ∧
      Outcome t before here width c stopped disallow r u := by
  rw [start]
  by_cases hbegin : t.beginning c = []
  · rw [hbegin]
    cases hempty : t.active.isEmpty with
    | true => exact ⟨_, _, rfl, .unmatched hgo (List.isEmpty_iff.1 hempty) hbegin⟩
    | false => exact ⟨_, _, rfl, .waiting hgo (List.isEmpty_eq_false_iff.1 hempty) (.inr hbegin)⟩
  · rw [if_neg (by simpa using hbegin)]
    cases hrun : t.unmatched with
    | none =>
      simp only [flushUnmatched_none hrun, bind, Except.bind]
      exact ⟨_, _, rfl, .begun hgo hactive hbegin hrun⟩
    | some run =>
      simp only [flushUnmatched_some hrun (habove run hrun), bind, Except.bind]
      exact ⟨_, _, rfl, .interrupted hgo hactive hbegin run hrun⟩

/-- The end of a step, once the candidates have been offered the character. -/
def conclude (t : Tokenizer σ) (before here width : Nat) (c : Char) (stopped disallow : Bool) :
    Except Fault (Bool × Tokenizer σ) :=
  if stopped then .ok (true, t)
  else if !t.results.isEmpty && (disallow || t.resultsComplete) then .ok (true, t)
  else if (disallow || !t.mode.interleaved) && t.active.isEmpty && t.results.isEmpty
      && 0 < before then
    (t.flushSignature before here).map fun t => (true, t)
  else if t.mode.interleaved || t.active.isEmpty then t.start here width c
  else .ok (false, t)

theorem consume_eq (t : Tokenizer σ) (here width : Nat) (c : Char) (disallow terminate : Bool) :
    t.consume here width c disallow terminate =
      (stepBuckets (t.signature ++ [(c, here)]) c terminate (t.mode.select = .first) t.active).bind
        fun st => (t.offered here c st).conclude t.signature.length here width c st.stopped
          disallow := rfl

/-- The branches of `conclude` that were not taken are all there is to being
undecided. -/
theorem undecided_of_goes_on {before : Nat} {disallow : Bool}
    (hready : ¬(!t.results.isEmpty && (disallow || t.resultsComplete)) = true)
    (hwasted : ¬((disallow || !t.mode.interleaved) && t.active.isEmpty && t.results.isEmpty
      && decide (0 < before)) = true) : t.Undecided before false disallow := by
  refine ⟨rfl, ?_, fun hactive hresults => ?_⟩
  · cases hresults : t.results with
    | nil => exact .inl rfl
    | cons r rs => simpa [hresults] using hready
  · rw [hactive, hresults] at hwasted
    by_cases hbefore : before = 0
    · exact .inl hbefore
    · simpa [hbefore, Nat.pos_iff_ne_zero] using hwasted

theorem conclude_total {before : Nat} {stopped disallow : Bool}
    (hstopped : stopped = true → t.results ≠ [])
    (hflush : 0 < before → t.flushSignature before here = .ok (t.reporting (t.wasted before here)))
    (habove : ∀ run, t.unmatched = some run → run.Above floor) :
    ∃ r u, t.conclude before here width c stopped disallow = .ok (r, u) ∧
      Outcome t before here width c stopped disallow r u := by
  rw [conclude]
  cases stopped with
  | true => exact ⟨_, _, rfl, .ready (hstopped rfl) (.inl rfl)⟩
  | false =>
    rw [if_neg Bool.false_ne_true]
    by_cases hready : (!t.results.isEmpty && (disallow || t.resultsComplete)) = true
    · rw [if_pos hready]
      rw [Bool.and_eq_true, Bool.or_eq_true, Bool.not_eq_true', List.isEmpty_eq_false_iff] at hready
      exact ⟨_, _, rfl, .ready hready.1 (.inr hready.2)⟩
    rw [if_neg hready]
    by_cases hwasted : ((disallow || !t.mode.interleaved) && t.active.isEmpty && t.results.isEmpty
        && decide (0 < before)) = true
    · rw [if_pos hwasted]
      simp only [Bool.and_eq_true, Bool.or_eq_true, List.isEmpty_iff, decide_eq_true_eq,
        Bool.not_eq_true'] at hwasted
      obtain ⟨⟨⟨hmode, hactive⟩, hresults⟩, hbefore⟩ := hwasted
      exact ⟨_, _, by rw [hflush hbefore]; rfl, .wasted hactive hresults hbefore hmode⟩
    rw [if_neg hwasted]
    have hgo := undecided_of_goes_on hready hwasted
    by_cases hstart : (t.mode.interleaved || t.active.isEmpty) = true
    · rw [if_pos hstart]
      rw [Bool.or_eq_true, List.isEmpty_iff] at hstart
      exact start_total hgo hstart habove
    · rw [if_neg hstart]
      rw [Bool.or_eq_true, not_or, Bool.not_eq_true, List.isEmpty_iff] at hstart
      exact ⟨_, _, rfl, .waiting hgo hstart.2 (.inl hstart.1)⟩

/-- **Passing a character on meets no fault** in a tokenizer that is in order. -/
theorem consume_total (h : t.Between floor here) (horigin : t.lines.origin ≤ floor)
    (width : Nat) (c : Char) (disallow terminate : Bool) :
    ∃ st r u, BucketStep t.signature here c terminate (t.mode.select = .first) t.active st ∧
      t.consume here width c disallow terminate = .ok (r, u) ∧
      Outcome (t.offered here c st) t.signature.length here width c st.stopped disallow r u := by
  obtain ⟨st, hst, hspec⟩ :=
    stepBuckets_total h.within c terminate (t.mode.select = .first) t.active h.fits
  have hflush (hbefore : 0 < t.signature.length) :
      (t.offered here c st).flushSignature t.signature.length here = .ok
        ((t.offered here c st).reporting
          ((t.offered here c st).wasted t.signature.length here)) := by
    have hfirst : Signature.boundary (t.signature ++ [(c, here)]) here 0
        = t.signature.boundary here 0 := Signature.boundary_snoc _ c here here (Nat.zero_le _)
    refine flushSignature_eq hbefore ?_ ?_ ?_
    · show _ ≤ (t.signature ++ [(c, here)]).length
      rw [List.length_append]
      omega
    · show t.lines.origin ≤ Signature.boundary (t.signature ++ [(c, here)]) here 0
      rw [hfirst]
      exact Nat.le_trans horigin (h.within.floor_le_boundary hbefore)
    · show Signature.boundary (t.signature ++ [(c, here)]) here 0 ≤ here
      rw [hfirst]
      exact h.within.boundary_le 0
  have hstopped (hst : st.stopped = true) : (t.offered here c st).results ≠ [] := by
    show t.results ++ st.ready ≠ []
    simp [hspec.ready_of_stopped hst]
  obtain ⟨r, u, hconclude, hout⟩ := conclude_total hstopped hflush h.run
  -- the step gives the tokenizer, and concluding is all that is left
  refine ⟨st, r, u, hspec, ?_, hout⟩
  rw [consume_eq, hst]
  exact hconclude

/-! ## A character and its policy -/

/-- **What treating a character comes to.** -/
inductive Treated (t : Tokenizer σ) (here width : Nat) (c : Char) : Bool → Tokenizer σ → Prop
  /-- the character is dropped between lexemes -/
  | trimmed (htrim : (t.policies.get c).trim = true) (hactive : t.active = [])
    (hrun : t.unmatched = none) : Treated t here width c false t
  /-- the character ends an unmatched run -/
  | interrupted (hpolicy : (t.policies.get c).trim = true ∨ (t.policies.get c).disallow = true)
    (hactive : t.active = []) (run : UnmatchedRun) (hrun : t.unmatched = some run) :
    Treated t here width c true (t.interrupted run)
  /-- the character is reported on its own -/
  | disallowed (htrim : (t.policies.get c).trim = false)
    (hdisallow : (t.policies.get c).disallow = true) (hactive : t.active = [])
    (hrun : t.unmatched = none) :
    Treated t here width c true (t.reporting (t.alone here width c))
  /-- the character is dropped wherever it stands -/
  | ignored (hignore : (t.policies.get c).ignore = true)
    (hidle : t.active = [] →
      (t.policies.get c).trim = false ∧ (t.policies.get c).disallow = false) :
    Treated t here width c false t
  /-- the character is passed on to the candidates -/
  | consumed (hignore : (t.policies.get c).ignore = false)
    (hidle : t.active = [] → (t.policies.get c).trim = false ∧ (t.policies.get c).disallow = false)
    (st : Stepped (Bucket σ))
    (hstep : BucketStep t.signature here c
      ((t.policies.get c).disallow || (t.policies.get c).terminate) (t.mode.select = .first)
      t.active st)
    (r : Bool) (u : Tokenizer σ)
    (hout : Outcome (t.offered here c st) t.signature.length here width c st.stopped
      (t.policies.get c).disallow r u) :
    Treated t here width c r u

/-- **Treating a character meets no fault.** -/
theorem feedChar_total (h : t.Between floor here) (horigin : t.lines.origin ≤ floor)
    (hline : t.lines.lastStart ≤ here) (width : Nat) (c : Char) :
    ∃ r u, t.feedChar here width c = .ok (r, u) ∧ Treated t here width c r u := by
  rw [feedChar]
  by_cases htrim : ((t.policies.get c).trim && t.active.isEmpty) = true
  · simp only [if_pos htrim]
    rw [Bool.and_eq_true, List.isEmpty_iff] at htrim
    cases hrun : t.unmatched with
    | none => exact ⟨_, _, flushUnmatched_none hrun, .trimmed htrim.1 htrim.2 hrun⟩
    | some run =>
      exact ⟨_, _, flushUnmatched_some hrun (h.run run hrun),
        .interrupted (.inl htrim.1) htrim.2 run hrun⟩
  simp only [if_neg htrim]
  rw [Bool.and_eq_true, List.isEmpty_iff, not_and', Bool.not_eq_true] at htrim
  by_cases hdisallow : ((t.policies.get c).disallow && t.active.isEmpty) = true
  · simp only [if_pos hdisallow]
    rw [Bool.and_eq_true, List.isEmpty_iff] at hdisallow
    cases hrun : t.unmatched with
    | none =>
      simp only [flushUnmatched_none hrun, bind, Except.bind]
      have hreport : t.report here (here + width) t.lines.current.1 t.lines.current.2 [c]
          = .ok (t.reporting (t.alone here width c)) := report_eq (Nat.le_add_right ..) hline
      exact ⟨_, _, by rw [if_neg Bool.false_ne_true, hreport]; rfl,
        .disallowed (htrim hdisallow.2) hdisallow.1 hdisallow.2 hrun⟩
    | some run =>
      simp only [flushUnmatched_some hrun (h.run run hrun), bind, Except.bind]
      exact ⟨_, _, rfl, .interrupted (.inr hdisallow.1) hdisallow.2 run hrun⟩
  simp only [if_neg hdisallow]
  rw [Bool.and_eq_true, List.isEmpty_iff, not_and', Bool.not_eq_true] at hdisallow
  have hidle (hactive : t.active = []) := And.intro (htrim hactive) (hdisallow hactive)
  by_cases hignore : (t.policies.get c).ignore = true
  · rw [if_pos hignore]
    exact ⟨_, _, rfl, .ignored hignore hidle⟩
  · rw [if_neg hignore]
    obtain ⟨st, r, u, hstep, hconsume, hout⟩ := consume_total h horigin width c
      (t.policies.get c).disallow ((t.policies.get c).disallow || (t.policies.get c).terminate)
    exact ⟨r, u, hconsume, .consumed ((Bool.not_eq_true _).mp hignore) hidle st hstep r u hout⟩

end Tokenizer

end Lexing
