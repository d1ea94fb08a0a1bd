import Lexing.Proofs.Charset.Glyphs
import Lexing.Proofs.Tokenizer.Driven
import Lexing.Proofs.Tokenizer.Sequential

/-!
# The end of the stream is a character that terminates

Candidates can be finished in two ways: all at once at the end of the stream,
or by a character whose policy terminates them. The two are written apart. The
end finishes candidates behind the signature, gives a signature without a lexeme
as it stands, and ends an unmatched run. A character is added to the signature
first, may find a line on its way, and could begin candidates of its own.

None of this makes a difference while a candidate is active. What is given in
both cases is told by the candidates and by the place (`cutOff`): the lexemes
that they have settled for, or the whole signature if there are none. A line
that the character finds starts behind the signature (`lookup_tracked`), and no
unmatched run waits beside a candidate, whatever has been asked of the tokenizer
before (`Exclusive`).
-/

namespace Lexing

variable {σ : Type}

/-! ## Candidates that are ended -/

namespace Bucket

variable {b : Bucket σ} {s : Signature} {here : Nat} {c : Char} {xs : List (Candidate σ)}

/-- What candidates yield before such a character is what they yield at the
end. -/
theorem yielded_of_terminate : b.yielded s here c true xs = Tokenizer.yieldedAtEnd s here b xs := by
  have hall : xs.reverse.filter (fun x => (x.offered (b.text s) c true).isNone) = xs.reverse :=
    List.filter_eq_self.mpr fun _ _ => rfl
  unfold yielded Tokenizer.yieldedAtEnd
  rw [hall]

end Bucket

namespace Tokenizer

variable {t u v : Tokenizer σ} {floor here width o : Nat} {c : Char} {pool : List (Token σ)}

/-- **What candidates give that are cut off** at an offset: the lexemes they have
settled for, or else the signature. -/
def cutOff (t : Tokenizer σ) (stop : Nat) : List Ready :=
  let given := t.active.flatMap fun b => yieldedAtEnd t.signature stop b b.live
  if given = [] then [t.wasted t.signature.length stop] else given

theorem cutOff_ne_nil (t : Tokenizer σ) (stop : Nat) : t.cutOff stop ≠ [] := by
  unfold cutOff
  dsimp only
  split_ifs with hgiven
  · exact List.cons_ne_nil _ _
  · exact hgiven

/-- **The end of the stream** cuts the candidates off. -/
theorem results_finished_of_active (hactive : t.active ≠ []) (hresults : t.results = [])
    (hrun : t.unmatched = none) : t.finished.results = t.cutOff t.position := by
  set given := t.active.flatMap fun b => yieldedAtEnd t.signature t.position b b.live with hgiven
  have hsettled : t.settled.results = given := by
    unfold settled
    rw [hresults, List.nil_append]
  have hcovered : t.covered.results = t.cutOff t.position := by
    unfold covered cutOff
    rw [List.isEmpty_eq_false_iff.mpr hactive, hsettled, ← hgiven]
    by_cases hnone : given = []
    · rw [if_pos hnone, if_pos (by rw [hnone]; rfl)]
      show t.settled.results ++ [_] = _
      rw [hsettled, hnone]
      rfl
    · rw [if_neg hnone, if_neg (by simpa using hnone), hsettled]
  unfold finished
  rw [unmatched_covered, hrun, hcovered]
  exact List.append_nil _

/-- **A character that terminates** cuts the candidates off, too. -/
theorem Treated.terminated {r : Bool} (h : Treated t here width c r u)
    (hlength : 0 < t.signature.length) (hactive : t.active ≠ []) (hresults : t.results = [])
    (hselect : t.mode.select ≠ .first) (hmode : t.mode.interleaved = false)
    (hterminate : (t.policies.get c).terminate = true)
    (hignore : (t.policies.get c).ignore = false) :
    r = true ∧ u.results = t.cutOff here := by
  cases h with
  | trimmed _ hidle => exact absurd hidle hactive
  | interrupted _ hidle => exact absurd hidle hactive
  | disallowed _ _ hidle => exact absurd hidle hactive
  | ignored hyes => exact Bool.noConfusion (hyes.symm.trans hignore)
  | consumed _ _ st hst _ _ hout =>
    rw [hterminate, Bool.or_true, decide_eq_false hselect] at hst
    obtain rfl := hst.of_not_firstOnly
    have hleft := active_offered_of_terminate hst rfl
    simp only [Bucket.yielded_of_terminate] at hout hleft
    set given := t.active.flatMap fun b => yieldedAtEnd t.signature here b b.live with hgiven
    set step : Stepped (Bucket σ) := ⟨t.active.map (·.passed t.signature c true), given, false⟩
      with hstep
    have hready : (t.offered here c step).results = given := by
      show t.results ++ given = given
      rw [hresults, List.nil_append]
    unfold cutOff
    rw [← hgiven]
    cases hout with
    | ready hne => exact ⟨rfl, by rw [if_neg (hready ▸ hne), hready]⟩
    | wasted _ hnone =>
      refine ⟨rfl, ?_⟩
      rw [if_pos (hready ▸ hnone)]
      show (t.offered here c step).results ++ [_] = _
      rw [hnone, wasted_offered]
      rfl
    | waiting _ hne => exact absurd hleft hne
    | unmatched hgo => exact (hgo.busy hmode hlength (.inr hleft)).elim
    | interrupted hgo => exact (hgo.busy hmode hlength (.inr hleft)).elim
    | begun hgo => exact (hgo.busy hmode hlength (.inr hleft)).elim

/-! ## The line of the signature -/

/-- Noting a character finds no line that starts before it. -/
theorem lookup_tracked {lines : LineTable} {run : Option Nat}
    (hlines : t.step.trackLines t.position c = .ok (t.tracked lines run)) {q : Nat}
    (hq : q < t.position) : lines.lookup q = t.lines.lookup q := by
  obtain rfl | hpush := lines_of_trackLines hlines
  · rfl
  · exact LineTable.lookup_push? hpush hq

/-- A character that has been noted leaves what is cut off as it was. -/
theorem cutOff_tracked (h : t.Placed floor) (hactive : t.active ≠ []) {lines : LineTable}
    {run : Option Nat} (hlines : t.step.trackLines t.position c = .ok (t.tracked lines run)) :
    (t.tracked lines run).cutOff t.position = t.cutOff t.position := by
  have hsignature := signature_tracked_of_live lines run hactive
  have hlookup : lines.lookup (t.signature.boundary t.position 0)
      = t.lines.lookup (t.signature.boundary t.position 0) :=
    lookup_tracked hlines (h.held.within.boundary_lt_stop (h.held.length_pos hactive))
  have hwasted : (t.tracked lines run).wasted t.signature.length t.position
      = t.wasted t.signature.length t.position := by
    unfold wasted
    rw [hsignature]
    dsimp only
    rw [show (t.tracked lines run).lines = lines from rfl, hlookup]
  unfold cutOff
  rw [hsignature, hwasted]
  rfl

/-! ## Candidates and unmatched runs -/

/-- **Beside candidates no unmatched run waits.** -/
def Exclusive (t : Tokenizer σ) : Prop := t.active ≠ [] → t.unmatched = none

theorem exclusive_of_idle (h : t.active = []) : t.Exclusive := fun hactive => absurd h hactive

/-- A run grows only without candidates, and ends before any begin. -/
theorem Treated.exclusive {r : Bool} (h : Treated t here width c r u) (ht : t.Exclusive) :
    u.Exclusive := by
  cases h with
  | trimmed | ignored => exact ht
  | interrupted => exact fun _ => rfl
  | disallowed _ _ hidle => exact exclusive_of_idle hidle
  | consumed _ _ st hst _ _ hout =>
    have hoffered : (t.offered here c st).Exclusive := by
      intro hactive
      refine ht fun hidle => hactive ?_
      rw [hidle] at hst
      rw [hst.of_nil]
      rfl
    cases hout with
    | ready | waiting => exact hoffered
    | wasted hidle => exact exclusive_of_idle hidle
    | unmatched _ hidle => exact exclusive_of_idle hidle
    | interrupted => exact fun _ => rfl
    | begun _ _ _ hrun => exact fun _ => hrun

theorem Fed.exclusive {unit : UInt32} {r : Bool} (h : Fed t unit r v) (ht : t.Exclusive) :
    v.Exclusive := by
  cases h with
  | passed => exact ht
  | led _ lines run _ _ _ htreated =>
    exact htreated.exclusive (show (t.tracked lines run).Exclusive from ht)

theorem Obeyed.exclusive {command : Command σ} (h : Obeyed t command u) (ht : t.Exclusive) :
    u.Exclusive := by
  cases h with
  | feed hfed => exact hfed.exclusive ht
  | finish => exact exclusive_of_idle (active_finished t)
  | rewind => exact exclusive_of_idle rfl
  | _ => exact ht

/-- **Whatever is asked of a tokenizer**, no unmatched run waits beside its
candidates. -/
theorem exclusive_drive (h : t.Drivable o pool) (ht : t.Exclusive) {commands : List (Command σ)}
    (hrewind : ∀ place, .rewind place ∈ commands → o ≤ place)
    (htokens : ∀ command ∈ commands, ∀ token ∈ command.tokens, token ∈ pool)
    {answers : List Answer} (hdrive : t.drive commands = .ok (answers, u)) :
    u.Drivable o pool ∧ u.Exclusive :=
  h.keeps hrewind htokens ht (fun _ _ _ _ ht _ _ hobeyed => hobeyed.exclusive ht) hdrive

/-! ## Ending a stream -/

/-- A unit of ASCII that terminates makes ready what it cuts off. -/
theorem feed_terminated (h : t.Placed floor) (hactive : t.active ≠ []) (hresults : t.results = [])
    (hselect : t.mode.select ≠ .first) (hmode : t.mode.interleaved = false) {unit : UInt32}
    (hunit : unit.toNat < 0x80)
    (hterminate : (t.policies.get (leadToChar unit)).terminate = true)
    (hignore : (t.policies.get (leadToChar unit)).ignore = false) :
    ∃ fed, t.feed unit = .ok (true, fed) ∧ fed.results = t.cutOff t.position := by
  obtain ⟨r, fed, hfeed, hfed⟩ := feed_total h unit
  have hled : t.encoding.glyphUnits unit = 1 := Encoding.glyphUnits_of_ascii hunit _
  cases hfed with
  | passed hzero => exact absurd (hled.symm.trans hzero) Nat.one_ne_zero
  | led _ lines run hlines _ _ htreated =>
    have hlength : 0 < (t.tracked lines run).signature.length := by
      rw [signature_tracked_of_live lines run hactive]
      exact h.held.length_pos hactive
    obtain ⟨rfl, hcut⟩ :=
      htreated.terminated hlength hactive hresults hselect hmode hterminate hignore
    exact ⟨fed, hfeed, hcut.trans (cutOff_tracked h hactive hlines)⟩

/-- **The end of a stream acts like a character that terminates.** Whatever has
been asked of a tokenizer, if a candidate is active then, no lexeme waits and it
looks for more than the first lexeme without interleaving, then ending the stream
there makes the same lexemes ready, in the same order, as one more unit of ASCII
that terminates and is not ignored. -/
theorem take_finish_eq_take_feed {tokens : List (Token σ)} {config : TokenizerConfig}
    {commands : List (Command σ)}
    (hrewind : ∀ place, .rewind place ∈ commands → config.offset ≤ place)
    {answers : List Answer} (hdrive : (new tokens config).drive commands = .ok (answers, t))
    (hactive : t.hasActive = true) (hresults : t.results = [])
    (hselect : t.mode.select = .set ∨ t.mode.select = .all) (hmode : t.mode.interleaved = false)
    {unit : UInt32} (hunit : unit.toNat < 0x80)
    (hterminate : (t.policies.get (leadToChar unit)).terminate = true)
    (hignore : (t.policies.get (leadToChar unit)).ignore = false) :
    ∃ ended fed, t.finish = .ok (true, ended) ∧ t.feed unit = .ok (true, fed)
      ∧ ended.take.1 = fed.take.1 ∧ fed.take.1 ≠ [] := by
  have hstart : (new tokens config).Drivable config.offset
      (tokens ++ commands.flatMap Command.tokens) :=
    drivable_new tokens config fun token htoken => List.mem_append_left _ htoken
  obtain ⟨⟨⟨floor, hp⟩, -, -⟩, hexclusive⟩ := exclusive_drive hstart (exclusive_of_idle rfl) hrewind
    (fun command hcommand token htoken =>
      List.mem_append_right _ (List.mem_flatMap.2 ⟨command, hcommand, htoken⟩)) hdrive
  have hne : t.active ≠ [] := by simpa [hasActive] using hactive
  have hfirst : t.mode.select ≠ .first := by
    obtain hset | hall := hselect
    · simp [hset]
    · simp [hall]
  have hended := results_finished_of_active hne hresults (hexclusive hne)
  obtain ⟨fed, hfeed, hfed⟩ :=
    feed_terminated hp hne hresults hfirst hmode hunit hterminate hignore
  refine ⟨t.finished, fed, ?_, hfeed, ?_, ?_⟩
  · rw [finish_eq hp, hended, List.isEmpty_eq_false_iff.mpr (cutOff_ne_nil t _)]
    rfl
  · unfold take
    rw [hended, hfed]
  · rw [Ne, take_eq_nil_iff, hfed]
    exact cutOff_ne_nil t _

/-- A literal that has gone on to an exponent without digits, on a second
line. -/
theorem take_finish_eq_take_feed_fallback :
    let config : TokenizerConfig :=
      { policies := [⟨.newline, [.trim]⟩, ⟨.whitespace, [.terminate]⟩] }
    ∃ (answers : List Answer) (t ended fed : Tokenizer Numeric.Progress),
      (new [(Token.numeric {} 0).toToken] config).drive
          [.feed 0x0a, .feed 0x31, .feed 0x32, .feed 0x65] = .ok (answers, t)
        ∧ t.finish = .ok (true, ended) ∧ t.feed 0x20 = .ok (true, fed)
        ∧ ended.take.1 = fed.take.1 ∧ fed.take.1 ≠ [] := by
  intro config
  have hdrive : (new [(Token.numeric {} 0).toToken] config).drive
      [.feed 0x0a, .feed 0x31, .feed 0x32, .feed 0x65] = .ok (_, _) := rfl
  obtain ⟨ended, fed, h⟩ := take_finish_eq_take_feed (by simp) hdrive rfl rfl (.inr rfl) rfl
    (show (0x20 : UInt32).toNat < 0x80 by decide) (by decide) (by decide)
  exact ⟨_, _, ended, fed, hdrive, h⟩

end Tokenizer

end Lexing
