import Lexing.Proofs.Scanner.Scan
import Lexing.Proofs.Tokenizer.Sequential

/-!
# Policies keep characters where they belong

A character may be forbidden in every lexeme, dropped wherever it stands, or
forbidden behind the first character of a recognized lexeme. The flags are not
looked at in one place: those of a disallowed character are tested twice, once
without candidates and once when their step is over, and a character that ends
every candidate is in the signature before they are asked.

So a signature does hold disallowed characters for a moment. It does not go on
with one: a search that is not over holds only characters that may stand in a
lexeme, and a bucket that has come through a character was not ended by it
(`Policed`). A lexeme is cut from what was held before its last step, so it
respects the policies in every mode (`scan_respects_policies`).
-/

namespace Lexing

variable {σ : Type}

/-- A character that may stand in a lexeme with others. -/
structure PolicyTable.Admits (P : PolicyTable) (c : Char) : Prop where
  disallow : (P.get c).disallow = false
  ignore : (P.get c).ignore = false

/-- **A lexeme respects the policies of characters.** -/
structure Lexeme.Respects (l : Lexeme) (P : PolicyTable) : Prop where
  /-- a disallowed character stands alone, and is not recognized -/
  disallowed : ∀ c ∈ l.text, (P.get c).disallow = true → l.text = [c] ∧ l.isRecognized = false
  /-- a terminating character can only begin a recognized lexeme -/
  terminating : l.isRecognized = true → ∀ c ∈ l.text.tail, (P.get c).terminate = false
  /-- an ignored character stands in a lexeme only if it is disallowed, too -/
  ignored : ∀ c ∈ l.text, (P.get c).ignore = true →
    (P.get c).disallow = true ∧ l.text = [c] ∧ l.isRecognized = false

namespace Lexeme

variable {l : Lexeme} {P : PolicyTable}

/-- Where every character is admitted, only those that terminate matter. -/
theorem respects_of_admits (h : ∀ c ∈ l.text, P.Admits c)
    (htail : l.isRecognized = true → ∀ c ∈ l.text.tail, (P.get c).terminate = false) :
    l.Respects P where
  disallowed c hc hyes := Bool.noConfusion (hyes.symm.trans (h c hc).disallow)
  terminating := htail
  ignored c hc hyes := Bool.noConfusion (hyes.symm.trans (h c hc).ignore)

/-- A disallowed character on its own respects the policies. -/
theorem respects_of_singleton {c : Char} (htext : l.text = [c]) (hnone : l.isRecognized = false)
    (hdisallow : (P.get c).disallow = true) : l.Respects P where
  disallowed d hd _ := by
    rw [htext] at hd
    rw [List.mem_singleton.1 hd]
    exact ⟨htext, hnone⟩
  terminating hyes := Bool.noConfusion (hyes.symm.trans hnone)
  ignored d hd _ := by
    rw [htext] at hd
    rw [List.mem_singleton.1 hd]
    exact ⟨hdisallow, htext, hnone⟩

end Lexeme

namespace Tokenizer

variable {t u v : Tokenizer σ} {floor here width : Nat} {c : Char}

/-- **A tokenizer whose search goes on** holds only characters that may stand in
a lexeme, and its candidates have not come through one that terminates. -/
structure Policed (t : Tokenizer σ) : Prop where
  signature : ∀ c ∈ t.signature.text, t.policies.Admits c
  tails : ∀ b ∈ t.active, ∀ c ∈ (b.text t.signature).tail, (t.policies.get c).terminate = false
  run : ∀ run, t.unmatched = some run → ∀ c ∈ run.text, t.policies.Admits c

/-- The lexemes that wait respect the policies. -/
def Respectful (t : Tokenizer σ) : Prop := ∀ r ∈ t.results, r.lexeme.Respects t.policies

theorem Respectful.reporting (h : t.Respectful) {r : Ready} (hr : r.lexeme.Respects t.policies) :
    (t.reporting r).Respectful := by
  intro q hq
  obtain hq | hq := List.mem_append.1 hq
  · exact h q hq
  · rw [List.mem_singleton.1 hq]
    exact hr

/-- What a candidate yields is the beginning of what its bucket has seen. -/
theorem Policed.respects_of_mem_yield (h : t.Policed) {b : Bucket σ} (hb : b ∈ t.active)
    {x : Candidate σ} {stop : Nat} {r : Ready} (hr : r ∈ b.yield t.signature stop x) :
    r.lexeme.Respects t.policies := by
  obtain ⟨n, st, -, rfl⟩ := Bucket.mem_yield.1 hr
  refine Lexeme.respects_of_admits (fun c hc => ?_) fun _ c hc => ?_
  · exact h.signature c (List.mem_of_mem_drop (List.mem_of_mem_take hc))
  · refine h.tails b hb c ?_
    have hc : c ∈ ((b.text t.signature).take n).tail := hc
    rw [← List.drop_one, List.drop_take, List.drop_one] at hc
    exact List.mem_of_mem_take hc

theorem Policed.respects_run (h : t.Policed) {run : UnmatchedRun} (hrun : t.unmatched = some run) :
    run.ready.lexeme.Respects t.policies :=
  Lexeme.respects_of_admits (h.run run hrun) fun hyes => nomatch hyes

theorem Policed.respects_wasted (h : t.Policed) (length stop : Nat) :
    (t.wasted length stop).lexeme.Respects t.policies :=
  Lexeme.respects_of_admits (fun c hc => h.signature c (List.mem_of_mem_take hc))
    fun hyes => nomatch hyes

/-! ## A character -/

/-- What the candidates give is cut from the signature before the character. -/
theorem Policed.respectful_offered (h : t.Policed) (hresults : t.Respectful)
    {terminate firstOnly : Bool} {st : Stepped (Bucket σ)}
    (hst : BucketStep t.signature here c terminate firstOnly t.active st) :
    (t.offered here c st).Respectful := by
  intro r hr
  obtain hr | hr := List.mem_append.1 hr
  · exact hresults r hr
  · obtain ⟨b, hb, x, -, -, hr⟩ := hst.ready_from hr
    exact h.respects_of_mem_yield hb hr

/-- **What a character leaves waiting respects the policies.** -/
theorem Treated.respectful {r : Bool} (htreated : Treated t here width c r u) (h : t.Policed)
    (hresults : t.Respectful) : u.Respectful := by
  cases htreated with
  | trimmed => exact hresults
  | interrupted _ _ run hrun => exact hresults.reporting (h.respects_run hrun)
  | disallowed _ hdisallow =>
    exact hresults.reporting (Lexeme.respects_of_singleton rfl rfl hdisallow)
  | ignored => exact hresults
  | consumed _ _ st hst _ _ hout =>
    have hoffered := h.respectful_offered hresults hst
    cases hout with
    | ready => exact hoffered
    | wasted =>
      refine hoffered.reporting ?_
      rw [wasted_offered]
      exact h.respects_wasted _ _
    | waiting => exact hoffered
    | unmatched => exact hoffered
    | interrupted _ _ _ run hrun => exact hoffered.reporting (h.respects_run hrun)
    | begun => exact hoffered

/-- **A disallowed character ends the search**: if it is passed on and the
step does not decide, then it was not disallowed. -/
theorem Undecided.not_disallow {st : Stepped (Bucket σ)} {disallow terminate firstOnly : Bool}
    (hgo : (t.offered here c st).Undecided t.signature.length st.stopped disallow)
    (hst : BucketStep t.signature here c (disallow || terminate) firstOnly t.active st)
    (hb : t.Between floor here) (hidle : t.active = [] → disallow = false) :
    disallow = false := by
  cases disallow with
  | false => rfl
  | true =>
    have hnone := active_offered_of_terminate hst hgo.unbroken
    have hresults := hgo.incomplete.resolve_right fun h => nomatch h.1
    -- nothing was found, so there was no signature that could be reported either
    have hlength := (hgo.wanted hnone hresults).resolve_right fun h => nomatch h.1
    refine hidle (Classical.not_not.1 fun hactive => ?_)
    exact absurd hlength (Nat.ne_of_gt (hb.length_pos hactive))

/-- A character that neither ends a search nor is dropped keeps it policed. -/
theorem Policed.offered (h : t.Policed) (hb : t.Between floor here) (hadmits : t.policies.Admits c)
    {st : Stepped (Bucket σ)} {firstOnly : Bool}
    (hst : BucketStep t.signature here c
      ((t.policies.get c).disallow || (t.policies.get c).terminate) firstOnly t.active st)
    (hwhole : st.stopped = false) : (t.offered here c st).Policed where
  signature d hd := by
    have hd : d ∈ Signature.text (t.signature ++ [(c, here)]) := hd
    rw [Signature.text_append] at hd
    obtain hd | hd := List.mem_append.1 hd
    · exact h.signature d hd
    · rw [List.mem_singleton.1 hd]
      exact hadmits
  tails b' hb' d hd := by
    obtain ⟨hmem, hlive⟩ := List.mem_filter.1 hb'
    obtain ⟨b, hbmem, live, rfl, hfrom⟩ := hst.kept_from hmem
    obtain ⟨y, hy⟩ := List.exists_mem_of_ne_nil live (by simpa using hlive)
    -- some candidate has come through the character, so that one does not terminate
    have hpass : (t.policies.get c).terminate = false := by
      obtain ⟨hstop, -⟩ | ⟨x, -, hxy⟩ := hfrom y hy
      · exact Bool.noConfusion (hstop.symm.trans hwhole)
      · exact (Bool.or_eq_false_iff.1 (Candidate.offered_eq_some_iff.1 hxy).1).2
    have hkey := (hb.fits b hbmem).key_lt
    have htext : b.text (t.signature ++ [(c, here)]) = b.text t.signature ++ [c] :=
      Bucket.text_append (Nat.le_of_lt hkey) _
    have hne : b.text t.signature ≠ [] := by
      refine List.ne_nil_of_length_pos ?_
      rw [Bucket.length_text]
      exact Nat.sub_pos_of_lt hkey
    have hd : d ∈ (b.text (t.signature ++ [(c, here)])).tail := hd
    rw [htext, List.tail_append_of_ne_nil hne] at hd
    obtain hd | hd := List.mem_append.1 hd
    · exact h.tails b hbmem d hd
    · rw [List.mem_singleton.1 hd]
      exact hpass
  run := h.run

/-- **A search that goes on stays policed.** -/
theorem Treated.policed (htreated : Treated t here width c false u) (h : t.Policed)
    (hb : t.Between floor here) : u.Policed := by
  cases htreated with
  | trimmed => exact h
  | ignored => exact h
  | consumed hignore hidle st hst _ _ hout =>
    have hadmits (hgo : (t.offered here c st).Undecided t.signature.length st.stopped
        (t.policies.get c).disallow) : t.policies.Admits c :=
      ⟨hgo.not_disallow hst hb fun hactive => (hidle hactive).2, hignore⟩
    cases hout with
    | waiting hgo => exact h.offered hb (hadmits hgo) hst hgo.unbroken
    | unmatched hgo =>
      have hoffered := h.offered hb (hadmits hgo) hst hgo.unbroken
      refine ⟨hoffered.signature, hoffered.tails, fun run hrun d hd => ?_⟩
      obtain rfl : t.extendedRun here width c = run := Option.some.inj hrun
      unfold extendedRun at hd
      split at hd
      next old hold =>
        obtain hd | hd := List.mem_append.1 hd
        · exact h.run old hold d hd
        · rw [List.mem_singleton.1 hd]
          exact hadmits hgo
      next =>
        rw [List.mem_singleton.1 hd]
        exact hadmits hgo
    | begun hgo =>
      have hoffered := h.offered hb (hadmits hgo) hst hgo.unbroken
      refine ⟨hoffered.signature, fun b hmem d hd => ?_, hoffered.run⟩
      obtain hmem | hmem := List.mem_append.1 hmem
      · exact hoffered.tails b hmem d hd
      · rw [List.mem_singleton.1 hmem] at hd
        have hs : (t.offered here c st).signature = t.signature ++ [(c, here)] := rfl
        have hd : d ∈ (Bucket.text _ (t.offered here c st).signature).tail := hd
        rw [Bucket.text_beginning hs] at hd
        exact nomatch hd

/-! ## Units, and the end of the stream -/

theorem Policed.tracked (h : t.Policed) (lines : LineTable) (run : Option Nat) :
    (t.tracked lines run).Policed := by
  refine ⟨fun c hc => ?_, fun b hb => ?_, h.run⟩
  · by_cases hactive : t.active = []
    · rw [signature_tracked_of_idle lines run hactive] at hc
      exact nomatch hc
    · rw [signature_tracked_of_live lines run hactive] at hc
      exact h.signature c hc
  · have hb : b ∈ t.active := hb
    rw [signature_tracked_of_mem lines run hb]
    exact h.tails b hb

theorem Policed.step (h : t.Policed) : t.step.Policed := h.tracked t.lines t.newlineRun

variable {unit : UInt32}

theorem Fed.respectful {r : Bool} (hfed : Fed t unit r v) (h : t.Policed)
    (hresults : t.Respectful) : v.Respectful := by
  cases hfed with
  | passed => exact hresults
  | led _ lines run _ _ _ htreated => exact htreated.respectful (h.tracked lines run) hresults

theorem Fed.policed (hfed : Fed t unit false v) (h : t.Policed) (hp : t.Placed floor) :
    v.Policed := by
  cases hfed with
  | passed => exact h.step
  | led _ lines run _ _ _ htreated =>
    exact htreated.policed (h.tracked lines run) (hp.held.tracked lines run)

theorem Policed.respectful_finished (h : t.Policed) (hresults : t.Respectful) :
    t.finished.Respectful := by
  intro r hr
  rw [(setupAs_finished t).policies]
  obtain hr | ⟨b, hb, x, -, hr⟩ | ⟨-, rfl⟩ | ⟨run, hrun, rfl⟩ := mem_finished hr
  · exact hresults r hr
  · exact h.respects_of_mem_yield hb hr
  · exact h.respects_wasted _ _
  · exact h.respects_run hrun

theorem policed_rewind (t : Tokenizer σ) (place : Nat) : (t.rewind place).Policed :=
  ⟨fun _ h => (nomatch h), fun _ h => (nomatch h), fun _ h => (nomatch h)⟩

end Tokenizer

open Tokenizer

/-- What a search finds respects the policies. -/
theorem Searched.respectful {t v : Tokenizer σ} {units : List UInt32} {floor : Nat}
    (hsearch : Searched t units v) (h : t.Policed) (hresults : t.Respectful) (hp : t.Placed floor) :
    v.Respectful := by
  induction hsearch with
  | finished t => exact h.respectful_finished hresults
  | ready hfed => exact hfed.respectful h hresults
  | onward hfed _ ih =>
    exact ih (hfed.policed h hp) (hfed.respectful h hresults) (hfed.placed hp)

/-- What a scan commits respects the policies. -/
theorem Committed.respects {t : Tokenizer σ} {units : List UInt32} {lexemes : List Lexeme}
    {floor : Nat} (hcommitted : Committed t units lexemes) (h : t.Policed) (hnone : t.results = [])
    (hp : t.Placed floor) : ∀ l ∈ lexemes, l.Respects t.policies := by
  induction hcommitted generalizing floor with
  | done => exact fun l hl => nomatch hl
  | @commit t v units r n rest hsearch hfirst _ _ ih =>
    have hrespectful := hsearch.respectful h (fun r hr => by
      rw [hnone] at hr
      exact nomatch hr) hp
    have hr := mem_of_first? hfirst
    have hv := hsearch.placed hp
    have hfloor := (hv.held.results r hr).floor_le
    have hnonempty := (hv.held.results r hr).nonempty
    rw [← hsearch.setupAs.policies]
    refine List.forall_mem_cons.2 ⟨hrespectful r hr, ?_⟩
    -- the next search starts with nothing, at the end of the lexeme
    refine ih (policed_rewind v _) rfl (placed_rewind hv.lines _ ?_)
    exact Nat.le_trans hv.lines.origin_le (by omega)

/-- Whatever the units are, committed lexemes respect the policies. -/
theorem scanUnits_respects_policies (tokens : List (Token σ)) (config : TokenizerConfig)
    (reserved : Option Reserved) (policies : PolicyTable) (units : List UInt32) :
    ∃ lexemes s',
      (Scanner.ofTokens tokens config reserved policies).scanUnits units = .ok (lexemes, s') ∧
        ∀ l ∈ lexemes, l.Respects policies := by
  obtain ⟨lexemes, s', hscan, hcommitted⟩ :=
    Scanner.scanUnits_total tokens config reserved policies units
  refine ⟨lexemes, s', hscan, hcommitted.respects ?_ rfl (Scanner.placed_ofTokens ..)⟩
  exact ⟨fun _ h => (nomatch h), fun _ h => (nomatch h), fun _ h => (nomatch h)⟩

/-- **Policies keep characters where they belong.** In every mode, whatever the
tokens, the encoding, the policies and the source are, a scan succeeds, and in
what it commits a disallowed character occurs only as an unrecognized lexeme of
its own, one that terminates occurs in a recognized lexeme only as the first
character, and one that is ignored occurs only where it is disallowed, too, and
stands alone. -/
theorem scan_respects_policies (tokens : List (Token σ)) (config : TokenizerConfig)
    (reserved : Option Reserved) (policies : PolicyTable) (source : String) :
    ∃ lexemes s',
      (Scanner.ofTokens tokens config reserved policies).scan source = .ok (lexemes, s') ∧
        ∀ l ∈ lexemes, l.Respects policies :=
  scanUnits_respects_policies tokens config reserved policies _

end Lexing
