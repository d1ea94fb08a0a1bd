import Lexing.Proofs.Scanner.Choice
import Lexing.Proofs.Scanner.Cover
import Lexing.Proofs.Scanner.Sound

/-!
# No text is lost that no candidate has taken

With interleaving, candidates that end without a lexeme are not reported as
they are without it: others may have begun inside what they have read. And of
the lexemes that wait the longest is committed, wherever it starts. So text may
be passed by, and the question is which.

Up to the moment a search ends, each character it has read may be skipped, or
has been taken by a candidate, or stands in the unmatched run, which is the
first to be reported (`Course`). So what stands before the lexeme that is
committed has been skipped or taken, in every mode; and since a search never
ends in vain once it has met a character that may not be skipped, nothing is
lost behind the last lexeme (`scan_keeps_untaken`).
-/

namespace Lexing

variable {σ : Type}

open Tokenizer

namespace Reference

variable (R : Reference σ) {o : Nat} {text read : List Char} {c : Char} {l : Lexeme}

/-- **Some token takes a piece of text** from its first character to its last,
those left out that are ignored. -/
def Takes (text : List Char) : Prop :=
  ∃ token ∈ R.tokens,
    (token.run (token.fresh R.reserved) [] (R.policies.visible text)).isSome = true

/-- Each character of a text may be skipped, or has been taken along with
characters before it. -/
def Passed (text : List Char) : Prop :=
  ∀ front c back, text = front ++ c :: back →
    R.policies.Skips c ∨ ∃ pre mid, front = pre ++ mid ∧ R.Takes (mid ++ [c])

/-- A lexeme stands between characters of a text, and what stands before it
has been passed. -/
def Behind (o : Nat) (text : List Char) (l : Lexeme) : Prop :=
  ∃ gap mid rest, text = gap ++ mid ++ rest ∧ R.Passed gap ∧
    l.start = o + R.encoding.size gap ∧ l.stop = o + R.encoding.size (gap ++ mid)

variable {R}

theorem Passed.of_skips (h : ∀ c ∈ text, R.policies.Skips c) : R.Passed text :=
  fun _ c _ htext => .inl (h c (by simp [htext]))

theorem Passed.of_append {more : List Char} (h : R.Passed (text ++ more)) : R.Passed text :=
  fun front c back htext => h front c (back ++ more) (by simp [htext])

/-- One more character, which may be skipped or has been taken. -/
theorem Passed.snoc (h : R.Passed text)
    (hc : R.policies.Skips c ∨ ∃ pre mid, text = pre ++ mid ∧ R.Takes (mid ++ [c])) :
    R.Passed (text ++ [c]) := by
  intro front d back hsplit
  obtain rfl | ⟨back, e, rfl⟩ := List.eq_nil_or_concat back
  · rw [← List.concat_eq_append, ← List.concat_eq_append] at hsplit
    obtain ⟨rfl, rfl⟩ := List.concat_inj.1 hsplit
    exact hc
  · rw [List.concat_eq_append, ← List.cons_append, ← List.append_assoc] at hsplit
    exact h front d back (List.append_inj_left' hsplit rfl)

theorem Behind.append (h : R.Behind o text l) (more : List Char) : R.Behind o (text ++ more) l := by
  obtain ⟨gap, mid, rest, rfl, h⟩ := h
  exact ⟨gap, mid, rest ++ more, by simp, h⟩

end Reference

section Course

variable {R : Reference σ} {mode : Mode} {o here floor : Nat} {t u v : Tokenizer σ}
  {read : List Char} {c : Char}

theorem Tokenizer.Aligned.passedOver (h : t.Aligned) (n : Nat) : (t.passedOver n).Aligned := by
  induction n generalizing t with
  | zero => rwa [passedOver_zero]
  | succ n ih =>
    rw [← step_passedOver]
    exact ih h.step

/-! ## What candidates have taken -/

/-- **A candidate has taken the last character** that its signature holds. -/
theorem takes_of_bucket {b : Bucket σ} {x : Candidate σ} {s : Signature} {mid : List Char}
    (halign : x.Aligned R.tokens R.reserved (b.text s)) (hfits : b.Fits s)
    (hs : s = trace R.encoding R.policies o (mid ++ [c])) :
    ∃ pre more, mid = pre ++ more ∧ R.Takes (more ++ [c]) := by
  have hkey := hfits.key_lt
  rw [hs] at hkey
  obtain ⟨pre, back, hsplit, hpre, -⟩ := exists_cut R.encoding R.policies o (mid ++ [c])
    (Nat.le_of_lt hkey)
  have hseen : b.text s = R.policies.visible back := by
    have htext := text_trace R.encoding R.policies o (mid ++ [c])
    rw [Bucket.text, hs, htext]
    rw [htext] at hpre
    have happend := R.policies.visible_append pre back
    rw [← hsplit, hpre] at happend
    exact (List.append_cancel_left ((List.take_append_drop b.key _).trans happend))
  have htakes : R.Takes back := ⟨x.token, halign.mem, by rw [← hseen, halign.run]; rfl⟩
  obtain rfl | ⟨more, d, rfl⟩ := List.eq_nil_or_concat back
  -- the bucket has seen its first character at least
  · have hlength := b.length_text s
    rw [hseen, R.policies.visible_nil, List.length_nil, hs] at hlength
    omega
  · rw [List.concat_eq_append] at hsplit htakes
    rw [← List.append_assoc] at hsplit
    obtain ⟨rfl, hd⟩ := List.append_inj' hsplit rfl
    obtain rfl := (List.cons.inj hd).1
    exact ⟨pre, more, rfl, htakes⟩

/-- A character that begins candidates is one that some candidate has taken. -/
theorem takes_of_begin {mode : Mode} (hR : R.Describes mode t)
    (hpass : (R.policies.get c).ignore = false) (hbegin : t.beginning (toAscii c) ≠ []) :
    R.Takes [c] := by
  obtain ⟨x, hx⟩ := List.exists_mem_of_ne_nil _ hbegin
  have halign := aligned_beginning hx
  refine ⟨x.token, hR.tokens ▸ halign.mem, ?_⟩
  rw [R.policies.visible_cons_of_pass hpass, R.policies.visible_nil, ← hR.reserved, halign.run]
  rfl

/-! ## What waits stands behind passed text -/

section Behind

variable {front mid : List Char} {s : Signature} {b : Bucket σ} {x : Candidate σ} {r : Ready}

/-- What a candidate yields stands between characters of the text read. -/
theorem behind_of_mem_yield (hpassed : R.Passed (front ++ mid))
    (hs : s = trace R.encoding R.policies (o + R.encoding.size front) mid)
    (hhere : here = o + R.encoding.size (front ++ mid)) (hw : s.Within floor here)
    (hfits : b.Fits s) (hx : x ∈ b.live) (hr : r ∈ b.yield s here x) :
    R.Behind o (front ++ mid) r.lexeme := by
  obtain ⟨n, st, hsettled, rfl⟩ := Bucket.mem_yield.1 hr
  obtain ⟨hn, hle, -⟩ := hfits.settled hx hsettled
  have hlt := hfits.start_lt_boundary hw hn
  have hstart := (hfits.start_eq here).symm
  have hhere' : here = o + R.encoding.size front + R.encoding.size mid := by
    rw [hhere, Encoding.size_append, Nat.add_assoc]
  have hkey := Nat.le_of_lt hfits.key_lt
  rw [hs] at hkey hle
  obtain ⟨f, back, hf, -, hcut⟩ := exists_cut _ _ _ mid hkey
  obtain ⟨g, rest, hg, -, hcut'⟩ := exists_cut _ _ _ mid hle
  rw [← hs, ← hhere'] at hcut hcut'
  rw [hcut] at hstart
  rw [hstart, hcut'] at hlt
  -- the lexeme ends behind its start, so the second cut is behind the first
  obtain ⟨more, rfl⟩ : ∃ more, g = f ++ more := by
    obtain ⟨more, h⟩ | ⟨more, rfl⟩ :=
      List.prefix_or_prefix_of_prefix (List.prefix_append f back)
        (hf ▸ hg ▸ List.prefix_append g rest)
    · exact ⟨more, h.symm⟩
    · rw [Encoding.size_append] at hlt
      omega
  refine ⟨front ++ f, more, rest, by simp [hg], ?_, ?_, ?_⟩
  · rw [hf, ← List.append_assoc] at hpassed
    exact hpassed.of_append
  · show b.start = _
    rw [hstart, Encoding.size_append, Nat.add_assoc]
  · show s.boundary here (b.key + n) = _
    rw [hcut', List.append_assoc, Encoding.size_append _ front, Nat.add_assoc]

/-- The signature stands between characters of the text read. -/
theorem behind_wasted (hpassed : R.Passed (front ++ mid))
    (hs : t.signature = trace R.encoding R.policies (o + R.encoding.size front) mid)
    (hhere : here = o + R.encoding.size (front ++ mid)) :
    R.Behind o (front ++ mid) (t.wasted t.signature.length here).lexeme := by
  obtain ⟨f, back, rfl, -, hcut⟩ := exists_cut R.encoding R.policies
    (o + R.encoding.size front) mid (Nat.zero_le _)
  rw [← hs, Nat.add_assoc o, ← Encoding.size_append, ← hhere] at hcut
  refine ⟨front ++ f, back, [], by simp, ?_, ?_, ?_⟩
  · rw [← List.append_assoc] at hpassed
    exact hpassed.of_append
  · show t.signature.boundary here 0 = _
    rw [hcut, Encoding.size_append, Nat.add_assoc]
  · show here = _
    rw [hhere, List.append_assoc]

end Behind

/-! ## The course of a search -/

/-- **The course of a search** that has read a text from an offset on, in any
mode. -/
inductive Course (R : Reference σ) (o : Nat) (t : Tokenizer σ) : List Char → Prop
  /-- nothing has begun -/
  | idle (read : List Char) (hskips : ∀ c ∈ read, R.policies.Skips c) (hfresh : t.Fresh) :
    Course R o t read
  /-- characters have joined an unmatched run -/
  | run (front mid tail : List Char) (hpassed : R.Passed front)
    (htail : ∀ c ∈ tail, (R.policies.get c).ignore = true) (hactive : t.active = [])
    (hresults : t.results = []) (run : UnmatchedRun) (hrun : t.unmatched = some run)
    (hstart : run.start = o + R.encoding.size front)
    (hstop : run.stop = o + R.encoding.size (front ++ mid)) :
    Course R o t (front ++ mid ++ tail)
  /-- candidates are at work -/
  | live (front mid : List Char) (hpassed : R.Passed (front ++ mid)) (hactive : t.active ≠ [])
    (hrun : t.unmatched = none)
    (hsignature : t.signature = trace R.encoding R.policies (o + R.encoding.size front) mid)
    (hresults : ∀ r ∈ t.results, R.Behind o (front ++ mid) r.lexeme) :
    Course R o t (front ++ mid)

namespace Course

/-- A course is told by what is active, what waits and what is unmatched, and
by the signature while something is active. -/
theorem congr (h : Course R o t read) (hactive : u.active = t.active)
    (hresults : u.results = t.results) (hrun : u.unmatched = t.unmatched)
    (hsignature : t.active ≠ [] → u.signature = t.signature) : Course R o u read := by
  cases h with
  | idle _ hskips hfresh =>
    exact .idle _ hskips ⟨hactive.trans hfresh.active, hresults.trans hfresh.results,
      hrun.trans hfresh.unmatched⟩
  | run front mid tail hpassed htail ha hr run hn hstart hstop =>
    exact .run front mid tail hpassed htail (hactive.trans ha) (hresults.trans hr) run
      (hrun.trans hn) hstart hstop
  | live front mid hpassed ha hn hs hr =>
    exact .live front mid hpassed (by rwa [hactive]) (hrun.trans hn) ((hsignature ha).trans hs)
      (by rwa [hresults])

theorem tracked (h : Course R o t read) (lines : LineTable) (run : Option Nat) :
    Course R o (t.tracked lines run) read :=
  h.congr rfl rfl rfl (signature_tracked_of_live lines run)

theorem passedOver (h : Course R o t read) (n : Nat) : Course R o (t.passedOver n) read :=
  h.congr rfl rfl rfl (signature_passedOver_of_live n)

/-- Without candidates, a search that goes on keeps to the course. -/
theorem onward_idle (h : Course R o t read) (hR : R.Describes mode t) (hactive : t.active = [])
    (hhere : here = o + R.encoding.size read)
    (htreated : TreatedIdle t here (R.encoding.unitLen c) (toAscii c) u false) :
    Course R o u (read ++ [c]) := by
  have hget : t.policies.get (toAscii c) = R.policies.get c := by
    rw [hR.policies, R.policies.get_toAscii]
  have hnext : here + R.encoding.unitLen c = o + R.encoding.size (read ++ [c]) := by
    rw [hhere, Encoding.add_size_snoc]
  cases h with
  | live _ _ _ hne => exact absurd hactive hne
  | idle _ hskips hfresh =>
    have hgap (hc : R.policies.Skips c) : ∀ d ∈ read ++ [c], R.policies.Skips d :=
      List.forall_mem_append.2 ⟨hskips, List.forall_mem_singleton.2 hc⟩
    cases htreated with
    | trimmed htrim _ hu => exact .idle _ (hgap (.inl (hget ▸ htrim))) (hu ▸ hfresh)
    | ignored _ _ hignore hu => exact .idle _ (hgap (.inr (hget ▸ hignore))) (hu ▸ hfresh)
    | unmatched _ _ _ _ ha hr hrun =>
      rw [extendedRun, hfresh.unmatched] at hrun
      rw [← List.append_nil (read ++ [c])]
      exact .run read [c] [] (.of_skips hskips) (List.forall_mem_nil _) ha hr _ hrun hhere hnext
    | begun _ _ hignore hbegin _ hr ha hs hn =>
      rw [hget] at hignore
      have htakes := takes_of_begin hR hignore hbegin
      refine .live read [c] (.snoc (.of_skips hskips) (.inr ⟨read, [], by simp, htakes⟩))
        (by simp [ha]) hn ?_ ?_
      · rw [hs, trace_cons_of_pass hignore, hhere]
        rfl
      · rw [hr]
        exact List.forall_mem_nil _
  | run front mid tail hpassed htail _ hresults run hrun hstart hstop =>
    cases htreated with
    | trimmed _ hnone => cases hnone.symm.trans hrun
    | begun _ _ _ _ hnone => cases hnone.symm.trans hrun
    | ignored _ _ hignore hu =>
      rw [hget] at hignore
      rw [List.append_assoc]
      exact .run front mid (tail ++ [c]) hpassed
        (List.forall_mem_append.2 ⟨htail, List.forall_mem_singleton.2 hignore⟩) (hu ▸ hactive)
        (hu ▸ hresults) run (hu ▸ hrun) hstart hstop
    | unmatched _ _ _ _ ha hr hrun' =>
      rw [extendedRun, hrun] at hrun'
      -- the ignored characters behind the run now lie inside it
      have hsplit : front ++ mid ++ tail ++ [c] = front ++ (mid ++ tail ++ [c]) := by simp
      rw [hsplit] at hnext ⊢
      rw [← List.append_nil (front ++ _)]
      exact .run front (mid ++ tail ++ [c]) [] hpassed (List.forall_mem_nil _) ha hr _ hrun' hstart
        hnext

/-- Without candidates, what is ready stands behind passed text. -/
theorem ready_idle (h : Course R o t read) (hactive : t.active = [])
    (hhere : here = o + R.encoding.size read)
    (htreated : TreatedIdle t here (R.encoding.unitLen c) (toAscii c) u true) :
    ∀ r ∈ u.results, R.Behind o (read ++ [c]) r.lexeme := by
  cases h with
  | live _ _ _ hne => exact absurd hactive hne
  | idle _ hskips hfresh =>
    cases htreated with
    | interrupted _ hrun => cases hfresh.unmatched.symm.trans hrun
    | disallowed _ _ _ hresults =>
      rw [hresults, List.forall_mem_singleton]
      refine ⟨read, [c], [], by simp, .of_skips hskips, hhere, ?_⟩
      show here + R.encoding.unitLen c = _
      rw [hhere, Encoding.add_size_snoc]
  | run front mid tail hpassed _ _ _ run hrun hstart hstop =>
    cases htreated with
    | disallowed _ _ hnone => cases hnone.symm.trans hrun
    | interrupted run' hrun' _ hresults =>
      obtain rfl := Option.some.inj (hrun'.symm.trans hrun)
      rw [hresults, List.forall_mem_singleton]
      exact ⟨front, mid, tail ++ [c], by simp, hpassed, hstart, hstop⟩

/-- A character that some candidate has taken keeps to the course. -/
theorem live_snoc {front mid : List Char} {b : Bucket σ} {x : Candidate σ}
    (hpassed : R.Passed (front ++ mid)) (hR : R.Describes mode u) (halign : u.Aligned)
    (hbetween : u.Between floor here) (hb : b ∈ u.active) (hx : x ∈ b.live)
    (hrun : u.unmatched = none)
    (hs : u.signature = trace R.encoding R.policies (o + R.encoding.size front) (mid ++ [c]))
    (hresults : ∀ r ∈ u.results, R.Behind o (front ++ mid) r.lexeme) :
    Course R o u (front ++ mid ++ [c]) := by
  have halign := halign b hb x hx
  rw [hR.tokens, hR.reserved] at halign
  obtain ⟨pre, more, rfl, htakes⟩ := takes_of_bucket halign (hbetween.fits b hb) hs
  have hpassed' := hpassed.snoc (c := c) (.inr ⟨front ++ pre, more, by simp, htakes⟩)
  rw [List.append_assoc] at hpassed' ⊢
  refine .live front _ hpassed' (List.ne_nil_of_mem hb) hrun hs fun r hr => ?_
  rw [← List.append_assoc]
  exact (hresults r hr).append [c]

/-- With candidates, a character comes to lexemes that stand behind passed
text, or the search keeps to the course. -/
theorem live_cases {front mid : List Char} {ready : Bool} (hpassed : R.Passed (front ++ mid))
    (hR : R.Describes mode t) (hactive : t.active ≠ []) (hrun : t.unmatched = none)
    (hsignature : t.signature = trace R.encoding R.policies (o + R.encoding.size front) mid)
    (hresults : ∀ r ∈ t.results, R.Behind o (front ++ mid) r.lexeme)
    (hhere : here = o + R.encoding.size (front ++ mid)) (hb : t.Between floor here)
    (hnext : u.Between floor (here + 1)) (halign : t.Aligned)
    (htreated : Treated t here (R.encoding.unitLen c) (toAscii c) ready u) :
    ready = true ∧ (∀ r ∈ u.results, R.Behind o (front ++ mid) r.lexeme) ∨
      ready = false ∧ Course R o u (front ++ mid ++ [c]) := by
  have hget : t.policies.get (toAscii c) = R.policies.get c := by
    rw [hR.policies, R.policies.get_toAscii]
  have htrace : trace R.encoding R.policies (o + R.encoding.size front) (mid ++ [c])
      = t.signature ++ trace R.encoding R.policies here [c] := by
    rw [trace_append, hsignature, hhere, Encoding.size_append, Nat.add_assoc]
  have hR' := hR.of_setupAs htreated.setupAs
  have halign' : ready = false → u.Aligned := fun h => (h ▸ htreated).aligned halign hb
  cases htreated with
  | trimmed _ hnone => exact absurd hnone hactive
  | interrupted _ hnone => exact absurd hnone hactive
  | disallowed _ _ hnone => exact absurd hnone hactive
  | ignored hignore =>
    rw [hget] at hignore
    have hpassed' := hpassed.snoc (c := c) (.inl (.inr hignore))
    rw [List.append_assoc] at hpassed' ⊢
    refine .inr ⟨rfl, .live front _ hpassed' hactive hrun ?_ fun r hr => ?_⟩
    · rw [htrace, trace_cons_of_ignore hignore, trace, List.append_nil]
    · rw [← List.append_assoc]
      exact (hresults r hr).append [c]
  | consumed hignore _ st hst _ _ hout =>
    rw [hget] at hignore
    have hs : (t.offered here (toAscii c) st).signature
        = trace R.encoding R.policies (o + R.encoding.size front) (mid ++ [c]) := by
      rw [htrace, trace_cons_of_pass hignore]
      rfl
    have hoffered : ∀ r ∈ (t.offered here (toAscii c) st).results,
        R.Behind o (front ++ mid) r.lexeme := by
      refine List.forall_mem_append.2 ⟨hresults, fun r hr => ?_⟩
      obtain ⟨b, hmem, x, hx, -, hr⟩ := hst.ready_from hr
      exact behind_of_mem_yield hpassed hsignature hhere hb.within (hb.fits b hmem) hx hr
    cases hout with
    | ready => exact .inl ⟨rfl, hoffered⟩
    | wasted =>
      refine .inl ⟨rfl, List.forall_mem_append.2 ⟨hoffered, List.forall_mem_singleton.2 ?_⟩⟩
      rw [wasted_offered]
      exact behind_wasted hpassed hsignature hhere
    | waiting _ hne =>
      obtain ⟨b, hmem⟩ := List.exists_mem_of_ne_nil _ hne
      have hlive := (List.mem_filter.1 hmem).2
      obtain ⟨x, hx⟩ := List.exists_mem_of_ne_nil b.live (by simpa using hlive)
      exact .inr ⟨rfl, live_snoc hpassed hR' (halign' rfl) hnext hmem hx hrun hs hoffered⟩
    | unmatched hgo hnone =>
      refine .inr ⟨rfl, ?_⟩
      rw [← List.append_nil (front ++ mid ++ [c])]
      refine .run (front ++ mid) [c] [] hpassed (List.forall_mem_nil _) hnone
        (hgo.results_of_idle hnone)
        ⟨here, here + R.encoding.unitLen c, t.lines.current.1, t.lines.current.2, [toAscii c]⟩
        ?_ hhere ?_
      · rw [extendUnmatched, show (t.offered here (toAscii c) st).unmatched = none from hrun]
        rfl
      · show here + R.encoding.unitLen c = _
        rw [hhere, Encoding.add_size_snoc]
    | interrupted _ _ _ run hsome => cases hrun.symm.trans hsome
    | begun _ _ hbegin =>
      obtain ⟨x, hx⟩ := List.exists_mem_of_ne_nil _ hbegin
      exact .inr ⟨rfl, live_snoc hpassed hR' (halign' rfl) hnext
        (List.mem_append_right _ (List.mem_singleton.2 rfl)) hx hrun hs hoffered⟩

/-- **A character ends the search with lexemes behind passed text, or keeps
it to the course.** -/
theorem treated {lines : LineTable} {run : Option Nat} {ready : Bool} (h : Course R o t read)
    (hR : R.Describes mode t) (hplaced : t.Placed floor) (halign : t.Aligned)
    (hposition : t.position = o + R.encoding.size read)
    (hlines : t.step.trackLines t.position (toAscii c) = .ok (t.tracked lines run))
    (htreated : Treated (t.tracked lines run) t.position (R.encoding.unitLen c) (toAscii c) ready
      u) :
    ready = true ∧ (∀ r ∈ u.results, R.Behind o (read ++ [c]) r.lexeme) ∨
      ready = false ∧ Course R o u (read ++ [c]) := by
  have hR' : R.Describes mode (t.tracked lines run) := hR.of_setupAs ⟨rfl, rfl, rfl, rfl, rfl⟩
  by_cases hactive : t.active = []
  · have htracked := h.tracked lines run
    have hidle (hresults : t.results = []) := htreated.idle hactive hresults
      (signature_tracked_of_idle lines run hactive)
    have hresults : t.results = [] := by
      cases h with
      | idle _ _ hfresh => exact hfresh.results
      | run _ _ _ _ _ _ hresults => exact hresults
      | live _ _ _ hne => exact absurd hactive hne
    cases ready with
    | true => exact .inl ⟨rfl, htracked.ready_idle hactive hposition (hidle hresults)⟩
    | false => exact .inr ⟨rfl, htracked.onward_idle hR' hactive hposition (hidle hresults)⟩
  · cases h with
    | idle _ _ hfresh => exact absurd hfresh.active hactive
    | run _ _ _ _ _ hnone => exact absurd hnone hactive
    | live front mid hpassed _ hrun hsignature hresults =>
      have hle := (lastStart_tracked hplaced hlines).1
      have hb := hplaced.held.tracked lines run
      have hnext := htreated.between hb hplaced.floor_le hle (R.encoding.unitLen_pos c)
      have hsame := signature_tracked_of_live lines run hactive
      refine (live_cases hpassed hR' hactive hrun (hsame.trans hsignature) hresults hposition hb
        hnext halign.step htreated).imp_left ?_
      exact And.imp_right fun hall r hr => (hall r hr).append [c]

/-- At the end of the text, what waits stands behind passed text; if nothing
waits, all of it may be skipped. -/
theorem finished (h : Course R o t read) (hplaced : t.Placed floor)
    (hposition : t.position = o + R.encoding.size read) :
    (t.finished.results = [] → ∀ c ∈ read, R.policies.Skips c) ∧
      ∀ r ∈ t.finished.results, R.Behind o read r.lexeme := by
  cases h with
  | idle _ hskips hfresh =>
    rw [results_finished_of_idle hfresh.active, hfresh.results, hfresh.unmatched]
    exact ⟨fun _ => hskips, List.forall_mem_nil _⟩
  | run front mid tail hpassed _ hactive hresults run hrun hstart hstop =>
    rw [results_finished_of_idle hactive, hresults, hrun]
    exact ⟨fun hnone => absurd hnone (List.cons_ne_nil _ _),
      List.forall_mem_singleton.2 ⟨front, mid, tail, rfl, hpassed, hstart, hstop⟩⟩
  | live front mid hpassed hactive hrun hsignature hresults =>
    refine ⟨fun hnone => ?_, fun r hr => ?_⟩
    · rw [Tokenizer.finished, List.append_eq_nil_iff, covered] at hnone
      have hcovered := hnone.1
      split at hcovered
      · exact absurd hcovered (List.append_ne_nil_of_right_ne_nil _ (List.cons_ne_nil _ _))
      next hsettled => simp [hactive, hcovered] at hsettled
    · obtain hr | ⟨b, hb, x, hx, hr⟩ | ⟨-, rfl⟩ | ⟨run, hsome, -⟩ := mem_finished hr
      · exact hresults r hr
      · exact behind_of_mem_yield hpassed hsignature hposition hplaced.held.within
          (hplaced.held.fits b hb) hx hr
      · exact behind_wasted hpassed hsignature hposition
      · cases hrun.symm.trans hsome

end Course

/-- **What a search finds stands behind passed text**, or all of it may be
skipped. -/
theorem SearchedText.passed {text : List Char} (h : SearchedText t text v)
    (hcourse : Course R o t read) (hR : R.Describes mode t) (hplaced : t.Placed floor)
    (halign : t.Aligned) (hposition : t.position = o + R.encoding.size read) :
    (v.results = [] → ∀ c ∈ read ++ text, R.policies.Skips c) ∧
      ∀ r ∈ v.results, R.Behind o (read ++ text) r.lexeme := by
  induction h generalizing read with
  | finished t =>
    rw [List.append_nil]
    exact hcourse.finished hplaced hposition
  | @ready t v c rest lines run hlines htreated =>
    rw [hR.encoding] at htreated
    refine ⟨fun hnone => absurd hnone htreated.results_ne_nil, fun r hr => ?_⟩
    obtain ⟨-, hall⟩ | ⟨hno, -⟩ := hcourse.treated hR hplaced halign hposition hlines htreated
    · simpa using (hall r hr).append rest
    · cases hno
  | @onward t u v c rest lines run hlines htreated _ ih =>
    rw [hR.encoding] at htreated ih
    have hwidth := R.encoding.unitLen_pos c
    obtain ⟨hno, -⟩ | ⟨-, hnext⟩ := hcourse.treated hR hplaced halign hposition hlines htreated
    · cases hno
    have hplace := htreated.position_snoc hposition
    have halign' := htreated.aligned halign.step (hplaced.held.tracked lines run)
    have hrest := ih (hnext.passedOver _) (hR.onward htreated _)
      ((htreated.placed hplaced hlines hwidth).passedOver _) (halign'.passedOver _) hplace
    rwa [List.append_assoc] at hrest

end Course

/-! ## A scan -/

/-- **Lexemes keep the text that no candidate has taken**, of a text that
starts at an offset. -/
structure Reference.Keeps (R : Reference σ) (o : Nat) (text : List Char) (lexemes : List Lexeme) :
    Prop where
  /-- they lie inside the text -/
  inside : ∀ l ∈ lexemes, o ≤ l.start ∧ l.stop ≤ o + R.encoding.size text
  /-- a character outside their spans may be skipped; or it ends a piece of the
  text that some token takes, that touches no lexeme, and that stands before one -/
  outside : ∀ front c back, text = front ++ c :: back → R.policies.Skips c ∨
    (∃ l ∈ lexemes, l.start ≤ o + R.encoding.size front ∧
      o + R.encoding.size (front ++ [c]) ≤ l.stop) ∨
    ∃ pre mid, front = pre ++ mid ∧ R.Takes (mid ++ [c]) ∧
      (∀ l ∈ lexemes, l.stop ≤ o + R.encoding.size pre ∨
        o + R.encoding.size (front ++ [c]) ≤ l.start) ∧
      ∃ l ∈ lexemes, o + R.encoding.size (front ++ [c]) ≤ l.start

namespace Reference.Keeps

variable {R : Reference σ} {o : Nat} {gap mid rest text : List Char} {lexemes : List Lexeme}

/-- Text that may be skipped needs no lexemes. -/
theorem nil (h : ∀ c ∈ text, R.policies.Skips c) : R.Keeps o text [] where
  inside := List.forall_mem_nil _
  outside front c back htext := .inl (h c (by simp [htext]))

/-- A lexeme behind passed text, and then what keeps the rest. -/
theorem cons {l : Lexeme} (hpassed : R.Passed gap) (hstart : l.start = o + R.encoding.size gap)
    (hstop : l.stop = o + R.encoding.size (gap ++ mid))
    (h : R.Keeps (o + R.encoding.size (gap ++ mid)) rest lexemes) :
    R.Keeps o (gap ++ mid ++ rest) (l :: lexemes) where
  inside := by
    refine List.forall_mem_cons.2 ⟨?_, fun k hk => ?_⟩
    · rw [hstart, hstop, Encoding.size_append _ (gap ++ mid)]
      omega
    · have := h.inside k hk
      rw [Encoding.size_append _ (gap ++ mid)]
      omega
  outside front c back hsplit := by
    have hfar (k : Lexeme) (hk : k ∈ lexemes) : o + R.encoding.size (gap ++ mid) ≤ k.start :=
      (h.inside k hk).1
    obtain ⟨b, rfl⟩ | ⟨a, b, rfl, rfl⟩ | ⟨a, rfl, hrest⟩ := Covers.split_cases hsplit
    -- the piece that has taken the character lies in the gap, before every lexeme
    · refine (hpassed front c b rfl).imp_right fun ⟨pre, more, hfront, htakes⟩ => .inr ?_
      simp only [Encoding.size_append, Encoding.size_cons, Encoding.size_nil] at hstart hfar ⊢
      refine ⟨pre, more, hfront, htakes, List.forall_mem_cons.2 ⟨.inr (by omega), fun k hk => ?_⟩,
        l, List.mem_cons_self, by omega⟩
      have := hfar k hk
      exact .inr (by omega)
    · refine .inr (.inl ⟨l, List.mem_cons_self, ?_, ?_⟩)
      · rw [hstart, Encoding.size_append]
        omega
      · rw [hstop]
        simp only [Encoding.size_append, Encoding.size_cons, Encoding.size_nil]
        omega
    · have hshift (xs : List Char) : o + R.encoding.size (gap ++ mid) + R.encoding.size xs
          = o + R.encoding.size (gap ++ mid ++ xs) := by
        rw [Encoding.size_append _ (gap ++ mid), Nat.add_assoc]
      have hlater := h.outside a c back hrest
      simp only [hshift, ← List.append_assoc] at hlater
      refine hlater.imp_right (Or.imp (fun ⟨k, hk, hspan⟩ => ⟨k, List.mem_cons_of_mem _ hk, hspan⟩)
        fun ⟨pre, more, ha, htakes, hapart, k, hk, hbefore⟩ => ?_)
      refine ⟨gap ++ mid ++ pre, more, by simp [ha], htakes,
        List.forall_mem_cons.2 ⟨.inl ?_, hapart⟩, k, List.mem_cons_of_mem _ hk, hbefore⟩
      rw [hstop, ← hshift pre]
      omega

end Reference.Keeps

/-- What a scan commits keeps the text that no candidate has taken. -/
theorem Committed.keeps {R : Reference σ} {mode : Mode} {o : Nat} {t : Tokenizer σ}
    {text : List Char} {lexemes : List Lexeme}
    (h : Committed t (text.flatMap R.encoding.encodeChar) lexemes) (hR : R.Describes mode t)
    (hfresh : t.Fresh) (hplaced : t.Placed o) (hposition : t.position = o) :
    R.Keeps o text lexemes := by
  generalize hunits : text.flatMap R.encoding.encodeChar = units at h
  induction h generalizing text o with
  | done hsearch hnone =>
    subst hunits
    have hpassed := (hsearch.text hR.encoding text).passed (.idle [] (List.forall_mem_nil _) hfresh)
      hR hplaced (.of_active_eq_nil hfresh.active) hposition
    exact .nil (hpassed.1 (first?_eq_none_iff.1 hnone))
  | @commit t v _ r n rest hsearch hfirst hstop _ ih =>
    subst hunits
    have hpassed := (hsearch.text hR.encoding text).passed (.idle [] (List.forall_mem_nil _) hfresh)
      hR hplaced (.of_active_eq_nil hfresh.active) hposition
    have hv := hsearch.placed hplaced
    obtain ⟨gap, mid, rest', hsplit, hgap, hstart, hstop'⟩ := hpassed.2 r (mem_of_first? hfirst)
    obtain rfl : text = gap ++ mid ++ rest' := hsplit
    refine .cons hgap hstart hstop' ?_
    rw [← hstop']
    -- the next search starts behind the lexeme
    have hn : n = R.encoding.size (gap ++ mid) := by omega
    refine ih (hR.of_setupAs ((setupAs_rewind v _).trans hsearch.setupAs)) (fresh_rewind v _)
      (placed_rewind hv.lines _ (Nat.le_trans hv.lines.origin_le (by omega))) rfl ?_
    rw [hn, R.encoding.drop_flatMap_encodeChar]

end Lexing
