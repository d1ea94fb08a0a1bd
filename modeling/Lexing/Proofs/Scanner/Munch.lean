import Lexing.Proofs.Scanner.Choice
import Lexing.Token.Numeric

/-!
# Scanning is maximal munch

A scan that awaits every candidate commits what the reference scanner commits
(`scan_eq_reference`). Search by search: characters that are trimmed are
skipped; where candidates begin, they leave what the reference scanner takes;
and where none begins, the run goes on to the next character that is trimmed
or begins one.

Only what the candidates leave depends on when lexemes are reported, so that is
left open (`Reference.Serves`) up to the end.
-/

namespace Lexing

variable {σ : Type}

open Tokenizer

/-! ## The reference scanner, step by step -/

namespace Reference

variable {R : Reference σ} {f : List Char → Token σ → Option Lexeme} {c : Char}
  {rest : List Char}

theorem scanBy_cons_of_trim (o : Nat) (rest : List Char) (h : (R.policies.get c).trim = true) :
    R.scanBy f o (c :: rest) = R.scanBy f (o + R.encoding.unitLen c) rest := by
  rw [scanBy, if_pos h]

/-- The reference scanner skips a gap. -/
theorem scanBy_append_of_trim {gap : List Char} (o : Nat) (rest : List Char)
    (h : ∀ d ∈ gap, (R.policies.get d).trim = true) :
    R.scanBy f o (gap ++ rest) = R.scanBy f (o + R.encoding.size gap) rest := by
  induction gap generalizing o with
  | nil => rfl
  | cons d gap ih =>
    obtain ⟨hd, hgap⟩ := List.forall_mem_cons.1 h
    rw [List.cons_append, scanBy_cons_of_trim _ _ hd, ih _ hgap, Encoding.size_cons, Nat.add_assoc]

/-- The reference scanner commits a lexeme and goes on behind it. -/
theorem Among.scanBy_cons (hf : R.Among f) (o : Nat) (rest : List Char)
    (h : (R.policies.get c).trim = false) :
    R.scanBy f o (c :: rest) = (R.nextBy f o (c :: rest)).1 ::
      R.scanBy f (R.nextBy f o (c :: rest)).1.stop
        ((c :: rest).drop (R.nextBy f o (c :: rest)).2) := by
  obtain ⟨n, hn⟩ := Nat.exists_eq_add_of_lt (hf.nextBy_stop o rest h).2
  rw [Nat.zero_add] at hn
  rw [scanBy, h, if_neg Bool.false_ne_true, hn, List.drop_succ_cons]
  simp only [hn, Nat.add_sub_cancel]

/-- Where no token begins, a run is committed. -/
theorem Among.next_of_not_begins (hf : R.Among f) (o : Nat) (h : R.begins c = false) :
    (R.nextBy f o (c :: rest)).1 = .stray R.encoding o ((c :: rest).takeWhile R.strays) := by
  have hnone := longest_eq_none_iff.2 fun token htoken =>
    hf.eq_none (of_not_begins rest h htoken).1
  have hzero : R.furthest (c :: rest) = 0 :=
    furthest_eq (fun token htoken => Nat.le_of_eq (of_not_begins rest h htoken).2) (.inl rfl)
  have hrun : (c :: rest).take (R.runLength (c :: rest)) = (c :: rest).takeWhile R.strays :=
    (List.prefix_iff_eq_take.1 (List.takeWhile_prefix R.strays)).symm
  rw [nextBy_of_none o hnone, if_pos hzero, hrun]

/-- **A choice serves a search** that reports lexemes at a given time: of what
candidates leave, the lexeme that is taken first is the one chosen. -/
structure Serves (R : Reference σ) (select : Select) (f : List Char → Token σ → Option Lexeme) :
    Prop where
  among : R.Among f
  next {t u v : Tokenizer σ} {floor : Nat} {b : Bucket σ} {c : Char} {rest : List Char}
    (hR : R.Describes ⟨select, false⟩ t) (hsearch : SearchedText u rest v)
    (hplaced : u.Placed floor) (hawaits : u.Awaits select b R.encoding R.policies [c])
    (hresults : u.results = [])
    (hlive : b.live = t.beginning (toAscii c)) :
    ∃ r, v.first? = some r ∧ r.lexeme.withoutLine = (R.nextBy f b.start (c :: rest)).1

/-- All that extraction gives serves a search that awaits every candidate. -/
theorem serves_lexemeOf (hpolicies : R.policies.OnlyTrims) : R.Serves .all R.lexemeOf where
  among := R.among_lexemeOf
  next hR hsearch hplaced hawaits hresults hlive := by
    have hleft := hsearch.live hpolicies hplaced hawaits
    rw [hresults] at hleft
    exact hleft.next hR hlive

end Reference

/-! ## One search -/

section Search

variable {R : Reference σ} {select : Select} {f : List Char → Token σ → Option Lexeme}
  {t v : Tokenizer σ} {floor : Nat}

/-- A run goes on with a character that is not trimmed and begins no
candidate. -/
theorem strays_iff {c : Char} (hR : R.Describes ⟨select, false⟩ t) : R.strays c = true ↔
    (t.policies.get (toAscii c)).trim = false ∧ t.beginning (toAscii c) = [] := by
  rw [beginning_eq_nil_iff hR, hR.policies, PolicyTable.get_toAscii, Reference.strays,
    Bool.and_eq_true, Bool.not_eq_true', Bool.not_eq_true']

/-- An unmatched run is reported as the characters it consists of. -/
theorem withoutLine_ready {e : Encoding} {mid : List Char} {run : UnmatchedRun}
    (htext : run.text = mid.map toAscii) (hstop : run.stop = run.start + e.size mid) :
    run.ready.lexeme.withoutLine = .stray e run.start mid := by
  rw [Lexeme.stray, ← hstop, ← htext]
  rfl

/-- **A tokenizer in the middle of a run**, which consists of `mid`. -/
structure Tokenizer.Strays (t : Tokenizer σ) (R : Reference σ) (select : Select)
    (run : UnmatchedRun) (mid : List Char) : Prop where
  describes : R.Describes ⟨select, false⟩ t
  active : t.active = []
  results : t.results = []
  unmatched : t.unmatched = some run
  text : run.text = mid.map toAscii
  stop : run.stop = run.start + R.encoding.size mid
  position : t.position = run.stop

namespace Tokenizer.Strays

variable {u : Tokenizer σ} {run : UnmatchedRun} {mid rest : List Char} {c : Char}
  {lines : LineTable} {newlineRun : Option Nat}

/-- At the end of the text. -/
theorem finished (h : t.Strays R select run mid) : t.finished.results = [run.ready] := by
  rw [results_finished_of_idle h.active, h.results, h.unmatched]
  rfl

/-- At a character that ends the search, which is one that does not stray. -/
theorem ready (h : t.Strays R select run mid) (hpolicies : R.policies.OnlyTrims) {width : Nat}
    (htreated : Treated (t.tracked lines newlineRun) t.position width (toAscii c) true v) :
    v.results = [run.ready] ∧ ¬R.strays c = true := by
  obtain ⟨hdisallow, -, -⟩ := h.describes.passes hpolicies (toAscii c)
  cases htreated.idle h.active h.results
    (signature_tracked_of_idle lines newlineRun h.active) with
  | disallowed _ hyes => exact Bool.noConfusion (hyes.symm.trans hdisallow)
  | interrupted run' hrun hwhy hv =>
    obtain rfl : run = run' := Option.some.inj (h.unmatched.symm.trans hrun)
    refine ⟨hv, fun hstrays => ?_⟩
    obtain ⟨hno, hnone⟩ := (strays_iff h.describes).1 hstrays
    obtain htrim | hyes | ⟨-, hbegin⟩ := hwhy
    · exact Bool.noConfusion (hno.symm.trans htrim)
    · exact Bool.noConfusion (hyes.symm.trans hdisallow)
    · exact hbegin hnone

/-- At a character that strays, the run goes on. -/
theorem onward (h : t.Strays R select run mid) (hpolicies : R.policies.OnlyTrims)
    (htreated : Treated (t.tracked lines newlineRun) t.position (R.encoding.unitLen c)
      (toAscii c) false u) :
    R.strays c = true ∧ ∃ run', run'.start = run.start ∧
      (u.passedOver (R.encoding.unitLen c - 1)).Strays R select run' (mid ++ [c]) := by
  obtain ⟨-, hignore, -⟩ := h.describes.passes hpolicies (toAscii c)
  cases htreated.idle h.active h.results
    (signature_tracked_of_idle lines newlineRun h.active) with
  | trimmed _ hnone => exact nomatch h.unmatched.symm.trans hnone
  | ignored _ _ hyes => exact Bool.noConfusion (hyes.symm.trans hignore)
  | begun _ _ _ _ hnone => exact nomatch h.unmatched.symm.trans hnone
  | unmatched htrim _ _ hbegin hactive hresults hrun =>
    have hextended : (t.tracked lines newlineRun).extendedRun t.position (R.encoding.unitLen c)
        (toAscii c) = { run with
          stop := t.position + R.encoding.unitLen c
          text := run.text ++ [toAscii c] } := by
      rw [extendedRun, show (t.tracked lines newlineRun).unmatched = some run from h.unmatched]
    have hplace : t.position + R.encoding.unitLen c
        = run.start + R.encoding.size (mid ++ [c]) := by
      rw [h.position, h.stop, Encoding.add_size_snoc]
    have htext : run.text ++ [toAscii c] = (mid ++ [c]).map toAscii := by
      rw [h.text, List.map_append]
      rfl
    refine ⟨(strays_iff h.describes).2 ⟨htrim, hbegin⟩, { run with
      stop := t.position + R.encoding.unitLen c
      text := run.text ++ [toAscii c] }, rfl, h.describes.onward htreated _, hactive, hresults,
      hrun.trans (congrArg some hextended), htext, hplace, ?_⟩
    exact htreated.position_passedOver (R.encoding.unitLen_pos c)

end Tokenizer.Strays

/-- **A run goes on** to the next character that does not stray. -/
theorem SearchedText.run {mid rest : List Char} {run : UnmatchedRun} (h : SearchedText t rest v)
    (hstrays : t.Strays R select run mid) (hpolicies : R.policies.OnlyTrims) :
    ∃ r, v.results = [r] ∧ r.lexeme.withoutLine
      = .stray R.encoding run.start (mid ++ rest.takeWhile R.strays) := by
  induction h generalizing mid run with
  | finished t =>
    refine ⟨run.ready, hstrays.finished, ?_⟩
    rw [List.takeWhile_nil, List.append_nil]
    exact withoutLine_ready hstrays.text hstrays.stop
  | ready lines newlineRun hlines htreated =>
    obtain ⟨hv, hno⟩ := hstrays.ready hpolicies htreated
    refine ⟨run.ready, hv, ?_⟩
    rw [List.takeWhile_cons_of_neg hno, List.append_nil]
    exact withoutLine_ready hstrays.text hstrays.stop
  | onward lines newlineRun hlines htreated _ ih =>
    rw [hstrays.describes.encoding] at htreated ih
    obtain ⟨hyes, run', hstart, hnext⟩ := hstrays.onward hpolicies htreated
    obtain ⟨r, hr, hlexeme⟩ := ih hnext
    refine ⟨r, hr, ?_⟩
    rw [List.takeWhile_cons_of_pos hyes, hlexeme, hstart, List.append_assoc]
    rfl

/-- **What a search comes to**: the text may be a gap, and then nothing is
found; or else what is found first stands behind a gap, and it is what the
reference scanner commits there. -/
inductive MunchedBy (R : Reference σ) (f : List Char → Token σ → Option Lexeme) (o : Nat)
    (v : Tokenizer σ) : List Char → Prop
  /-- every character is trimmed -/
  | gap {text : List Char} (htrim : ∀ c ∈ text, (R.policies.get c).trim = true)
    (hnone : v.results = []) : MunchedBy R f o v text
  /-- a character is not trimmed -/
  | found {gap : List Char} {c : Char} {rest : List Char} {r : Ready}
    (htrim : ∀ d ∈ gap, (R.policies.get d).trim = true)
    (hstart : (R.policies.get c).trim = false) (hfirst : v.first? = some r)
    (hlexeme : r.lexeme.withoutLine = (R.nextBy f (o + R.encoding.size gap) (c :: rest)).1) :
    MunchedBy R f o v (gap ++ c :: rest)

theorem MunchedBy.cons {o : Nat} {c : Char} {text : List Char}
    (h : MunchedBy R f (o + R.encoding.unitLen c) v text) (hc : (R.policies.get c).trim = true) :
    MunchedBy R f o v (c :: text) := by
  cases h with
  | gap htrim hnone => exact .gap (List.forall_mem_cons.2 ⟨hc, htrim⟩) hnone
  | @found gap d rest r htrim hstart hfirst hlexeme =>
    rw [Nat.add_assoc, ← Encoding.size_cons] at hlexeme
    rw [← List.cons_append]
    exact .found (List.forall_mem_cons.2 ⟨hc, htrim⟩) hstart hfirst hlexeme

theorem MunchedBy.here {o : Nat} {c : Char} {rest : List Char} {r : Ready}
    (hstart : (R.policies.get c).trim = false) (hfirst : v.first? = some r)
    (hlexeme : r.lexeme.withoutLine = (R.nextBy f o (c :: rest)).1) :
    MunchedBy R f o v (c :: rest) := by
  rw [← List.nil_append (c :: rest)]
  exact .found (fun d hd => nomatch hd) hstart hfirst hlexeme

/-! From a fresh tokenizer a search first treats one character. What that
comes to decides how it goes on. -/

section First

variable {u : Tokenizer σ} {c : Char} {rest : List Char} {lines : LineTable}
  {newlineRun : Option Nat}

/-- The first character of a run. -/
theorem Tokenizer.Fresh.strays (hfresh : t.Fresh) (hR : R.Describes ⟨select, false⟩ t)
    (htreated : Treated (t.tracked lines newlineRun) t.position (R.encoding.unitLen c)
      (toAscii c) false u) (hactive : u.active = []) (hresults : u.results = [])
    (hrun : u.unmatched = some ((t.tracked lines newlineRun).extendedRun t.position
      (R.encoding.unitLen c) (toAscii c))) :
    ∃ run, run.start = t.position ∧
      (u.passedOver (R.encoding.unitLen c - 1)).Strays R select run [c] := by
  have hnew : (t.tracked lines newlineRun).extendedRun t.position (R.encoding.unitLen c)
      (toAscii c) = ⟨t.position, t.position + R.encoding.unitLen c, lines.current.1,
        lines.current.2, [toAscii c]⟩ := by
    rw [extendedRun, show (t.tracked lines newlineRun).unmatched = none from hfresh.unmatched]
    rfl
  refine ⟨_, rfl, hR.onward htreated _, hactive, hresults, hrun.trans (congrArg some hnew), rfl,
    ?_, htreated.position_passedOver (R.encoding.unitLen_pos c)⟩
  rw [Encoding.size_cons, Encoding.size_nil]
  rfl

/-- The first character of candidates. -/
theorem Reference.Describes.awaits (hR : R.Describes ⟨select, false⟩ t)
    (hpolicies : R.policies.OnlyTrims)
    (htreated : Treated (t.tracked lines newlineRun) t.position (R.encoding.unitLen c)
      (toAscii c) false u) {line lineStart : Nat}
    (hactive : u.active = [⟨0, t.position, line, lineStart, t.beginning (toAscii c)⟩])
    (hsignature : u.signature = [(toAscii c, t.position)]) (hunmatched : u.unmatched = none)
    (hbegin : t.beginning (toAscii c) ≠ []) :
    (u.passedOver (R.encoding.unitLen c - 1)).Awaits select
      ⟨0, t.position, line, lineStart, t.beginning (toAscii c)⟩ R.encoding R.policies [c] := by
  have hR' := hR.onward htreated (R.encoding.unitLen c - 1)
  refine ⟨hR'.encoding, hR'.policies, hR'.mode, ?_, hactive, rfl, ?_, hunmatched, hbegin⟩
  · rw [htreated.position_passedOver (R.encoding.unitLen_pos c), Encoding.size_cons,
      Encoding.size_nil]
    rfl
  · rw [signature_passedOver_of_live _ (by simp [hactive]), hsignature,
      trace_cons_of_pass (hpolicies.get_eq c).2.1]
    rfl

end First

/-- **A search finds what the reference scanner commits next.** -/
theorem SearchedText.munched {text : List Char} (h : SearchedText t text v)
    (hserves : R.Serves select f) (hR : R.Describes ⟨select, false⟩ t)
    (hpolicies : R.policies.OnlyTrims) (hplaced : t.Placed floor) (hfresh : t.Fresh) :
    MunchedBy R f t.position v text := by
  induction h with
  | finished t =>
    refine .gap (fun c hc => nomatch hc) ?_
    rw [results_finished_of_idle hfresh.active, hfresh.results, hfresh.unmatched]
    rfl
  | @ready t v c rest lines newlineRun hlines htreated =>
    -- the policies that are left end no search at once
    obtain ⟨hdisallow, -, -⟩ := hR.passes hpolicies (toAscii c)
    cases htreated.idle hfresh.active hfresh.results
      (signature_tracked_of_idle lines newlineRun hfresh.active) with
    | disallowed _ hyes => exact Bool.noConfusion (hyes.symm.trans hdisallow)
    | interrupted run hrun => exact nomatch hrun.symm.trans hfresh.unmatched
  | @onward t u v c rest lines newlineRun hlines htreated hrest ih =>
    obtain ⟨-, hignore, -⟩ := hR.passes hpolicies (toAscii c)
    rw [hR.encoding] at htreated ih hrest
    have hwidth := R.encoding.unitLen_pos c
    have hplaced' := (htreated.placed hplaced hlines hwidth).passedOver (R.encoding.unitLen c - 1)
    have hget : (t.tracked lines newlineRun).policies.get (toAscii c) = R.policies.get c := by
      rw [← R.policies.get_toAscii, ← hR.policies]
      rfl
    cases htreated.idle hfresh.active hfresh.results
      (signature_tracked_of_idle lines newlineRun hfresh.active) with
    | trimmed htrim _ hu =>
      refine .cons ?_ (hget ▸ htrim)
      rw [← htreated.position_passedOver hwidth]
      refine ih (hR.onward htreated _) hplaced' ?_
      subst hu
      exact ⟨hfresh.active, hfresh.results, hfresh.unmatched⟩
    | ignored _ _ hyes => exact Bool.noConfusion (hyes.symm.trans hignore)
    | unmatched htrim _ _ hbegin hactive hresults hrun =>
      obtain ⟨run, hstart, hstrays⟩ := hfresh.strays hR htreated hactive hresults hrun
      obtain ⟨r, hr, hlexeme⟩ := hrest.run hstrays hpolicies
      refine .here (hget ▸ htrim) (first?_of_singleton hr) ?_
      rw [hserves.among.next_of_not_begins _ ((beginning_eq_nil_iff hR).1 hbegin),
        List.takeWhile_cons_of_pos ((strays_iff hR).2 ⟨htrim, hbegin⟩), hlexeme, hstart]
      rfl
    | begun htrim _ _ hbegin _ hresults hactive hsignature hunmatched =>
      obtain ⟨r, hr, hlexeme⟩ := hserves.next hR hrest hplaced'
        (hR.awaits hpolicies htreated hactive hsignature hunmatched hbegin) hresults rfl
      exact .here (hget ▸ htrim) hr hlexeme

end Search

/-! ## A scan -/

/-- **The lexemes that are committed** are those of the reference scanner. -/
theorem Committed.munched {R : Reference σ} {select : Select}
    {f : List Char → Token σ → Option Lexeme} {o : Nat} {t : Tokenizer σ} {text : List Char}
    {lexemes : List Lexeme} (h : Committed t (text.flatMap R.encoding.encodeChar) lexemes)
    (hserves : R.Serves select f) (hR : R.Describes ⟨select, false⟩ t)
    (hpolicies : R.policies.OnlyTrims) (hplaced : t.Placed o) (hfresh : t.Fresh)
    (hposition : t.position = o) :
    lexemes.map Lexeme.withoutLine = R.scanBy f o text := by
  generalize hunits : text.flatMap R.encoding.encodeChar = units at h
  induction h generalizing text o with
  | done hsearch hnone =>
    subst hunits
    cases (hsearch.text hR.encoding text).munched hserves hR hpolicies hplaced hfresh with
    | gap htrim _ =>
      have hscan := Reference.scanBy_append_of_trim (f := f) o [] htrim
      rw [List.append_nil, Reference.scanBy] at hscan
      exact hscan.symm
    | found _ _ hfirst => exact absurd (hfirst.symm.trans hnone) (Option.some_ne_none _)
  | @commit t v _ r n lexemes hsearch hfirst hstop _ ih =>
    subst hunits hposition
    have hv := hsearch.placed hplaced
    cases (hsearch.text hR.encoding text).munched hserves hR hpolicies hplaced hfresh with
    | gap _ hnone =>
      have hnone := first?_eq_none_iff.2 hnone
      exact absurd (hfirst.symm.trans hnone) (Option.some_ne_none r)
    | @found gap c rest _ htrim hstart hfirst' hlexeme =>
      obtain rfl := Option.some.inj (hfirst.symm.trans hfirst')
      rw [List.map_cons, Reference.scanBy_append_of_trim _ _ htrim,
        hserves.among.scanBy_cons _ _ hstart, hlexeme]
      obtain ⟨hend, -⟩ := hserves.among.nextBy_stop (t.position + R.encoding.size gap) rest hstart
      rw [← congrArg Lexeme.stop hlexeme] at hend ⊢
      -- only where the lexeme ends matters for the next search
      generalize (R.nextBy f (t.position + R.encoding.size gap) (c :: rest)).2 = k at hend ⊢
      have hstop' : r.lexeme.stop
          = t.position + R.encoding.size (gap ++ (c :: rest).take k) := by
        rw [Encoding.size_append, ← Nat.add_assoc]
        exact hend
      have hsplit : gap ++ c :: rest = (gap ++ (c :: rest).take k) ++ (c :: rest).drop k := by
        rw [List.append_assoc, List.take_append_drop]
      have hdrop : ((gap ++ c :: rest).flatMap R.encoding.encodeChar).drop n
          = ((c :: rest).drop k).flatMap R.encoding.encodeChar := by
        rw [show n = R.encoding.size (gap ++ (c :: rest).take k) by omega, hsplit,
          R.encoding.drop_flatMap_encodeChar]
      have horigin : v.lines.origin ≤ r.lexeme.stop := Nat.le_trans hv.lines.origin_le (by omega)
      refine congrArg (_ :: ·) (ih ?_ (placed_rewind hv.lines _ horigin) (fresh_rewind v _) rfl
        hdrop.symm)
      exact hR.of_setupAs ((setupAs_rewind v _).trans hsearch.setupAs)

/-- **Scanning is maximal munch**: whatever the tokens, the reserved words, the
encoding and the source are, a scan that awaits every candidate, and whose
policies only trim, commits the lexemes of the reference scanner. -/
theorem scan_eq_reference (tokens : List (Token σ)) (config : TokenizerConfig)
    (reserved : Option Reserved) (policies : PolicyTable) (source : String)
    (hmode : config.mode = ⟨.all, false⟩) (hpolicies : policies.OnlyTrims) :
    ∃ lexemes s',
      (Scanner.ofTokens tokens config reserved policies).scan source = .ok (lexemes, s') ∧
      lexemes.map Lexeme.withoutLine =
        Reference.scan ⟨tokens, reserved, config.encoding, policies⟩ config.offset
          source.toList := by
  obtain ⟨lexemes, s', hscan, hcommitted⟩ := Scanner.scanUnits_total tokens config reserved policies
    (config.encoding.units source)
  refine ⟨lexemes, s', hscan, ?_⟩
  rw [config.encoding.units_eq_flatMap] at hcommitted
  have hplaced := Scanner.placed_ofTokens tokens config reserved policies
  rw [Reference.scan_eq_scanBy]
  exact hcommitted.munched (Reference.serves_lexemeOf hpolicies) ⟨rfl, rfl, rfl, rfl, hmode⟩
    hpolicies hplaced ⟨rfl, rfl, rfl⟩ rfl

/-- Under the usual policies numbers are scanned as the reference scanner has
them, also those that are broken off. -/
theorem scan_numeric_eq_reference : ({} : TokenizerConfig).mode = ⟨.all, false⟩ ∧
    PolicyTable.standard.OnlyTrims ∧
    ∃ lexemes s', (Scanner.ofTokens [(Token.numeric {} 0).toToken] {} none .standard).scan
        "12 0x 1e+ ab" = .ok (lexemes, s') ∧
      lexemes.map Lexeme.withoutLine =
        Reference.scan ⟨[(Token.numeric {} 0).toToken], none, .utf8, .standard⟩ 0
          "12 0x 1e+ ab".toList :=
  ⟨rfl, onlyTrims_standard,
    scan_eq_reference [(Token.numeric {} 0).toToken] {} none .standard "12 0x 1e+ ab" rfl
      onlyTrims_standard⟩

end Lexing
