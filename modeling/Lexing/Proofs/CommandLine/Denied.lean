import Lexing.CommandLine.Run
import Lexing.Proofs.Scanner.Reported

/-!
# Denying unrecognized input

The command that scans a source counts the warnings of its log. They are the
warnings about the unrecognized lexemes, so the command that is not to allow
these fails exactly if it prints one, and tells how many there are
(`unrecognized_told_and_denied`).

A configuration that has been loaded is valid, so the tokens of simple
statements can be built, and a scan meets no fault. Nothing else can fail once
the source has been read.
-/

namespace Lexing.CommandLine

variable {s : Surroundings} {config : LexConfig}

/-- **A loaded configuration is valid.** -/
theorem validate_of_loadConfig {path : Option String} (h : loadConfig s path = .ok config) :
    config.numeric.validate = .ok () := by
  have hread (path : String) (h : readConfig s path = .ok config) :
      config.numeric.validate = .ok () := by
    unfold readConfig LexConfig.read at h
    cases hfile : s.read path with
    | error why => simp [hfile] at h
    | ok document =>
      simp only [hfile] at h
      cases hdocument : (Toml.document? document.toList).bind LexConfig.ofToml? with
      | none => simp [hdocument] at h
      | some found =>
        cases hvalid : found.numeric.validate with
        | error e => simp [hdocument, hvalid] at h
        | ok _ =>
          simp only [hdocument, hvalid, Except.ok.injEq] at h
          rw [← h, hvalid]
  unfold loadConfig at h
  cases path with
  | some path =>
    simp only at h
    split at h
    · exact hread path h
    · exact nomatch h
  | none =>
    simp only at h
    split at h
    · exact hread _ h
    · rw [← Except.ok.inj h]
      decide

/-- Tokens that can each be built can be built together. -/
theorem buildAll_total {specs : List TokenSpec}
    (h : ∀ spec ∈ specs, ∀ id, ∃ g, spec.build id = .ok g) (id : Nat) :
    ∃ generators, TokenSpec.buildAll specs id = .ok generators := by
  induction specs generalizing id with
  | nil => exact ⟨[], rfl⟩
  | cons spec rest ih =>
    obtain ⟨hspec, hrest⟩ := List.forall_mem_cons.1 h
    obtain ⟨g, hg⟩ := hspec id
    obtain ⟨generators, hgenerators⟩ := ih hrest (id + 1)
    refine ⟨g :: generators, ?_⟩
    rw [TokenSpec.buildAll, hg, hgenerators]
    rfl

/-- **The tokens of simple statements can be built** for a valid
configuration. -/
theorem buildAll_statement {config : NumericConfig} (h : config.validate = .ok ()) :
    ∃ generators, TokenSpec.buildAll (TokenSpec.statement config) 0 = .ok generators := by
  refine buildAll_total (fun spec hspec id => ?_) 0
  obtain rfl | rfl | ⟨c, -, rfl⟩ : spec = .keyname ∨ spec = .numeric config ∨
      ∃ c, c ∈ _ ∧ TokenSpec.char c = spec := by
    simpa only [TokenSpec.statement, List.mem_cons, List.mem_map] using hspec
  · exact ⟨_, rfl⟩
  · refine ⟨(Token.numeric config id).lift .numeric MatchState.numeric?, ?_⟩
    rw [TokenSpec.build, Token.numeric?, h]
    rfl
  · exact ⟨_, rfl⟩

/-- The reserved words that are asked for. -/
def wordsOf (reserved : List String) : Option Reserved :=
  if reserved = [] then none else some (Reserved.ofList (reserved.map String.toList))

/-- Scanning a source is scanning with a log. -/
theorem scanSource_eq {generators : List (Generator MatchState)}
    (h : TokenSpec.buildAll (TokenSpec.statement config.numeric) 0 = .ok generators)
    (reserved : List String) (source : String) :
    scanSource config reserved source =
      ((Scanner.scan { Scanner.ofTokens (generators.map (·.toToken)) config.tokenizer
        (wordsOf reserved) config.tokenizer.policyTable with log := some .empty } source).mapError
          Failure.fault).map fun p => (p.1, p.2.log.getD .empty) := by
  unfold scanSource
  rw [h]
  rfl

/-- **A source is scanned** under a valid configuration, and the log tells of
its lexemes. -/
theorem scanSource_told (h : config.numeric.validate = .ok ()) (reserved : List String)
    (source : String) :
    ∃ generators lexemes log,
      TokenSpec.buildAll (TokenSpec.statement config.numeric) 0 = .ok generators ∧
      scanSource config reserved source = .ok (lexemes, log) ∧
      Scanner.Told (generators.map (·.toToken)) lexemes log := by
  obtain ⟨generators, hbuild⟩ := buildAll_statement h
  obtain ⟨lexemes, scanner, log, hscan, hlog, htold⟩ := Scanner.scan_told
    (generators.map (·.toToken)) config.tokenizer (wordsOf reserved) config.tokenizer.policyTable
    source
  refine ⟨generators, lexemes, log, hbuild, ?_, htold⟩
  rw [scanSource_eq hbuild, hscan]
  show Except.ok (lexemes, scanner.log.getD .empty) = _
  rw [hlog]
  rfl

/-- Why a command fails that is not to allow unrecognized lexemes: there are
some. -/
def denial (lexemes : List Lexeme) : Option Failure :=
  let unrecognized := lexemes.countP (!·.isRecognized)
  if 0 < unrecognized then some (.unrecognized unrecognized) else none

/-- **It fails exactly if there is an unrecognized lexeme.** -/
theorem code_failing_denial (r : Report) (hr : r.code = 0) (lexemes : List Lexeme) :
    (r.failing (denial lexemes)).code ≠ 0 ↔ ∃ l ∈ lexemes, l.isRecognized = false := by
  have hsome : 0 < lexemes.countP (!·.isRecognized) ↔ ∃ l ∈ lexemes, l.isRecognized = false := by
    simp
  rw [← hsome, denial]
  split
  next hpos =>
    simp only [hpos, iff_true]
    exact Nat.one_ne_zero
  next hnone => exact iff_of_false (not_not_intro hr) hnone

/-- **The command that is not to allow unrecognized input** prints the lexemes
and the warnings, and then what it denies, if anything. -/
theorem run_deny {args : List String} {path file text : Option String} {format : OutputFormat}
    {reserved : List String} {source : String}
    (hparse : parse s.environment args = some (.run ⟨path, .scan file text format reserved true⟩))
    (hconfig : loadConfig s path = .ok config) (hsource : sourceOf s file text = .ok source) :
    ∃ generators lexemes log,
      TokenSpec.buildAll (TokenSpec.statement config.numeric) 0 = .ok generators ∧
      scanSource config reserved source = .ok (lexemes, log) ∧
      Scanner.Told (generators.map (·.toToken)) lexemes log ∧
      run s args = Report.failing
        { stdout := printLexemes format lexemes
          stderr := lines (log.entries.map Diagnostic.render) } (denial lexemes) := by
  obtain ⟨generators, lexemes, log, hbuild, hscan, htold⟩ :=
    scanSource_told (validate_of_loadConfig hconfig) reserved source
  refine ⟨generators, lexemes, log, hbuild, hscan, htold, ?_⟩
  unfold run runInvocation runCommand runScan
  rw [hparse]
  simp only [hconfig, hsource, hscan, Except.mapError, bind, Except.bind, pure, Except.pure]
  rw [htold.count_warning, Bool.true_and]
  simp only [decide_eq_true_eq]
  rfl

/-- **Diagnostics, checks and exit codes agree with the committed lexemes.** A
scan with a log tells of the lexemes that it commits, in every mode and under
every policy: no error, and a warning about each unrecognized one; and a check
under the same tokens refuses the first of these, if any. The command that is
not to allow unrecognized input fails exactly if it commits some, and tells how
much. -/
theorem unrecognized_told_and_denied :
    (∀ {σ : Type} (tokens : List (Token σ)) (config : TokenizerConfig)
        (reserved : Option Reserved) (policies : PolicyTable) (source : String),
      ∃ lexemes s log,
        { Scanner.ofTokens tokens config reserved policies with log := some .empty }.scan source
          = .ok (lexemes, s) ∧ s.log = some log ∧ Scanner.Told tokens lexemes log) ∧
    ∀ (s : Surroundings) (config : LexConfig) (args : List String)
        (path file text : Option String) (format : OutputFormat) (reserved : List String)
        (source : String),
      parse s.environment args = some (.run ⟨path, .scan file text format reserved true⟩) →
      loadConfig s path = .ok config → sourceOf s file text = .ok source →
      ∃ generators lexemes log,
        TokenSpec.buildAll (TokenSpec.statement config.numeric) 0 = .ok generators ∧
        scanSource config reserved source = .ok (lexemes, log) ∧
        Scanner.Told (generators.map (·.toToken)) lexemes log ∧
        run s args = Report.failing
          { stdout := printLexemes format lexemes
            stderr := lines (log.entries.map Diagnostic.render) } (denial lexemes) ∧
        ((run s args).code ≠ 0 ↔ ∃ l ∈ lexemes, l.isRecognized = false) := by
  refine ⟨Scanner.scan_told, ?_⟩
  intro s config args path file text format reserved source hparse hconfig hsource
  obtain ⟨generators, lexemes, log, hbuild, hscan, htold, hrun⟩ := run_deny hparse hconfig hsource
  refine ⟨generators, lexemes, log, hbuild, hscan, htold, hrun, ?_⟩
  rw [hrun]
  exact code_failing_denial _ rfl lexemes

/-- Surroundings without files. -/
def Surroundings.bare : Surroundings where
  environment _ := none
  fileExists _ := false
  read _ := .error .missing
  entropy := 0

/-- A letter outside ASCII is denied. -/
theorem unrecognized_told_and_denied_accent :
    parse Surroundings.bare.environment ["scan", "-t", "a é b", "--deny-unrecognized"]
      = some (.run ⟨none, .scan none (some "a é b") .text [] true⟩) ∧
    loadConfig Surroundings.bare none = .ok {} ∧
    sourceOf Surroundings.bare none (some "a é b") = .ok "a é b" ∧
    ∃ generators lexemes log,
      TokenSpec.buildAll (TokenSpec.statement {}) 0 = .ok generators ∧
      scanSource {} [] "a é b" = .ok (lexemes, log) ∧
      Scanner.Told (generators.map (·.toToken)) lexemes log ∧
      run Surroundings.bare ["scan", "-t", "a é b", "--deny-unrecognized"] = Report.failing
        { stdout := printLexemes .text lexemes
          stderr := lines (log.entries.map Diagnostic.render) } (denial lexemes) ∧
      ((run Surroundings.bare ["scan", "-t", "a é b", "--deny-unrecognized"]).code ≠ 0 ↔
        ∃ l ∈ lexemes, l.isRecognized = false) := by
  have hparse : parse Surroundings.bare.environment ["scan", "-t", "a é b", "--deny-unrecognized"]
      = some (.run ⟨none, .scan none (some "a é b") .text [] true⟩) := by decide +kernel
  exact ⟨hparse, rfl, rfl, unrecognized_told_and_denied.2 Surroundings.bare {} _ none none _ .text
    [] _ hparse rfl rfl⟩

end Lexing.CommandLine
