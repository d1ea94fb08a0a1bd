import Lexing.Proofs.Scanner.Sound

/-!
# What a scan says about its lexemes

A scanner with a log makes a remark on each lexeme that it commits, in the state
that the grammar is in there. So at the end the log tells of the committed
lexemes, in their order (`Scanner.scanFrom_log`).

What a scan commits is sound, and under a fixed set of tokens a sound lexeme is
permitted exactly if it is recognized. So the log warns of the unrecognized
lexemes and says nothing else, and a check of the same lexemes stops at the
first of these (`Scanner.scan_told`).
-/

namespace Lexing

variable {σ S : Type}

/-- The warning about an unrecognized lexeme. -/
def Lexeme.warning (l : Lexeme) : Diagnostic where
  level := .warning
  message := s!"unrecognized input {Text.quoted l.text}"
  code := some .unrecognizedInput
  span := l.span

namespace Scanner

/-- What there is to say about lexemes that are committed from a state on. -/
def remarks (g : Grammar σ S) (s : S) : List Lexeme → List Diagnostic
  | [] => []
  | l :: rest => (remark g s l).toList ++ remarks g (g.handle s l) rest

theorem log_commit (s : Scanner σ S) (t : Tokenizer σ) (l : Lexeme) :
    (s.commit t l).log
      = s.log.map fun log => ⟨log.entries ++ (remark s.grammar s.state l).toList⟩ := by
  unfold commit
  show Option.map _ _ = Option.map _ _
  congr 1
  funext log
  cases remark s.grammar s.state l with
  | none => simp
  | some d => rfl

/-- **The log tells of the committed lexemes**, in their order, behind what it
told before. -/
theorem scanFrom_log {s s' : Scanner σ S} {base next : Nat} {units : List UInt32}
    {lexemes : List Lexeme} (h : s.scanFrom base units next = .ok (lexemes, s')) :
    s'.log = s.log.map fun log => ⟨log.entries ++ remarks s.grammar s.state lexemes⟩ := by
  induction hleft : units.length - next using Nat.strong_induction_on
    generalizing s next lexemes with
  | h left ih =>
    rw [scanFrom] at h
    cases hsearch : search s.tokenizer (units.drop next) with
    | error fault => simp [hsearch, bind, Except.bind] at h
    | ok p =>
      simp only [hsearch, bind, Except.bind] at h
      cases hl : s.choose p.1 with
      | none =>
        simp only [hl] at h
        obtain ⟨rfl, rfl⟩ := Prod.mk.inj (Except.ok.inj h)
        simp [remarks]
      | some l =>
        simp only [hl] at h
        split at h
        next hforward =>
          cases hrest : (s.commit p.2 l).scanFrom base units (l.stop - base) with
          | error fault => simp [hrest] at h
          | ok q =>
            simp only [hrest] at h
            obtain ⟨rfl, rfl⟩ := Prod.mk.inj (Except.ok.inj h)
            rw [ih _ (by omega) hrest rfl, log_commit, Option.map_map]
            congr 1
            funext log
            simp [remarks, commit]
        next => cases h

/-! ## A fixed set of tokens -/

variable {tokens : List (Token σ)} {reserved : Option Reserved} {l : Lexeme}
  {lexemes : List Lexeme}

/-- **Of sound lexemes the recognized ones are permitted.** -/
theorem permits_of_sound (h : l.Sound tokens reserved) :
    (Grammar.ofTokens tokens).permits () l = l.isRecognized := by
  cases hl : l.isRecognized with
  | false => rw [Grammar.permits, (h.unrecognized hl).1]
  | true =>
    obtain ⟨token, htoken, htag, -⟩ := h.recognized hl
    rw [Grammar.permits, htag]
    exact List.any_eq_true.2 ⟨token, htoken, beq_self_eq_true _⟩

theorem remarks_of_sound (h : ∀ l ∈ lexemes, l.Sound tokens reserved) :
    remarks (.ofTokens tokens) () lexemes
      = (lexemes.filter (!·.isRecognized)).map Lexeme.warning := by
  induction lexemes with
  | nil => rfl
  | cons l rest ih =>
    obtain ⟨hl, hrest⟩ := List.forall_mem_cons.1 h
    have hstate : (Grammar.ofTokens tokens).handle () l = () := rfl
    rw [remarks, remark, permits_of_sound hl, hstate, ih hrest]
    cases hr : l.isRecognized <;> simp [hr, Lexeme.warning]

/-- A check goes on behind recognized lexemes. -/
theorem checkFrom_append (h : ∀ l ∈ lexemes, l.Sound tokens reserved)
    (hrecognized : ∀ l ∈ lexemes, l.isRecognized = true) (index : Nat) (rest : List Lexeme) :
    (Grammar.ofTokens tokens).checkFrom () index (lexemes ++ rest)
      = (Grammar.ofTokens tokens).checkFrom () (index + lexemes.length) rest := by
  induction lexemes generalizing index with
  | nil => rfl
  | cons l front ih =>
    obtain ⟨hl, hfront⟩ := List.forall_mem_cons.1 h
    obtain ⟨hr, hrecognized⟩ := List.forall_mem_cons.1 hrecognized
    rw [List.cons_append, Grammar.checkFrom, permits_of_sound hl, if_pos hr,
      show (Grammar.ofTokens tokens).handle () l = () from rfl, ih hfront hrecognized,
      List.length_cons, Nat.add_assoc, Nat.add_comm 1]

/-- A check refuses an unrecognized lexeme. -/
theorem checkFrom_cons (h : l.Sound tokens reserved) (hl : l.isRecognized = false) (index : Nat)
    (rest : List Lexeme) :
    (Grammar.ofTokens tokens).checkFrom () index (l :: rest)
      = .error ⟨index, l.text, l.line, l.span.column⟩ := by
  rw [Grammar.checkFrom, permits_of_sound h, hl]
  rfl

/-- **What is told of lexemes** under a set of tokens: the log warns of each
unrecognized one and says nothing else, and a check passes exactly if there is
none, and stops at the first. -/
structure Told (tokens : List (Token σ)) (lexemes : List Lexeme) (log : DiagnosticLog) : Prop where
  entries : log.entries = (lexemes.filter (!·.isRecognized)).map Lexeme.warning
  no_errors : log.hasErrors = false
  passed : (Grammar.ofTokens tokens).check lexemes = .ok () ↔
    ∀ l ∈ lexemes, l.isRecognized = true
  refused : ∀ front l back, lexemes = front ++ l :: back →
    (∀ k ∈ front, k.isRecognized = true) → l.isRecognized = false →
    (Grammar.ofTokens tokens).check lexemes
      = .error ⟨front.length, l.text, l.line, l.span.column⟩

theorem Told.of_sound {log : DiagnosticLog} (h : ∀ l ∈ lexemes, l.Sound tokens reserved)
    (hlog : log.entries = remarks (.ofTokens tokens) () lexemes) : Told tokens lexemes log := by
  have hentries := hlog.trans (remarks_of_sound h)
  have hrefused (front : List Lexeme) (l : Lexeme) (back : List Lexeme)
      (hsplit : lexemes = front ++ l :: back) (hfront : ∀ k ∈ front, k.isRecognized = true)
      (hl : l.isRecognized = false) : (Grammar.ofTokens tokens).check lexemes
        = .error ⟨front.length, l.text, l.line, l.span.column⟩ := by
    subst hsplit
    unfold Grammar.check
    show (Grammar.ofTokens tokens).checkFrom () 0 _ = _
    rw [checkFrom_append (fun k hk => h k (by simp [hk])) hfront, Nat.zero_add,
      checkFrom_cons (h l (by simp)) hl]
  refine ⟨hentries, ?_, ⟨fun hpassed => ?_, fun hall => ?_⟩, hrefused⟩
  · simp [DiagnosticLog.hasErrors, hentries, Lexeme.warning]
  · -- the first unrecognized lexeme would have stopped the check
    by_contra hsome
    cases hfind : lexemes.find? (!·.isRecognized) with
    | none => exact hsome fun l hl => by simpa using List.find?_eq_none.1 hfind l hl
    | some l =>
      obtain ⟨hl, front, back, hsplit, hfront⟩ := List.find?_eq_some_iff_append.1 hfind
      have hstop := hrefused front l back hsplit (fun k hk => by simpa using hfront k hk)
        (by simpa using hl)
      exact nomatch hpassed.symm.trans hstop
  · have hcheck := checkFrom_append h hall 0 []
    rw [List.append_nil] at hcheck
    exact hcheck

/-- How many warnings there are. -/
theorem Told.count_warning {log : DiagnosticLog} (h : Told tokens lexemes log) :
    log.count .warning = lexemes.countP (!·.isRecognized) := by
  rw [DiagnosticLog.count, h.entries, List.countP_map, List.countP_eq_length_filter,
    List.countP_eq_length_filter]
  congr 1
  exact List.filter_eq_self.2 fun l _ => rfl

/-- **A scan with a log** meets no fault, like one without. -/
theorem logged_total (tokens : List (Token σ)) (config : TokenizerConfig)
    (reserved : Option Reserved) (policies : PolicyTable) (source : String) :
    ∃ lexemes s,
      { ofTokens tokens config reserved policies with log := some .empty }.scan source
        = .ok (lexemes, s) ∧
      Committed (ofTokens tokens config reserved policies).tokenizer (config.encoding.units source)
        lexemes :=
  scanFrom_total (s := { ofTokens tokens config reserved policies with log := some .empty }) rfl rfl
    config.offset (config.encoding.units source) 0 rfl (placed_ofTokens ..) ⟨rfl, rfl, rfl⟩

/-- **A scan with a log tells of its lexemes**, in every mode and under every
policy. -/
theorem scan_told (tokens : List (Token σ)) (config : TokenizerConfig)
    (reserved : Option Reserved) (policies : PolicyTable) (source : String) :
    ∃ lexemes s log,
      { ofTokens tokens config reserved policies with log := some .empty }.scan source
        = .ok (lexemes, s) ∧ s.log = some log ∧ Told tokens lexemes log := by
  obtain ⟨lexemes, s, hscan, hcommitted⟩ := logged_total tokens config reserved policies source
  have hsound := hcommitted.sound ⟨rfl, rfl, rfl⟩ (placed_ofTokens ..)
  exact ⟨lexemes, s, _, hscan, scanFrom_log hscan, .of_sound hsound (List.nil_append _)⟩

end Scanner

end Lexing
