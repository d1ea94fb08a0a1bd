import Lexing.Proofs.CommandLine.Denied
import Lexing.Proofs.Numeric.Parts
import Lexing.Proofs.Scanner.Munch
import Lexing.Proofs.Scanner.Vain

/-!
# What the command recognizes

Identifiers and symbols are lexemes from their first character on
(`Token.Prompt`), and so are literals that begin with a digit. A sign is a
symbol. So the only literal that can be broken off without a lexeme is the
fraction character with separators behind it (`Numeric.Silent`). Besides these
two characters, what begins no token and is not trimmed is a control character
or the substitute. Everything else that can be seen ends up in a recognized
lexeme (`scanSource_recognizes`).
-/

namespace Lexing

/-! ## Literals without a lexeme -/

/-- A step of a machine leads through an open edge into a state that the
character can enter. -/
theorem Machine.exists_of_advance {ι σ : Type} {m : Machine ι σ} {s s' : σ} {text : List Char}
    {c : Char} (h : m.advance s text c = some s') :
    ∃ target ∈ m.targets (m.current s), m.allows (m.current s) target s = true ∧
      m.canEnter target s text c = true ∧ m.enter target s text c = s' := by
  obtain ⟨target, hfind, hs'⟩ := Option.map_eq_some_iff.1 h
  obtain ⟨hmem, hopen⟩ := List.mem_filter.1 (List.mem_of_find?_eq_some hfind)
  have henter := List.find?_some (p := fun target => m.canEnter target s text c) hfind
  exact ⟨target, hmem, hopen, henter, hs'⟩

namespace Numeric

variable {config : NumericConfig} {s s' : Progress} {text : List Char} {c : Char}

/-- A literal without digits: its fraction character, and separators behind
it. -/
def Silent (s : Progress) : Prop := s.valid = false ∧ (s.stage = .fraction ∨ s.stage = .digit)

/-- **Only a separator leaves it without digits.** -/
theorem Silent.step (hs : Silent s) (h : (machine config).advance s text c = some s') :
    s'.valid = true ∨ Silent s' ∧ c = config.separator := by
  obtain ⟨hvalid, hstage⟩ := hs
  obtain ⟨target, hmem, hopen, henter, rfl⟩ := Machine.exists_of_advance h
  obtain rfl : target = .digit := by
    simp only [machine] at hmem hopen
    obtain hstage | hstage := hstage <;> rw [hstage] at hmem hopen <;>
      simp only [Stage.targets, List.mem_cons, List.not_mem_nil, or_false] at hmem
    · obtain rfl | rfl | rfl := hmem
      · rfl
      all_goals simp [allows, hvalid] at hopen
    · obtain rfl | rfl | rfl | rfl | rfl | rfl := hmem
      · rfl
      all_goals simp [allows, hvalid] at hopen
  by_cases hc : c = config.separator
  · right
    exact ⟨⟨by simp [machine, Machine.enter, onEnter, hc, hvalid], .inr rfl⟩, hc⟩
  · left
    show (onEnter config .digit s c).valid = true
    rw [onEnter, if_neg hc, valid_takeDigit]

/-- A literal begins with a digit, and then it is complete, with a sign or
with its fraction character. -/
theorem silent_of_first (h : (machine config).advance {} text c = some s') :
    s'.valid = true ∨ c ∈ ['+', '-'] ∨ Silent s' ∧ c = config.fraction := by
  obtain ⟨target, hmem, hopen, henter, rfl⟩ := Machine.exists_of_advance h
  simp only [machine, Stage.targets, List.mem_cons, List.not_mem_nil, or_false] at hmem
  obtain rfl | rfl | rfl | rfl := hmem
  · exact .inl rfl
  · exact .inl rfl
  · exact .inr (.inl (of_decide_eq_true henter))
  · exact .inr (.inr ⟨⟨rfl, .inl rfl⟩, beq_iff_eq.1 henter⟩)

end Numeric

/-! ## Tokens that are lexemes at once -/

namespace Token

variable {σ : Type} {token : Token σ} {c : Char}

/-- Every first character is a lexeme, if no words are reserved. -/
def Prompt (token : Token σ) : Prop :=
  ∀ c st, token.advance (token.fresh none) [] c = some st → token.isValid st [c] = true

/-- The token takes a character as its first, if no words are reserved. -/
def TakesFirst (token : Token σ) (c : Char) : Prop :=
  ∃ st, token.advance (token.fresh none) [] c = some st

end Token

namespace TokenSpec

variable {config : NumericConfig} {c d : Char}

/-- The token of identifiers among the tokens at hand. -/
def keynameToken (id : Nat) : Token MatchState :=
  ((Token.keyname id).lift .keyname MatchState.keyname?).toToken

/-- The token of a character among the tokens at hand. -/
def charToken (id : Nat) (c : Char) : Token MatchState :=
  ((Token.char id c).lift (fun _ => .plain) MatchState.plain?).toToken

/-- The token of literals among the tokens at hand. -/
def numericToken (config : NumericConfig) (id : Nat) : Token MatchState :=
  ((Token.numeric config id).lift .numeric MatchState.numeric?).toToken

theorem prompt_keynameToken (id : Nat) : (keynameToken id).Prompt := by
  intro c st h
  obtain ⟨s, hs, rfl⟩ := Option.map_eq_some_iff.1 h
  obtain rfl : s = none := by
    simp only [Token.keyname] at hs
    split at hs
    all_goals simp_all
  rfl

theorem keynameToken_takesFirst (id : Nat) (h : isIdentStart c = true) :
    (keynameToken id).TakesFirst c := by
  refine ⟨.keyname none, ?_⟩
  show (if isIdentStart c then some none else none).map MatchState.keyname = _
  rw [if_pos h]
  rfl

theorem prompt_charToken (id : Nat) (c : Char) : (charToken id c).Prompt := by
  intro d st h
  obtain ⟨s, hs, rfl⟩ := Option.map_eq_some_iff.1 h
  obtain ⟨-, rfl⟩ : ([] : List Char) = [] ∧ d = c := by
    by_contra hne
    exact absurd (hs.symm.trans (if_neg hne)) (Option.some_ne_none _)
  exact beq_self_eq_true [d]

theorem charToken_takesFirst (id : Nat) (c : Char) : (charToken id c).TakesFirst c := by
  refine ⟨.plain, ?_⟩
  show (if ([] : List Char) = [] ∧ c = c then some () else none).map (fun _ => MatchState.plain) = _
  rw [if_pos ⟨rfl, rfl⟩]
  rfl

theorem numericToken_takesFirst (config : NumericConfig) (id : Nat) (h : c.isDigit = true) :
    (numericToken config id).TakesFirst c := by
  have hadvance (target : Numeric.Stage) (hmem : target ∈ Numeric.Stage.targets .start)
      (henter : Numeric.canEnter config target {} c = true) :
      (numericToken config id).TakesFirst c := by
    have hopen : target ∈ (Numeric.machine config).openTargets {} :=
      List.mem_filter.2 ⟨hmem, rfl⟩
    obtain ⟨found, hfound⟩ : ∃ found, ((Numeric.machine config).openTargets {}).find?
        (fun target => Numeric.canEnter config target {} c) = some found :=
      Option.isSome_iff_exists.1 (List.find?_isSome.2 ⟨target, hopen, henter⟩)
    have hstep : (Numeric.machine config).advance {} [] c
        = some ((Numeric.machine config).enter found {} [] c) :=
      Option.map_eq_some_iff.2 ⟨found, hfound, rfl⟩
    exact ⟨.numeric _, congrArg (Option.map MatchState.numeric) hstep⟩
  have hcases : ∀ k < 128, (Char.ofNat k).isDigit = true →
      (Char.ofNat k == '0') = true ∨ ('1' ≤ Char.ofNat k && Char.ofNat k ≤ '9') = true := by
    decide
  have hlt : c.toNat < 128 := by
    have hle : c.val ≤ '9'.val := of_decide_eq_true (Bool.and_eq_true_iff.1 h).2
    exact Nat.lt_of_le_of_lt (UInt32.le_iff_toNat_le.1 hle) (by decide)
  obtain hzero | hother := Numeric.forall_lt_of_ofNat (P := fun c => c.isDigit = true →
    (c == '0') = true ∨ ('1' ≤ c && c ≤ '9') = true) hcases hlt h
  · exact hadvance .leadZero (.head _) hzero
  · exact hadvance .leadDigit (.tail _ (.head _)) hother

/-- Tokens that are built together are those of the specifications. -/
theorem mem_buildAll {specs : List TokenSpec} {id : Nat} {generators : List (Generator MatchState)}
    (h : buildAll specs id = .ok generators) :
    (∀ g ∈ generators, ∃ spec ∈ specs, ∃ id, spec.build id = .ok g) ∧
      ∀ spec ∈ specs, ∃ g ∈ generators, ∃ id, spec.build id = .ok g := by
  induction specs generalizing id generators with
  | nil =>
    obtain rfl := Except.ok.inj h
    exact ⟨fun g hg => (List.not_mem_nil hg).elim, fun spec hspec => (List.not_mem_nil hspec).elim⟩
  | cons spec specs ih =>
    rw [buildAll] at h
    cases hg : spec.build id with
    | error e => simp [hg, bind, Except.bind] at h
    | ok g =>
      cases hlater : buildAll specs (id + 1) with
      | error e => simp [hg, hlater, bind, Except.bind] at h
      | ok later =>
        simp only [hg, hlater, bind, Except.bind, pure, Except.pure, Except.ok.injEq] at h
        subst h
        obtain ⟨hspecs, hgenerators⟩ := ih hlater
        constructor
        · intro g' hg'
          obtain rfl | hg' := List.mem_cons.1 hg'
          · exact ⟨spec, List.mem_cons_self, id, hg⟩
          · obtain ⟨spec', hspec', hbuilt⟩ := hspecs g' hg'
            exact ⟨spec', List.mem_cons_of_mem _ hspec', hbuilt⟩
        · intro spec' hspec'
          obtain rfl | hspec' := List.mem_cons.1 hspec'
          · exact ⟨g, List.mem_cons_self, id, hg⟩
          · obtain ⟨g', hg', hbuilt⟩ := hgenerators spec' hspec'
            exact ⟨g', List.mem_cons_of_mem _ hg', hbuilt⟩

/-- **The tokens of simple statements**: literals, and others that are lexemes
at once. -/
structure Statement (config : NumericConfig) (tokens : List (Token MatchState)) : Prop where
  kinds : ∀ token ∈ tokens, token.Prompt ∨ ∃ id, token = numericToken config id
  numeric : ∃ id, numericToken config id ∈ tokens
  keyname : ∃ id, keynameToken id ∈ tokens
  char : ∀ c ∈ Category.symbol.members, c ≠ config.separator → c ≠ config.fraction →
    ∃ id, charToken id c ∈ tokens

theorem statement_of_buildAll (h : config.validate = .ok ())
    {generators : List (Generator MatchState)}
    (hbuild : buildAll (statement config) 0 = .ok generators) :
    Statement config (generators.map (·.toToken)) := by
  have hnumeric (id : Nat) : (TokenSpec.numeric config).build id
      = .ok ((Token.numeric config id).lift .numeric MatchState.numeric?) := by
    rw [build, Token.numeric?, h]
    rfl
  obtain ⟨hspecs, hgenerators⟩ := mem_buildAll hbuild
  -- each specification gives the token that is built of it
  have htoken {spec : TokenSpec} {token : Nat → Token MatchState} (hspec : spec ∈ statement config)
      (hbuilt : ∀ id g, spec.build id = .ok g → g.toToken = token id) :
      ∃ id, token id ∈ generators.map (·.toToken) := by
    obtain ⟨g, hg, id, hid⟩ := hgenerators spec hspec
    exact ⟨id, hbuilt id g hid ▸ List.mem_map_of_mem hg⟩
  refine ⟨?_, ?_, ?_, ?_⟩
  · rw [List.forall_mem_map]
    intro g hg
    obtain ⟨spec, hspec, id, hid⟩ := hspecs g hg
    obtain rfl | rfl | ⟨c, -, rfl⟩ : spec = .keyname ∨ spec = .numeric config ∨
        ∃ c, c ∈ _ ∧ TokenSpec.char c = spec := by
      simpa only [statement, List.mem_cons, List.mem_map] using hspec
    · obtain rfl := Except.ok.inj hid
      exact .inl (prompt_keynameToken id)
    · rw [hnumeric] at hid
      obtain rfl := Except.ok.inj hid
      exact .inr ⟨id, rfl⟩
    · obtain rfl := Except.ok.inj hid
      exact .inl (prompt_charToken id c)
  · refine htoken (List.mem_cons_of_mem _ List.mem_cons_self) fun id g hid => ?_
    rw [hnumeric] at hid
    exact Except.ok.inj hid ▸ rfl
  · exact htoken List.mem_cons_self fun id g hid => Except.ok.inj hid ▸ rfl
  · intro c hc hseparator hfraction
    have hmem : TokenSpec.char c ∈ statement config := by
      refine List.mem_cons_of_mem _ (List.mem_cons_of_mem _ (List.mem_map_of_mem ?_))
      simp [hc, hseparator, hfraction]
    exact htoken hmem fun id g hid => Except.ok.inj hid ▸ rfl

end TokenSpec

/-! ## What is left unrecognized -/

/-- The characters that may be left unrecognized: the control characters, the
substitute and the two characters of the configuration. -/
def NumericConfig.Unclaimed (config : NumericConfig) (c : Char) : Prop :=
  Category.of c = .control ∨ c = substitute ∨ c = config.separator ∨ c = config.fraction

namespace TokenSpec

variable {config : NumericConfig} {tokens : List (Token MatchState)} {c : Char} {rest : List Char}

/-- What the command scans with, as a reference scanner. -/
def reference (tokens : List (Token MatchState)) : Reference MatchState :=
  ⟨tokens, none, .utf8, ({} : TokenizerConfig).policyTable⟩

/-- An ASCII character is trimmed, or it begins an identifier, a literal or a
symbol, or it is a control character. -/
theorem kind_of_lt (h : c.toNat < 128) :
    (({} : TokenizerConfig).policyTable.get c).trim = true ∨ isIdentStart c = true ∨
      c.isDigit = true ∨ c ∈ Category.symbol.members ∨ Category.of c = .control ∨
      c = substitute := by
  refine Numeric.forall_lt_of_ofNat (P := fun c =>
    (({} : TokenizerConfig).policyTable.get c).trim = true ∨ isIdentStart c = true ∨
      c.isDigit = true ∨ c ∈ Category.symbol.members ∨ Category.of c = .control ∨
      c = substitute) ?_ h
  decide +kernel

/-- **What begins no token** is unclaimed. -/
theorem Statement.unclaimed_of_strays (h : Statement config tokens)
    (hstrays : (reference tokens).strays c = true) : config.Unclaimed (toAscii c) := by
  obtain ⟨htrim, hbegins⟩ : ((reference tokens).policies.get c).trim = false ∧
      (reference tokens).begins c = false := by
    simpa [Reference.strays] using hstrays
  have hrefused {token : Token MatchState} (htoken : token ∈ tokens) :
      ¬token.TakesFirst (toAscii c) := by
    rintro ⟨st, hst⟩
    have hnone := List.any_eq_false.1 hbegins token htoken
    exact hnone (Option.isSome_iff_exists.2 ⟨st, hst⟩)
  obtain hyes | hident | hdigit | hsymbol | hcontrol | hsubstitute :=
    kind_of_lt (toNat_toAscii_lt c)
  · rw [PolicyTable.get_toAscii] at hyes
    exact Bool.noConfusion (hyes.symm.trans htrim)
  · obtain ⟨id, hid⟩ := h.keyname
    exact absurd (keynameToken_takesFirst id hident) (hrefused hid)
  · obtain ⟨id, hid⟩ := h.numeric
    exact absurd (numericToken_takesFirst config id hdigit) (hrefused hid)
  · by_cases hseparator : toAscii c = config.separator
    · exact .inr (.inr (.inl hseparator))
    · by_cases hfraction : toAscii c = config.fraction
      · exact .inr (.inr (.inr hfraction))
      · obtain ⟨id, hid⟩ := h.char _ hsymbol hseparator hfraction
        exact absurd (charToken_takesFirst id _) (hrefused hid)
  · exact .inl hcontrol
  · exact .inr (.inl hsubstitute)

/-- A token that is a lexeme at once has one wherever it takes the first
character. -/
theorem lexemeOf_ne_none_of_prompt {token : Token MatchState} (hprompt : token.Prompt)
    (hfirst : token.TakesFirst (toAscii c)) (rest : List Char) :
    (reference tokens).lexemeOf (c :: rest) token ≠ none := by
  obtain ⟨st, hst⟩ := hfirst
  exact Reference.lexemeOf_ne_none hst (hprompt _ _ hst) rest

/-- The signs are symbols that no configuration may choose. -/
theorem mem_symbol_of_sign (h : c ∈ ['+', '-']) :
    c ∈ Category.symbol.members ∧ c ∈ NumericConfig.takenChars := by
  obtain rfl | rfl : c = '+' ∨ c = '-' := by simpa using h
  · decide
  · decide

/-- **What is taken in vain** is unclaimed. -/
theorem Statement.unclaimed_of_taken (h : Statement config tokens)
    (hconfig : Numeric.Separated config)
    (hnone : ∀ token ∈ tokens, (reference tokens).lexemeOf (c :: rest) token = none)
    {token : Token MatchState} (htoken : token ∈ tokens) :
    ∀ d ∈ (c :: rest).take ((reference tokens).taken (c :: rest) token),
      config.Unclaimed (toAscii d) := by
  cases hbegin : Candidate.begin? token (reference tokens).reserved 0 (toAscii c) with
  | none =>
    rw [(of_refuse rest hbegin).2]
    exact fun d hd => nomatch hd
  | some x =>
    obtain ⟨st, hst, hx⟩ := Option.map_eq_some_iff.1 hbegin
    obtain hprompt | ⟨id, rfl⟩ := h.kinds token htoken
    · exact absurd (hnone token htoken) (lexemeOf_ne_none_of_prompt hprompt ⟨st, hst⟩ rest)
    obtain ⟨s, hs, rfl⟩ := Option.map_eq_some_iff.1 hst
    obtain hvalid | hsign | ⟨hsilent, hfraction⟩ := Numeric.silent_of_first hs
    · exact absurd (hnone _ htoken) (Reference.lexemeOf_ne_none hst hvalid rest)
    · -- a sign is a symbol, and that is a lexeme at once
      obtain ⟨hsymbol, htaken⟩ := mem_symbol_of_sign hsign
      obtain ⟨id', hid'⟩ := h.char _ hsymbol (ne_of_mem_of_not_mem htaken hconfig.separator_notMem)
        (ne_of_mem_of_not_mem htaken hconfig.fraction_notMem)
      exact absurd (hnone _ hid')
        (lexemeOf_ne_none_of_prompt (prompt_charToken id' _) (charToken_takesFirst id' _) rest)
    · have houtcome : x.outcome [toAscii c] (rest.map toAscii) = none := by
        have hlexeme := hnone _ htoken
        rw [lexemeOf_of_begin rest hbegin] at hlexeme
        exact Option.map_eq_none_iff.1 hlexeme
      have hlater : ∀ d ∈ (rest.map toAscii).take (x.reach [toAscii c] (rest.map toAscii) - 1),
          d = config.separator := by
        subst hx
        refine Candidate.forall_mem_of_outcome_eq_none
          (P := fun st => ∃ s, st = MatchState.numeric s ∧ Numeric.Silent s) ?_ ⟨s, rfl, hsilent⟩
          houtcome
        rintro _ text d st' ⟨s, rfl, hsilent⟩ hstep
        obtain ⟨s', hs', rfl⟩ := Option.map_eq_some_iff.1 hstep
        exact (hsilent.step hs').imp_right fun h => ⟨⟨s', rfl, h.1⟩, h.2⟩
      obtain ⟨n, hn⟩ := Nat.exists_eq_add_of_le
        (x.length_le_reach [toAscii c] (rest.map toAscii))
      rw [List.length_singleton, Nat.add_comm] at hn
      rw [hn, Nat.add_sub_cancel, ← List.map_take] at hlater
      rw [taken_of_begin rest hbegin, hn, List.take_succ_cons]
      refine List.forall_mem_cons.2 ⟨.inr (.inr (.inr hfraction)), fun d hd => ?_⟩
      exact .inr (.inr (.inl (hlater _ (List.mem_map_of_mem hd))))

end TokenSpec

namespace CommandLine

open TokenSpec

variable {config : NumericConfig} {c : Char}

/-- A character that can be seen is passed on to the tokens, and it is no
control character. -/
theorem passed_of_visible (hlow : 0x21 ≤ c.toNat) (hhigh : c.toNat ≤ 0x7e) :
    (({} : TokenizerConfig).policyTable.get c).trim = false ∧ Category.of c ≠ .control ∧
      c ≠ substitute := by
  have hall : ∀ k < 128, 0x21 ≤ (Char.ofNat k).toNat → (Char.ofNat k).toNat ≤ 0x7e →
      (({} : TokenizerConfig).policyTable.get (Char.ofNat k)).trim = false ∧
        Category.of (Char.ofNat k) ≠ .control ∧ Char.ofNat k ≠ substitute := by
    decide +kernel
  exact Numeric.forall_lt_of_ofNat (P := fun c => 0x21 ≤ c.toNat → c.toNat ≤ 0x7e →
    (({} : TokenizerConfig).policyTable.get c).trim = false ∧ Category.of c ≠ .control ∧
      c ≠ substitute) hall (Nat.lt_succ_of_le (Nat.le_succ_of_le hhigh)) hlow hhigh

/-- The usual setup has the usual policies, which only trim. -/
theorem onlyTrims_usual : ({} : TokenizerConfig).policyTable.OnlyTrims := by
  have husual : ({} : TokenizerConfig).policyTable = .standard := by decide +kernel
  rw [husual]
  exact onlyTrims_standard

/-- **The command scans by maximal munch**, with the usual setup and no
reserved words. -/
theorem exists_scanSource (whole : LexConfig) (hwhole : whole.tokenizer = {})
    {generators : List (Generator MatchState)}
    (hbuild : buildAll (statement whole.numeric) 0 = .ok generators) (source : String) :
    ∃ lexemes log, scanSource whole [] source = .ok (lexemes, log) ∧
      lexemes.map Lexeme.withoutLine
        = (reference (generators.map (·.toToken))).scan 0 source.toList := by
  obtain ⟨lexemes, s, hscan, hcommitted⟩ := Scanner.logged_total (generators.map (·.toToken))
    whole.tokenizer (wordsOf []) whole.tokenizer.policyTable source
  refine ⟨lexemes, s.log.getD .empty, ?_, ?_⟩
  · rw [scanSource_eq hbuild, hscan]
    rfl
  · rw [hwhole] at hcommitted
    rw [Encoding.units_eq_flatMap] at hcommitted
    rw [Reference.scan_eq_scanBy]
    exact hcommitted.munched (R := reference (generators.map (·.toToken)))
      (Reference.serves_lexemeOf onlyTrims_usual) ⟨rfl, rfl, rfl, rfl, rfl⟩ onlyTrims_usual
      (Scanner.placed_ofTokens ..) ⟨rfl, rfl, rfl⟩ rfl

/-- **The command recognizes everything that can be seen**, but for the two
characters that the configuration chooses: under the usual setup, whatever
these are, what it leaves unrecognized is made of them, of control characters
and of the substitute, and every other ASCII character that can be seen lies in
the span of a recognized lexeme. -/
theorem scanSource_recognizes (config : NumericConfig) (h : config.validate = .ok ())
    (source : String) :
    ∃ lexemes log, scanSource { numeric := config } [] source = .ok (lexemes, log) ∧
      (∀ l ∈ lexemes, l.isRecognized = false → ∀ c ∈ l.text, config.Unclaimed c) ∧
      ∀ front c back, source.toList = front ++ c :: back → 0x21 ≤ c.toNat → c.toNat ≤ 0x7e →
        c ≠ config.separator → c ≠ config.fraction →
          ∃ l ∈ lexemes, l.isRecognized = true ∧ l.start ≤ Encoding.utf8.size front ∧
            Encoding.utf8.size (front ++ [c]) ≤ l.stop := by
  obtain ⟨generators, hbuild⟩ := buildAll_statement h
  have hstatement := statement_of_buildAll h hbuild
  obtain ⟨lexemes, log, hscan, hreference⟩ :=
    exists_scanSource { numeric := config } rfl hbuild source
  have hmem (l : Lexeme) (hl : l ∈ lexemes) :
      l.withoutLine ∈ (reference (generators.map (·.toToken))).scan 0 source.toList :=
    hreference ▸ List.mem_map_of_mem hl
  have hunclaimed (l : Lexeme) (hl : l ∈ lexemes) (hnone : l.isRecognized = false) :
      ∀ c ∈ l.text, config.Unclaimed c := by
    have hall := Reference.forall_mem_unrecognized (fun c => hstatement.unclaimed_of_strays)
      (fun c rest hnone token htoken => hstatement.unclaimed_of_taken
        (Numeric.separated_of_validate h) hnone htoken) (hmem l hl) hnone
    exact hall
  refine ⟨lexemes, log, hscan, hunclaimed, ?_⟩
  intro front c back hsource hlow hhigh hseparator hfraction
  obtain ⟨htrim, hcontrol, hsubstitute⟩ := passed_of_visible hlow hhigh
  obtain ⟨l', hl', hstart, hstop, htext⟩ := Reference.exists_span
    (R := reference (generators.map (·.toToken))) 0 front back htrim
  rw [← hsource, ← hreference] at hl'
  obtain ⟨l, hl, rfl⟩ := List.mem_map.1 hl'
  rw [Nat.zero_add] at hstart hstop
  refine ⟨l, hl, ?_, hstart, hstop⟩
  -- it would be in the text of an unrecognized lexeme
  by_contra hunrecognized
  have hnone : l.isRecognized = false := (Bool.not_eq_true _).mp hunrecognized
  have hascii : toAscii c = c := toAscii_of_lt (Nat.lt_of_le_of_lt hhigh (by decide))
  have hc := hunclaimed l hl hnone _ (htext hnone)
  rw [hascii] at hc
  obtain h | h | h | h := hc
  · exact hcontrol h
  · exact hsubstitute h
  · exact hseparator h
  · exact hfraction h

/-- A space may stand among digits and a semicolon before a fraction. -/
theorem scanSource_recognizes_semicolon :
    ({ separator := ' ', fraction := ';' } : NumericConfig).validate = .ok () ∧
    ∃ lexemes log, scanSource { numeric := { separator := ' ', fraction := ';' } } []
        "x; é; 1 = ;+2" = .ok (lexemes, log) ∧
      (∀ l ∈ lexemes, l.isRecognized = false → ∀ c ∈ l.text,
        NumericConfig.Unclaimed { separator := ' ', fraction := ';' } c) ∧
      ∀ front c back, "x; é; 1 = ;+2".toList = front ++ c :: back → 0x21 ≤ c.toNat →
        c.toNat ≤ 0x7e → c ≠ ' ' → c ≠ ';' →
          ∃ l ∈ lexemes, l.isRecognized = true ∧ l.start ≤ Encoding.utf8.size front ∧
            Encoding.utf8.size (front ++ [c]) ≤ l.stop :=
  ⟨by decide, scanSource_recognizes { separator := ' ', fraction := ';' } (by decide)
    "x; é; 1 = ;+2"⟩

end CommandLine

end Lexing
