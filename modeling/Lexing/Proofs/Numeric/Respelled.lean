import Lexing.Proofs.Numeric.Integer

/-!
# Literals spelled in another way

A literal means the same without its separators, and in other letter case.

Letter case is a matter of single characters: none of the characters with a
fixed meaning tells a letter from its other case, so the table takes the same
step for both, from everywhere (`advance_toLower`).

Separators are not: one of them takes the table out of its stage and into that
of the digits, where other characters are welcome. So the run over a text and
the run over what is left of it part ways, and come together again only with
the next character. What they have in common all along is everything but the
stage (`Lags`), and whatever the first run can do from the stage of the digits,
the second can do from the stage it has stayed in (`open_of_digit`). That takes
an invariant of the second run: a stage that offers less than the digits do is
reached only with a literal that is not complete, or whose fraction has begun
(`Poised`).
-/

namespace Lexing

/-- **A whole text is a lexeme with a value**: the token takes every character,
is left with a complete lexeme, and decodes that. -/
def Token.Decodes {σ : Type} (token : Token σ) (reserved : Option Reserved) (text : List Char)
    (v : Value) : Prop :=
  ∃ s, token.run (token.fresh reserved) [] text = some s ∧ token.isValid s text = true
    ∧ token.decode? s text = .ok (some v)

namespace Numeric

variable {config : NumericConfig}

/-! ## Letter case -/

/-- **A character in lower case** is the character itself, but for 26 letters. -/
theorem toLower_induction {P : Char → Char → Prop} (hself : ∀ c, P c c)
    (hupper : ∀ k < 26, P (Char.ofNat (0x41 + k)) (Char.ofNat (0x61 + k))) (c : Char) :
    P c c.toLower := by
  have hcases : c.toLower = c
      ∨ ∃ k < 26, c = Char.ofNat (0x41 + k) ∧ c.toLower = Char.ofNat (0x61 + k) := by
    by_cases hlt : c.toNat < 128
    · exact forall_lt_of_ofNat (P := fun c => c.toLower = c
        ∨ ∃ k < 26, c = Char.ofNat (0x41 + k) ∧ c.toLower = Char.ofNat (0x61 + k))
        (by decide +kernel) hlt
    · refine .inl (dif_neg fun hrange => hlt ?_)
      exact lt_of_le_of_lt (UInt32.le_iff_toNat_le.mp hrange.2) (by decide)
  obtain heq | ⟨k, hk, hc, hlower⟩ := hcases
  · rw [heq]
    exact hself c
  · rw [hlower, hc]
    exact hupper k hk

/-- What is no letter is nothing else in lower case. -/
theorem toLower_eq_iff {d : Char} (hd : ¬ d.isAlpha = true) (c : Char) :
    c.toLower = d ↔ c = d := by
  have hletters : ∀ k < 26, (Char.ofNat (0x41 + k)).isAlpha = true
      ∧ (Char.ofNat (0x61 + k)).isAlpha = true := by decide
  refine toLower_induction (P := fun c e => e = d ↔ c = d) (fun _ => Iff.rfl) (fun k hk => ?_) c
  obtain ⟨hupper, hlower⟩ := hletters k hk
  exact iff_of_false (fun h => hd (h ▸ hlower)) (fun h => hd (h ▸ hupper))

theorem digitValue_toLower (c : Char) : digitValue c.toLower = digitValue c :=
  toLower_induction (P := fun c d => digitValue d = digitValue c) (fun _ => rfl) (by decide) c

theorem isDigitIn_toLower (base : Base) (c : Char) :
    isDigitIn base.radix c.toLower = isDigitIn base.radix c := by
  refine toLower_induction (P := fun c d => isDigitIn base.radix d = isDigitIn base.radix c)
    (fun _ => rfl) ?_ c
  cases base <;> decide

/-- No stage tells a letter from its other case. -/
theorem canEnter_toLower (hsep : ¬ config.separator.isAlpha = true)
    (hfrac : ¬ config.fraction.isAlpha = true) (t : Stage) (s : Progress) (c : Char) :
    canEnter config t s c.toLower = canEnter config t s c := by
  cases t with
  | digit =>
    unfold canEnter
    rw [Bool.eq_iff_iff]
    simp only [Bool.or_eq_true, beq_iff_eq, toLower_eq_iff hsep, isDigitIn_toLower]
  | fraction =>
    unfold canEnter
    rw [Bool.eq_iff_iff, beq_iff_eq, beq_iff_eq, toLower_eq_iff hfrac]
  | _ =>
    -- the other stages know their characters, and list both cases
    refine toLower_induction (P := fun c d => canEnter config _ s d = canEnter config _ s c)
      (fun _ => rfl) ?_ c
    dsimp only [canEnter]
    decide

/-- Both cases mean the same. -/
theorem onEnter_toLower (hsep : ¬ config.separator.isAlpha = true) (t : Stage) (s : Progress)
    (c : Char) : onEnter config t s c.toLower = onEnter config t s c := by
  have htwice : c.toLower.toLower = c.toLower :=
    toLower_induction (P := fun c d => d.toLower = c.toLower) (fun _ => rfl) (by decide) c
  unfold onEnter
  cases t with
  | leadDigit | digit => simp only [digitValue_toLower, toLower_eq_iff hsep]
  | sign => simp only [toLower_eq_iff (d := '-') (by decide)]
  | baseSpecifier | widthSpecifier | floatSpecifier => simp only [htwice]
  | _ => rfl

/-- **A step does not depend on letter case.** -/
theorem advance_toLower (hsep : ¬ config.separator.isAlpha = true)
    (hfrac : ¬ config.fraction.isAlpha = true) (s : Progress) (c : Char) :
    (machine config).advance s [] c.toLower = (machine config).advance s [] c := by
  have henter : ∀ t, (machine config).canEnter t s [] c.toLower
      = (machine config).canEnter t s [] c :=
    fun t => canEnter_toLower hsep hfrac t s c
  have hentered : ∀ t, (machine config).enter t s [] c.toLower
      = (machine config).enter t s [] c :=
    fun t => congrArg (fun p : Progress => { p with stage := t }) (onEnter_toLower hsep t s c)
  unfold Machine.advance
  simp only [henter, hentered]

theorem runFrom_toLower (hsep : ¬ config.separator.isAlpha = true)
    (hfrac : ¬ config.fraction.isAlpha = true) (s : Progress) (w : List Char) :
    runFrom config s (w.map Char.toLower) = runFrom config s w := by
  induction w generalizing s with
  | nil => rfl
  | cons c w ih =>
    rw [List.map_cons, runFrom, runFrom, advance_toLower hsep hfrac]
    simp only [ih]

/-! ## Separators -/

/-- A text without its separators. -/
def erased (config : NumericConfig) (w : List Char) : List Char :=
  w.filter (· ≠ config.separator)

/-- **Where separators may come next**: a literal in which digits have still to
come is not complete, and a fraction has left the integers behind. -/
structure Poised (s : Progress) : Prop where
  pending : s.stage ∈ [.start, .baseSpecifier, .sign, .exponent] → s.valid = false
  fractional : s.stage = .fraction → s.part = .fraction ∧ s.type = .unknownFloat

theorem poised_fresh : Poised {} := ⟨fun _ => rfl, nofun⟩

theorem Poised.entered {s : Progress} (hs : Poised s) {t : Stage} (ht : t ∈ s.stage.targets)
    (c : Char) : Poised (entered config t s c) := by
  refine ⟨fun hmem => ?_, ?_⟩
  · replace hmem : t ∈ [.start, .baseSpecifier, .sign, .exponent] := hmem
    simp only [List.mem_cons, List.not_mem_nil, or_false] at hmem
    rcases hmem with rfl | rfl | rfl | rfl
    · cases hst : s.stage <;> simp [hst, Stage.targets] at ht
    · rfl
    · -- a sign stands at the beginning or behind the letter of the exponent
      have hv : s.valid = false := by
        refine hs.pending ?_
        cases hst : s.stage <;> simp [hst, Stage.targets] at ht ⊢
      show (takeSign s _).valid = false
      unfold takeSign
      split <;> exact hv
    · rfl
  · rintro ⟨⟩
    exact ⟨rfl, rfl⟩

/-- **From a stage where digits may come, the stage of the digits offers nothing
new.** -/
theorem open_of_digit {s : Progress} (hs : Poised s) (ho : DigitOpen s) {t : Stage}
    (ht : t ∈ Stage.digit.targets) (ha : allows .digit t s = true) :
    t ∈ s.stage.targets ∧ allows s.stage t s = true := by
  obtain ⟨hopen, hallow⟩ := ho
  simp only [Stage.targets, List.mem_cons, List.not_mem_nil, or_false] at ht
  cases hst : s.stage with
  | leadZero | leadDigit | digit =>
    rcases ht with rfl | rfl | rfl | rfl | rfl | rfl <;> simp_all [Stage.targets, allows]
  | baseSpecifier | exponent | sign =>
    -- the literal is not complete, so there is nothing but digits
    have hv : s.valid = false := hs.pending (by simp [hst])
    obtain rfl : t = .digit := by
      rcases ht with rfl | rfl | rfl | rfl | rfl | rfl <;> simp [allows, hv] at ha ⊢
    exact hst ▸ ⟨hopen, hallow⟩
  | fraction =>
    obtain ⟨hpart, htype⟩ := hs.fractional hst
    rcases ht with rfl | rfl | rfl | rfl | rfl | rfl <;>
      simp_all [Stage.targets, allows]
  | _ => simp [hst, Stage.targets] at hopen

/-- Where a character comes from does not matter. -/
theorem entered_stage (t : Stage) (s : Progress) (st : Stage) (c : Char) :
    entered config t { s with stage := st } c = entered config t s c := by
  cases t with
  | digit => exact entered_digit_stage s st c
  | sign =>
    unfold entered onEnter takeSign
    dsimp only
    split <;> rfl
  | _ => rfl

/-- **One run lags behind another** if it is at the same point, or has stayed
where digits may come while the other has gone on to them. -/
def Lags (s' s : Progress) : Prop :=
  s = s' ∨ DigitOpen s' ∧ s = { s' with stage := .digit }

theorem Lags.separator {s' s : Progress} (h : Lags s' s) (ho : DigitOpen s) :
    Lags s' (entered config .digit s config.separator) := by
  have hentered : entered config .digit s config.separator = { s with stage := .digit } := by
    unfold entered onEnter
    rw [if_pos rfl]
  rw [hentered]
  obtain rfl | ⟨ho', rfl⟩ := h
  · exact .inr ⟨ho, rfl⟩
  · exact .inr ⟨ho', rfl⟩

/-- **The next character brings both runs to the same point.** -/
theorem Lags.step (config : NumericConfig) {s' s : Progress} (h : Lags s' s) (hs' : Poised s')
    {t : Stage} (ht : t ∈ s.stage.targets) (ha : allows s.stage t s = true) (c : Char) :
    (t ∈ s'.stage.targets ∧ allows s'.stage t s' = true)
      ∧ canEnter config t s' c = canEnter config t s c
      ∧ entered config t s' c = entered config t s c := by
  obtain rfl | ⟨ho, rfl⟩ := h
  · exact ⟨⟨ht, ha⟩, rfl, rfl⟩
  · exact ⟨open_of_digit hs' ho ht ha, by cases t <;> rfl, (entered_stage t s' .digit c).symm⟩

/-- **A run without the separators lags behind** the run with them. -/
theorem Lags.runFrom (hc : Separated config) {s' s q : Progress} (h : Lags s' s)
    (hs : Confined s) (hs' : Confined s') (hp : Poised s') {w : List Char}
    (hrun : runFrom config s w = some q) :
    ∃ q', Numeric.runFrom config s' (erased config w) = some q' ∧ Lags q' q := by
  induction w generalizing s s' with
  | nil =>
    obtain rfl := Option.some.inj hrun
    exact ⟨s', rfl, h⟩
  | cons c w ih =>
    obtain ⟨t, ht, ha, he, hw⟩ := (runFrom_cons_iff hc hs).mp hrun
    unfold erased
    by_cases hsep : c = config.separator
    · subst hsep
      obtain rfl : t = .digit := by
        obtain hm | ⟨rfl, -⟩ | ⟨-, heq⟩ := mem_marks_of_canEnter he
        · exact absurd (marks_subset _ _ _ hm) hc.separator_notMem
        · rfl
        · exact absurd heq hc.separator_ne
      rw [List.filter_cons_of_neg (by simp)]
      exact ih (h.separator ⟨ht, ha⟩) (hs.entered ht ha _) hs' hp hw
    · obtain ⟨⟨ht', ha'⟩, hcan, heq⟩ := h.step config hp ht ha c
      rw [List.filter_cons_of_pos (by simpa using hsep),
        runFrom_cons_of_enter hc hs' ht' ha' (hcan ▸ he)]
      exact ih (.inl heq.symm) (hs.entered ht ha c) (hs'.entered ht' ha' c) (hp.entered ht' c) hw

/-- Points that differ in the stage have come to the same literal. -/
theorem Lags.literal (config : NumericConfig) {q' q : Progress} (h : Lags q' q) :
    q'.valid = q.valid ∧ decode config q' = decode config q := by
  obtain rfl | ⟨-, rfl⟩ := h
  · exact ⟨rfl, rfl⟩
  · exact ⟨rfl, rfl⟩

/-! ## Respelled literals -/

theorem decodes_numeric_iff {id : Nat} {reserved : Option Reserved} {w : List Char} {v : Value} :
    (Token.numeric config id).Decodes reserved w v
      ↔ ∃ s, runFrom config {} w = some s ∧ s.valid = true ∧ decode config s = v := by
  unfold Token.Decodes
  simp only [run_numeric, decode?_eq_ok_iff]
  constructor
  · rintro ⟨s, hrun, -, hv, rfl⟩
    exact ⟨s, hrun, hv, rfl⟩
  · rintro ⟨s, hrun, hv, rfl⟩
    exact ⟨s, hrun, hv, hv, rfl⟩

/-- **Separators and letter case do not matter.** A literal without its
separators is a literal of the same value, and so is the literal with any of its
letters in the other case, where no letter is chosen as separator or fraction
character. -/
theorem decodes_respelled (hconfig : config.validate = .ok ()) (id : Nat)
    (reserved : Option Reserved) {w : List Char}
    (hw : (Token.numeric config id).accepts reserved w = true) :
    ∃ v, (Token.numeric config id).Decodes reserved w v
      ∧ (Token.numeric config id).Decodes reserved (erased config w) v
      ∧ (¬ config.separator.isAlpha = true → ¬ config.fraction.isAlpha = true →
          ∀ w' : List Char, w'.map Char.toLower = w.map Char.toLower →
            (Token.numeric config id).Decodes reserved w' v) := by
  have hc := separated_of_validate hconfig
  rw [accepts_numeric, completes_eq, Option.any_eq_true] at hw
  obtain ⟨s, hrun, hv⟩ := hw
  simp only [decodes_numeric_iff]
  refine ⟨decode config s, ⟨s, hrun, hv, rfl⟩, ?_, ?_⟩
  · obtain ⟨s', hrun', hlags⟩ :=
      Lags.runFrom hc (.inl rfl) confined_fresh confined_fresh poised_fresh hrun
    obtain ⟨hvalid, hdecode⟩ := hlags.literal config
    exact ⟨s', hrun', hvalid.trans hv, hdecode⟩
  · intro hsep hfrac w' hcase
    refine ⟨s, ?_, hv, rfl⟩
    rw [← runFrom_toLower hsep hfrac, hcase, runFrom_toLower hsep hfrac, hrun]

/-- Separators in the integral part, behind the fraction character and behind the
sign of the exponent. -/
theorem decodes_respelled_scientific :
    ∃ v, (Token.numeric {} 0).Decodes none "-1'0.'5e-'3D".toList v
      ∧ (Token.numeric {} 0).Decodes none "-10.5e-3D".toList v
      ∧ (Token.numeric {} 0).Decodes none "-1'0.'5E-'3d".toList v := by
  obtain ⟨v, hw, herased, hcase⟩ :=
    @decodes_respelled {} rfl 0 none "-1'0.'5e-'3D".toList (by decide +kernel)
  exact ⟨v, hw, herased, hcase (by decide) (by decide) _ (by decide)⟩

end Numeric

end Lexing
