import Mathlib.Data.Char
import Mathlib.Data.List.Basic
import Mathlib.Tactic.Common
import Lexing.Proofs.Numeric.Forms

/-!
# One step of the table of numeric literals

The table gives each stage a list of targets, and a character takes the first
open one that it can enter. For the language of the table the order does not
matter: with separators of their own, a character can enter at most one of the
targets that are open together (`pairwise_followers`). So a step is a choice
among alternatives that exclude each other (`advance_eq_some_iff`), and
whether a text completes a literal is said by one equation for each stage
(`completes_cons_iff`).

The only targets that share characters are the hexadecimal digits and the
letters of exponents and suffixes, and these are never open together: a
hexadecimal number is in no stage from which both can be reached (`Sane`).
-/

namespace Lexing.Numeric

variable {config : NumericConfig}

/-! ## Characters with a meaning of their own -/

/-- A property of the characters below a code is one of finitely many. -/
theorem forall_lt_of_ofNat {P : Char → Prop} {n : Nat} (h : ∀ k < n, P (Char.ofNat k))
    {c : Char} (hc : c.toNat < n) : P c :=
  Char.ofNat_toNat c ▸ h c.toNat hc

theorem lt_of_isDigitIn {b : Base} {c : Char} (h : isDigitIn b.radix c = true) :
    c.toNat < 128 := by
  obtain ⟨d, hd⟩ := Option.isSome_iff_exists.mp h
  obtain ⟨hv, -⟩ := Option.filter_eq_some_iff.mp hd
  unfold digitValue? at hv
  split_ifs at hv with h1 h2 h3
  · have hle : c.val ≤ '9'.val := of_decide_eq_true (Bool.and_eq_true_iff.mp h1).2
    exact lt_of_le_of_lt (UInt32.le_iff_toNat_le.mp hle) (by decide)
  · have hle : c.val ≤ 'z'.val := of_decide_eq_true (Bool.and_eq_true_iff.mp h2).2
    exact lt_of_le_of_lt (UInt32.le_iff_toNat_le.mp hle) (by decide)
  · have hle : c.val ≤ 'Z'.val := (of_decide_eq_true h3).2
    exact lt_of_le_of_lt (UInt32.le_iff_toNat_le.mp hle) (by decide)

theorem mem_baseDigits_of_isDigitIn {b : Base} {c : Char} (h : isDigitIn b.radix c = true) :
    c ∈ baseDigits b.radix := by
  have key : ∀ k < 128, isDigitIn b.radix (Char.ofNat k) = true →
      Char.ofNat k ∈ baseDigits b.radix := by
    cases b <;> decide
  exact forall_lt_of_ofNat (P := fun c => isDigitIn b.radix c = true → c ∈ baseDigits b.radix)
    key (lt_of_isDigitIn h) h

/-- **What checking a configuration is good for**: both chosen characters are
free of other meanings, and they differ. -/
structure Separated (config : NumericConfig) : Prop where
  separator_notMem : config.separator ∉ NumericConfig.takenChars
  fraction_notMem : config.fraction ∉ NumericConfig.takenChars
  separator_ne : config.separator ≠ config.fraction

theorem notMem_of_checkChar {role : SeparatorRole} {c : Char}
    (h : NumericConfig.checkChar role c = .ok ()) : c ∉ NumericConfig.takenChars := by
  unfold NumericConfig.checkChar at h
  split_ifs at h with _ hmem
  exact hmem

theorem separated_of_validate (h : config.validate = .ok ()) : Separated config := by
  unfold NumericConfig.validate at h
  cases hs : NumericConfig.checkChar .digit config.separator with
  | error e => simp [hs, bind, Except.bind] at h
  | ok _ =>
    cases hf : NumericConfig.checkChar .fraction config.fraction with
    | error e => simp [hs, hf, bind, Except.bind] at h
    | ok _ =>
      refine ⟨notMem_of_checkChar hs, notMem_of_checkChar hf, fun heq => ?_⟩
      simp only [hs, hf, bind, Except.bind, if_pos heq] at h
      exact nomatch h

/-- The digits of a base. -/
def Base.digits : Base → List Char
  | .binary => ['0', '1']
  | .octal => ['0', '1', '2', '3', '4', '5', '6', '7']
  | .decimal => ['0', '1', '2', '3', '4', '5', '6', '7', '8', '9']
  | .hex => ['0', '1', '2', '3', '4', '5', '6', '7', '8', '9',
      'a', 'b', 'c', 'd', 'e', 'f', 'A', 'B', 'C', 'D', 'E', 'F']

theorem baseDigits_radix (b : Base) : baseDigits b.radix = b.digits := by cases b <;> decide

/-- The characters of fixed meaning that enter a stage. -/
def marks (base : Base) : Stage → List Char
  | .start | .fraction => []
  | .leadZero => ['0']
  | .leadDigit => ['1', '2', '3', '4', '5', '6', '7', '8', '9']
  | .baseSpecifier => ['B', 'X', 'b', 'x']
  | .digit => base.digits
  | .sign => ['+', '-']
  | .exponent => ['E', 'e']
  | .signSpecifier => ['U', 'u']
  | .widthSpecifier => ['I', 'L', 'S', 'i', 'l', 's']
  | .longSpecifier => ['L', 'l']
  | .floatSpecifier => ['D', 'F', 'd', 'f']

theorem mem_marks_digit {b : Base} {c : Char} (h : isDigitIn b.radix c = true) :
    c ∈ marks b .digit := by
  show c ∈ b.digits
  exact baseDigits_radix b ▸ mem_baseDigits_of_isDigitIn h

/-- The chosen characters can be none of these. -/
theorem marks_subset (base : Base) (t : Stage) :
    ∀ c ∈ marks base t, c ∈ NumericConfig.takenChars := by
  have key : ∀ base ∈ [Base.binary, .octal, .decimal, .hex], ∀ t ∈ Stage.all,
      (marks base t).all (· ∈ NumericConfig.takenChars) = true := by decide +kernel
  intro c hc
  have hall := key base (by cases base <;> simp) t (by cases t <;> simp [Stage.all])
  exact of_decide_eq_true (List.all_eq_true.1 hall c hc)

theorem mem_marks_leadDigit {c : Char} (h : '1' ≤ c ∧ c ≤ '9') :
    c ∈ marks .decimal .leadDigit := by
  have key : ∀ k < 128, '1' ≤ Char.ofNat k ∧ Char.ofNat k ≤ '9' →
      Char.ofNat k ∈ marks .decimal .leadDigit := by decide
  exact forall_lt_of_ofNat
    (P := fun c => '1' ≤ c ∧ c ≤ '9' → c ∈ marks .decimal .leadDigit) key
    (lt_of_le_of_lt (UInt32.le_iff_toNat_le.mp h.2) (by decide)) h

/-- **What enters a stage** is one of its marks, or a chosen character. -/
theorem mem_marks_of_canEnter {t : Stage} {s : Progress} {c : Char}
    (h : canEnter config t s c = true) :
    c ∈ marks s.base t ∨ t = .digit ∧ c = config.separator
      ∨ t = .fraction ∧ c = config.fraction := by
  cases t with
  | start => exact absurd h (by simp [canEnter])
  | leadDigit => exact .inl (mem_marks_leadDigit (by simpa [canEnter] using h))
  | digit =>
    have h : c = config.separator ∨ isDigitIn s.base.radix c = true := by
      simpa [canEnter] using h
    rcases h with h | h
    · exact .inr (.inl ⟨rfl, h⟩)
    · exact .inl (mem_marks_digit h)
  | fraction => exact .inr (.inr ⟨rfl, by simpa [canEnter] using h⟩)
  | _ =>
    refine .inl ?_
    simp only [canEnter, decide_eq_true_eq, beq_iff_eq, List.mem_cons, marks] at h ⊢
    grind

/-! ## Targets that are open together -/

/-- The targets of a stage that can be open at all in a base and a part. -/
def followers (base : Base) (part : Part) : Stage → List Stage
  | .sign => if part = .exponent then [.digit] else [.leadZero, .leadDigit, .fraction]
  | .digit =>
    if base = .hex then [.digit, .signSpecifier, .widthSpecifier] else Stage.digit.targets
  | source => source.targets

/-- No hexadecimal number in a stage from which its digits and other letters
can both be reached. -/
def Sane (s : Progress) : Prop :=
  s.base = .hex → s.stage ∉ [.leadZero, .leadDigit, .fraction]

theorem sane_of_stage {s : Progress} (h : s.stage ∉ [Stage.leadZero, .leadDigit, .fraction]) :
    Sane s :=
  fun _ => h

/-- **Targets that are open together share no mark.** -/
theorem pairwise_followers (base : Base) (part : Part) (source : Stage)
    (h : base = .hex → source ∉ [.leadZero, .leadDigit, .fraction]) :
    (followers base part source).Pairwise fun t u =>
      t ≠ u ∧ ∀ c ∈ marks base t, c ∉ marks base u := by
  -- one finite check over all bases, parts and stages
  have key : ∀ base ∈ [Base.binary, .octal, .decimal, .hex],
      ∀ part ∈ [Part.integral, .fraction, .exponent], ∀ source ∈ Stage.all,
      (base = .hex → source ∉ [.leadZero, .leadDigit, .fraction]) →
      (followers base part source).Pairwise fun t u =>
        t ≠ u ∧ (marks base t).all (· ∉ marks base u) = true := by
    decide +kernel
  have hpairwise := key base (by cases base <;> simp) part (by cases part <;> simp) source
    (by cases source <;> simp [Stage.all]) h
  refine hpairwise.imp fun {t u} htu => ⟨htu.1, fun c hc => ?_⟩
  exact of_decide_eq_true (List.all_eq_true.1 htu.2 c hc)

theorem openTargets_sublist (s : Progress) :
    ((machine config).openTargets s).Sublist (followers s.base s.part s.stage) := by
  show (s.stage.targets.filter fun t => allows s.stage t s).Sublist _
  cases hst : s.stage with
  | sign =>
    cases hp : s.part <;> simp [followers, Stage.targets, allows, hp]
  | digit =>
    by_cases hb : s.base = .hex
    · cases hv : s.valid <;> simp [followers, Stage.targets, allows, hb, hv]
    · rw [followers, if_neg hb]
      exact List.filter_sublist
  | _ => exact List.filter_sublist

/-- Where elements exclude each other, the first with a property is the only
one. -/
theorem find?_eq_some_iff_of_pairwise {α : Type} {p : α → Bool} {l : List α} {a : α}
    (h : l.Pairwise fun a b => ¬ (p a = true ∧ p b = true)) :
    l.find? p = some a ↔ a ∈ l ∧ p a = true := by
  induction l with
  | nil => simp
  | cons b l ih =>
    obtain ⟨hb, hl⟩ := List.pairwise_cons.mp h
    by_cases hp : p b = true
    · rw [List.find?_cons_of_pos hp, Option.some.injEq, List.mem_cons]
      constructor
      · rintro rfl
        exact ⟨.inl rfl, hp⟩
      · rintro ⟨rfl | ha, hpa⟩
        · rfl
        · exact absurd ⟨hp, hpa⟩ (hb a ha)
    · rw [List.find?_cons_of_neg hp, ih hl, List.mem_cons]
      constructor
      · exact fun ⟨ha, hpa⟩ => ⟨.inr ha, hpa⟩
      · rintro ⟨rfl | ha, hpa⟩
        · exact absurd hpa hp
        · exact ⟨ha, hpa⟩

theorem not_canEnter_both (hc : Separated config) {s : Progress} {t u : Stage} {c : Char}
    (htu : t ≠ u ∧ ∀ c ∈ marks s.base t, c ∉ marks s.base u) :
    ¬ (canEnter config t s c = true ∧ canEnter config u s c = true) := by
  rintro ⟨ht, hu⟩
  have hsep : ∀ t, config.separator ∉ marks s.base t :=
    fun t h => hc.separator_notMem (marks_subset s.base t _ h)
  have hfrac : ∀ t, config.fraction ∉ marks s.base t :=
    fun t h => hc.fraction_notMem (marks_subset s.base t _ h)
  rcases mem_marks_of_canEnter ht with ht | ⟨rfl, rfl⟩ | ⟨rfl, rfl⟩ <;>
    rcases mem_marks_of_canEnter hu with hm | ⟨rfl, hcu⟩ | ⟨rfl, hcu⟩
  · exact htu.2 c ht hm
  · exact hsep t (hcu ▸ ht)
  · exact hfrac t (hcu ▸ ht)
  · exact hsep u hm
  · exact htu.1 rfl
  · exact hc.separator_ne hcu
  · exact hfrac u hm
  · exact hc.separator_ne hcu.symm
  · exact htu.1 rfl

/-! ## Steps -/

/-- Entering a stage from anywhere. -/
def entered (config : NumericConfig) (t : Stage) (s : Progress) (c : Char) : Progress :=
  { onEnter config t s c with stage := t }

/-- **A step of the table**: into any open target that the character can
enter. -/
theorem advance_eq_some_iff (hc : Separated config) {s s' : Progress} (hs : Sane s) {c : Char} :
    (machine config).advance s [] c = some s' ↔
      ∃ t ∈ s.stage.targets, allows s.stage t s = true ∧ canEnter config t s c = true
        ∧ entered config t s c = s' := by
  have hpw : ((machine config).openTargets s).Pairwise fun t u =>
      ¬ (canEnter config t s c = true ∧ canEnter config u s c = true) :=
    ((pairwise_followers s.base s.part s.stage hs).sublist (openTargets_sublist s)).imp
      fun htu => not_canEnter_both hc htu
  have hmem : ∀ t, t ∈ (machine config).openTargets s
      ↔ t ∈ s.stage.targets ∧ allows s.stage t s = true := fun t => List.mem_filter
  rw [Machine.advance, Option.map_eq_some_iff]
  constructor
  · rintro ⟨t, ht, rfl⟩
    obtain ⟨ho, he⟩ := (find?_eq_some_iff_of_pairwise hpw).mp ht
    obtain ⟨hm, ha⟩ := (hmem t).mp ho
    exact ⟨t, hm, ha, he, rfl⟩
  · rintro ⟨t, hm, ha, he, rfl⟩
    exact ⟨t, (find?_eq_some_iff_of_pairwise hpw).mpr ⟨(hmem t).mpr ⟨hm, ha⟩, he⟩, rfl⟩

/-- **Whether a text completes a literal** from a point of the table on: every
character is accepted, and the last leaves a complete literal. -/
def completes (config : NumericConfig) : Progress → List Char → Bool
  | s, [] => s.valid
  | s, c :: w => ((machine config).advance s [] c).any (completes config · w)

/-- The token starts from the empty literal and never looks at the text that
it has read. -/
theorem accepts_numeric (config : NumericConfig) (id : Nat) (reserved : Option Reserved)
    (w : List Char) :
    (Token.numeric config id).accepts reserved w = completes config {} w := by
  have key : ∀ (w : List Char) (s : Progress) (seen all : List Char),
      ((Token.numeric config id).run s seen w).any ((Token.numeric config id).isValid · all)
        = completes config s w := by
    intro w
    induction w with
    | nil => exact fun _ _ _ => rfl
    | cons c w ih =>
      intro s seen all
      have hstep : (Token.numeric config id).advance s seen c = (machine config).advance s [] c :=
        rfl
      rw [Token.run, completes, hstep]
      cases (machine config).advance s [] c with
      | none => rfl
      | some s' => exact ih s' (seen ++ [c]) all
  exact key w {} [] w

/-- **One equation for each stage.** -/
theorem completes_cons_iff (hc : Separated config) {s : Progress} (hs : Sane s) {c : Char}
    {w : List Char} :
    completes config s (c :: w) = true ↔
      ∃ t ∈ s.stage.targets, allows s.stage t s = true ∧ canEnter config t s c = true
        ∧ completes config (entered config t s c) w = true := by
  rw [completes, Option.any_eq_true]
  constructor
  · rintro ⟨s', hs', hw⟩
    obtain ⟨t, ht, ha, he, rfl⟩ := (advance_eq_some_iff hc hs).mp hs'
    exact ⟨t, ht, ha, he, hw⟩
  · rintro ⟨t, ht, ha, he, hw⟩
    exact ⟨_, (advance_eq_some_iff hc hs).mpr ⟨t, ht, ha, he, rfl⟩, hw⟩

end Lexing.Numeric
