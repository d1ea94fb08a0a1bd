import Lexing.Proofs.Numeric.Parts

/-!
# Running the table of numeric literals

The point of the table to which a text leads (`runFrom`), with one step of the
run as a choice among the open targets (`runFrom_cons_iff`).

A hexadecimal number can only be in a few stages (`Confined`). A run that
begins at the empty literal keeps to them, so that its steps are unambiguous
all the way.
-/

namespace Lexing.Numeric

variable {config : NumericConfig}

/-- **The point to which a text leads**, if every character is accepted. -/
def runFrom (config : NumericConfig) : Progress → List Char → Option Progress
  | s, [] => some s
  | s, c :: w => ((machine config).advance s [] c).bind (runFrom config · w)

/-- The token never looks at the text that it has read. -/
theorem run_numeric (config : NumericConfig) (id : Nat) (s : Progress) (seen w : List Char) :
    (Token.numeric config id).run s seen w = runFrom config s w := by
  induction w generalizing s seen with
  | nil => rfl
  | cons c w ih =>
    have hstep : (Token.numeric config id).advance s seen c = (machine config).advance s [] c :=
      rfl
    rw [Token.run, runFrom, hstep]
    congr 1
    funext s'
    exact ih s' (seen ++ [c])

theorem completes_eq (config : NumericConfig) (s : Progress) (w : List Char) :
    completes config s w = (runFrom config s w).any (·.valid) := by
  induction w generalizing s with
  | nil => rfl
  | cons c w ih =>
    rw [completes, runFrom]
    cases (machine config).advance s [] c with
    | none => rfl
    | some s' => exact ih s'

theorem runFrom_append (config : NumericConfig) (s : Progress) (v w : List Char) :
    runFrom config s (v ++ w) = (runFrom config s v).bind (runFrom config · w) := by
  induction v generalizing s with
  | nil => rfl
  | cons c v ih =>
    rw [List.cons_append, runFrom, runFrom]
    cases (machine config).advance s [] c with
    | none => rfl
    | some s' => exact ih s'

/-! ## Where hexadecimal numbers can be -/

/-- **The stages of hexadecimal numbers**: behind the letter of the base, digits
and then suffixes. -/
def Confined (s : Progress) : Prop :=
  s.base = .hex →
    s.stage ∈ [.baseSpecifier, .digit, .signSpecifier, .widthSpecifier, .longSpecifier]

theorem confined_of_base {s : Progress} (h : s.base ≠ .hex) : Confined s :=
  fun hb => absurd hb h

theorem Confined.sane {s : Progress} (h : Confined s) : Sane s := by
  intro hb hst
  have hmem := h hb
  revert hmem hst
  cases s.stage <;> simp

/-- A digit changes the numbers and nothing else. -/
theorem exists_takeDigit_eq (s : Progress) (d : Nat) :
    ∃ i f x n, takeDigit s d =
      { s with integral := i, fraction := f, exponent := x, fractionDigits := n } := by
  unfold takeDigit
  split
  · exact ⟨_, s.fraction, s.exponent, s.fractionDigits, rfl⟩
  · exact ⟨s.integral, s.fraction, _, s.fractionDigits, rfl⟩
  · dsimp only
    split
    · exact ⟨s.integral, _, s.exponent, _, rfl⟩
    · exact ⟨s.integral, s.fraction, s.exponent, s.fractionDigits, rfl⟩

/-- Entering the digit stage also settles whether the number is complete. -/
theorem exists_entered_digit_eq (config : NumericConfig) (s : Progress) (c : Char) :
    ∃ v i f x n, entered config .digit s c =
      { s with
        stage := .digit, valid := v, integral := i, fraction := f, exponent := x,
        fractionDigits := n } := by
  unfold entered onEnter
  dsimp only
  split_ifs
  · exact ⟨s.valid, s.integral, s.fraction, s.exponent, s.fractionDigits, rfl⟩
  · obtain ⟨i, f, x, n, h⟩ := exists_takeDigit_eq { s with valid := true } (digitValue c)
    exact ⟨true, i, f, x, n, by rw [h]⟩

/-- Only a leading zero, the letter of a base and the fraction character change
the base. -/
theorem base_entered {t : Stage} (ht : t ∉ [.leadZero, .baseSpecifier, .fraction]) (s : Progress)
    (c : Char) : (entered config t s c).base = s.base := by
  cases t with
  | leadZero | baseSpecifier | fraction => simp at ht
  | digit =>
    obtain ⟨v, i, f, x, n, h⟩ := exists_entered_digit_eq config s c
    rw [h]
  | sign =>
    show (takeSign s _).base = _
    unfold takeSign
    split <;> rfl
  | _ => rfl

/-- **A step leaves a hexadecimal number in its stages.** -/
theorem Confined.entered {s : Progress} (hs : Confined s) {t : Stage} (ht : t ∈ s.stage.targets)
    (ha : allows s.stage t s = true) (c : Char) : Confined (entered config t s c) := by
  intro hb
  by_cases hreset : t ∈ [Stage.leadZero, .baseSpecifier, .fraction]
  · simp only [List.mem_cons, List.not_mem_nil, or_false] at hreset
    rcases hreset with rfl | rfl | rfl
    · exact nomatch hb
    · show Stage.baseSpecifier ∈ _
      simp
    · exact nomatch hb
  · rw [base_entered hreset] at hb
    have hst := hs hb
    show t ∈ _
    simp only [List.mem_cons, List.not_mem_nil, or_false] at hst
    -- from its stages a hexadecimal number goes on to digits and suffixes alone
    rcases hst with hst | hst | hst | hst | hst <;> rw [hst] at ht ha <;>
      simp only [Stage.targets, List.mem_cons, List.not_mem_nil, or_false] at ht
    · simp [ht]
    · rcases ht with rfl | rfl | rfl | rfl | rfl | rfl <;> simp [allows, hb] at ha ⊢
    · simp [ht]
    · rcases ht with rfl | rfl <;> simp
    · simp [ht]

theorem confined_fresh : Confined {} := confined_of_base (by simp)

/-- **One step of a run**, into any open target that the character can enter. -/
theorem runFrom_cons_iff (hc : Separated config) {s s' : Progress} (hs : Confined s) {c : Char}
    {w : List Char} :
    runFrom config s (c :: w) = some s' ↔
      ∃ t ∈ s.stage.targets, allows s.stage t s = true ∧ canEnter config t s c = true
        ∧ runFrom config (entered config t s c) w = some s' := by
  rw [runFrom, Option.bind_eq_some_iff]
  constructor
  · rintro ⟨p, hp, hw⟩
    obtain ⟨t, ht, ha, he, rfl⟩ := (advance_eq_some_iff hc hs.sane).mp hp
    exact ⟨t, ht, ha, he, hw⟩
  · rintro ⟨t, ht, ha, he, hw⟩
    exact ⟨_, (advance_eq_some_iff hc hs.sane).mpr ⟨t, ht, ha, he, rfl⟩, hw⟩

/-- A step into a stage that is open, with a character that can enter it. -/
theorem runFrom_cons_of_enter (hc : Separated config) {s : Progress} (hs : Confined s) {t : Stage}
    {c : Char} (ht : t ∈ s.stage.targets) (ha : allows s.stage t s = true)
    (he : canEnter config t s c = true) (w : List Char) :
    runFrom config s (c :: w) = runFrom config (entered config t s c) w := by
  rw [runFrom, (advance_eq_some_iff hc hs.sane).mpr ⟨t, ht, ha, he, rfl⟩, Option.bind_some]

/-- The same step, to a point that is given. -/
theorem runFrom_step (hc : Separated config) {s s' : Progress} (hs : s.base ≠ .hex) {t : Stage}
    {c : Char} (ht : t ∈ s.stage.targets ∧ allows s.stage t s = true)
    (he : canEnter config t s c = true) (heq : entered config t s c = s') (w : List Char) :
    runFrom config s (c :: w) = runFrom config s' w :=
  heq ▸ runFrom_cons_of_enter hc (confined_of_base hs) ht.1 ht.2 he w

/-- **What every step keeps, every run keeps**, of the points that hexadecimal
numbers leave open. -/
theorem runFrom_induction (hc : Separated config) {P : Progress → Prop}
    (hstep : ∀ s, Confined s → P s → ∀ t ∈ s.stage.targets, allows s.stage t s = true → ∀ c,
      canEnter config t s c = true → P (entered config t s c))
    {s s' : Progress} (hs : Confined s) (hP : P s) {w : List Char}
    (h : runFrom config s w = some s') : Confined s' ∧ P s' := by
  induction w generalizing s with
  | nil =>
    obtain rfl := Option.some.inj h
    exact ⟨hs, hP⟩
  | cons c w ih =>
    obtain ⟨t, ht, ha, he, hw⟩ := (runFrom_cons_iff hc hs).mp h
    exact ih (hs.entered ht ha c) (hstep s hs hP t ht ha c he) hw

theorem Confined.runFrom (hc : Separated config) {s s' : Progress} (hs : Confined s)
    {w : List Char} (h : runFrom config s w = some s') : Confined s' :=
  (runFrom_induction hc (P := fun _ => True) (fun _ _ _ _ _ _ _ _ => trivial) hs trivial h).1

end Lexing.Numeric
