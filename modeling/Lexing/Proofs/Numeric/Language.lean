import Lexing.Proofs.Numeric.Parts

/-!
# The language of numeric literals

The numeric token accepts exactly the texts of `Literal`: a sign or none, and
one of the forms of a literal without sign. What is left after
`Lexing.Proofs.Numeric.Parts` is the beginning of a literal, where the first
character leads to one of three stages, and the leading zero, behind which
most of the forms meet.
-/

namespace Lexing.Numeric

variable {config : NumericConfig}

/-! ## Decimal numbers -/

/-- The fraction character with the fraction behind it. -/
def FractionPart (config : NumericConfig) (w : List Char) : Prop :=
  ∃ ds t, w = config.fraction :: (ds ++ t) ∧ DigitRun config .decimal ds ∧ FractionEnd config t

theorem fractionPart_cons_iff (hc : Separated config) {base : Base} {type : NumberType}
    {s : Progress} (hs : Reads base .integral type s) (hv : s.valid = true) {c : Char}
    {w : List Char} :
    FractionPart config (c :: w)
      ↔ c = config.fraction ∧ completes config (entered config .fraction s c) w = true := by
  rw [completes_entered_fraction hc hs]
  constructor
  · rintro ⟨ds, t, hdt, hds, ht⟩
    obtain ⟨rfl, rfl⟩ := List.cons_eq_cons.mp hdt
    exact ⟨rfl, ds, t, rfl, hds, .inl hv, ht⟩
  · rintro ⟨rfl, ds, t, rfl, hds, -, ht⟩
    exact ⟨ds, t, rfl, hds, ht⟩

/-- What may follow the digits of a decimal number. -/
def DecimalEnd (config : NumericConfig) (w : List Char) : Prop :=
  TypeSuffix .decimal .unknown w ∨ ExponentEnd config .decimal .unknown w
    ∨ FractionPart config w

theorem completes_entered_leadDigit (hc : Separated config) {s : Progress}
    (hs : Reads .decimal .integral .unknown s) (c : Char) {w : List Char} :
    completes config (entered config .leadDigit s c) w = true
      ↔ ∃ ds t, w = ds ++ t ∧ DigitRun config .decimal ds ∧ (t = [] ∨ DecimalEnd config t) := by
  set s' := entered config .leadDigit s c with hs'
  have hreads : Reads .decimal .integral .unknown s' := ⟨hs.1, hs.2, hs.3, hs.4⟩
  have hv : s'.valid = true := rfl
  have hT : ∀ z, Reads .decimal .integral .unknown z → z.stage = .digit → ∀ c w,
      completes config z (c :: w) = true
        ↔ canEnter config .digit z c = true ∧ completes config (entered config .digit z c) w = true
          ∨ z.valid = true ∧ DecimalEnd config (c :: w) := by
    intro z hz hst c w
    rw [completes_digit_cons hc hz hst]
    refine or_congr_right (and_congr_right fun hzv => ?_)
    rw [DecimalEnd, exponentEnd_cons_iff hc hz, fractionPart_cons_iff hc hz hzv]
    simp
  have hfirst : ∀ c w, completes config s' (c :: w) = true
        ↔ canEnter config .digit s' c = true ∧
            completes config (entered config .digit s' c) w = true
          ∨ s'.valid = true ∧ DecimalEnd config (c :: w) := by
    intro c w
    rw [completes_cons_iff hc (fun h => by simp [hreads.base_eq] at h), DecimalEnd, TypeSuffix,
      floatSuffix_cons_iff hc hv, integerSuffix_cons_iff hc hv hreads.type_eq hreads.unsigned_eq,
      exponentEnd_cons_iff hc hreads, fractionPart_cons_iff hc hreads hv,
      show s'.stage = .leadDigit from rfl]
    simp only [Stage.targets, List.exists_mem_cons_iff, List.not_mem_nil, false_and, exists_false,
      or_false, allows, hv, canEnter, decide_eq_true_eq, beq_iff_eq, true_and]
    constructor
    · rintro (h | h | h | h | h | h)
      · exact .inl h
      · exact .inr (.inr (.inr h))
      · exact .inr (.inr (.inl h))
      · exact .inr (.inl (.inr (.inl h)))
      · exact .inr (.inl (.inr (.inr h)))
      · exact .inr (.inl (.inl h))
    · rintro (h | (h | h | h) | h | h)
      · exact .inl h
      · exact .inr (.inr (.inr (.inr (.inr h))))
      · exact .inr (.inr (.inr (.inl h)))
      · exact .inr (.inr (.inr (.inr (.inl h))))
      · exact .inr (.inr (.inl h))
      · exact .inr (.inl h)
  rw [completes_run hc hT hreads hfirst]
  simp only [hv, true_or, true_and]

/-- The digits behind the letter of a base. -/
theorem completes_entered_baseSpecifier (hc : Separated config) {base : Base} {s : Progress}
    (hs : Reads base .integral .unknown s) (c : Char) {w : List Char} :
    completes config (entered config .baseSpecifier s c) w = true
      ↔ ∃ ds t, w = ds ++ t ∧ DigitRun config (if c.toLower = 'b' then .binary else .hex) ds
        ∧ HasDigit (if c.toLower = 'b' then .binary else .hex) ds
        ∧ (t = [] ∨ IntegerSuffix t) := by
  obtain ⟨b, hb⟩ : ∃ b, b = if c.toLower = 'b' then Base.binary else .hex := ⟨_, rfl⟩
  have hdec : b ≠ .decimal := by rw [hb]; split_ifs <;> simp
  set s' := entered config .baseSpecifier s c with hs'
  have hreads : Reads b .integral .unknown s' := ⟨hb.symm, hs.2, hs.3, hs.4⟩
  rw [completes_digits_of_sealed hc (.inl hdec) hreads, ← hb]
  · simp [show s'.valid = false from rfl, TypeSuffix, hdec]
  · intro d w
    rw [completes_cons_iff hc (sane_of_stage (by simp [hs', entered])),
      show s'.stage = .baseSpecifier from rfl]
    simp [Stage.targets, allows, show s'.valid = false from rfl]


/-- The literals of another base than ten and eight, without their zero. -/
def BasedRest (config : NumericConfig) (base : Base) (letters w : List Char) : Prop :=
  ∃ b ds t, w = b :: (ds ++ t) ∧ b ∈ letters ∧ DigitRun config base ds ∧ HasDigit base ds
    ∧ (t = [] ∨ IntegerSuffix t)

theorem basedRest_cons_iff (hc : Separated config) {base : Base} {s : Progress}
    (hs : Reads base .integral .unknown s) {c : Char} {w : List Char} :
    BasedRest config .binary ['b', 'B'] (c :: w) ∨ BasedRest config .hex ['x', 'X'] (c :: w)
      ↔ c ∈ ['b', 'B', 'x', 'X']
        ∧ completes config (entered config .baseSpecifier s c) w = true := by
  rw [completes_entered_baseSpecifier hc hs]
  constructor
  · rintro (⟨b, ds, t, hdt, hb, hrest⟩ | ⟨b, ds, t, hdt, hb, hrest⟩) <;>
      obtain ⟨rfl, rfl⟩ := List.cons_eq_cons.mp hdt <;>
      rcases (by simpa using hb) with rfl | rfl <;>
      exact ⟨by simp, ds, t, rfl, hrest⟩
  · rintro ⟨hb, ds, t, rfl, hrest⟩
    simp only [List.mem_cons, List.not_mem_nil, or_false] at hb
    rcases hb with rfl | rfl | rfl | rfl
    · exact .inl ⟨_, ds, t, rfl, by simp, hrest⟩
    · exact .inl ⟨_, ds, t, rfl, by simp, hrest⟩
    · exact .inr ⟨_, ds, t, rfl, by simp, hrest⟩
    · exact .inr ⟨_, ds, t, rfl, by simp, hrest⟩

/-- **Behind a leading zero** stand octal digits, the letter of a base, or what
may follow a bare zero. -/
theorem completes_entered_leadZero (hc : Separated config) {s : Progress}
    (hs : Reads .decimal .integral .unknown s) (c : Char) {w : List Char} :
    completes config (entered config .leadZero s c) w = true
      ↔ (∃ ds t, w = ds ++ t ∧ DigitRun config .octal ds ∧ (t = [] ∨ IntegerSuffix t))
        ∨ (BasedRest config .binary ['b', 'B'] w ∨ BasedRest config .hex ['x', 'X'] w)
        ∨ FloatSuffix w ∨ ExponentEnd config .octal .unknown w ∨ FractionPart config w := by
  set s' := entered config .leadZero s c with hs'
  have hreads : Reads .octal .integral .unknown s' := ⟨rfl, hs.2, hs.3, hs.4⟩
  have hv : s'.valid = true := rfl
  -- a leading zero opens all that an octal digit opens, and more
  obtain ⟨z, hz⟩ : ∃ z : Progress, z = { s' with stage := .digit } := ⟨_, rfl⟩
  have hzreads : Reads .octal .integral .unknown z := by
    rw [hz]
    exact ⟨hreads.base_eq, hreads.part_eq, hreads.type_eq, hreads.unsigned_eq⟩
  have hzst : z.stage = .digit := by rw [hz]
  have hzv : z.valid = true := by rw [hz]; rfl
  have hoctal : completes config z w = true
      ↔ ∃ ds t, w = ds ++ t ∧ DigitRun config .octal ds ∧ (t = [] ∨ IntegerSuffix t) := by
    rw [completes_digits_of_sealed hc (.inl (by simp)) hzreads
      (completes_digit_cons_of_sealed hc (.inl (by simp)) hzreads hzst)]
    simp [hzv, TypeSuffix]
  rw [← hoctal]
  cases w with
  | nil => exact iff_of_true hv (.inl hzv)
  | cons d w =>
    rw [basedRest_cons_iff hc hreads, floatSuffix_cons_iff hc hv, exponentEnd_cons_iff hc hreads,
      fractionPart_cons_iff hc hreads hv,
      completes_digit_cons_of_sealed hc (.inl (by simp)) hzreads hzst,
      TypeSuffix, integerSuffix_cons_iff hc hv hreads.type_eq hreads.unsigned_eq, hzv, hz,
      entered_digit_stage, completes_cons_iff hc (fun h => by simp [hreads.base_eq] at h),
      show s'.stage = .leadZero from rfl]
    simp only [Stage.targets, List.exists_mem_cons_iff, List.not_mem_nil, false_and, exists_false,
      or_false, allows, canEnter, decide_eq_true_eq, beq_iff_eq, true_and, reduceCtorEq, false_or]
    constructor
    · rintro (h | h | h | h | h | h | h)
      · exact .inr (.inl h)
      · exact .inl (.inl h)
      · exact .inr (.inr (.inr (.inr h)))
      · exact .inr (.inr (.inr (.inl h)))
      · exact .inl (.inr (.inl h))
      · exact .inl (.inr (.inr h))
      · exact .inr (.inr (.inl h))
    · rintro ((h | h | h) | h | h | h | h)
      · exact .inr (.inl h)
      · exact .inr (.inr (.inr (.inr (.inl h))))
      · exact .inr (.inr (.inr (.inr (.inr (.inl h)))))
      · exact .inl h
      · exact .inr (.inr (.inr (.inr (.inr (.inr h)))))
      · exact .inr (.inr (.inr (.inl h)))
      · exact .inr (.inr (.inl h))

theorem exponentSuffix_decimal_iff {negative : Bool} {t : List Char} :
    (t = [] ∨ TypeSuffix .decimal (if negative then .unknownFloat else .unknown) t)
      ↔ (t = [] ∨ FloatSuffix t ∨ negative = false ∧ IntegerSuffix t) := by
  cases negative <;> simp [TypeSuffix]

theorem exponentSuffix_octal_iff {negative : Bool} {t : List Char} :
    (t = [] ∨ TypeSuffix .octal (if negative then .unknownFloat else .unknown) t)
      ↔ (t = [] ∨ negative = false ∧ IntegerSuffix t) := by
  cases negative <;> simp [TypeSuffix]

theorem decimalEnd_of_suffix {t : List Char} (ht : t = [] ∨ IntegerSuffix t ∨ FloatSuffix t) :
    t = [] ∨ DecimalEnd config t :=
  ht.imp_right fun h => .inl (h.symm.imp (⟨rfl, ·⟩) (⟨rfl, ·⟩))

/-- **The first character of a literal without sign** leads to one of three
stages. -/
theorem unsignedLiteral_cons_iff (hc : Separated config) {s : Progress}
    (hs : Reads .decimal .integral .unknown s) (hv : s.valid = false) {c : Char} {w : List Char} :
    UnsignedLiteral config (c :: w)
      ↔ (c = '0' ∧ completes config (entered config .leadZero s c) w = true)
        ∨ (('1' ≤ c ∧ c ≤ '9') ∧ completes config (entered config .leadDigit s c) w = true)
        ∨ (c = config.fraction ∧ completes config (entered config .fraction s c) w = true) := by
  rw [completes_entered_leadZero hc hs, completes_entered_leadDigit hc hs,
    completes_entered_fraction hc hs]
  constructor
  · intro h
    -- each form fixes the first character, and so the stage that is entered
    generalize hy : c :: w = y at h
    cases h with
    | binary hb hds hd ht =>
      obtain ⟨rfl, rfl⟩ := List.cons_eq_cons.mp hy
      exact .inl ⟨rfl, .inr (.inl (.inl ⟨_, _, _, rfl, hb, hds, hd, ht⟩))⟩
    | hex hx hds hd ht =>
      obtain ⟨rfl, rfl⟩ := List.cons_eq_cons.mp hy
      exact .inl ⟨rfl, .inr (.inl (.inr ⟨_, _, _, rfl, hx, hds, hd, ht⟩))⟩
    | octal hds ht =>
      obtain ⟨rfl, rfl⟩ := List.cons_eq_cons.mp hy
      exact .inl ⟨rfl, .inl ⟨_, _, rfl, hds, ht⟩⟩
    | zeroFloat ht =>
      obtain ⟨rfl, rfl⟩ := List.cons_eq_cons.mp hy
      exact .inl ⟨rfl, .inr (.inr (.inl ht))⟩
    | scaledZero hx ht =>
      obtain ⟨rfl, rfl⟩ := List.cons_eq_cons.mp hy
      exact .inl ⟨rfl, .inr (.inr (.inr (.inl
        ⟨_, _, _, rfl, hx, exponentSuffix_octal_iff.mpr ht⟩)))⟩
    | decimal hd hds ht =>
      obtain ⟨rfl, rfl⟩ := List.cons_eq_cons.mp hy
      exact .inr (.inl ⟨hd, _, _, rfl, hds, decimalEnd_of_suffix ht⟩)
    | scaled hd hds hx ht =>
      obtain ⟨rfl, rfl⟩ := List.cons_eq_cons.mp hy
      exact .inr (.inl ⟨hd, _, _, rfl, hds,
        .inr (.inr (.inl ⟨_, _, _, rfl, hx, exponentSuffix_decimal_iff.mpr ht⟩))⟩)
    | fraction hw hds ht =>
      cases hw with
      | zero =>
        obtain ⟨rfl, rfl⟩ := List.cons_eq_cons.mp hy
        exact .inl ⟨rfl, .inr (.inr (.inr (.inr ⟨_, _, rfl, hds, ht⟩)))⟩
      | digits hd hds₀ =>
        obtain ⟨rfl, rfl⟩ := List.cons_eq_cons.mp hy
        exact .inr (.inl ⟨hd, _, _, rfl, hds₀, .inr (.inr (.inr ⟨_, _, rfl, hds, ht⟩))⟩)
    | bareFraction hds hd ht =>
      obtain ⟨rfl, rfl⟩ := List.cons_eq_cons.mp hy
      exact .inr (.inr ⟨rfl, _, _, rfl, hds, .inr hd, ht⟩)
  · rintro (⟨rfl, h⟩ | ⟨hd, ds, t, rfl, hds, h⟩ | ⟨rfl, ds, t, rfl, hds, hd, ht⟩)
    · rcases h with ⟨ds, t, rfl, hds, ht⟩ |
        (⟨b, ds, t, rfl, hb, hds, hd, ht⟩ | ⟨b, ds, t, rfl, hb, hds, hd, ht⟩) | h |
        ⟨negative, x, t, rfl, hx, ht⟩ | ⟨ds, t, rfl, hds, ht⟩
      · exact .octal hds ht
      · exact .binary hb hds hd ht
      · exact .hex hb hds hd ht
      · exact .zeroFloat h
      · exact .scaledZero hx (exponentSuffix_octal_iff.mp ht)
      · exact .fraction .zero hds ht
    · rcases h with rfl | (⟨-, h⟩ | ⟨-, h⟩) | ⟨negative, x, t, rfl, hx, ht⟩ |
        ⟨ds', t, rfl, hds', ht⟩
      · exact .decimal hd hds (.inl rfl)
      · exact .decimal hd hds (.inr (.inr h))
      · exact .decimal hd hds (.inr (.inl h))
      · exact .scaled hd hds hx (exponentSuffix_decimal_iff.mp ht)
      · exact .fraction (.digits hd hds) hds' ht
    · exact .bareFraction hds (hd.resolve_left (by simp [hv])) ht

theorem not_unsignedLiteral_nil : ¬ UnsignedLiteral config [] := by
  intro h
  generalize hy : [] = y at h
  cases h <;> simp at hy

/-- Behind the sign of a literal stands a literal without sign. -/
theorem completes_entered_sign_start (hc : Separated config) (c : Char) {w : List Char} :
    completes config (entered config .sign {} c) w = true ↔ UnsignedLiteral config w := by
  set s' := entered config .sign {} c with hs'
  have hreads : Reads .decimal .integral .unknown s' := ⟨rfl, rfl, rfl, rfl⟩
  cases w with
  | nil => exact iff_of_false Bool.false_ne_true not_unsignedLiteral_nil
  | cons d w =>
    rw [unsignedLiteral_cons_iff hc hreads rfl,
      completes_cons_iff hc (fun h => by simp [hreads.base_eq] at h),
      show s'.stage = .sign from rfl]
    simp [Stage.targets, allows, canEnter, hreads.part_eq]

theorem completes_start_iff (hc : Separated config) {w : List Char} :
    completes config {} w = true ↔ Literal config w := by
  have hliteral : ∀ c w, Literal config (c :: w)
      ↔ UnsignedLiteral config (c :: w) ∨ c ∈ ['+', '-'] ∧ UnsignedLiteral config w := by
    intro c w
    constructor
    · rintro (hw | ⟨hs, hw⟩)
      · exact .inl hw
      · exact .inr ⟨hs, hw⟩
    · rintro (hw | ⟨hs, hw⟩)
      · exact .unsigned hw
      · exact .signed hs hw
  cases w with
  | nil =>
    refine iff_of_false Bool.false_ne_true fun h => ?_
    cases h with
    | unsigned hw => exact not_unsignedLiteral_nil hw
  | cons c w =>
    rw [hliteral, unsignedLiteral_cons_iff (s := {}) hc ⟨rfl, rfl, rfl, rfl⟩ rfl,
      ← completes_entered_sign_start hc c, completes_cons_iff hc (fun h => by simp at h)]
    simp only [Stage.targets, List.exists_mem_cons_iff, List.not_mem_nil, false_and, exists_false,
      or_false, allows, canEnter, decide_eq_true_eq, beq_iff_eq, true_and, Bool.and_eq_true]
    rw [or_assoc, or_assoc, or_comm (a := c ∈ ['+', '-'] ∧ _)]

/-- **The numeric token accepts exactly the numeric literals.** -/
theorem accepts_numeric_iff (h : config.validate = .ok ()) (id : Nat)
    (reserved : Option Reserved) (w : List Char) :
    (Token.numeric config id).accepts reserved w = true ↔ Literal config w := by
  rw [accepts_numeric, completes_start_iff (separated_of_validate h)]

/-- A literal with a sign, separators before and behind the fraction character,
an exponent and a suffix. -/
theorem literal_of_accepts_numeric : ({} : NumericConfig).validate = .ok () ∧
    Literal {} ['+', '1', '\'', '0', '.', '\'', '5', 'e', '-', '3', 'f'] :=
  ⟨rfl, (accepts_numeric_iff rfl 0 none _).mp (by decide +kernel)⟩

end Lexing.Numeric
