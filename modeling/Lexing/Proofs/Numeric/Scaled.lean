import Lexing.Proofs.Numeric.Written

/-!
# Which exponents may follow

An exponent may stand behind every integer in decimal digits, behind a bare zero
and behind every fraction, and its digits are meant to be decimal. They are not
everywhere. The table admits them by the base in force, a leading zero makes
that the octal one, and of all that may follow only the fraction character
brings the decimal base back.

So exactly one of these literals is an exception (`accepts_scaled_iff`): `0e9`
is no literal, although `1e9`, `0.e9` and `0e7` are.
-/

namespace Lexing.Numeric

variable {config : NumericConfig}

/-- **The literals that an exponent may follow**, without their sign: decimal
digits or a bare zero, and fractions. -/
inductive Mantissa (config : NumericConfig) : List Char → Prop
  | whole {w : List Char} (hw : Whole config w) : Mantissa config w
  | fraction {w ds : List Char} (hw : Whole config w) (hds : DigitRun config .decimal ds) :
      Mantissa config (w ++ config.fraction :: ds)
  | bareFraction {ds : List Char} (hds : DigitRun config .decimal ds)
      (hd : HasDigit .decimal ds) : Mantissa config (config.fraction :: ds)

/-- The base of an exponent behind a literal. -/
def exponentBase (w : List Char) : Base := if w = ['0'] then .octal else .decimal

theorem exponentBase_of_ne {w : List Char} (h : w ≠ ['0']) : exponentBase w = .decimal := if_neg h

/-! ## What is a literal -/

/-- Such a literal is one on its own. -/
theorem Mantissa.unsignedLiteral {w : List Char} (h : Mantissa config w) :
    UnsignedLiteral config w := by
  cases h with
  | whole hw =>
    cases hw with
    | zero => exact .octal (digitRun_nil _ _) (.inl rfl)
    | @digits d ds hd hds =>
      have hdecimal := UnsignedLiteral.decimal hd hds (.inl rfl)
      rwa [List.append_nil] at hdecimal
  | @fraction w ds hw hds =>
    have hfraction := UnsignedLiteral.fraction hw hds .bare
    rwa [List.append_nil] at hfraction
  | @bareFraction ds hds hd =>
    have hfraction := UnsignedLiteral.bareFraction hds hd .bare
    rwa [List.append_nil] at hfraction

/-- **Behind such a literal an exponent may stand**, of the base that is in
force. -/
theorem Mantissa.scaled {w x : List Char} {negative : Bool} (h : Mantissa config w)
    (hx : Exponent config (exponentBase w) negative x) : UnsignedLiteral config (w ++ x) := by
  cases h with
  | whole hw =>
    cases hw with
    | zero =>
      have hscaled := UnsignedLiteral.scaledZero hx (.inl rfl)
      rwa [List.append_nil] at hscaled
    | @digits d ds hd hds =>
      have hne : d :: ds ≠ ['0'] := by
        rintro ⟨⟩
        exact absurd hd.1 (by decide)
      rw [exponentBase_of_ne hne] at hx
      have hscaled := UnsignedLiteral.scaled hd hds hx (.inl rfl)
      rwa [List.append_nil] at hscaled
  | @fraction w ds hw hds =>
    have hne : w ++ config.fraction :: ds ≠ ['0'] := by
      cases hw <;> simp
    rw [exponentBase_of_ne hne] at hx
    have hscaled := UnsignedLiteral.fraction hw hds (.exponent hx (.inl rfl))
    rw [List.append_nil] at hscaled
    rwa [List.append_assoc]
  | @bareFraction ds hds hd =>
    have hne : config.fraction :: ds ≠ ['0'] := by
      intro heq
      obtain ⟨-, rfl⟩ := List.cons_eq_cons.mp heq
      exact not_hasDigit_nil _ hd
    rw [exponentBase_of_ne hne] at hx
    have hscaled := UnsignedLiteral.bareFraction hds hd (.exponent hx (.inl rfl))
    rwa [List.append_nil] at hscaled

/-! ## What is none -/

/-- A suffix has no digits. -/
theorem not_isDigit_of_mem_suffix {t : List Char} (ht : IntegerSuffix t ∨ FloatSuffix t) {c : Char}
    (hc : c ∈ t) : ¬ c.isDigit = true := by
  have hwidth : ∀ w, WidthSuffix w → ∀ c ∈ w, c ∈ ['i', 'I', 'l', 'L', 's', 'S'] := by
    intro w hw c hc
    cases hw with
    | single hd => exact List.mem_singleton.mp hc ▸ hd
    | long hd he =>
      simp only [List.mem_cons, List.not_mem_nil, or_false] at hc hd he ⊢
      grind
  have hletter : c ∈ ['u', 'U', 'i', 'I', 'l', 'L', 's', 'S', 'f', 'F', 'd', 'D'] := by
    obtain ht | ht := ht
    · cases ht with
      | unsigned hu => grind
      | width hw => grind
      | unsignedWidth hu hw => grind
      | widthUnsigned hw hu => grind
    · cases ht with
      | intro hd => grind
  have key : ∀ c ∈ ['u', 'U', 'i', 'I', 'l', 'L', 's', 'S', 'f', 'F', 'd', 'D'],
      ¬ c.isDigit = true := by simp
  exact key c hletter

/-- The digits in a run are of its base. -/
theorem isDigitIn_of_mem_run (hc : Separated config) {base : Base} {ds : List Char}
    (hds : DigitRun config base ds) {c : Char} (hmem : c ∈ ds) (hd : c.isDigit = true) :
    isDigitIn base.radix c = true :=
  (hds c hmem).resolve_left (ne_separator_of_isDigit hc hd)

/-- The digits in an exponent are of its base. -/
theorem isDigitIn_of_mem_exponent (hc : Separated config) {base : Base} {negative : Bool}
    {x : List Char} (hx : Exponent config base negative x) {c : Char} (hmem : c ∈ x)
    (hd : c.isDigit = true) : isDigitIn base.radix c = true := by
  have hmark : ∀ c ∈ ['e', 'E', '+', '-'], ¬ c.isDigit = true := by simp
  cases hx with
  | plain he hds =>
    obtain rfl | hmem := List.mem_cons.mp hmem
    · exact absurd hd (hmark _ (by grind))
    · exact isDigitIn_of_mem_run hc hds hmem hd
  | positive he hds | negative he hds =>
    obtain rfl | hmem := List.mem_cons.mp hmem
    · exact absurd hd (hmark _ (by grind))
    obtain rfl | hmem := List.mem_cons.mp hmem
    · exact absurd hd (hmark _ (by grind))
    · exact isDigitIn_of_mem_run hc hds hmem hd

/-- The fraction character is none of the grammar's own. -/
theorem ne_fraction_of_taken (hc : Separated config) {c : Char}
    (h : c ∈ NumericConfig.takenChars) : c ≠ config.fraction := by
  rintro rfl
  exact hc.fraction_notMem h

/-- **Behind a bare zero the digits of an exponent are octal**, wherever the
exponent ends. -/
theorem isDigitIn_of_scaledZero (hc : Separated config) {y : List Char}
    (h : UnsignedLiteral config ('0' :: 'e' :: y)) {c : Char} (hmem : c ∈ y)
    (hd : c.isDigit = true) : isDigitIn Base.octal.radix c = true := by
  generalize hz : '0' :: 'e' :: y = z at h
  cases h with
  | binary hb =>
    obtain ⟨-, hz⟩ := List.cons_eq_cons.mp hz
    obtain ⟨rfl, -⟩ := List.cons_eq_cons.mp hz
    exact absurd hb (by decide)
  | hex hb =>
    obtain ⟨-, hz⟩ := List.cons_eq_cons.mp hz
    obtain ⟨rfl, -⟩ := List.cons_eq_cons.mp hz
    exact absurd hb (by decide)
  | @octal ds t hds ht =>
    obtain ⟨-, hz⟩ := List.cons_eq_cons.mp hz
    have hmem : c ∈ ds ++ t := hz ▸ List.mem_cons_of_mem _ hmem
    obtain hmem | hmem := List.mem_append.mp hmem
    · exact isDigitIn_of_mem_run hc hds hmem hd
    · obtain rfl | ht := ht
      · exact absurd hmem List.not_mem_nil
      · exact absurd hd (not_isDigit_of_mem_suffix (.inl ht) hmem)
  | zeroFloat ht =>
    obtain ⟨-, rfl⟩ := List.cons_eq_cons.mp hz
    exact absurd hd (not_isDigit_of_mem_suffix (.inr ht) (List.mem_cons_of_mem _ hmem))
  | decimal hfirst =>
    obtain ⟨rfl, -⟩ := List.cons_eq_cons.mp hz
    exact absurd hfirst.1 (by decide)
  | scaled hfirst =>
    obtain ⟨rfl, -⟩ := List.cons_eq_cons.mp hz
    exact absurd hfirst.1 (by decide)
  | fraction hw =>
    cases hw with
    | zero =>
      obtain ⟨-, hz⟩ := List.cons_eq_cons.mp hz
      exact absurd (List.cons_eq_cons.mp hz).1 (ne_fraction_of_taken hc (by decide))
    | digits hfirst =>
      obtain ⟨rfl, -⟩ := List.cons_eq_cons.mp hz
      exact absurd hfirst.1 (by decide)
  | bareFraction =>
    exact absurd (List.cons_eq_cons.mp hz).1 (ne_fraction_of_taken hc (by decide))
  | @scaledZero negative x t hx ht =>
    obtain ⟨-, hz⟩ := List.cons_eq_cons.mp hz
    have hmem : c ∈ x ++ t := hz ▸ List.mem_cons_of_mem _ hmem
    obtain hmem | hmem := List.mem_append.mp hmem
    · exact isDigitIn_of_mem_exponent hc hx hmem hd
    · obtain rfl | ⟨-, ht⟩ := ht
      · exact absurd hmem List.not_mem_nil
      · exact absurd hd (not_isDigit_of_mem_suffix (.inl ht) hmem)

/-! ## Signs -/

/-- A sign begins no literal without sign. -/
theorem not_unsignedLiteral_sign (hc : Separated config) {c : Char} (h : c ∈ ['+', '-'])
    (w : List Char) : ¬ UnsignedLiteral config (c :: w) := by
  intro hw
  rw [unsignedLiteral_cons_iff (s := {}) hc ⟨rfl, rfl, rfl, rfl⟩ rfl] at hw
  have htaken : c ∈ NumericConfig.takenChars := marks_subset .decimal .sign c h
  obtain ⟨rfl, -⟩ | ⟨hfirst, -⟩ | ⟨hfraction, -⟩ := hw
  · exact absurd h (by decide)
  · have key : ∀ c ∈ ['+', '-'], ¬ ('1' ≤ c ∧ c ≤ '9') := by simp
    exact key c h hfirst
  · exact ne_fraction_of_taken hc htaken hfraction

/-- A sign in front of a literal without one makes no difference. -/
theorem literal_sign_iff (hc : Separated config) {sign : List Char}
    (hsign : sign ∈ [[], ['+'], ['-']]) {c : Char} (hfirst : c ∉ ['+', '-']) (w : List Char) :
    Literal config (sign ++ c :: w) ↔ UnsignedLiteral config (c :: w) := by
  have hsigned (d : Char) (hd : d ∈ ['+', '-']) :
      Literal config (d :: c :: w) ↔ UnsignedLiteral config (c :: w) := by
    constructor
    · intro h
      generalize hy : d :: c :: w = y at h
      cases h with
      | unsigned h => exact absurd (hy ▸ h) (not_unsignedLiteral_sign hc hd (c :: w))
      | signed _ h =>
        obtain ⟨-, rfl⟩ := List.cons_eq_cons.mp hy
        exact h
    · exact .signed hd
  simp only [List.mem_cons, List.not_mem_nil, or_false] at hsign
  obtain rfl | rfl | rfl := hsign
  · refine ⟨fun h => ?_, .unsigned⟩
    rw [List.nil_append] at h
    cases h with
    | unsigned h => exact h
    | signed hd => exact absurd hd hfirst
  · exact hsigned '+' (by simp)
  · exact hsigned '-' (by simp)

theorem Mantissa.exists_cons (hc : Separated config) {w : List Char} (h : Mantissa config w) :
    ∃ c v, w = c :: v ∧ c ∉ ['+', '-'] := by
  cases w with
  | nil => exact absurd h.unsignedLiteral not_unsignedLiteral_nil
  | cons c v =>
    exact ⟨c, v, rfl, fun hsign => not_unsignedLiteral_sign hc hsign v h.unsignedLiteral⟩

/-! ## Exponents -/

/-- **The digits of an exponent are those of the base in force**, with a minus in
front or without. -/
theorem literal_scaled_iff (hc : Separated config) {sign w d : List Char}
    (hsign : sign ∈ [[], ['+'], ['-']]) (hw : Mantissa config w) (hne : d ≠ [])
    (hdigits : ∀ c ∈ d, c.isDigit = true) {minus : List Char} (hminus : minus ∈ [[], ['-']]) :
    Literal config (sign ++ w ++ 'e' :: (minus ++ d)) ↔
      ∀ c ∈ d, isDigitIn (exponentBase w).radix c = true := by
  obtain ⟨first, v, hfirst, hplain⟩ := hw.exists_cons hc
  rw [List.append_assoc, hfirst, List.cons_append, literal_sign_iff hc hsign hplain,
    ← List.cons_append, ← hfirst]
  constructor
  · intro h c hmem
    have hd := hdigits c hmem
    by_cases hzero : w = ['0']
    · rw [hzero] at h ⊢
      exact isDigitIn_of_scaledZero hc h (List.mem_append_right _ hmem) hd
    · rw [exponentBase_of_ne hzero]
      exact (isDigitIn_of_isDigit hd).1
  · intro h
    have hrun : DigitRun config (exponentBase w) d := fun c hmem => .inr (h c hmem)
    have hsome : HasDigit (exponentBase w) d := by
      obtain ⟨c, hmem⟩ := List.exists_mem_of_ne_nil d hne
      exact ⟨c, hmem, h c hmem⟩
    simp only [List.mem_cons, List.not_mem_nil, or_false] at hminus
    obtain rfl | rfl := hminus
    · exact hw.scaled (.plain (by simp) hrun hsome)
    · exact hw.scaled (.negative (by simp) hrun hsome)

/-- **Exponents are decimal, except behind a bare zero.** Let a literal be decimal
digits, a bare zero or a fraction, with a sign or without, and let some decimal
digits be given. The literal is accepted, and with `e` or `e-` and the digits
behind it, it is accepted just as well unless it is the bare zero: there the
digits have to be octal ones. -/
theorem accepts_scaled_iff (h : config.validate = .ok ()) (id : Nat) (reserved : Option Reserved)
    {sign w d : List Char} (hsign : sign ∈ [[], ['+'], ['-']]) (hw : Mantissa config w)
    (hne : d ≠ []) (hdigits : ∀ c ∈ d, c.isDigit = true) :
    (Token.numeric config id).accepts reserved (sign ++ w) = true
      ∧ ((Token.numeric config id).accepts reserved (sign ++ w ++ 'e' :: d) = true
          ↔ (w = ['0'] → ∀ c ∈ d, isDigitIn Base.octal.radix c = true))
      ∧ ((Token.numeric config id).accepts reserved (sign ++ w ++ 'e' :: '-' :: d) = true
          ↔ (w = ['0'] → ∀ c ∈ d, isDigitIn Base.octal.radix c = true)) := by
  have hc := separated_of_validate h
  have hbase : (∀ c ∈ d, isDigitIn (exponentBase w).radix c = true)
      ↔ (w = ['0'] → ∀ c ∈ d, isDigitIn Base.octal.radix c = true) := by
    by_cases hzero : w = ['0']
    · rw [hzero]
      exact ⟨fun h _ => h, fun h => h rfl⟩
    · rw [exponentBase_of_ne hzero]
      exact iff_of_true (fun c hmem => (isDigitIn_of_isDigit (hdigits c hmem)).1)
        fun hyes => absurd hyes hzero
  simp only [accepts_numeric, completes_start_iff hc]
  refine ⟨?_, ?_, ?_⟩
  · obtain ⟨first, v, rfl, hplain⟩ := hw.exists_cons hc
    exact (literal_sign_iff hc hsign hplain v).mpr hw.unsignedLiteral
  · rw [← hbase]
    have hplain : [] ∈ [[], ['-']] := by simp
    exact literal_scaled_iff hc hsign hw hne hdigits hplain
  · rw [← hbase]
    have hminus : ['-'] ∈ [[], ['-']] := by simp
    exact literal_scaled_iff hc hsign hw hne hdigits hminus

/-- A bare zero with an octal exponent. -/
theorem accepts_scaled_zero :
    (Token.numeric {} 0).accepts none ['-', '0'] = true
      ∧ ((Token.numeric {} 0).accepts none ['-', '0', 'e', '1', '7'] = true
          ↔ (['0'] = ['0'] → ∀ c ∈ ['1', '7'], isDigitIn Base.octal.radix c = true))
      ∧ ((Token.numeric {} 0).accepts none ['-', '0', 'e', '-', '1', '7'] = true
          ↔ (['0'] = ['0'] → ∀ c ∈ ['1', '7'], isDigitIn Base.octal.radix c = true)) :=
  accepts_scaled_iff rfl 0 none (show ['-'] ∈ [[], ['+'], ['-']] by simp) (.whole .zero) (by simp)
    (by simp)

/-- **Not every decimal exponent may stand behind a bare zero**: `0` is accepted,
and `0e9` is not. -/
theorem not_forall_accepts_scaled :
    ¬ ∀ {config : NumericConfig} {w d : List Char}, config.validate = .ok () →
        Mantissa config w → (Token.numeric config 0).accepts none w = true → d ≠ [] →
        (∀ c ∈ d, c.isDigit = true) →
        (Token.numeric config 0).accepts none (w ++ 'e' :: d) = true := by
  intro hall
  have haccepts : (Token.numeric {} 0).accepts none ['0', 'e', '9'] = true :=
    @hall {} ['0'] ['9'] rfl (.whole .zero) (by decide +kernel) (by simp) (by simp)
  exact absurd haccepts (by decide +kernel)

end Lexing.Numeric
