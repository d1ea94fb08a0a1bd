import Lexing.Proofs.Numeric.Step

/-!
# The parts of a numeric literal

What the table accepts from one of its stages on, from the end of a literal
towards its start: the suffixes, the digits of an exponent, the digits of a
fraction. Each statement has the same form: from a point with certain facts
remembered (`Reads`), a text completes the literal exactly if it is written in
a certain form. The numbers that the digits add up to take no part in this.

All runs of digits are read by one argument (`completes_run`): a run goes on
over digits and separators, and is closed, once the number is complete, by
whatever the place admits there.
-/

namespace Lexing.Numeric

variable {config : NumericConfig}

/-! ## Suffixes -/

/-- Nothing, or the suffix for a number without sign where it has not been
written yet. -/
def SignEnd (unsigned : Bool) (w : List Char) : Prop :=
  w = [] ∨ unsigned = false ∧ ∃ u ∈ ['u', 'U'], w = [u]

theorem completes_floatSpecifier (hc : Separated config) {s : Progress}
    (hs : s.stage = .floatSpecifier) (hv : s.valid = true) {w : List Char} :
    completes config s w = true ↔ w = [] := by
  cases w with
  | nil => simpa [completes] using hv
  | cons c w =>
    rw [completes_cons_iff hc (sane_of_stage (by simp [hs]))]
    simp [hs, Stage.targets]

/-- Behind a width and a sign suffix nothing follows. -/
theorem completes_signSpecifier_of_type (hc : Separated config) {s : Progress}
    (hs : s.stage = .signSpecifier) (hv : s.valid = true) (ht : s.type ≠ .unknown)
    {w : List Char} : completes config s w = true ↔ w = [] := by
  cases w with
  | nil => simpa [completes] using hv
  | cons c w =>
    rw [completes_cons_iff hc (sane_of_stage (by simp [hs]))]
    simp [hs, Stage.targets, allows, ht]

theorem completes_longSpecifier (hc : Separated config) {s : Progress}
    (hs : s.stage = .longSpecifier) (hv : s.valid = true) (ht : s.type ≠ .unknown)
    {w : List Char} : completes config s w = true ↔ SignEnd s.unsigned w := by
  cases w with
  | nil => simpa [completes, SignEnd] using hv
  | cons c w =>
    have hsign : completes config (entered config .signSpecifier s c) w = true ↔ w = [] :=
      completes_signSpecifier_of_type (s := entered config .signSpecifier s c) hc rfl hv ht
    rw [completes_cons_iff hc (sane_of_stage (by simp [hs]))]
    simp [hs, Stage.targets, allows, canEnter, hsign, SignEnd]
    grind

theorem type_entered_widthSpecifier (s : Progress) (c : Char) :
    (entered config .widthSpecifier s c).type ≠ .unknown := by
  show (if c.toLower = 's' then NumberType.byte
    else if c.toLower = 'i' then .short else .int) ≠ .unknown
  split_ifs <;> simp

theorem type_entered_widthSpecifier_eq_int {s : Progress} {c : Char}
    (hcw : c ∈ ['i', 'I', 'l', 'L', 's', 'S']) :
    (entered config .widthSpecifier s c).type = .int ↔ c ∈ ['l', 'L'] := by
  show (if c.toLower = 's' then NumberType.byte
    else if c.toLower = 'i' then .short else .int) = .int ↔ _
  simp only [List.mem_cons, List.not_mem_nil, or_false] at hcw
  rcases hcw with rfl | rfl | rfl | rfl | rfl | rfl <;> decide

/-- **A width in its two lengths**, and a sign suffix or none behind it. -/
theorem completes_entered_widthSpecifier (hc : Separated config) {s : Progress}
    (hv : s.valid = true) {c : Char} (hcw : c ∈ ['i', 'I', 'l', 'L', 's', 'S']) {w : List Char} :
    completes config (entered config .widthSpecifier s c) w = true
      ↔ ∃ x v, c :: w = x ++ v ∧ WidthSuffix x ∧ SignEnd s.unsigned v := by
  set s' := entered config .widthSpecifier s c with hs'
  have ht : s'.type ≠ .unknown := type_entered_widthSpecifier s c
  have hint : s'.type = .int ↔ c ∈ ['l', 'L'] := type_entered_widthSpecifier_eq_int hcw
  -- a second letter must repeat an `l`; a sign suffix is still open if it has
  -- not been written in front
  have hcons : ∀ d w, completes config s' (d :: w) = true
      ↔ (c ∈ ['l', 'L'] ∧ d ∈ ['l', 'L'] ∧ SignEnd s.unsigned w)
        ∨ (s.unsigned = false ∧ d ∈ ['u', 'U'] ∧ w = []) := by
    intro d w
    have hsign : completes config (entered config .signSpecifier s' d) w = true ↔ w = [] :=
      completes_signSpecifier_of_type (s := entered config .signSpecifier s' d) hc rfl hv ht
    have hlong : completes config (entered config .longSpecifier s' d) w = true
        ↔ SignEnd s.unsigned w :=
      completes_longSpecifier (s := entered config .longSpecifier s' d) hc rfl hv
        (by simp [entered, onEnter])
    have hun : s'.unsigned = s.unsigned := rfl
    rw [completes_cons_iff hc (sane_of_stage (by simp [hs', entered])),
      show s'.stage = .widthSpecifier from rfl]
    simp only [Stage.targets, List.mem_cons, List.not_mem_nil, or_false, exists_eq_or_imp,
      exists_eq_left, allows, canEnter, beq_iff_eq, hint, hsign, hlong, hun, Bool.not_eq_true',
      decide_eq_true_eq]
  constructor
  · intro h
    cases w with
    | nil => exact ⟨[c], [], rfl, .single hcw, .inl rfl⟩
    | cons d w =>
      rcases (hcons d w).mp h with ⟨hl, hd, hw⟩ | ⟨hu, hd, rfl⟩
      · exact ⟨[c, d], w, rfl, .long hl hd, hw⟩
      · exact ⟨[c], [d], rfl, .single hcw, .inr ⟨hu, d, hd, rfl⟩⟩
  · rintro ⟨x, v, hxv, hx, hend⟩
    cases hx with
    | single hx =>
      obtain ⟨rfl, rfl⟩ := List.cons_eq_cons.mp hxv
      rcases hend with rfl | ⟨hu, u, hmem, rfl⟩
      · exact hv
      · exact (hcons u []).mpr (.inr ⟨hu, hmem, rfl⟩)
    | long hx hd =>
      obtain ⟨rfl, rfl⟩ := List.cons_eq_cons.mp hxv
      exact (hcons _ v).mpr (.inl ⟨hx, hd, hend⟩)

theorem head_mem_of_widthSuffix {c : Char} {w : List Char} (h : WidthSuffix (c :: w)) :
    c ∈ ['i', 'I', 'l', 'L', 's', 'S'] := by
  cases h with
  | single hc => exact hc
  | long hc _ =>
    simp only [List.mem_cons, List.not_mem_nil, or_false] at hc ⊢
    grind

theorem not_widthSuffix_nil : ¬ WidthSuffix [] := nofun

/-- Behind the suffix for a number without sign: nothing, or a width. -/
theorem completes_entered_signSpecifier (hc : Separated config) {s : Progress}
    (hv : s.valid = true) (ht : s.type = .unknown) {c : Char} {w : List Char} :
    completes config (entered config .signSpecifier s c) w = true ↔ w = [] ∨ WidthSuffix w := by
  set s' := entered config .signSpecifier s c with hs'
  cases w with
  | nil => simpa [completes] using (show s'.valid = true from hv)
  | cons d w =>
    have hwidth : d ∈ ['i', 'I', 'l', 'L', 's', 'S'] →
        (completes config (entered config .widthSpecifier s' d) w = true
          ↔ WidthSuffix (d :: w)) := by
      intro hd
      rw [completes_entered_widthSpecifier (s := s') hc hv hd]
      constructor
      · rintro ⟨x, v, hxv, hx, rfl | ⟨hu, -⟩⟩
        · rwa [hxv, List.append_nil]
        · exact absurd hu (by simp [hs', entered, onEnter])
      · exact fun h => ⟨d :: w, [], (List.append_nil _).symm, h, .inl rfl⟩
    rw [completes_cons_iff hc (sane_of_stage (by simp [hs', entered])),
      show s'.stage = .signSpecifier from rfl]
    simp only [Stage.targets, List.mem_cons, List.not_mem_nil, or_false, exists_eq_left, allows,
      beq_iff_eq, reduceCtorEq, false_or]
    constructor
    · rintro ⟨-, hd, hw⟩
      exact (hwidth (by simpa [canEnter] using hd)).mp hw
    · intro h
      have hd := head_mem_of_widthSuffix h
      exact ⟨ht, by simpa [canEnter] using hd, (hwidth hd).mpr h⟩

/-- **The suffixes of integers**, read from a complete number without a type. -/
theorem integerSuffix_cons_iff (hc : Separated config) {s : Progress} (hv : s.valid = true)
    (ht : s.type = .unknown) (hu : s.unsigned = false) {c : Char} {w : List Char} :
    IntegerSuffix (c :: w)
      ↔ (c ∈ ['u', 'U'] ∧ completes config (entered config .signSpecifier s c) w = true)
        ∨ (c ∈ ['i', 'I', 'l', 'L', 's', 'S']
          ∧ completes config (entered config .widthSpecifier s c) w = true) := by
  rw [completes_entered_signSpecifier hc hv ht]
  constructor
  · intro h
    generalize hy : c :: w = y at h
    cases h with
    | unsigned hmem =>
      obtain ⟨rfl, rfl⟩ := List.cons_eq_cons.mp hy
      exact .inl ⟨hmem, .inl rfl⟩
    | unsignedWidth hmem hw =>
      obtain ⟨rfl, rfl⟩ := List.cons_eq_cons.mp hy
      exact .inl ⟨hmem, .inr hw⟩
    | width hw =>
      subst hy
      have hmem := head_mem_of_widthSuffix hw
      exact .inr ⟨hmem, (completes_entered_widthSpecifier hc hv hmem).mpr
        ⟨c :: w, [], (List.append_nil _).symm, hw, .inl rfl⟩⟩
    | @widthUnsigned u x hw hmem =>
      cases x with
      | nil => exact absurd hw not_widthSuffix_nil
      | cons d x =>
        obtain ⟨rfl, rfl⟩ := List.cons_eq_cons.mp hy
        have hd := head_mem_of_widthSuffix hw
        exact .inr ⟨hd, (completes_entered_widthSpecifier hc hv hd).mpr
          ⟨c :: x, [u], rfl, hw, .inr ⟨hu, u, hmem, rfl⟩⟩⟩
  · rintro (⟨hmem, rfl | hw⟩ | ⟨hmem, hw⟩)
    · exact .unsigned hmem
    · exact .unsignedWidth hmem hw
    · obtain ⟨x, v, hxv, hx, hend⟩ := (completes_entered_widthSpecifier hc hv hmem).mp hw
      rw [hxv]
      rcases hend with rfl | ⟨-, u, hu', rfl⟩
      · exact (List.append_nil x).symm ▸ .width hx
      · exact .widthUnsigned hx hu'


/-! ## Runs of digits -/

/-- What a run of digits leaves as it is. -/
structure Reads (base : Base) (part : Part) (type : NumberType) (s : Progress) : Prop where
  base_eq : s.base = base
  part_eq : s.part = part
  type_eq : s.type = type
  unsigned_eq : s.unsigned = false

theorem takeDigit_reads {base : Base} {part : Part} {type : NumberType} {s : Progress}
    (hs : Reads base part type s) (d : Nat) : Reads base part type (takeDigit s d) := by
  obtain ⟨hb, hp, ht, hu⟩ := hs
  unfold takeDigit
  split
  · exact ⟨hb, hp, ht, hu⟩
  · exact ⟨hb, hp, ht, hu⟩
  · dsimp only
    split <;> exact ⟨hb, hp, ht, hu⟩

theorem valid_takeDigit (s : Progress) (d : Nat) : (takeDigit s d).valid = s.valid := by
  unfold takeDigit
  split
  · rfl
  · rfl
  · dsimp only
    split <;> rfl

theorem Reads.entered_digit {base : Base} {part : Part} {type : NumberType} {s : Progress}
    (hs : Reads base part type s) (c : Char) :
    Reads base part type (entered config .digit s c) := by
  have h : Reads base part type (onEnter config .digit s c) := by
    simp only [onEnter]
    split
    · exact hs
    · exact takeDigit_reads (s := { s with valid := true }) ⟨hs.1, hs.2, hs.3, hs.4⟩ _
  exact ⟨h.1, h.2, h.3, h.4⟩

theorem valid_entered_digit (s : Progress) (c : Char) :
    (entered config .digit s c).valid = (s.valid || c != config.separator) := by
  show (if c = config.separator then s else takeDigit { s with valid := true } (digitValue c)).valid
    = _
  split_ifs with h
  · simp [h]
  · simp [valid_takeDigit, h]

theorem isDigitIn_separator (hc : Separated config) (base : Base) :
    isDigitIn base.radix config.separator = false := by
  by_contra h
  exact hc.separator_notMem (marks_subset base .digit _ (mem_marks_digit (by simpa using h)))

/-- **A run of digits, and what closes it.** Wherever a digit or a separator
may follow, and otherwise only what `T` admits behind a complete number, a text
completes the literal if it is a run of digits with such an end. -/
theorem completes_run (hc : Separated config) {T : List Char → Prop} {base : Base} {part : Part}
    {type : NumberType}
    (hT : ∀ s, Reads base part type s → s.stage = .digit → ∀ c w,
      completes config s (c :: w) = true
        ↔ canEnter config .digit s c = true ∧ completes config (entered config .digit s c) w = true
          ∨ s.valid = true ∧ T (c :: w))
    {s : Progress} (hs : Reads base part type s)
    (hfirst : ∀ c w, completes config s (c :: w) = true
        ↔ canEnter config .digit s c = true ∧ completes config (entered config .digit s c) w = true
          ∨ s.valid = true ∧ T (c :: w)) {w : List Char} :
    completes config s w = true
      ↔ ∃ ds t, w = ds ++ t ∧ DigitRun config base ds ∧ (s.valid = true ∨ HasDigit base ds)
        ∧ (t = [] ∨ T t) := by
  induction w generalizing s with
  | nil =>
    constructor
    · exact fun h => ⟨[], [], rfl, digitRun_nil config base, .inl h, .inl rfl⟩
    · rintro ⟨ds, t, hdt, -, hv, -⟩
      obtain ⟨rfl, rfl⟩ := List.append_eq_nil_iff.mp hdt.symm
      exact hv.resolve_right (not_hasDigit_nil base)
  | cons c w ih =>
    have henter : canEnter config .digit s c = true
        ↔ c = config.separator ∨ isDigitIn base.radix c = true := by
      simp [canEnter, hs.base_eq]
    have hs' : Reads base part type (entered config .digit s c) := hs.entered_digit c
    -- behind its first character the run is at the digit stage, where `hT` takes
    -- over from `hfirst`
    have hnext := ih hs' (hT _ hs' rfl)
    have hvalid : c = config.separator ∨ isDigitIn base.radix c = true →
        ((entered config .digit s c).valid = true
          ↔ s.valid = true ∨ isDigitIn base.radix c = true) := by
      intro h
      rw [valid_entered_digit]
      by_cases hsep : c = config.separator
      · simp [hsep, isDigitIn_separator hc]
      · simp [hsep, h.resolve_left hsep]
    rw [hfirst, henter]
    constructor
    · rintro (⟨hd, hw⟩ | ⟨hv, ht⟩)
      · obtain ⟨ds, t, rfl, hds, hv, ht⟩ := hnext.mp hw
        rw [hvalid hd] at hv
        exact ⟨c :: ds, t, rfl, digitRun_cons.mpr ⟨hd, hds⟩,
          (or_assoc.mp hv).imp_right hasDigit_cons.mpr, ht⟩
      · exact ⟨[], c :: w, rfl, digitRun_nil config base, .inl hv, .inr ht⟩
    · rintro ⟨ds, t, hdt, hds, hv, ht⟩
      cases ds with
      | nil =>
        obtain rfl : c :: w = t := hdt
        have hnone := not_hasDigit_nil base
        exact .inr ⟨hv.resolve_right hnone, ht.resolve_left (List.cons_ne_nil _ _)⟩
      | cons d ds =>
        obtain ⟨rfl, rfl⟩ := List.cons_eq_cons.mp hdt
        obtain ⟨hd, hds⟩ := digitRun_cons.mp hds
        have hv' := or_assoc.mpr (hv.imp_right hasDigit_cons.mp)
        rw [← hvalid hd] at hv'
        exact .inl ⟨hd, hnext.mpr ⟨ds, t, rfl, hds, hv', ht⟩⟩


/-! ## What closes a number -/

theorem floatSuffix_cons_iff (hc : Separated config) {s : Progress} (hv : s.valid = true)
    {c : Char} {w : List Char} :
    FloatSuffix (c :: w) ↔ c ∈ ['f', 'F', 'd', 'D']
      ∧ completes config (entered config .floatSpecifier s c) w = true := by
  rw [completes_floatSpecifier (s := entered config .floatSpecifier s c) hc rfl hv]
  constructor
  · rintro ⟨hmem⟩
    exact ⟨hmem, rfl⟩
  · rintro ⟨hmem, rfl⟩
    exact .intro hmem

/-- A suffix for a number in a base and of a type known so far. -/
def TypeSuffix (base : Base) (type : NumberType) (w : List Char) : Prop :=
  base = .decimal ∧ FloatSuffix w ∨ type = .unknown ∧ IntegerSuffix w

/-- Everything that can follow in a run of digits. -/
theorem completes_digit_cons (hc : Separated config) {base : Base} {part : Part}
    {type : NumberType} {s : Progress} (hs : Reads base part type s) (hst : s.stage = .digit)
    {c : Char} {w : List Char} :
    completes config s (c :: w) = true
      ↔ canEnter config .digit s c = true ∧ completes config (entered config .digit s c) w = true
        ∨ s.valid = true ∧ (TypeSuffix base type (c :: w)
          ∨ base = .decimal ∧ part ≠ .exponent ∧ c ∈ ['e', 'E']
            ∧ completes config (entered config .exponent s c) w = true
          ∨ base = .decimal ∧ part = .integral ∧ c = config.fraction
            ∧ completes config (entered config .fraction s c) w = true) := by
  obtain ⟨rfl, rfl, rfl, hu⟩ := hs
  rw [completes_cons_iff hc (sane_of_stage (by simp [hst])), hst]
  by_cases hv : s.valid = true
  · have hint : s.type = .unknown → (IntegerSuffix (c :: w) ↔ _) :=
      fun ht => integerSuffix_cons_iff hc hv ht hu
    rw [TypeSuffix, floatSuffix_cons_iff hc hv, and_congr_right hint]
    simp only [Stage.targets, List.exists_mem_cons_iff, List.not_mem_nil, false_and,
      exists_false, or_false, allows, hv, canEnter, beq_iff_eq, bne_iff_ne, decide_eq_true_eq,
      Bool.and_eq_true, Bool.true_and, true_and, and_assoc]
    constructor
    · rintro (h | h | h | h | ⟨ht, h⟩ | ⟨ht, h⟩)
      · exact .inl h
      · exact .inr (.inr (.inl h))
      · exact .inr (.inr (.inr h))
      · exact .inr (.inl (.inl h))
      · exact .inr (.inl (.inr ⟨ht, .inl h⟩))
      · exact .inr (.inl (.inr ⟨ht, .inr h⟩))
    · rintro (h | (h | ⟨ht, h | h⟩) | h | h)
      · exact .inl h
      · exact .inr (.inr (.inr (.inl h)))
      · exact .inr (.inr (.inr (.inr (.inl ⟨ht, h⟩))))
      · exact .inr (.inr (.inr (.inr (.inr ⟨ht, h⟩))))
      · exact .inr (.inl h)
      · exact .inr (.inr (.inl h))
  · simp [Stage.targets, allows, hv]

/-- Behind a digit of an exponent, or of a number in another base than ten,
only a suffix can follow besides further digits. -/
theorem completes_digit_cons_of_sealed (hc : Separated config) {base : Base} {part : Part}
    {type : NumberType} (hsealed : base ≠ .decimal ∨ part = .exponent) {s : Progress}
    (hs : Reads base part type s) (hst : s.stage = .digit) (c : Char) (w : List Char) :
    completes config s (c :: w) = true
      ↔ canEnter config .digit s c = true ∧ completes config (entered config .digit s c) w = true
        ∨ s.valid = true ∧ TypeSuffix base type (c :: w) := by
  have h₁ : ¬ (base = .decimal ∧ part ≠ .exponent) :=
    fun h => hsealed.elim (fun hb => hb h.1) (fun hp => h.2 hp)
  have h₂ : ¬ (base = .decimal ∧ part = .integral) :=
    fun h => h₁ ⟨h.1, by simp [h.2]⟩
  rw [completes_digit_cons hc hs hst]
  simp only [← and_assoc, h₁, h₂, false_and, or_false]

/-- Such digits run up to a suffix. -/
theorem completes_digits_of_sealed (hc : Separated config) {base : Base} {part : Part}
    {type : NumberType} (hsealed : base ≠ .decimal ∨ part = .exponent) {s : Progress}
    (hs : Reads base part type s)
    (hfirst : ∀ c w, completes config s (c :: w) = true
        ↔ canEnter config .digit s c = true ∧ completes config (entered config .digit s c) w = true
          ∨ s.valid = true ∧ TypeSuffix base type (c :: w)) {w : List Char} :
    completes config s w = true
      ↔ ∃ ds t, w = ds ++ t ∧ DigitRun config base ds ∧ (s.valid = true ∨ HasDigit base ds)
        ∧ (t = [] ∨ TypeSuffix base type t) :=
  completes_run hc (fun _ hs hst => completes_digit_cons_of_sealed hc hsealed hs hst) hs hfirst

/-! ## Exponents -/

theorem takeDigit_stage (s : Progress) (d : Nat) (st : Stage) :
    takeDigit { s with stage := st } d = { takeDigit s d with stage := st } := by
  unfold takeDigit
  dsimp only
  split
  · rfl
  · rfl
  · split <;> rfl

/-- Where a digit comes from does not matter. -/
theorem entered_digit_stage (s : Progress) (st : Stage) (c : Char) :
    entered config .digit { s with stage := st } c = entered config .digit s c := by
  unfold entered onEnter
  dsimp only
  split
  · rfl
  · rw [show ({ s with stage := st, valid := true } : Progress)
        = { ({ s with valid := true } : Progress) with stage := st } from rfl, takeDigit_stage]

/-- What an exponent and the type so far leave of the rest. -/
def ExponentEnd (config : NumericConfig) (base : Base) (type : NumberType) (w : List Char) :
    Prop :=
  ∃ negative x t, w = x ++ t ∧ Exponent config base negative x
    ∧ (t = [] ∨ TypeSuffix base (if negative then .unknownFloat else type) t)

/-- The digits of an exponent, behind its sign. -/
theorem completes_entered_sign (hc : Separated config) {base : Base} {type : NumberType}
    {s : Progress} (hs : Reads base .exponent type s) (hv : s.valid = false) (c : Char)
    {w : List Char} :
    completes config (entered config .sign s c) w = true
      ↔ ∃ ds t, w = ds ++ t ∧ DigitRun config base ds ∧ HasDigit base ds
        ∧ (t = [] ∨ TypeSuffix base (if c = '-' then .unknownFloat else type) t) := by
  have hentered : entered config .sign s c = { s with
      exponentSign := if c = '-' then .negative else .positive
      type := if c = '-' then .unknownFloat else type
      stage := .sign } := by
    simp only [entered, onEnter, takeSign, hs.part_eq, hs.type_eq]
    split_ifs <;> simp_all
  have hreads : Reads base .exponent (if c = '-' then .unknownFloat else type)
      (entered config .sign s c) := by
    rw [hentered]
    exact ⟨hs.base_eq, hs.part_eq, rfl, hs.unsigned_eq⟩
  have hvalid : (entered config .sign s c).valid = false := by rw [hentered]; exact hv
  have hpart : (entered config .sign s c).part = .exponent := hreads.part_eq
  rw [completes_digits_of_sealed hc (.inr rfl) hreads]
  · simp only [hvalid, Bool.false_eq_true, false_or]
  · intro d w
    rw [completes_cons_iff hc (sane_of_stage (by simp [entered])),
      show (entered config .sign s c).stage = .sign from rfl]
    simp [Stage.targets, allows, hpart, hvalid]

/-- **Exponents and what follows them**, read from a complete number. -/
theorem exponentEnd_cons_iff (hc : Separated config) {base : Base} {part : Part}
    {type : NumberType} {s : Progress} (hs : Reads base part type s) {c : Char} {w : List Char} :
    ExponentEnd config base type (c :: w)
      ↔ c ∈ ['e', 'E'] ∧ completes config (entered config .exponent s c) w = true := by
  set s' := entered config .exponent s c with hs'
  have hreads : Reads base .exponent type s' := ⟨hs.base_eq, rfl, hs.type_eq, hs.unsigned_eq⟩
  -- the letter of the exponent opens what a digit opens, and a sign besides
  obtain ⟨z, hz⟩ : ∃ z : Progress, z = { s' with stage := .digit } := ⟨_, rfl⟩
  have hzreads : Reads base .exponent type z := by
    rw [hz]
    exact ⟨hreads.base_eq, hreads.part_eq, hreads.type_eq, hreads.unsigned_eq⟩
  have hzst : z.stage = .digit := by rw [hz]
  have hzv : z.valid = false := by rw [hz]; rfl
  have hcons : ∀ d w, completes config s' (d :: w) = true
      ↔ (d ∈ ['+', '-'] ∧ completes config (entered config .sign s' d) w = true)
        ∨ completes config z (d :: w) = true := by
    intro d w
    rw [completes_cons_iff hc (sane_of_stage (by simp [hs', entered])),
      completes_digit_cons hc hzreads hzst, hzv, hz, entered_digit_stage,
      show s'.stage = .exponent from rfl]
    simp only [Stage.targets, List.exists_mem_cons_iff, List.not_mem_nil, false_and, exists_false,
      or_false, allows, canEnter, decide_eq_true_eq, true_and, Bool.false_eq_true]
  have hdigits : ∀ w, completes config z w = true
      ↔ ∃ ds t, w = ds ++ t ∧ DigitRun config base ds ∧ HasDigit base ds
        ∧ (t = [] ∨ TypeSuffix base type t) := by
    intro w
    rw [completes_digits_of_sealed hc (.inr rfl) hzreads
      (completes_digit_cons_of_sealed hc (.inr rfl) hzreads hzst)]
    simp only [hzv, Bool.false_eq_true, false_or]
  have hsign : ∀ d w, completes config (entered config .sign s' d) w = true ↔ _ :=
    fun d w => completes_entered_sign (w := w) hc hreads rfl d
  constructor
  · rintro ⟨negative, x, t, hxt, hx, ht⟩
    cases hx with
    | @plain e ds he hds hd =>
      obtain ⟨rfl, rfl⟩ := List.cons_eq_cons.mp hxt
      have hw := (hdigits (ds ++ t)).mpr ⟨ds, t, rfl, hds, hd, ht⟩
      cases ds with
      | nil => exact absurd hd (not_hasDigit_nil base)
      | cons d ds => exact ⟨he, (hcons d (ds ++ t)).mpr (.inr hw)⟩
    | positive he hds hd =>
      obtain ⟨rfl, rfl⟩ := List.cons_eq_cons.mp hxt
      exact ⟨he, (hcons _ _).mpr (.inl ⟨by simp, (hsign _ _).mpr ⟨_, t, rfl, hds, hd, ht⟩⟩)⟩
    | negative he hds hd =>
      obtain ⟨rfl, rfl⟩ := List.cons_eq_cons.mp hxt
      exact ⟨he, (hcons _ _).mpr (.inl ⟨by simp, (hsign _ _).mpr ⟨_, t, rfl, hds, hd, ht⟩⟩)⟩
  · rintro ⟨he, hw⟩
    cases w with
    | nil => exact absurd hw Bool.false_ne_true
    | cons d w =>
      rcases (hcons d w).mp hw with ⟨hd, hw⟩ | hw
      · obtain ⟨ds, t, rfl, hds, hdig, ht⟩ := (hsign d w).mp hw
        rcases (by simpa using hd : d = '+' ∨ d = '-') with rfl | rfl
        · exact ⟨false, _, t, rfl, .positive he hds hdig, ht⟩
        · exact ⟨true, _, t, rfl, .negative he hds hdig, ht⟩
      · obtain ⟨ds, t, hdt, hds, hdig, ht⟩ := (hdigits _).mp hw
        exact ⟨false, c :: ds, t, by rw [hdt]; rfl, .plain he hds hdig, ht⟩


/-! ## Fractions -/

theorem typeSuffix_unknownFloat_iff {w : List Char} :
    TypeSuffix .decimal .unknownFloat w ↔ FloatSuffix w := by
  simp [TypeSuffix]

/-- Behind the digits of a fraction comes a suffix or an exponent. -/
theorem fractionEnd_iff {w : List Char} :
    FractionEnd config w
      ↔ w = [] ∨ FloatSuffix w ∨ ExponentEnd config .decimal .unknownFloat w := by
  have hend : ∀ t : List Char, (t = [] ∨ TypeSuffix .decimal .unknownFloat t)
      ↔ (t = [] ∨ FloatSuffix t) := fun t => by rw [typeSuffix_unknownFloat_iff]
  simp only [ExponentEnd, ite_self, hend]
  constructor
  · rintro (_ | hf | ⟨hx, hf⟩)
    · exact .inl rfl
    · exact .inr (.inl hf)
    · exact .inr (.inr ⟨_, _, _, rfl, hx, hf⟩)
  · rintro (rfl | hf | ⟨negative, x, t, rfl, hx, hf⟩)
    · exact .bare
    · exact .suffix hf
    · exact .exponent hx hf

/-- **The digits of a fraction, and its end.** -/
theorem completes_entered_fraction (hc : Separated config) {base : Base} {type : NumberType}
    {s : Progress} (hs : Reads base .integral type s) (c : Char) {w : List Char} :
    completes config (entered config .fraction s c) w = true
      ↔ ∃ ds t, w = ds ++ t ∧ DigitRun config .decimal ds
        ∧ (s.valid = true ∨ HasDigit .decimal ds) ∧ FractionEnd config t := by
  set s' := entered config .fraction s c with hs'
  have hreads : Reads .decimal .fraction .unknownFloat s' := ⟨rfl, rfl, rfl, hs.unsigned_eq⟩
  -- the fraction character and the digits behind it close in the same way
  have hT : ∀ z, Reads .decimal .fraction .unknownFloat z → z.stage = .digit → ∀ c w,
      completes config z (c :: w) = true
        ↔ canEnter config .digit z c = true ∧ completes config (entered config .digit z c) w = true
          ∨ z.valid = true ∧ FractionEnd config (c :: w) := by
    intro z hz hst c w
    rw [completes_digit_cons hc hz hst, fractionEnd_iff, exponentEnd_cons_iff hc hz,
      typeSuffix_unknownFloat_iff]
    simp
  have hfirst : ∀ c w, completes config s' (c :: w) = true
        ↔ canEnter config .digit s' c = true ∧
            completes config (entered config .digit s' c) w = true
          ∨ s'.valid = true ∧ FractionEnd config (c :: w) := by
    intro c w
    rw [completes_cons_iff hc (fun h => by simp [hreads.base_eq] at h), fractionEnd_iff,
      exponentEnd_cons_iff hc hreads, show s'.stage = .fraction from rfl]
    by_cases hv : s'.valid = true
    · rw [floatSuffix_cons_iff hc hv]
      simp only [Stage.targets, List.exists_mem_cons_iff, List.not_mem_nil, false_and,
        exists_false, or_false, allows, hv, hreads.part_eq, canEnter, decide_eq_true_eq, true_and,
        Bool.true_and, reduceCtorEq, false_or, show (Part.fraction != .exponent) = true from rfl]
      tauto
    · simp [Stage.targets, allows, hv]
  rw [completes_run hc hT hreads hfirst]
  have hbare : ∀ t, (t = [] ∨ FractionEnd config t) ↔ FractionEnd config t :=
    fun t => or_iff_right_of_imp (fun h => h ▸ .bare)
  simp only [hbare]
  rfl

end Lexing.Numeric
