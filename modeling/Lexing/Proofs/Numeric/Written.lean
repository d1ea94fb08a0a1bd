import Lexing.Proofs.Number.Printed
import Lexing.Proofs.Numeric.Integer
import Lexing.Proofs.Numeric.Language
import Lexing.Proofs.Token.Whole

/-!
# Literals that values are written as

Writing a value as a literal and reading it again gives a value of the same
kind, and the value itself where nothing is rounded. The three written forms
are taken one by one:

* an integer is a sign, decimal digits and the suffix of its kind; the run over
  it is followed step by step (`runFrom_decimal`, `runFrom_suffix`), and the
  number it remembers is the one that was written, modulo `2^64`;
* a zero of floating-point type is written with a fraction, and the run over it
  is one fixed walk (`runFrom_zero`);
* any other floating-point number has an exponent. Its text is a literal by the
  grammar, and its last letter settles the kind, since no hexadecimal number is
  under way that could take it for a digit (`Decimal`).
-/

namespace Lexing

namespace Value

/-- A zero of floating-point type, with a sign. -/
def signedZero (width : FloatWidth) (negative : Bool) : Value :=
  match width with
  | .f32 => f32 (.ofBits (if negative then 0x80000000 else 0))
  | .f64 => f64 (.ofBits (if negative then 0x8000000000000000 else 0))

/-- An integer is one that its kind holds. -/
theorem holds_of_toInt? {v : Value} {n : Int} (h : v.toInt? = some n) : v.kind.Holds n := by
  have hnat : ∀ {m b : Nat}, m < 2 ^ b → 0 ≤ (m : Int) ∧ (m : Int) < 2 ^ b := fun h =>
    ⟨Int.natCast_nonneg _, by exact_mod_cast h⟩
  cases v with
  | i8 v | i16 v | i32 v | i64 v =>
    obtain rfl := Option.some.inj h
    exact ⟨v.le_toInt, v.toInt_lt⟩
  | u8 v | u16 v | u32 v | u64 v =>
    obtain rfl := Option.some.inj h
    exact hnat v.toNat_lt
  | f32 _ | f64 _ => exact nomatch h

/-- **An integer value is its kind and its number.** -/
theorem eq_of_toInt? {v v' : Value} (hkind : v'.kind = v.kind) {n : Int} (h : v.toInt? = some n)
    (h' : v'.toInt? = some n) : v' = v := by
  rw [← h] at h'
  -- only pairs of one kind are left, and there the number tells the value
  cases v <;> cases v' <;> simp only [kind, reduceCtorEq] at hkind <;>
    simp only [toInt?, reduceCtorEq, Option.some.injEq, Nat.cast_inj] at h h' <;>
    simp only [Int8.toInt_inj, Int16.toInt_inj, Int32.toInt_inj, Int64.toInt_inj, UInt8.toNat_inj,
      UInt16.toNat_inj, UInt32.toNat_inj, UInt64.toNat_inj] at h' <;>
    rw [h']

end Value

namespace Numeric

variable {config : NumericConfig}

/-! ## Texts of literals are ASCII -/

theorem toNat_lt_of_checkChar {role : SeparatorRole} {c : Char}
    (h : NumericConfig.checkChar role c = .ok ()) : c.toNat < 0x80 := by
  unfold NumericConfig.checkChar at h
  split_ifs at h with hascii
  exact Nat.lt_of_not_le hascii

/-- **The chosen characters are ASCII.** -/
theorem ascii_of_validate (h : config.validate = .ok ()) :
    config.separator.toNat < 0x80 ∧ config.fraction.toNat < 0x80 := by
  unfold NumericConfig.validate at h
  cases hs : NumericConfig.checkChar .digit config.separator with
  | error e => simp [hs, bind, Except.bind] at h
  | ok _ =>
    cases hf : NumericConfig.checkChar .fraction config.fraction with
    | error e => simp [hs, hf, bind, Except.bind] at h
    | ok _ => exact ⟨toNat_lt_of_checkChar hs, toNat_lt_of_checkChar hf⟩

theorem toNat_lt_of_taken {c : Char} (h : c ∈ NumericConfig.takenChars) : c.toNat < 0x80 := by
  have key : IsAscii NumericConfig.takenChars := by decide +kernel
  exact key c h

theorem toNat_lt_of_canEnter (h : config.validate = .ok ()) {t : Stage} {s : Progress} {c : Char}
    (he : canEnter config t s c = true) : c.toNat < 0x80 := by
  rcases mem_marks_of_canEnter he with hmark | ⟨-, rfl⟩ | ⟨-, rfl⟩
  · exact toNat_lt_of_taken (marks_subset _ _ c hmark)
  · exact (ascii_of_validate h).1
  · exact (ascii_of_validate h).2

/-- **Only ASCII characters are accepted.** -/
theorem isAscii_of_runFrom (h : config.validate = .ok ()) {s s' : Progress} (hs : Confined s)
    {w : List Char} (hrun : runFrom config s w = some s') : IsAscii w := by
  induction w generalizing s with
  | nil => exact isAscii_nil
  | cons c w ih =>
    obtain ⟨t, ht, ha, he, hw⟩ := (runFrom_cons_iff (separated_of_validate h) hs).mp hrun
    exact isAscii_cons.mpr ⟨toNat_lt_of_canEnter h he, ih (hs.entered ht ha c) hw⟩

/-- **A complete literal is extracted as a whole**, with the value of the point
that its run leads to. -/
theorem extract_of_runFrom (h : config.validate = .ok ()) (id : Nat) (reserved : Option Reserved)
    (e : Encoding) {w : List Char} {s : Progress} (hrun : runFrom config {} w = some s)
    (hvalid : s.valid = true) :
    extract (Token.numeric config id).toToken w reserved e
      = .ok ⟨0, w.length, 1, 0, w, some (decode config s), some ⟨id, "numeric"⟩⟩ :=
  extract_eq_of_run (Token.numeric config id).toToken e
    (isAscii_of_runFrom h confined_fresh hrun) ((run_numeric config id {} [] w).trans hrun) hvalid

/-! ## Decimal digits -/

/-- A decimal digit is one of the grammar, and no point. -/
theorem isDigitIn_of_isDigit {c : Char} (h : c.isDigit = true) :
    isDigitIn Base.decimal.radix c = true ∧ c ≠ '.' := by
  have key : ∀ k < 128, (Char.ofNat k).isDigit = true →
      isDigitIn Base.decimal.radix (Char.ofNat k) = true ∧ Char.ofNat k ≠ '.' := by decide
  have hle : c.toNat ≤ '9'.toNat := (Char.isDigit_iff_toNat.mp h).2
  exact forall_lt_of_ofNat
    (P := fun c => c.isDigit = true → isDigitIn Base.decimal.radix c = true ∧ c ≠ '.') key
    (lt_of_le_of_lt hle (by decide)) h

theorem ne_separator_of_isDigit (hc : Separated config) {c : Char} (h : c.isDigit = true) :
    c ≠ config.separator := by
  rintro rfl
  have hdigit := (isDigitIn_of_isDigit h).1
  simp [isDigitIn_separator hc] at hdigit

/-- Decimal digits are a run of digits. -/
theorem inRun_of_mem_decimalDigits {n : Nat} {c : Char} (h : c ∈ Number.decimalDigits n) :
    inRun config .decimal c = true := by
  simp [inRun, isDigitIn_of_isDigit (Number.isDigit_of_mem_decimalDigits h)]

/-- **The decimal digits of a number denote it.** -/
theorem runNumber_decimalDigits (hc : Separated config) (n : Nat) :
    runNumber config .decimal (Number.decimalDigits n) = n := by
  have key : ∀ k < 10, digitOf k.digitChar = k := by decide
  have hsep : ∀ m, ∀ c ∈ Number.decimalDigits m, c ≠ config.separator := fun m c hm =>
    ne_separator_of_isDigit hc (Number.isDigit_of_mem_decimalDigits hm)
  induction n using Nat.strongRecOn with
  | ind n ih =>
    have hlast := hsep n
    rw [Number.decimalDigits_eq] at hlast ⊢
    split_ifs at hlast ⊢ with hlt
    · rw [runNumber_singleton (hlast _ (List.mem_singleton_self _)), key n hlt]
    · rw [runNumber_digit (hlast _ (by simp)), ih (n / 10) (by omega), key _ (by omega),
        show Base.decimal.radix = 10 from rfl]
      omega

/-! ## Signs -/

/-- **The point behind a minus**, or at the start if there is none. -/
def behindMinus (negative : Bool) : Progress where
  stage := if negative then .sign else .start
  sign := if negative then .negative else .unwritten

theorem runFrom_minus (hc : Separated config) (negative : Bool) (w : List Char) :
    runFrom config {} (Number.minus negative ++ w) = runFrom config (behindMinus negative) w := by
  cases negative with
  | false => rfl
  | true =>
    exact runFrom_step (t := .sign) hc (by simp) (by simp [Stage.targets, allows]) rfl rfl w

/-- From there a first digit can be read. -/
theorem open_behindMinus (negative : Bool) {t : Stage} (ht : t ∈ [.leadZero, .leadDigit]) :
    t ∈ (behindMinus negative).stage.targets
      ∧ allows (behindMinus negative).stage t (behindMinus negative) = true := by
  simp only [List.mem_cons, List.not_mem_nil, or_false] at ht
  cases negative <;> rcases ht with rfl | rfl <;> simp [behindMinus, Stage.targets, allows]

/-! ## Integers -/

/-- **A point behind the digits of a whole number**, with nothing but suffixes
to come. -/
structure Complete (negative : Bool) (n : Nat) (q : Progress) : Prop where
  base : q.base ≠ .hex
  stage : q.stage ∈ [.leadZero, .leadDigit, .digit]
  valid : q.valid = true
  integral : q.integral = Int64.ofNat n
  part : q.part = .integral
  sign : q.sign = .negative ↔ negative = true
  type : q.type = .unknown
  unsigned : q.unsigned = false

theorem sign_behindMinus (negative : Bool) :
    (behindMinus negative).sign = .negative ↔ negative = true := by
  cases negative <;> simp [behindMinus]

/-- **The digits of a number are read.** -/
theorem runFrom_decimal (hc : Separated config) (negative : Bool) (n : Nat) (w : List Char) :
    ∃ q, Complete negative n q
      ∧ runFrom config {} (Number.minus negative ++ (Number.decimalDigits n ++ w))
        = runFrom config q w := by
  rw [runFrom_minus hc]
  rcases Nat.eq_zero_or_pos n with rfl | hpos
  · refine ⟨entered config .leadZero (behindMinus negative) '0', ⟨by simp [entered, onEnter],
      by simp [entered], rfl, rfl, rfl, sign_behindMinus negative, rfl, rfl⟩, ?_⟩
    exact runFrom_step (t := .leadZero) hc (by simp [behindMinus])
      (open_behindMinus negative (by simp)) rfl rfl w
  · obtain ⟨d, ds, hds, hd⟩ := Number.exists_decimalDigits_eq hpos
    have hdigits : ∀ c ∈ d :: ds, inRun config .decimal c = true := fun c hmem =>
      inRun_of_mem_decimalDigits (hds ▸ hmem)
    have hdigit : d.isDigit = true := Number.isDigit_of_mem_decimalDigits (n := n) (by simp [hds])
    obtain ⟨p, hp⟩ : ∃ p, p = entered config .leadDigit (behindMinus negative) d := ⟨_, rfl⟩
    have hbase : p.base = .decimal := by rw [hp]; rfl
    have hint : p.integral = Int64.ofNat (runNumber config p.base [d]) := by
      rw [hp, runNumber_singleton (ne_separator_of_isDigit hc hdigit),
        ← digitValue_eq (isDigitIn_of_isDigit hdigit).1]
      rfl
    have hrest : ∀ c ∈ ds, inRun config p.base c = true := fun c hmem =>
      hbase ▸ hdigits c (List.mem_cons_of_mem d hmem)
    have hread := readDigits_of_integral (by rw [hp]; rfl) hint hrest
    have hnumber : runNumber config p.base ([d] ++ ds) = n := by
      rw [hbase, List.singleton_append, ← hds, runNumber_decimalDigits hc]
    refine ⟨readDigits config p ds, ?_, ?_⟩
    · rw [hread, hnumber, hp]
      refine ⟨by simp [entered, onEnter, behindMinus], ?_, rfl, rfl, rfl,
        sign_behindMinus negative, rfl, rfl⟩
      show (if ds = [] then Stage.leadDigit else .digit) ∈ _
      split_ifs <;> simp
    · have hopen : DigitOpen p := by
        rw [hp]
        exact ⟨by simp [entered, Stage.targets], rfl⟩
      rw [hds, List.cons_append,
        ← runFrom_digits hc (confined_of_base (by simp [hbase])) hopen hrest]
      exact runFrom_step (t := .leadDigit) hc (by simp [behindMinus])
        (open_behindMinus negative (by simp)) (by simpa [canEnter] using hd) hp.symm (ds ++ w)

/-- The type that the suffix of a kind asks for. -/
def typeOf : ValueKind → NumberType
  | .i8 | .u8 => .byte
  | .i16 | .u16 => .short
  | .i32 | .u32 => .int
  | .i64 | .u64 => .long
  | .f32 => .float
  | .f64 => .double

/-- The letter of a width is read behind the digits. -/
theorem runFrom_width (hc : Separated config) {negative : Bool} {n : Nat} {q : Progress}
    (hq : Complete negative n q) {c : Char} (hcw : c ∈ ['s', 'i', 'l']) (w : List Char) :
    runFrom config q (c :: w) = runFrom config { q with
      stage := .widthSpecifier
      type := if c = 's' then .byte else if c = 'i' then .short else .int } w := by
  have hopen : .widthSpecifier ∈ q.stage.targets ∧ allows q.stage .widthSpecifier q = true := by
    have hst := hq.stage
    simp only [List.mem_cons, List.not_mem_nil, or_false] at hst
    rcases hst with hst | hst | hst <;> simp [hst, Stage.targets, allows, hq.valid, hq.type]
  simp only [List.mem_cons, List.not_mem_nil, or_false] at hcw
  rcases hcw with rfl | rfl | rfl <;>
    exact runFrom_step (t := .widthSpecifier) hc hq.base hopen rfl rfl w

/-- **The suffix of an integer kind is read to its end.** -/
theorem runFrom_suffix (hc : Separated config) {negative : Bool} {n : Nat} {q : Progress}
    (hq : Complete negative n q) {k : ValueKind} (hk : k ∉ [.f32, .f64]) :
    ∃ st, runFrom config q (suffix k)
      = some { q with stage := st, type := typeOf k, unsigned := k.isUnsigned } := by
  -- behind a width the letter for a number without sign may follow, once
  have hunsigned : ∀ st ∈ [Stage.widthSpecifier, .longSpecifier], ∀ type,
      runFrom config { q with stage := st, type := type } ['u']
        = some { q with stage := .signSpecifier, type := type, unsigned := true } := by
    intro st hst type
    refine runFrom_step (t := .signSpecifier) hc ?_ ?_ ?_ ?_ []
    · exact hq.base
    · simp only [List.mem_cons, List.not_mem_nil, or_false] at hst
      rcases hst with rfl | rfl <;> simp [Stage.targets, allows, hq.unsigned]
    · rfl
    · rfl
  have hlong : ∀ w, runFrom config { q with stage := .widthSpecifier, type := .int } ('l' :: w)
      = runFrom config { q with stage := .longSpecifier, type := .long } w :=
    runFrom_step (t := .longSpecifier) hc (by exact hq.base) (by simp [Stage.targets, allows])
      (by rfl) (by rfl)
  have hsigned : ∀ st type, some { q with stage := st, type := type }
      = some { q with stage := st, type := type, unsigned := false } := fun st type => by
    rw [← hq.unsigned]
  cases k with
  | i8 | i16 | i32 => exact ⟨_, (runFrom_width hc hq (by simp) []).trans (hsigned _ _)⟩
  | u8 | u16 | u32 =>
    exact ⟨_, (runFrom_width hc hq (by simp) ['u']).trans (hunsigned _ (by simp) _)⟩
  | i64 => exact ⟨_, (runFrom_width hc hq (by simp) ['l']).trans ((hlong []).trans (hsigned _ _))⟩
  | u64 =>
    exact ⟨_, (runFrom_width hc hq (by simp) ['l', 'u']).trans
      ((hlong ['u']).trans (hunsigned _ (by simp) _))⟩
  | f32 | f64 => simp at hk

theorem kind_cutDown_typeOf {k : ValueKind} (hk : k ∉ [.f32, .f64]) (v : Int64) :
    (cutDown (typeOf k) k.isUnsigned v).kind = k := by
  cases k <;> first | rfl | simp at hk

theorem decode_of_typed {s : Progress} (hintegral : s.type.isIntegral = true)
    (htype : s.type ≠ .unknown) (hpart : s.part = .integral) :
    decode config s
      = cutDown s.type s.unsigned (if s.sign = .negative then -s.integral else s.integral) := by
  have hmagnitude : magnitude s = s.integral := by
    rw [magnitude, hpart]
    exact if_neg nofun
  rw [decode, if_pos hintegral, decodeInteger, if_neg htype, hmagnitude]

/-- **An integer reads back.** -/
theorem exists_run_of_integer (hc : Separated config) {v : Value} {n : Int}
    (hn : v.toInt? = some n) :
    ∃ s, runFrom config {} (Number.integerDigits n ++ suffix v.kind) = some s ∧ s.valid = true
      ∧ decode config s = v := by
  have hkind : v.kind ∉ [.f32, .f64] := by cases v <;> simp [Value.kind, Value.toInt?] at hn ⊢
  obtain ⟨q, hq, hrun⟩ := runFrom_decimal hc (n < 0) n.natAbs (suffix v.kind)
  rw [← List.append_assoc, ← Number.integerDigits_eq] at hrun
  obtain ⟨st, hend⟩ := runFrom_suffix hc hq hkind
  refine ⟨_, hrun.trans hend, hq.valid, ?_⟩
  have hintegral : (typeOf v.kind).isIntegral = true ∧ typeOf v.kind ≠ .unknown := by
    cases v <;> simp [Value.kind, typeOf, NumberType.isIntegral] at hkind ⊢
  have hword : (if q.sign = .negative then -Int64.ofNat n.natAbs else Int64.ofNat n.natAbs)
      = Int64.ofInt n := by
    rw [← Int64.ofInt_eq_ofNat, ← Int64.ofInt_neg]
    by_cases hneg : n < 0
    · rw [if_pos (hq.sign.mpr (by simpa using hneg))]
      congr 1
      omega
    · rw [if_neg (fun h => hneg (by simpa using hq.sign.mp h))]
      congr 1
      omega
  rw [decode_of_typed (s := { q with
    stage := st, type := typeOf v.kind, unsigned := v.kind.isUnsigned }) hintegral.1 hintegral.2
    hq.part]
  show cutDown _ _ (if q.sign = .negative then -q.integral else q.integral) = v
  rw [hq.integral, hword]
  obtain ⟨n', hn', hholds, hmod⟩ := cutDown_modEq (typeOf v.kind) v.kind.isUnsigned (Int64.ofInt n)
  rw [kind_cutDown_typeOf hkind] at hholds hmod
  -- the word is congruent to the number, and its kind holds both
  have hcongr : (Int64.ofInt n).toInt ≡ n [ZMOD 2 ^ v.kind.bits] := by
    rw [Int64.toInt_ofInt]
    exact Int.ModEq.of_dvd (pow_dvd_pow 2 v.kind.bits_le) Int.bmod_emod
  obtain rfl := hholds.eq_of_modEq (Value.holds_of_toInt? hn) (hmod.trans hcongr)
  exact Value.eq_of_toInt? (kind_cutDown_typeOf hkind _) hn hn'

/-! ## Floating-point numbers -/

/-- The letter of a floating-point width. -/
def floatLetter : FloatWidth → Char
  | .f32 => 'f'
  | .f64 => 'd'

/-- The kind of a floating-point width. -/
def floatKind : FloatWidth → ValueKind
  | .f32 => .f32
  | .f64 => .f64

/-- A suffix settles the kind of a floating-point number. -/
theorem kind_decode_floatSpecifier (p : Progress) (width : FloatWidth) :
    (decode config (entered config .floatSpecifier p (floatLetter width))).kind
      = floatKind width := by
  cases width <;> rfl

/-- The point behind a zero with a fraction. -/
def behindZero (negative : Bool) : Progress :=
  { behindMinus negative with
    stage := .digit
    valid := true
    part := .fraction
    fractionDigits := 1
    type := .unknownFloat }

/-- **The run over a zero of floating-point type.** -/
theorem runFrom_zero (hc : Separated config) (negative : Bool) (width : FloatWidth) :
    runFrom config {} (Number.minus negative ++ ['0', config.fraction, '0', floatLetter width])
      = some (entered config .floatSpecifier (behindZero negative) (floatLetter width)) := by
  obtain ⟨p, hp⟩ : ∃ p, p = entered config .leadZero (behindMinus negative) '0' := ⟨_, rfl⟩
  have hzero : ∀ w, runFrom config (behindMinus negative) ('0' :: w) = runFrom config p w :=
    runFrom_step (t := .leadZero) hc (by simp [behindMinus])
      (open_behindMinus negative (by simp)) rfl hp.symm
  have hfraction : ∀ w, runFrom config p (config.fraction :: w)
      = runFrom config { behindZero negative with stage := .fraction, fractionDigits := 0 } w := by
    rw [hp]
    exact runFrom_step (t := .fraction) hc (by simp [entered, onEnter])
      (by simp [entered, Stage.targets, allows]) (by simp [canEnter]) rfl
  have hdigit : ∀ w, runFrom config
        { behindZero negative with stage := .fraction, fractionDigits := 0 } ('0' :: w)
      = runFrom config (behindZero negative) w := by
    have hsep : '0' ≠ config.separator := ne_separator_of_isDigit hc (by decide)
    refine runFrom_step (t := .digit) hc (by simp [behindZero, behindMinus])
      (by simp [Stage.targets, allows]) ?_ ?_
    · exact inRun_of_mem_decimalDigits (n := 0) (by decide)
    · simp only [entered, onEnter, if_neg hsep]
      rfl
  rw [runFrom_minus hc, hzero, hfraction, hdigit]
  refine runFrom_step (t := .floatSpecifier) hc (by simp [behindZero, behindMinus])
    (by simp [behindZero, behindMinus, Stage.targets, allows]) ?_ rfl []
  cases width <;> rfl

theorem floatPower_one (x : Float) : floatPower x 1 = 1.0 * x := by
  rw [floatPower, floatPowerFrom]
  rfl

theorem mantissa_behindZero (negative : Bool) (c : Char) :
    mantissa (entered config .floatSpecifier (behindZero negative) c) = .ofBits 0 := by
  show Number.doubleOfInt 0 + Number.doubleOfInt 0 / floatPower 10.0 1 = _
  rw [floatPower_one]
  decide +kernel

/-- **A zero of floating-point type keeps its sign.** -/
theorem decode_behindZero (negative : Bool) (width : FloatWidth) :
    decode config (entered config .floatSpecifier (behindZero negative) (floatLetter width))
      = .signedZero width negative := by
  have hneg : -(Float.ofBits 0) = .ofBits 0x8000000000000000 := by decide +kernel
  have hsingle : Number.singleOfDouble (.ofBits 0) = .ofBits 0 := by decide +kernel
  have hsingleNeg : Number.singleOfDouble (.ofBits 0x8000000000000000) = .ofBits 0x80000000 := by
    decide +kernel
  have hscaled : ∀ x, scaled (entered config .floatSpecifier (behindZero negative)
      (floatLetter width)) x = x := fun x => if_neg (by simp [behindZero, entered, onEnter])
  rw [decode, isIntegral_entered_floatSpecifier, if_neg Bool.false_ne_true, decodeFloat, hscaled,
    mantissa_behindZero]
  cases width <;> cases negative
  · exact congrArg Value.f32 hsingle
  · exact congrArg Value.f32 ((congrArg _ hneg).trans hsingleNeg)
  · rfl
  · exact congrArg Value.f64 hneg

/-! ## The form with an exponent -/

/-- A text with the configured fraction character in place of the point. -/
def withFraction (config : NumericConfig) (u : List Char) : List Char :=
  u.map fun c => if c = '.' then config.fraction else c

theorem withFraction_of_isDigit {ds : List Char} (h : ∀ c ∈ ds, c.isDigit = true) :
    withFraction config ds = ds := by
  refine (List.map_congr_left fun c hc => ?_).trans ds.map_id
  exact if_neg (isDigitIn_of_isDigit (h c hc)).2

theorem withFraction_cons {c : Char} (h : c ≠ '.') (u : List Char) :
    withFraction config (c :: u) = c :: withFraction config u :=
  congrArg (· :: withFraction config u) (if_neg h)

theorem withFraction_append (u w : List Char) :
    withFraction config (u ++ w) = withFraction config u ++ withFraction config w :=
  List.map_append

theorem digitRun_of_isDigit {ds : List Char} (h : ∀ c ∈ ds, c.isDigit = true) :
    DigitRun config .decimal ds :=
  fun c hc => .inr (isDigitIn_of_isDigit (h c hc)).1

theorem withFraction_minus (negative : Bool) :
    withFraction config (Number.minus negative) = Number.minus negative := by
  cases negative <;> rfl

/-- **A whole exponent** is one of the grammar. -/
theorem exponent_integerDigits (config : NumericConfig) (e : Int) :
    (∃ negative, Exponent config .decimal negative ('e' :: Number.integerDigits e))
      ∧ withFraction config (Number.integerDigits e) = Number.integerDigits e := by
  have hdigits : ∀ c ∈ Number.decimalDigits e.natAbs, c.isDigit = true :=
    fun c => Number.isDigit_of_mem_decimalDigits
  have hsome : HasDigit .decimal (Number.decimalDigits e.natAbs) := by
    obtain ⟨c, hc⟩ := List.exists_mem_of_ne_nil _ (Number.decimalDigits_ne_nil e.natAbs)
    exact ⟨c, hc, (isDigitIn_of_isDigit (hdigits c hc)).1⟩
  rw [Number.integerDigits_eq, withFraction_append, withFraction_minus,
    withFraction_of_isDigit hdigits]
  refine ⟨?_, rfl⟩
  unfold Number.minus
  split_ifs
  · exact ⟨true, .negative (by simp) (digitRun_of_isDigit hdigits) hsome⟩
  · exact ⟨false, .plain (by simp) (digitRun_of_isDigit hdigits) hsome⟩

theorem literal_minus {w : List Char} (hw : UnsignedLiteral config w) (negative : Bool) :
    Literal config (Number.minus negative ++ w) := by
  cases negative with
  | false => exact .unsigned hw
  | true => exact .signed (by simp) hw

/-- **A number with an exponent is a literal**, with the suffix of its width. It
begins with a digit other than zero. -/
theorem literal_of_scientific (config : NumericConfig) {u : List Char}
    (hu : Number.Scientific u) (width : FloatWidth) :
    Literal config (withFraction config u ++ [floatLetter width])
      ∧ ∃ negative d rest, withFraction config u = Number.minus negative ++ d :: rest
        ∧ '1' ≤ d ∧ d ≤ '9' := by
  have hsuffix : FloatSuffix [floatLetter width] := .intro (by cases width <;> simp [floatLetter])
  have hpoint : ∀ {d : Char}, '1' ≤ d ∧ d ≤ '9' → d ≠ '.' := by
    rintro d hd rfl
    exact absurd hd.1 (by decide)
  cases hu with
  | @whole negative d hd e =>
    obtain ⟨⟨negative', hx⟩, he⟩ := exponent_integerDigits config e
    have htext : withFraction config (Number.minus negative ++ d :: 'e' :: Number.integerDigits e)
        = Number.minus negative ++ d :: 'e' :: Number.integerDigits e := by
      rw [withFraction_append, withFraction_minus, withFraction_cons (hpoint hd),
        withFraction_cons (by decide), he]
    rw [htext]
    refine ⟨?_, negative, d, _, rfl, hd⟩
    rw [List.append_assoc]
    exact literal_minus (.scaled hd (digitRun_nil _ _) hx (.inr (.inl hsuffix))) negative
  | @fraction negative d ds hd hds e =>
    obtain ⟨⟨negative', hx⟩, he⟩ := exponent_integerDigits config e
    have htext : withFraction config
        (Number.minus negative ++ d :: '.' :: (ds ++ 'e' :: Number.integerDigits e))
          = Number.minus negative
            ++ d :: config.fraction :: (ds ++ 'e' :: Number.integerDigits e) := by
      rw [withFraction_append, withFraction_minus, withFraction_cons (hpoint hd),
        show ∀ v, withFraction config ('.' :: v) = config.fraction :: withFraction config v from
          fun _ => rfl, withFraction_append, withFraction_of_isDigit hds,
        withFraction_cons (by decide), he]
    rw [htext]
    refine ⟨?_, negative, d, _, rfl, hd⟩
    have hlit : UnsignedLiteral config ([d] ++ config.fraction ::
        (ds ++ ('e' :: Number.integerDigits e ++ [floatLetter width]))) :=
      .fraction (.digits hd (digitRun_nil _ _)) (digitRun_of_isDigit hds)
        (.exponent hx (.inr hsuffix))
    simpa using literal_minus hlit negative

/-! ## No digit can be meant -/

/-- **A decimal number that begins with a digit other than zero** stays one. -/
structure DecimalRun (s : Progress) : Prop where
  base : s.base = .decimal
  stage : s.stage ∉ [.start, .leadZero]
  sign : s.stage ∈ [.exponent, .sign] → s.part = .exponent

theorem DecimalRun.entered {s : Progress} (hs : DecimalRun s) {t : Stage}
    (ht : t ∈ s.stage.targets) (ha : allows s.stage t s = true) (c : Char) :
    DecimalRun (entered config t s c) := by
  obtain ⟨hbase, hstage, hsign⟩ := hs
  -- a zero, and with it the letter of a base, could only come first
  have hlead : t ∉ [.start, .leadZero, .baseSpecifier] := by
    rintro hmem
    simp only [List.mem_cons, List.not_mem_nil, or_false] at hmem
    rcases hmem with rfl | rfl | rfl <;> cases hst : s.stage <;>
      simp_all [Stage.targets, allows]
  refine ⟨?_, ?_, ?_⟩
  · by_cases hfraction : t = .fraction
    · rw [hfraction]
      rfl
    · rw [base_entered (by simp_all), hbase]
  · show t ∉ _
    simp_all
  · show t ∈ _ → _
    intro hmem
    simp only [List.mem_cons, List.not_mem_nil, or_false] at hmem
    rcases hmem with rfl | rfl
    · rfl
    · show (takeSign s _).part = .exponent
      rw [part_takeSign]
      cases hst : s.stage <;> simp_all [Stage.targets]

/-- **The last letter of such a number is the suffix of its type.** -/
theorem runFrom_floatLetter (hc : Separated config) {p s : Progress} (hp : DecimalRun p)
    (width : FloatWidth) (h : runFrom config p [floatLetter width] = some s) :
    s = entered config .floatSpecifier p (floatLetter width) := by
  have hconf : Confined p := confined_of_base (by simp [hp.base])
  obtain ⟨t, -, -, he, hs⟩ := (runFrom_cons_iff hc hconf).mp h
  obtain rfl := Option.some.inj hs
  have htaken : floatLetter width ∈ NumericConfig.takenChars := by cases width <;> decide
  rcases mem_marks_of_canEnter he with hmark | ⟨-, heq⟩ | ⟨-, heq⟩
  · rw [hp.base] at hmark
    obtain rfl : t = .floatSpecifier := by
      cases width <;> cases t <;> simp [floatLetter, marks, Base.digits] at hmark ⊢
    rfl
  · exact absurd (heq ▸ htaken) hc.separator_notMem
  · exact absurd (heq ▸ htaken) hc.fraction_notMem

/-- **A number with an exponent reads as one of its kind.** -/
theorem exists_run_of_scientific (hc : Separated config) {u : List Char}
    (hu : Number.Scientific u) (width : FloatWidth) :
    ∃ s, runFrom config {} (withFraction config u ++ [floatLetter width]) = some s
      ∧ s.valid = true ∧ (decode config s).kind = floatKind width := by
  obtain ⟨hliteral, negative, d, rest, hbegin, hd⟩ := literal_of_scientific config hu width
  have haccepted := (completes_start_iff hc).mpr hliteral
  rw [completes_eq, Option.any_eq_true] at haccepted
  obtain ⟨s, hs, hvalid⟩ := haccepted
  refine ⟨s, hs, hvalid, ?_⟩
  -- behind its first digit the number stays in base ten
  obtain ⟨p₀, hp₀⟩ : ∃ p, p = entered config .leadDigit (behindMinus negative) d := ⟨_, rfl⟩
  have hfirst : ∀ w, runFrom config {} (Number.minus negative ++ d :: w) = runFrom config p₀ w := by
    intro w
    rw [runFrom_minus hc]
    exact runFrom_step (t := .leadDigit) hc (by simp [behindMinus])
      (open_behindMinus negative (by simp)) (by simpa [canEnter] using hd) hp₀.symm w
  have hdecimal : DecimalRun p₀ := by
    rw [hp₀]
    exact ⟨rfl, by simp [Numeric.entered], by simp [Numeric.entered]⟩
  rw [hbegin, List.append_assoc, List.cons_append, hfirst, runFrom_append,
    Option.bind_eq_some_iff] at hs
  obtain ⟨p, hp, hlast⟩ := hs
  obtain ⟨-, hp⟩ := runFrom_induction hc (fun _ _ h _ ht ha c _ => h.entered ht ha c)
    (confined_of_base (by simp [hdecimal.base])) hdecimal hp
  rw [runFrom_floatLetter hc hp width hlast, kind_decode_floatSpecifier]

end Numeric

end Lexing
