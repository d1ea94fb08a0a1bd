import Mathlib.Algebra.Order.Field.Rat
import Mathlib.Tactic.Linarith
import Lexing.Proofs.Numeric.Announced

/-!
# Digits of a fraction that are dropped

The digits behind the fraction character are added to a 64-bit word, and one
that does not fit is dropped. Whether it fits is asked for each digit anew, so a
digit may be dropped and a smaller one behind it taken in its place, as if the
first had never been there. That can happen at one number only, the `brim`: below
it every digit fits, and above it none does. So what is remembered of a fraction
is told by three cases (`Kept`). Every digit has been taken; or the brim has been
reached, and the first digit since was an 8 or a 9 and has been dropped, like all
those behind it; or no digit fits any more.

In the last two cases the word has 18 digits at least. What has been dropped
amounts to less than one unit of its last place, or less than ten where a digit
was taken late, and that one digit has made the word ten times as large. Either
way it is to the word at most as one to the brim (`fraction_within`).
-/

namespace Lexing.Numeric

variable {config : NumericConfig}

/-! ## Adding digits that fit -/

/-- **The brim** of a word: the largest number to which a digit can be added. -/
def brim : Nat := 922337203685477580

/-- A digit is added to a word if the result is a word. -/
theorem appendDigit?_ofNat {f : Nat} (hf : f < 2 ^ 63) (radix d : Nat) :
    appendDigit? (Int64.ofNat f) radix d
      = if f * radix + d < 2 ^ 63 then some (Int64.ofNat (f * radix + d)) else none := by
  have hword : (Int64.ofNat f).toInt = f := Int64.toInt_ofNat_of_lt hf
  have hmax : Int64.maxValue.toInt = 2 ^ 63 - 1 := rfl
  have hnext : (f : Int) * radix + d = (f * radix + d : Nat) := by push_cast; rfl
  unfold appendDigit?
  simp only [hword, hmax, hnext]
  by_cases hfit : f * radix + d < 2 ^ 63
  · rw [if_pos hfit, if_pos (by omega)]
    rfl
  · rw [if_neg hfit, if_neg (by omega)]

/-- **A number begins like a shorter one**: with `m` digits more it lies less
than `e` units of the last place above it. -/
structure Continues (N f e m : Nat) : Prop where
  le : f * 10 ^ m ≤ N
  lt : N < (f + e) * 10 ^ m

variable {N n f k d e m : Nat}

theorem Continues.snoc (h : Continues N f e m) (hd : d ≤ 9) :
    Continues (N * 10 + d) f e (m + 1) := by
  obtain ⟨hle, hlt⟩ := h
  constructor
  · rw [Nat.pow_succ, ← Nat.mul_assoc]
    omega
  · rw [Nat.pow_succ, ← Nat.mul_assoc]
    omega

/-- The bounds may be moved apart. -/
theorem Continues.widen (h : Continues N f e m) {f' e' : Nat} (hlow : f' ≤ f)
    (hhigh : f + e ≤ f' + e') : Continues N f' e' m :=
  ⟨Nat.le_trans (Nat.mul_le_mul_right _ hlow) h.le,
    Nat.lt_of_lt_of_le h.lt (Nat.mul_le_mul_right _ hhigh)⟩

/-- Without its last digit the shorter number is wrong by less than one unit. -/
theorem Continues.shorten (h : Continues N (f * 10 + d) e m) (hd : d + e ≤ 10) :
    Continues N f 1 (m + 1) := by
  have hwide : Continues N (f * 10) 10 m := h.widen (by omega) (by omega)
  obtain ⟨hle, hlt⟩ := hwide
  constructor
  · rw [Nat.pow_succ, Nat.mul_comm (10 ^ m), ← Nat.mul_assoc]
    exact hle
  · rw [Nat.pow_succ, Nat.mul_comm (10 ^ m), ← Nat.mul_assoc, Nat.add_mul]
    exact hlt

/-- **What is kept of a number** `N` with `n` digits: a word `f` with `k` of
them. -/
inductive Kept : (N n f k : Nat) → Prop
  /-- every digit has been taken -/
  | whole {N n : Nat} (hword : N < 2 ^ 63) : Kept N n N n
  /-- the word is at the brim, and an 8 or a 9 has been dropped behind it -/
  | brimful {N k m : Nat} (hrest : Continues N (brim * 10 + 8) 2 m) :
      Kept N (k + (m + 1)) brim k
  /-- the word is past the brim, and wrong by less than `e` units -/
  | past {N f k m e : Nat} (hover : brim < f) (hword : f < 2 ^ 63) (he : e * brim ≤ f)
      (hrest : Continues N f e m) : Kept N (k + m) f k

/-- A digit that fits is taken. -/
theorem Kept.take (h : Kept N n f k) (hd : d ≤ 9) (hfit : f * 10 + d < 2 ^ 63) :
    Kept (N * 10 + d) (n + 1) (f * 10 + d) (k + 1) := by
  cases h with
  | whole => exact .whole hfit
  | brimful hrest =>
    -- the digit stands where a larger one was dropped
    have hsmaller : d ≤ 7 := by
      unfold brim at hfit
      omega
    rw [Nat.add_right_comm]
    refine .past (e := 10) (by unfold brim; omega) hfit (by omega) ?_
    exact (hrest.snoc hd).widen (by omega) (by omega)
  | past hover => exact absurd hfit (by unfold brim at hover; omega)

/-- A digit that does not fit is dropped. -/
theorem Kept.drop (h : Kept N n f k) (hd : d ≤ 9) (hfull : 2 ^ 63 ≤ f * 10 + d) :
    Kept (N * 10 + d) (n + 1) f k := by
  cases h with
  | whole hword =>
    by_cases hbrim : N = brim
    · subst hbrim
      have hlarge : 8 ≤ d := by
        unfold brim at hfull
        omega
      exact .brimful ⟨by omega, by omega⟩
    · have hover : brim < N := by
        unfold brim at hbrim ⊢
        omega
      exact .past (e := 1) hover hword (by omega) ⟨by omega, by omega⟩
  | brimful hrest => exact .brimful (hrest.snoc hd)
  | past hover hword he hrest => exact .past hover hword he (hrest.snoc hd)

/-- **What the three cases have in common**: unless every digit has been taken, the
word is large, and its error is small beside it. -/
theorem Kept.cases (h : Kept N n f k) : f < 2 ^ 63 ∧ (k = n ∧ f = N ∨
    brim ≤ f ∧ ∃ m e, n = k + m ∧ e * brim ≤ f ∧ Continues N f e m) := by
  cases h with
  | whole hword => exact ⟨hword, .inl ⟨rfl, rfl⟩⟩
  | brimful hrest =>
    exact ⟨by decide, .inr ⟨Nat.le_refl _, _, 1, rfl, by omega, hrest.shorten (by decide)⟩⟩
  | past hover hword he hrest =>
    exact ⟨hword, .inr ⟨Nat.le_of_lt hover, _, _, rfl, he, hrest⟩⟩

/-! ## Reading the digits of a fraction -/

/-- The digits of a run, without its separators. -/
def digitCount (config : NumericConfig) (ds : List Char) : Nat :=
  (ds.filter (· != config.separator)).length

theorem digitCount_separator (config : NumericConfig) (ds : List Char) :
    digitCount config (ds ++ [config.separator]) = digitCount config ds := by
  simp [digitCount]

theorem digitCount_digit {c : Char} (h : c ≠ config.separator) (ds : List Char) :
    digitCount config (ds ++ [c]) = digitCount config ds + 1 := by
  simp [digitCount, h]

theorem digitValue_le {c : Char} (h : isDigitIn Base.decimal.radix c = true) :
    digitValue c ≤ 9 := by
  have key : ∀ k < 128, isDigitIn Base.decimal.radix (Char.ofNat k) = true →
      digitValue (Char.ofNat k) ≤ 9 := by decide +kernel
  exact forall_lt_of_ofNat (P := fun c => isDigitIn Base.decimal.radix c = true →
    digitValue c ≤ 9) key (lt_of_isDigitIn h) h

section Digit

variable {s : Progress} {c : Char}

/-- A digit of a fraction joins the word if it fits. -/
theorem entered_digit_of_lt (hbase : s.base = .decimal) (hpart : s.part = .fraction)
    (hf : s.fraction = Int64.ofNat f) (hsep : c ≠ config.separator)
    (hfit : f * 10 + digitValue c < 2 ^ 63) :
    entered config .digit s c = { s with
      stage := .digit
      valid := true
      fraction := Int64.ofNat (f * 10 + digitValue c)
      fractionDigits := s.fractionDigits + 1 } := by
  have happend := appendDigit?_ofNat (by omega : f < 2 ^ 63) 10 (digitValue c)
  rw [if_pos hfit] at happend
  simp [entered, onEnter, hsep, takeDigit, hpart, hbase, hf, Base.radix, happend]

/-- And if it does not, it is read for nothing. -/
theorem entered_digit_of_le (hbase : s.base = .decimal) (hpart : s.part = .fraction)
    (hf : s.fraction = Int64.ofNat f) (hsep : c ≠ config.separator) (hword : f < 2 ^ 63)
    (hfull : 2 ^ 63 ≤ f * 10 + digitValue c) :
    entered config .digit s c = { s with stage := .digit, valid := true } := by
  have happend := appendDigit?_ofNat hword 10 (digitValue c)
  rw [if_neg (Nat.not_lt.2 hfull)] at happend
  simp [entered, onEnter, hsep, takeDigit, hpart, hbase, hf, Base.radix, happend]

end Digit

/-- **A fraction of which nothing has been read.** -/
structure FractionOpen (s : Progress) : Prop where
  base : s.base = .decimal
  part : s.part = .fraction
  fraction : s.fraction = 0
  fractionDigits : s.fractionDigits = 0

/-- **Digits are kept as long as they fit.** -/
theorem FractionOpen.kept {s : Progress} (hs : FractionOpen s) {ds : List Char}
    (hds : DigitRun config .decimal ds) :
    (readDigits config s ds).base = .decimal ∧ (readDigits config s ds).part = .fraction ∧
      ∃ f, (readDigits config s ds).fraction = Int64.ofNat f ∧
        Kept (runNumber config .decimal ds) (digitCount config ds) f
          (readDigits config s ds).fractionDigits := by
  induction ds using List.reverseRecOn with
  | nil =>
    refine ⟨hs.base, hs.part, 0, hs.fraction, ?_⟩
    rw [show (readDigits config s []).fractionDigits = 0 from hs.fractionDigits]
    exact .whole (Nat.two_pow_pos 63)
  | append_singleton ds c ih =>
    rw [DigitRun, List.forall_mem_append] at hds
    obtain ⟨hds, hlast⟩ := hds
    obtain ⟨hbase, hpart, f, hf, hkept⟩ := ih hds
    have hdigit := hlast c (List.mem_singleton.mpr rfl)
    rw [readDigits_snoc]
    by_cases hsep : c = config.separator
    · rw [hsep, runNumber_separator, digitCount_separator]
      have hsame : entered config .digit (readDigits config s ds) config.separator
          = { readDigits config s ds with stage := .digit } := by simp [entered, onEnter]
      rw [hsame]
      exact ⟨hbase, hpart, f, hf, hkept⟩
    · have hdigit := hdigit.resolve_left hsep
      rw [runNumber_digit hsep, digitCount_digit hsep, ← digitValue_eq hdigit]
      have hd := digitValue_le hdigit
      by_cases hfit : f * 10 + digitValue c < 2 ^ 63
      · rw [entered_digit_of_lt hbase hpart hf hsep hfit]
        exact ⟨hbase, hpart, _, rfl, hkept.take hd hfit⟩
      · have hfull := Nat.not_lt.1 hfit
        rw [entered_digit_of_le hbase hpart hf hsep hkept.cases.1 hfull]
        exact ⟨hbase, hpart, f, hf, hkept.drop hd hfull⟩

/-! ## Where a fraction begins -/

/-- **In front of the fraction character** no digit counts for the fraction. -/
structure Unbegun (s : Progress) : Prop where
  part : s.stage ∈ [.start, .leadZero, .leadDigit] → s.part = .integral
  fraction : s.part = .integral → s.fraction = 0 ∧ s.fractionDigits = 0

/-- An edge to the first digit or to the fraction character is open to the whole
of a literal alone. -/
theorem Unbegun.part_eq {s : Progress} (hs : Unbegun s) {t : Stage}
    (ht : t ∈ s.stage.targets) (ha : allows s.stage t s = true)
    (hfirst : t ∈ [.leadZero, .leadDigit, .fraction]) : s.part = .integral := by
  by_cases hstart : s.stage ∈ [.start, .leadZero, .leadDigit]
  · exact hs.part hstart
  · cases hst : s.stage with
    | start | leadZero | leadDigit => simp [hst] at hstart
    | sign | digit =>
      rw [hst] at ha ht
      simp only [List.mem_cons, List.not_mem_nil, or_false] at hfirst
      rcases hfirst with rfl | rfl | rfl <;> simp_all [allows, Stage.targets]
    | _ =>
      rw [hst] at ht
      simp only [List.mem_cons, List.not_mem_nil, or_false] at hfirst
      rcases hfirst with rfl | rfl | rfl <;> simp [Stage.targets] at ht

/-- What is entered before the fraction character leaves the fraction alone. -/
theorem fraction_entered {s : Progress} {t : Stage} {c : Char}
    (h : (entered config t s c).part = .integral) :
    s.part = .integral ∧ (entered config t s c).fraction = s.fraction ∧
      (entered config t s c).fractionDigits = s.fractionDigits := by
  cases t with
  | fraction | exponent => exact nomatch h
  | digit =>
    obtain ⟨v, i, f, x, n, heq⟩ := exists_entered_digit_eq config s c
    rw [heq] at h
    have hpart : s.part = .integral := h
    refine ⟨hpart, ?_⟩
    unfold entered onEnter takeDigit
    simp only [hpart]
    split <;> exact ⟨rfl, rfl⟩
  | sign =>
    have hsign : (takeSign s (if c = '-' then .negative else .positive)).part = .integral := h
    rw [part_takeSign] at hsign
    refine ⟨hsign, ?_⟩
    unfold entered onEnter takeSign
    simp [hsign]
  | _ => exact ⟨h, rfl, rfl⟩

/-- A step in front of the fraction character is one. -/
theorem Unbegun.entered {s : Progress} (hs : Unbegun s) {t : Stage} (ht : t ∈ s.stage.targets)
    (ha : allows s.stage t s = true) (c : Char) : Unbegun (entered config t s c) where
  part hmem := by
    have hmem : t ∈ [.start, .leadZero, .leadDigit] := hmem
    simp only [List.mem_cons, List.not_mem_nil, or_false] at hmem
    rcases hmem with rfl | rfl | rfl
    · cases hst : s.stage <;> simp [hst, Stage.targets] at ht
    · exact hs.part_eq ht ha (by simp)
    · exact hs.part_eq ht ha (by simp)
  fraction hpart := by
    obtain ⟨hbefore, hfraction, hdigits⟩ := fraction_entered hpart
    rw [hfraction, hdigits]
    exact hs.fraction hbefore

/-- **Behind the fraction character** nothing of the fraction has been read. -/
theorem fractionOpen_of_run (hc : Separated config) {front : List Char} {p : Progress}
    (hp : runFrom config {} (front ++ [config.fraction]) = some p) :
    FractionOpen p ∧ Confined p ∧ DigitOpen p := by
  rw [runFrom_append, Option.bind_eq_some_iff] at hp
  obtain ⟨s, hs, hlast⟩ := hp
  obtain ⟨hconf, hbefore⟩ := runFrom_induction hc (P := Unbegun)
    (fun s _ hs t ht ha c _ => hs.entered ht ha c) confined_fresh
    ⟨fun _ => rfl, fun _ => ⟨rfl, rfl⟩⟩ hs
  obtain ⟨t, ht, ha, he, heq⟩ := (runFrom_cons_iff hc hconf).mp hlast
  obtain rfl : t = .fraction := by
    by_contra hne
    exact ne_fraction_of_canEnter hc he hne rfl
  obtain rfl := Option.some.inj heq
  obtain ⟨hfraction, hdigits⟩ := hbefore.fraction (hbefore.part_eq ht ha (by simp))
  exact ⟨⟨rfl, rfl, hfraction, hdigits⟩, confined_of_base (by simp [entered, onEnter]),
    by simp [DigitOpen, entered, Stage.targets, allows]⟩

/-- Digits are read to their end behind the fraction character. -/
theorem runFrom_fraction (hc : Separated config) {front ds : List Char} {p : Progress}
    (hp : runFrom config {} (front ++ [config.fraction]) = some p)
    (hds : DigitRun config .decimal ds) :
    runFrom config {} (front ++ config.fraction :: ds) = some (readDigits config p ds) := by
  obtain ⟨hfresh, hconf, hopen⟩ := fractionOpen_of_run hc hp
  have hrun : ∀ c ∈ ds, inRun config p.base c = true := fun c hmem => by
    simpa [inRun, hfresh.base] using hds c hmem
  have hdigits := runFrom_digits hc hconf hopen hrun []
  rw [List.append_nil] at hdigits
  rw [List.append_cons, runFrom_append, hp, Option.bind_some, hdigits]
  rfl

/-! ## How near the fraction comes -/

/-- A large word that a number begins with is near to it, and on its lower side. -/
theorem Continues.near (h : Continues N f e m) (he : e * brim ≤ f) (hf : brim ≤ f) (k : Nat) :
    |(N : ℚ) / 10 ^ (k + m) * 10 ^ k - f| * brim ≤ f ∧
      |(f : ℚ) / 10 ^ k - N / 10 ^ (k + m)| * 2 ^ 59 < N / 10 ^ (k + m) := by
  obtain ⟨y, hy⟩ : ∃ y : ℚ, y = N / 10 ^ m := ⟨_, rfl⟩
  have hten : ∀ i : Nat, (0 : ℚ) < 10 ^ i := fun i => by positivity
  have hx : (N : ℚ) / 10 ^ (k + m) = y / 10 ^ k := by
    rw [hy, div_div, pow_add, mul_comm]
  have hle : (f : ℚ) ≤ y := by
    rw [hy, le_div_iff₀ (hten m)]
    exact_mod_cast h.le
  have hlt : y < f + e := by
    rw [hy, div_lt_iff₀ (hten m)]
    exact_mod_cast h.lt
  have herror : (y - f) * brim ≤ f := by
    have hunits : (e : ℚ) * brim ≤ f := by exact_mod_cast he
    have hless : (y - f) * brim ≤ e * brim :=
      mul_le_mul_of_nonneg_right (by linarith) (Nat.cast_nonneg _)
    exact hless.trans hunits
  have hpos : (0 : ℚ) < f := by
    have : 0 < f := Nat.lt_of_lt_of_le (by decide) hf
    exact_mod_cast this
  constructor
  · rw [hx, div_mul_cancel₀ _ (hten k).ne', abs_of_nonneg (sub_nonneg.mpr hle)]
    exact herror
  · have hsub : (f : ℚ) / 10 ^ k - y / 10 ^ k = -((y - f) / 10 ^ k) := by ring
    have hscaled : (y - f) * 2 ^ 59 < y := by
      have hbrim : (brim : ℚ) = 2 ^ 59 + 345876451382054092 := by norm_num [brim]
      rw [hbrim] at herror
      nlinarith
    rw [hx, hsub, abs_neg, abs_of_nonneg (div_nonneg (sub_nonneg.mpr hle) (hten k).le),
      div_mul_eq_mul_div]
    exact div_lt_div_of_pos_right hscaled (hten k)

/-- **The number that fraction digits denote**: 0.d₁d₂d₃… -/
def fractionOf (config : NumericConfig) (ds : List Char) : ℚ :=
  runNumber config .decimal ds / 10 ^ digitCount config ds

/-- **Digits that are dropped do not matter.** Behind the fraction character of a
literal stand any digits, with separators anywhere among them. They are read to
their end; what is remembered of them is a word that is not negative, and no more
digits are counted than there are. Either every digit has been taken, and the word
is the fraction exactly, or the word has reached the brim, and differs from the
fraction by at most the part of it that one is of the brim: relative to the fraction
by less than `2^-59`. -/
theorem fraction_within (hconfig : config.validate = .ok ()) (id : Nat)
    (reserved : Option Reserved) {front : List Char} {p : Progress}
    (hfront : (Token.numeric config id).run ((Token.numeric config id).fresh reserved) []
      (front ++ [config.fraction]) = some p)
    {ds : List Char} (hds : DigitRun config .decimal ds) :
    ∃ s, (Token.numeric config id).run ((Token.numeric config id).fresh reserved) []
        (front ++ config.fraction :: ds) = some s ∧
      0 ≤ s.fraction.toInt ∧ s.fraction.toInt < 2 ^ 63 ∧
      s.fractionDigits ≤ digitCount config ds ∧
      (s.fractionDigits = digitCount config ds ∧
          (s.fraction.toInt : ℚ) / 10 ^ s.fractionDigits = fractionOf config ds ∨
        922337203685477580 ≤ s.fraction.toInt ∧
          |fractionOf config ds * 10 ^ s.fractionDigits - s.fraction.toInt| * 922337203685477580
            ≤ s.fraction.toInt ∧
          |(s.fraction.toInt : ℚ) / 10 ^ s.fractionDigits - fractionOf config ds| * 2 ^ 59
            < fractionOf config ds) := by
  have hc := separated_of_validate hconfig
  rw [run_numeric] at hfront
  have hp : runFrom config {} (front ++ [config.fraction]) = some p := hfront
  obtain ⟨-, -, f, hf, hkept⟩ := (fractionOpen_of_run hc hp).1.kept hds
  obtain ⟨hword, hcases⟩ := hkept.cases
  have hint : (readDigits config p ds).fraction.toInt = f := by
    rw [hf, Int64.toInt_ofNat_of_lt hword]
  refine ⟨readDigits config p ds, by rw [run_numeric]; exact runFrom_fraction hc hp hds, ?_⟩
  rw [hint]
  refine ⟨Int.natCast_nonneg f, by exact_mod_cast hword, ?_, ?_⟩
  · obtain ⟨hk, -⟩ | ⟨-, m, e, hn, -⟩ := hcases
    · exact Nat.le_of_eq hk
    · omega
  · obtain ⟨hk, rfl⟩ | ⟨hbrim, m, e, hn, he, hrest⟩ := hcases
    · exact .inl ⟨hk, by rw [fractionOf, hk]; rfl⟩
    · have hnear := hrest.near he hbrim (readDigits config p ds).fractionDigits
      rw [← hn] at hnear
      exact .inr ⟨by exact_mod_cast hbrim, hnear⟩

/-- At the brim an 8 is dropped, and the 7 behind it is taken in its place. -/
theorem fraction_within_late :
    let token := Token.numeric {} 0
    let ds := "922337203685477580'87".toList
    ({} : NumericConfig).validate = .ok () ∧ DigitRun {} .decimal ds ∧
      ∃ p, token.run (token.fresh none) [] (['-', '3'] ++ ['.']) = some p ∧
        ∃ s, token.run (token.fresh none) [] (['-', '3'] ++ '.' :: ds) = some s ∧
          0 ≤ s.fraction.toInt ∧ s.fraction.toInt < 2 ^ 63 ∧
          s.fractionDigits ≤ digitCount {} ds ∧
          (s.fractionDigits = digitCount {} ds ∧
              (s.fraction.toInt : ℚ) / 10 ^ s.fractionDigits = fractionOf {} ds ∨
            922337203685477580 ≤ s.fraction.toInt ∧
              |fractionOf {} ds * 10 ^ s.fractionDigits - s.fraction.toInt| * 922337203685477580
                ≤ s.fraction.toInt ∧
              |(s.fraction.toInt : ℚ) / 10 ^ s.fractionDigits - fractionOf {} ds| * 2 ^ 59
                < fractionOf {} ds) := by
  intro token ds
  have hall : ds.all (fun c => c = '\'' ∨ isDigitIn 10 c = true) = true := by decide
  have hds : DigitRun {} .decimal ds := fun c hc =>
    of_decide_eq_true (List.all_eq_true.1 hall c hc)
  exact ⟨rfl, hds, _, rfl, fraction_within rfl 0 none rfl hds⟩

/-- Of its 20 digits 19 are counted. -/
example : (runFrom {} {} ".922337203685477580'87".toList).map
    (fun s => (s.fraction.toInt, s.fractionDigits)) = some (9223372036854775807, 19) := by
  decide +kernel

end Lexing.Numeric
