import Lexing.Proofs.Numeric.Spelling

/-!
# What the text of a literal announces

The table of numeric literals remembers a base and a type. Both are settled in
several of its stages, and some of these change what others have settled. But
at each point of a run they are what the text read so far announces: the base is
hexadecimal exactly if the text begins with the letter of that base
(`base_eq_hex_iff`), and, before any suffix for a floating-point width, the type
is one of floating-point numbers exactly if the text holds the fraction
character or a negative exponent (`floatForm_cases`).

The base is followed from the first characters on: behind them nothing makes a
number hexadecimal or takes that back (`Settled`). The type is followed from the
end of the text, since what a minus means depends on the character before it
(`run_induction`).
-/

namespace Lexing.Numeric

variable {config : NumericConfig}

/-! ## Characters with a meaning of their own -/

/-- A character that every grammar knows enters only the stages that it marks. -/
theorem ne_of_canEnter (hc : Separated config) {s : Progress} {t : Stage} {c d : Char}
    (he : canEnter config t s c = true) (hd : d ∈ NumericConfig.takenChars)
    (hmark : d ∉ marks s.base t) : c ≠ d := by
  rintro rfl
  obtain hm | ⟨-, rfl⟩ | ⟨-, rfl⟩ := mem_marks_of_canEnter he
  · exact hmark hm
  · exact hc.separator_notMem hd
  · exact hc.fraction_notMem hd

/-- The fraction character enters its own stage alone. -/
theorem ne_fraction_of_canEnter (hc : Separated config) {s : Progress} {t : Stage} {c : Char}
    (he : canEnter config t s c = true) (ht : t ≠ .fraction) : c ≠ config.fraction := by
  rintro rfl
  obtain hm | ⟨-, heq⟩ | ⟨heq, -⟩ := mem_marks_of_canEnter he
  · exact hc.fraction_notMem (marks_subset _ _ _ hm)
  · exact hc.separator_ne heq.symm
  · exact ht heq

/-- A minus is a sign. -/
theorem ne_minus_of_canEnter (hc : Separated config) {s : Progress} {t : Stage} {c : Char}
    (he : canEnter config t s c = true) (ht : t ≠ .sign) : c ≠ '-' := by
  refine ne_of_canEnter hc he (by decide) ?_
  cases t with
  | sign => exact absurd rfl ht
  | digit => cases hb : s.base <;> simp [marks, Base.digits]
  | _ => simp [marks]

/-- No mark of a stage enters another one that shares none of them. -/
theorem notMem_marks_of_canEnter (hc : Separated config) {s : Progress} {t u : Stage} {c : Char}
    (he : canEnter config t s c = true) (htu : ∀ d ∈ marks s.base u, d ∉ marks s.base t) :
    c ∉ marks s.base u := by
  intro hmem
  exact ne_of_canEnter hc he (marks_subset s.base u c hmem) (htu c hmem) rfl

/-! ## The base -/

/-- **Behind the first characters of a literal**: no leading zero and no letter of
a base is to come. -/
structure Settled (s : Progress) : Prop where
  stage : s.stage ∉ [.start, .leadZero]
  part : s.stage ∈ [.exponent, .sign] → s.part = .exponent

/-- From there on only a sign of the exponent can be one. -/
theorem Settled.target {s : Progress} (hs : Settled s) {t : Stage} (ht : t ∈ s.stage.targets)
    (ha : allows s.stage t s = true) :
    t ∉ [.start, .leadZero, .baseSpecifier] ∧ (t = .sign → s.part = .exponent) := by
  obtain ⟨hstage, hpart⟩ := hs
  cases hst : s.stage with
  | start | leadZero => simp [hst] at hstage
  | sign =>
    have hp : s.part = .exponent := hpart (by simp [hst])
    rw [hst] at ht ha
    simp only [Stage.targets, List.mem_cons, List.not_mem_nil, or_false] at ht
    rcases ht with rfl | rfl | rfl | rfl <;> simp [allows, hp] at ha ⊢
  | exponent =>
    have hp : s.part = .exponent := hpart (by simp [hst])
    rw [hst] at ht
    simp only [Stage.targets, List.mem_cons, List.not_mem_nil, or_false] at ht
    rcases ht with rfl | rfl <;> simp [hp]
  | floatSpecifier => simp [hst, Stage.targets] at ht
  | _ =>
    rw [hst] at ht
    simp only [Stage.targets, List.mem_cons, List.not_mem_nil, or_false] at ht ⊢
    grind

theorem Settled.entered {s : Progress} (hs : Settled s) {t : Stage} (ht : t ∈ s.stage.targets)
    (ha : allows s.stage t s = true) (c : Char) : Settled (entered config t s c) := by
  obtain ⟨htarget, hsign⟩ := hs.target ht ha
  refine ⟨?_, ?_⟩
  · show t ∉ [.start, .leadZero]
    intro hmem
    exact htarget (List.mem_append_left [Stage.baseSpecifier] hmem)
  · show t ∈ [.exponent, .sign] → _
    intro hmem
    simp only [List.mem_cons, List.not_mem_nil, or_false] at hmem
    rcases hmem with rfl | rfl
    · rfl
    · show (takeSign s _).part = .exponent
      rw [part_takeSign]
      exact hsign rfl

/-- No fraction follows hexadecimal digits. -/
theorem base_ne_hex_of_fraction {s : Progress} (hconf : Confined s)
    (ht : .fraction ∈ s.stage.targets) (ha : allows s.stage .fraction s = true) :
    s.base ≠ .hex := by
  intro hb
  have hst := hconf hb
  simp only [List.mem_cons, List.not_mem_nil, or_false] at hst
  rcases hst with hst | hst | hst | hst | hst <;> simp [hst, Stage.targets, allows, hb] at ht ha

/-- **What follows leaves a number hexadecimal** or not, as it is. -/
theorem Settled.base_entered {s : Progress} (hs : Settled s) (hconf : Confined s) {t : Stage}
    (ht : t ∈ s.stage.targets) (ha : allows s.stage t s = true) (c : Char) :
    (Numeric.entered config t s c).base = Base.hex ↔ s.base = .hex := by
  obtain ⟨htarget, -⟩ := hs.target ht ha
  by_cases hfraction : t = .fraction
  · subst hfraction
    have hbase := base_ne_hex_of_fraction hconf ht ha
    constructor
    · intro h
      cases h
    · exact fun h => absurd h hbase
  · simp only [List.mem_cons, List.not_mem_nil, or_false, not_or] at htarget
    rw [Numeric.base_entered (by simp [htarget, hfraction])]

theorem Settled.base_runFrom (hc : Separated config) {s s' : Progress} (hconf : Confined s)
    (hs : Settled s) {w : List Char} (h : runFrom config s w = some s') :
    s'.base = .hex ↔ s.base = .hex := by
  refine (runFrom_induction hc (P := fun p => Settled p ∧ (p.base = .hex ↔ s.base = .hex))
    ?_ hconf ⟨hs, Iff.rfl⟩ h).2.2
  rintro p hp ⟨hsettled, hbase⟩ t ht ha c -
  exact ⟨hsettled.entered ht ha c, (hsettled.base_entered hp ht ha c).trans hbase⟩

theorem settled_entered {t : Stage} (ht : t ∉ [.start, .leadZero, .exponent, .sign])
    (s : Progress) (c : Char) : Settled (entered config t s c) := by
  simp only [List.mem_cons, List.not_mem_nil, or_false, not_or] at ht
  exact ⟨by simp [entered, ht], by simp [entered, ht]⟩

/-- Behind a leading zero: the letter of a base, or a number that is not
hexadecimal. -/
theorem base_eq_hex_iff_of_zero (hc : Separated config) {t : List Char} {p s : Progress}
    (hst : p.stage = .leadZero) (hbase : p.base = .octal) (h : runFrom config p t = some s) :
    s.base = .hex ↔ baseOf ('0' :: t) = .hex := by
  have hconf : Confined p := confined_of_base (by simp [hbase])
  cases t with
  | nil =>
    obtain rfl := Option.some.inj h
    simp [hbase, baseOf]
  | cons d v =>
    obtain ⟨t, ht, ha, he, hrun⟩ := (runFrom_cons_iff hc hconf).mp h
    have hsettled : Settled (entered config t p d) := by
      by_cases hexponent : t = .exponent
      · subst hexponent
        exact ⟨by simp [entered], fun _ => rfl⟩
      · refine settled_entered ?_ p d
        rw [hst] at ht
        simp only [Stage.targets, List.mem_cons, List.not_mem_nil, or_false] at ht ⊢
        grind
    rw [hsettled.base_runFrom hc (hconf.entered ht ha d) hrun]
    by_cases hletter : t = .baseSpecifier
    · subst hletter
      have hd : d ∈ ['b', 'B', 'x', 'X'] := by simpa [canEnter] using he
      simp only [List.mem_cons, List.not_mem_nil, or_false] at hd
      show (if d.toLower = 'b' then Base.binary else .hex) = .hex ↔ _
      rcases hd with rfl | rfl | rfl | rfl <;> simp [baseOf]
    · have hmark : d ∉ marks p.base .baseSpecifier := by
        refine notMem_marks_of_canEnter hc he ?_
        cases t with
        | baseSpecifier => exact absurd rfl hletter
        | digit => simp [marks, Base.digits, hbase]
        | _ => simp [marks]
      have hd : d ∉ ['b', 'B', 'x', 'X'] := by
        simp only [marks, List.mem_cons, List.not_mem_nil, or_false] at hmark ⊢
        grind
      have hhex : (entered config t p d).base ≠ .hex := by
        by_cases hfraction : t = .fraction
        · subst hfraction
          intro hdecimal
          cases hdecimal
        · have hzero : t ≠ .leadZero := by
            rintro rfl
            simp [hst, Stage.targets] at ht
          rw [base_entered (by simp [hletter, hfraction, hzero]), hbase]
          intro hoctal
          cases hoctal
      rw [baseOf_zero_cons hd]
      simp [hhex]

/-- **The base is the announced one**, for a literal behind its sign. -/
theorem base_eq_hex_iff_of_first (hc : Separated config) {st : Stage} {sign : Sign}
    {u : List Char} {s : Progress}
    (hst : st = .sign ∨ st = .start ∧ ∀ c t, u = c :: t → c ∉ ['+', '-'])
    (h : runFrom config { stage := st, sign := sign } u = some s) :
    s.base = .hex ↔ baseOf u = .hex := by
  have hconf : Confined { stage := st, sign := sign } := confined_of_base (by simp)
  cases u with
  | nil =>
    obtain rfl := Option.some.inj h
    simp [baseOf]
  | cons c v =>
    obtain ⟨t, ht, ha, he, hrun⟩ := (runFrom_cons_iff hc hconf).mp h
    have htarget : t ∈ [.leadZero, .leadDigit, .fraction] :=
      target_of_first (hst.imp_right (And.imp_right fun hsign => hsign c v rfl)) ht ha he
    by_cases hzero : t = .leadZero
    · subst hzero
      obtain rfl : c = '0' := by simpa [canEnter] using he
      exact base_eq_hex_iff_of_zero hc rfl rfl hrun
    · have hother : t = .leadDigit ∨ t = .fraction := by simpa [hzero] using htarget
      have hsettled : Settled (entered config t { stage := st, sign := sign } c) := by
        rcases hother with rfl | rfl <;> exact settled_entered (by simp) _ c
      have hdecimal : (entered config t { stage := st, sign := sign } c).base = .decimal := by
        rcases hother with rfl | rfl <;> rfl
      have hc0 : c ≠ '0' := by
        refine ne_of_canEnter hc he (by decide) ?_
        rcases hother with rfl | rfl <;> simp [marks]
      rw [hsettled.base_runFrom hc (hconf.entered ht ha c) hrun, hdecimal, baseOf_of_ne_zero hc0]

/-- **A literal is hexadecimal** exactly if its text begins so. -/
theorem base_eq_hex_iff (hc : Separated config) {w : List Char} {s : Progress}
    (h : runFrom config {} w = some s) : s.base = .hex ↔ baseOf (afterSign w) = .hex := by
  obtain ⟨st, sign, -, hst, hrun⟩ := exists_run_afterSign hc h
  exact base_eq_hex_iff_of_first hc hst hrun

/-! ## The end of a text -/

/-- **An open step**: into a stage that may follow, which the character can
enter. -/
structure OpenStep (config : NumericConfig) (s : Progress) (t : Stage) (c : Char) : Prop where
  target : t ∈ s.stage.targets
  allowed : allows s.stage t s = true
  enters : canEnter config t s c = true

/-- **The last step of a run.** -/
theorem exists_last_step (hc : Separated config) {w : List Char} {c : Char} {s : Progress}
    (h : runFrom config {} (w ++ [c]) = some s) :
    ∃ p t, runFrom config {} w = some p ∧ OpenStep config p t c ∧ s = entered config t p c := by
  rw [runFrom_append, Option.bind_eq_some_iff] at h
  obtain ⟨p, hp, hlast⟩ := h
  have hconf : Confined p := confined_fresh.runFrom hc hp
  obtain ⟨t, ht, ha, he, hs⟩ := (runFrom_cons_iff hc hconf).mp hlast
  exact ⟨p, t, hp, ⟨ht, ha, he⟩, (Option.some.inj hs).symm⟩

/-- **What holds of the empty text and is kept by every open step** holds of each
text with the point to which it leads. -/
theorem run_induction (hc : Separated config) {P : List Char → Progress → Prop} (hnil : P [] {})
    (hsnoc : ∀ w p t c, runFrom config {} w = some p → P w p → OpenStep config p t c →
      P (w ++ [c]) (entered config t p c))
    {w : List Char} {s : Progress} (h : runFrom config {} w = some s) : P w s := by
  induction w using List.reverseRecOn generalizing s with
  | nil =>
    obtain rfl := Option.some.inj h
    exact hnil
  | append_singleton w c ih =>
    obtain ⟨p, t, hp, hstep, rfl⟩ := exists_last_step hc h
    exact hsnoc w p t c hp (ih hp) hstep

/-- Nothing has been read at the start. -/
theorem eq_nil_of_start (hc : Separated config) {w : List Char} {s : Progress}
    (h : runFrom config {} w = some s) (hst : s.stage = .start) : w = [] := by
  rcases List.eq_nil_or_concat' w with rfl | ⟨v, c, rfl⟩
  · rfl
  · obtain ⟨p, t, -, hstep, rfl⟩ := exists_last_step hc h
    obtain rfl : t = .start := hst
    exact absurd hstep.enters (by simp [canEnter])

/-- The stage of exponents is entered by their letter. -/
theorem exists_letter_of_exponent (hc : Separated config) {w : List Char} {s : Progress}
    (h : runFrom config {} w = some s) (hst : s.stage = .exponent) :
    s.part = .exponent ∧ (['e'] <:+ w ∨ ['E'] <:+ w) := by
  rcases List.eq_nil_or_concat' w with rfl | ⟨v, c, rfl⟩
  · obtain rfl := Option.some.inj h
    cases hst
  · obtain ⟨p, t, -, hstep, rfl⟩ := exists_last_step hc h
    obtain rfl : t = .exponent := hst
    have hletter : c = 'e' ∨ c = 'E' := by simpa [canEnter] using hstep.enters
    refine ⟨rfl, ?_⟩
    rcases hletter with rfl | rfl
    · exact .inl (List.suffix_append v ['e'])
    · exact .inr (List.suffix_append v ['E'])

/-! ## The type -/

/-- **The form of a floating-point number**: the text holds the fraction
character, or a negative exponent, which is its letter with a minus behind it. -/
def FloatForm (config : NumericConfig) (w : List Char) : Prop :=
  config.fraction ∈ w ∨ ['e', '-'] <:+: w ∨ ['E', '-'] <:+: w

instance (config : NumericConfig) (w : List Char) : Decidable (FloatForm config w) :=
  inferInstanceAs (Decidable (_ ∨ _))

/-- A character that brings about the form of a floating-point number, behind a
text. -/
def Announces (config : NumericConfig) (w : List Char) (c : Char) : Prop :=
  c = config.fraction ∨ c = '-' ∧ (['e'] <:+ w ∨ ['E'] <:+ w)

theorem floatForm_nil : ¬ FloatForm config [] := by
  simp [FloatForm]

/-- **The form of a text** with one more character. -/
theorem floatForm_concat_iff {w : List Char} {c : Char} :
    FloatForm config (w ++ [c]) ↔ FloatForm config w ∨ Announces config w c := by
  have hpair : ∀ e, [e, '-'] <:+: w ++ [c] ↔ [e, '-'] <:+: w ∨ c = '-' ∧ [e] <:+ w := by
    intro e
    rw [List.infix_concat_iff, List.suffix_concat_iff, or_comm]
    refine or_congr_right ⟨?_, ?_⟩
    · rintro (h | ⟨t, ht, hw⟩)
      · cases h
      · have ht : [e] ++ ['-'] = t ++ [c] := ht
        obtain ⟨rfl, hc⟩ := List.append_inj' ht rfl
        exact ⟨(List.singleton_inj.mp hc).symm, hw⟩
    · rintro ⟨rfl, hw⟩
      exact .inr ⟨[e], rfl, hw⟩
  unfold FloatForm Announces
  rw [hpair, hpair, List.mem_append, List.mem_singleton]
  grind

/-- Elsewhere than as a fraction or a sign, a character announces nothing. -/
theorem not_announces (hc : Separated config) {p : Progress} {t : Stage} {c : Char}
    (he : canEnter config t p c = true) (ht : t ∉ [.fraction, .sign]) (w : List Char) :
    ¬ Announces config w c := by
  simp only [List.mem_cons, List.not_mem_nil, or_false, not_or] at ht
  rintro (hfraction | ⟨hminus, -⟩)
  · exact ne_fraction_of_canEnter hc he ht.1 hfraction
  · exact ne_minus_of_canEnter hc he ht.2 hminus

/-- Other signs leave the type as it is. -/
theorem type_entered_sign {p : Progress} {c : Char} (h : p.part = .exponent → c ≠ '-') :
    (entered config .sign p c).type = p.type := by
  show (takeSign p (if c = '-' then .negative else .positive)).type = p.type
  unfold takeSign
  split
  next hpart => rw [if_neg (h hpart)]; rfl
  next => rfl

/-- The suffix of a width makes an integer. -/
theorem isIntegral_entered_width {t : Stage} (ht : t ∈ [.widthSpecifier, .longSpecifier])
    (p : Progress) (c : Char) : (entered config t p c).type.isIntegral = true := by
  simp only [List.mem_cons, List.not_mem_nil, or_false] at ht
  rcases ht with rfl | rfl
  · show (ite _ _ _ : NumberType).isIntegral = true
    split_ifs <;> rfl
  · rfl

/-- **Every number is one of integers**, or a floating-point number for good. -/
theorem isIntegral_or_floating (hc : Separated config) {w : List Char} {s : Progress}
    (h : runFrom config {} w = some s) : s.type.isIntegral = true ∨ Floating s := by
  refine (runFrom_induction hc (P := fun p => p.type.isIntegral = true ∨ Floating p) ?_
    confined_fresh (.inl rfl) h).2
  rintro p - (hp | hp) t ht ha c -
  · cases t with
    | fraction | floatSpecifier => exact .inr (floating_entered (by simp) p c)
    | sign =>
      by_cases hneg : p.part = .exponent ∧ c = '-'
      · obtain ⟨hpart, rfl⟩ := hneg
        exact .inr (floating_entered_minus hpart)
      · rw [type_entered_sign fun hpart hminus => hneg ⟨hpart, hminus⟩]
        exact .inl hp
    | digit =>
      obtain ⟨v, i, f, x, n, heq⟩ := exists_entered_digit_eq config p c
      rw [heq]
      exact .inl hp
    | widthSpecifier | longSpecifier => exact .inl (isIntegral_entered_width (by simp) p c)
    | _ => exact .inl hp
  · exact .inr (hp.entered ht ha c)

/-- A sign announces a floating-point number behind the letter of an exponent,
if it is a minus. -/
theorem OpenStep.sign_type_cases (hc : Separated config) {w : List Char} {p : Progress} {c : Char}
    (hp : runFrom config {} w = some p) (hstep : OpenStep config p .sign c) :
    Announces config w c ∧ (entered config .sign p c).type = .unknownFloat
      ∨ ¬ Announces config w c ∧ (entered config .sign p c).type = p.type := by
  have hfraction : c ≠ config.fraction := ne_fraction_of_canEnter hc hstep.enters (by simp)
  have hst : p.stage = .start ∨ p.stage = .exponent := by
    have hmem := hstep.target
    revert hmem
    cases p.stage <;> simp [Stage.targets]
  rcases hst with hst | hst
  · right
    obtain rfl := eq_nil_of_start hc hp hst
    obtain rfl := Option.some.inj hp
    refine ⟨by simp [Announces, hfraction], type_entered_sign ?_⟩
    intro hpart
    cases hpart
  · obtain ⟨hpart, hletter⟩ := exists_letter_of_exponent hc hp hst
    by_cases hminus : c = '-'
    · subst hminus
      exact .inl ⟨.inr ⟨rfl, hletter⟩, by simp [entered, onEnter, takeSign, hpart]⟩
    · exact .inr ⟨by simp [Announces, hfraction, hminus], type_entered_sign fun _ => hminus⟩

/-- **What a step does to the type**, unless it enters the suffix of a
floating-point width: the type becomes that of floating-point numbers with the
characters that announce it, and is otherwise kept or one of integers still. -/
theorem OpenStep.type_cases (hc : Separated config) {w : List Char} {p : Progress} {t : Stage}
    {c : Char} (hp : runFrom config {} w = some p) (hstep : OpenStep config p t c)
    (ht : t ≠ .floatSpecifier) :
    Announces config w c ∧ (entered config t p c).type = .unknownFloat
      ∨ ¬ Announces config w c ∧ ((entered config t p c).type = p.type
        ∨ p.type.isIntegral = true ∧ (entered config t p c).type.isIntegral = true) := by
  have hsuffix : t ∈ [.widthSpecifier, .longSpecifier] → p.type.isIntegral = true := by
    intro hmem
    refine (isIntegral_or_floating hc hp).resolve_right fun hfloat => ?_
    have htarget := (hfloat.target hstep.target hstep.allowed).2
    revert hmem htarget
    cases t <;> simp
  cases t with
  | start => exact absurd hstep.enters (by simp [canEnter])
  | floatSpecifier => exact absurd rfl ht
  | fraction =>
    have heq : c = config.fraction := by simpa [canEnter] using hstep.enters
    exact .inl ⟨.inl heq, rfl⟩
  | sign => exact (hstep.sign_type_cases hc hp).imp_right (And.imp_right .inl)
  | widthSpecifier | longSpecifier =>
    exact .inr ⟨not_announces hc hstep.enters (by simp) w,
      .inr ⟨hsuffix (by simp), isIntegral_entered_width (by simp) p c⟩⟩
  | digit =>
    refine .inr ⟨not_announces hc hstep.enters (by simp) w, .inl ?_⟩
    obtain ⟨v, i, f, x, n, heq⟩ := exists_entered_digit_eq config p c
    rw [heq]
  | _ => exact .inr ⟨not_announces hc hstep.enters (by simp) w, .inl rfl⟩

/-- **The type is the announced one**, up to the suffix of a floating-point
width. -/
theorem floatForm_cases (hc : Separated config) {w : List Char} {s : Progress}
    (h : runFrom config {} w = some s) : s.stage = .floatSpecifier
      ∨ FloatForm config w ∧ s.type = .unknownFloat
      ∨ ¬ FloatForm config w ∧ s.type.isIntegral = true := by
  refine run_induction hc (P := fun w s => s.stage = .floatSpecifier
    ∨ FloatForm config w ∧ s.type = .unknownFloat
    ∨ ¬ FloatForm config w ∧ s.type.isIntegral = true) (.inr (.inr ⟨floatForm_nil, rfl⟩)) ?_ h
  intro w p t c hp ih hstep
  by_cases ht : t = .floatSpecifier
  · exact .inl ht
  · right
    have ih := ih.resolve_left fun hst => by simpa [hst, Stage.targets] using hstep.target
    rw [floatForm_concat_iff]
    rcases hstep.type_cases hc hp ht with ⟨hann, htype⟩ | ⟨hann, htype | ⟨hint, htype⟩⟩
    · exact .inl ⟨.inr hann, htype⟩
    · rw [htype]
      exact ih.imp (And.imp_left .inl) (And.imp_left fun hform => not_or.mpr ⟨hform, hann⟩)
    · have hform : ¬ FloatForm config w := by
        rcases ih with ⟨-, hunknown⟩ | ⟨hform, -⟩
        · simp [hunknown, NumberType.isIntegral] at hint
        · exact hform
      exact .inr ⟨not_or.mpr ⟨hform, hann⟩, htype⟩

end Lexing.Numeric
