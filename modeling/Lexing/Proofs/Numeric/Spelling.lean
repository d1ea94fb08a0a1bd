import Lexing.Proofs.Numeric.Digits

/-!
# What the text of an integer literal says

The parts of an integer literal can be read off its text without the table: a
sign, the base that the first characters announce, the digits of the whole, an
exponent and a suffix. This module takes a text apart in that way
(`afterSign`, `baseOf`, `wholeOf`, `tenPower`, `suffixOf`) and shows that the
table agrees: a run over an integer literal passes a point that remembers just
these numbers (`Counted`), and from there only a suffix is left
(`exists_counted`).

The digits of an exponent are digits of the base in force, which is the octal
one behind a bare zero. That makes no difference to the number, since the
whole is zero then.
-/

namespace Lexing.Numeric

variable {config : NumericConfig}

/-! ## Taking a text apart -/

/-- A text without its sign. -/
def afterSign : List Char → List Char
  | c :: w => if c ∈ ['+', '-'] then w else c :: w
  | [] => []

/-- The sign of a text, as a factor. -/
def signFactor (w : List Char) : Int := if w.head? = some '-' then -1 else 1

/-- The base that the first characters of a literal without sign announce. -/
def baseOf : List Char → Base
  | '0' :: 'b' :: _ | '0' :: 'B' :: _ => .binary
  | '0' :: 'x' :: _ | '0' :: 'X' :: _ => .hex
  | '0' :: _ => .octal
  | _ => .decimal

/-- A literal without sign, from its first digit on. -/
def fromDigits (u : List Char) : List Char :=
  match baseOf u with
  | .binary | .hex => u.drop 2
  | .octal | .decimal => u

/-- **The number in front of fraction, exponent and suffix**, of any size. -/
def wholeOf (config : NumericConfig) (u : List Char) : Nat :=
  runNumber config (baseOf u) ((fromDigits u).takeWhile (inRun config (baseOf u)))

/-- What follows the digits of the whole. -/
def behindWhole (config : NumericConfig) (u : List Char) : List Char :=
  (fromDigits u).dropWhile (inRun config (baseOf u))

/-- What follows the letter and the sign of an exponent, if there is one. -/
def exponentText (config : NumericConfig) (u : List Char) : Option (List Char) :=
  match behindWhole config u with
  | e :: t => if e ∈ ['e', 'E'] then some (afterSign t) else none
  | [] => none

/-- **The number that the digits of the exponent denote**, 0 without one. -/
def tenPower (config : NumericConfig) (u : List Char) : Nat :=
  match exponentText config u with
  | some t => runNumber config (baseOf u) (t.takeWhile (inRun config (baseOf u)))
  | none => 0

/-- **What follows the digits**, those of the exponent included. -/
def suffixOf (config : NumericConfig) (u : List Char) : List Char :=
  match exponentText config u with
  | some t => t.dropWhile (inRun config (baseOf u))
  | none => behindWhole config u

/-! ## Floating-point numbers stay apart -/

/-- A number that has turned out to be a floating-point number: by a fraction
character or a negative exponent, or by a suffix, behind which nothing
follows. -/
structure Floating (s : Progress) : Prop where
  type : s.type.isIntegral = false
  stage : s.stage = .floatSpecifier
    ∨ s.part ≠ .integral ∧ s.stage ∈ [.fraction, .digit, .exponent, .sign]

/-- It goes on to its digits, its exponent and its own suffix, never to a
suffix of integers. -/
theorem Floating.target {s : Progress} (hs : Floating s) {t : Stage} (ht : t ∈ s.stage.targets)
    (ha : allows s.stage t s = true) :
    s.part ≠ .integral ∧ t ∈ [.digit, .exponent, .sign, .floatSpecifier] := by
  obtain ⟨htype, hst | ⟨hpart, hst⟩⟩ := hs
  · simp [hst, Stage.targets] at ht
  refine ⟨hpart, ?_⟩
  have hknown : s.type ≠ .unknown := fun h => by simp [h, NumberType.isIntegral] at htype
  simp only [List.mem_cons, List.not_mem_nil, or_false] at hst
  rcases hst with hst | hst | hst | hst <;> rw [hst] at ht ha <;>
    simp only [Stage.targets, List.mem_cons, List.not_mem_nil, or_false] at ht
  · rcases ht with rfl | rfl | rfl <;> simp
  · rcases ht with rfl | rfl | rfl | rfl | rfl | rfl <;> simp [allows, hpart, hknown] at ha ⊢
  · rcases ht with rfl | rfl <;> simp
  · rcases ht with rfl | rfl | rfl | rfl <;> simp [allows, hpart] at ha ⊢

theorem isIntegral_takeSign {s : Progress} (hs : s.type.isIntegral = false) (sign : Sign) :
    (takeSign s sign).type.isIntegral = false := by
  unfold takeSign
  split
  · dsimp only
    split_ifs
    · rfl
    · exact hs
  · exact hs

theorem part_takeSign (s : Progress) (sign : Sign) : (takeSign s sign).part = s.part := by
  unfold takeSign
  split <;> rfl

theorem isIntegral_entered_floatSpecifier (s : Progress) (c : Char) :
    (entered config .floatSpecifier s c).type.isIntegral = false := by
  show (ite _ _ _ : NumberType).isIntegral = false
  split_ifs <;> rfl

/-- The two stages that only floating-point numbers have. -/
theorem floating_entered {t : Stage} (ht : t ∈ [.fraction, .floatSpecifier]) (s : Progress)
    (c : Char) : Floating (entered config t s c) := by
  simp only [List.mem_cons, List.not_mem_nil, or_false] at ht
  rcases ht with rfl | rfl
  · exact ⟨rfl, .inr ⟨by simp [entered, onEnter], by simp [entered]⟩⟩
  · exact ⟨isIntegral_entered_floatSpecifier s c, .inl rfl⟩

/-- A negative exponent makes one. -/
theorem floating_entered_minus {s : Progress} (hs : s.part = .exponent) :
    Floating (entered config .sign s '-') :=
  ⟨by simp [entered, onEnter, takeSign, hs, NumberType.isIntegral],
    .inr ⟨by simp [entered, onEnter, takeSign, hs], by simp [entered]⟩⟩

/-- **It stays one**, whatever follows. -/
theorem Floating.entered {s : Progress} (hs : Floating s) {t : Stage} (ht : t ∈ s.stage.targets)
    (ha : allows s.stage t s = true) (c : Char) : Floating (entered config t s c) := by
  obtain ⟨hpart, htarget⟩ := hs.target ht ha
  simp only [List.mem_cons, List.not_mem_nil, or_false] at htarget
  rcases htarget with rfl | rfl | rfl | rfl
  · obtain ⟨v, i, f, x, n, h⟩ := exists_entered_digit_eq config s c
    rw [h]
    exact ⟨hs.type, .inr ⟨hpart, by simp⟩⟩
  · exact ⟨hs.type, .inr ⟨by simp [Numeric.entered, onEnter], by simp [Numeric.entered]⟩⟩
  · refine ⟨isIntegral_takeSign hs.type _, .inr ⟨?_, by simp [Numeric.entered]⟩⟩
    show (takeSign s _).part ≠ .integral
    rwa [part_takeSign]
  · exact floating_entered (by simp) s c

theorem Floating.runFrom (hc : Separated config) {s s' : Progress} (hconf : Confined s)
    (hs : Floating s) {w : List Char} (h : runFrom config s w = some s') : Floating s' :=
  (runFrom_induction hc (fun _ _ hs _ ht ha c _ => hs.entered ht ha c) hconf hs h).2

/-! ## Suffixes -/

/-- The stages of suffixes. -/
def Suffixed (s : Progress) : Prop :=
  s.stage ∈ [.signSpecifier, .widthSpecifier, .longSpecifier, .floatSpecifier]

/-- **A suffix changes the type and leaves the number alone.** -/
theorem runFrom_of_suffixed (hc : Separated config) {s s' : Progress} (hconf : Confined s)
    (hs : Suffixed s) {w : List Char} (h : runFrom config s w = some s') :
    ∃ st type unsigned, s' = { s with stage := st, type := type, unsigned := unsigned } := by
  suffices hP : Suffixed s' ∧
      ∃ st type unsigned, s' = { s with stage := st, type := type, unsigned := unsigned } from hP.2
  refine (runFrom_induction hc (P := fun p => Suffixed p ∧
    ∃ st type unsigned, p = { s with stage := st, type := type, unsigned := unsigned })
    ?_ hconf ⟨hs, s.stage, s.type, s.unsigned, rfl⟩ h).2
  rintro p - ⟨hp, st, type, unsigned, rfl⟩ t ht - c -
  have htarget : t ∈ [Stage.signSpecifier, .widthSpecifier, .longSpecifier] := by
    simp only [Suffixed, List.mem_cons, List.not_mem_nil, or_false] at hp
    rcases hp with rfl | rfl | rfl | rfl <;>
      simp only [Stage.targets, List.mem_cons, List.not_mem_nil, or_false] at ht <;> simp [ht]
    rcases ht with rfl | rfl <;> simp
  simp only [List.mem_cons, List.not_mem_nil, or_false] at htarget
  rcases htarget with rfl | rfl | rfl
  · exact ⟨by simp [Suffixed, entered], _, _, _, rfl⟩
  · exact ⟨by simp [Suffixed, entered], _, _, _, rfl⟩
  · exact ⟨by simp [Suffixed, entered], _, _, _, rfl⟩

/-- **The end of an integer literal** from a point on: nothing, or a suffix. -/
inductive IntegerEnd (config : NumericConfig) (q : Progress) : List Char → Progress → Prop
  | bare : IntegerEnd config q [] q
  | unsigned {c : Char} {w : List Char} {s : Progress} (hc : c ∈ ['u', 'U'])
      (hw : runFrom config (entered config .signSpecifier q c) w = some s) :
      IntegerEnd config q (c :: w) s
  | width {c : Char} {w : List Char} {s : Progress} (hc : c ∈ ['i', 'I', 'l', 'L', 's', 'S'])
      (hw : runFrom config (entered config .widthSpecifier q c) w = some s) :
      IntegerEnd config q (c :: w) s

theorem IntegerEnd.exists_eq (hc : Separated config) {q s : Progress} {w : List Char}
    (h : IntegerEnd config q w s) :
    ∃ st type unsigned, s = { q with stage := st, type := type, unsigned := unsigned } := by
  cases h with
  | bare => exact ⟨q.stage, q.type, q.unsigned, rfl⟩
  | unsigned _ hw =>
    obtain ⟨st, type, unsigned, rfl⟩ :=
      runFrom_of_suffixed hc (fun _ => by simp [entered]) (by simp [Suffixed, entered]) hw
    exact ⟨st, type, unsigned, rfl⟩
  | width _ hw =>
    obtain ⟨st, type, unsigned, rfl⟩ :=
      runFrom_of_suffixed hc (fun _ => by simp [entered]) (by simp [Suffixed, entered]) hw
    exact ⟨st, type, unsigned, rfl⟩

/-- A text that does not go on with a digit or a separator. -/
def RunEnds (config : NumericConfig) (base : Base) (w : List Char) : Prop :=
  ∀ c t, w = c :: t → inRun config base c = false

theorem runEnds_dropWhile (base : Base) (w : List Char) :
    RunEnds config base (w.dropWhile (inRun config base)) := by
  intro c t h
  have hhead := List.head_dropWhile_not (inRun config base) (l := w) (by simp [h])
  simpa [h] using hhead

/-- Where no digit follows, an integer literal does not go on to the stages that
make a floating-point number. -/
theorem target_of_runEnds (hc : Separated config) {q s : Progress} {c : Char} {t : List Char}
    (hw : RunEnds config q.base (c :: t)) {st : Stage} (hnext : Confined (entered config st q c))
    (he : canEnter config st q c = true) (h : runFrom config (entered config st q c) t = some s)
    (hs : s.type.isIntegral = true) : st ∉ [.digit, .fraction, .floatSpecifier] := by
  have hfloat : ¬ Floating (entered config st q c) := fun hf => by
    simp [(hf.runFrom hc hnext h).type] at hs
  simp only [List.mem_cons, List.not_mem_nil, or_false]
  rintro (rfl | rfl | rfl)
  · simp [canEnter_digit, hw c t rfl] at he
  · exact hfloat (floating_entered (by simp) q c)
  · exact hfloat (floating_entered (by simp) q c)

theorem dropWhile_of_takeWhile_eq_nil {p : Char → Bool} {w : List Char}
    (h : w.takeWhile p = []) : w.dropWhile p = w := by
  have hsplit := List.takeWhile_append_dropWhile (p := p) (l := w)
  rwa [h, List.nil_append] at hsplit

/-- **Behind the digits of a whole** stands the end of an integer literal, or
the letter of an exponent. -/
theorem integerEnd_or_exponent (hc : Separated config) {q s : Progress} (hq : Confined q)
    (hst : q.stage ∈ [.leadZero, .leadDigit, .baseSpecifier, .digit])
    {w : List Char} (hw : RunEnds config q.base w)
    (hz : q.stage = .leadZero → ∀ c t, w = c :: t → c ∉ ['b', 'B', 'x', 'X'])
    (h : runFrom config q w = some s) (hs : s.type.isIntegral = true) :
    IntegerEnd config q w s
      ∨ ∃ c t, w = c :: t ∧ c ∈ ['e', 'E'] ∧ Confined (entered config .exponent q c)
        ∧ runFrom config (entered config .exponent q c) t = some s := by
  cases w with
  | nil =>
    obtain rfl := Option.some.inj h
    exact .inl .bare
  | cons c t =>
    obtain ⟨st, hmem, ha, he, hrun⟩ := (runFrom_cons_iff hc hq).mp h
    have hnext : Confined (entered config st q c) := hq.entered hmem ha c
    have hends := target_of_runEnds hc hw hnext he hrun hs
    have hbase : q.stage = .leadZero → st ≠ .baseSpecifier := by
      rintro hzero rfl
      exact hz hzero c t rfl (by simpa [canEnter] using he)
    have htarget : st ∈ [.signSpecifier, .widthSpecifier, .exponent] := by
      simp only [List.mem_cons, List.not_mem_nil, or_false] at hst
      rcases hst with hst | hst | hst | hst <;> rw [hst] at hmem hbase <;>
        simp only [Stage.targets, List.mem_cons, List.not_mem_nil, or_false] at hmem hends ⊢ <;>
        grind
    simp only [List.mem_cons, List.not_mem_nil, or_false] at htarget
    rcases htarget with rfl | rfl | rfl
    · exact .inl (.unsigned (by simpa [canEnter] using he) hrun)
    · exact .inl (.width (by simpa [canEnter] using he) hrun)
    · exact .inr ⟨c, t, rfl, by simpa [canEnter] using he, hnext, hrun⟩

/-- Behind the digits of an exponent stands the end of an integer literal. -/
theorem integerEnd_of_exponent (hc : Separated config) {q s : Progress} (hq : Confined q)
    (hst : q.stage ∈ [.exponent, .sign, .digit]) (hp : q.part = .exponent)
    {w : List Char} (hw : RunEnds config q.base w)
    (hsign : q.stage = .exponent → ∀ c t, w = c :: t → c ∉ ['+', '-'])
    (h : runFrom config q w = some s) (hs : s.type.isIntegral = true) :
    IntegerEnd config q w s := by
  cases w with
  | nil =>
    obtain rfl := Option.some.inj h
    exact .bare
  | cons c t =>
    obtain ⟨st, hmem, ha, he, hrun⟩ := (runFrom_cons_iff hc hq).mp h
    have hnext : Confined (entered config st q c) := hq.entered hmem ha c
    have hends := target_of_runEnds hc hw hnext he hrun hs
    have hnosign : q.stage = .exponent → st ≠ .sign := by
      rintro hexp rfl
      exact hsign hexp c t rfl (by simpa [canEnter] using he)
    have htarget : st ∈ [.signSpecifier, .widthSpecifier] := by
      simp only [List.mem_cons, List.not_mem_nil, or_false] at hst
      rcases hst with hst | hst | hst <;> rw [hst] at hmem hnosign ha <;>
        simp only [Stage.targets, List.mem_cons, List.not_mem_nil, or_false] at hmem hends ⊢
      · grind
      · rcases hmem with rfl | rfl | rfl | rfl <;> simp [allows, hp] at ha hends
      · rcases hmem with rfl | rfl | rfl | rfl | rfl | rfl <;> simp [allows, hp] at ha hends ⊢
    simp only [List.mem_cons, List.not_mem_nil, or_false] at htarget
    rcases htarget with rfl | rfl
    · exact .unsigned (by simpa [canEnter] using he) hrun
    · exact .width (by simpa [canEnter] using he) hrun

theorem inRun_of_taken (hc : Separated config) {base : Base} {c : Char}
    (h : c ∈ NumericConfig.takenChars) : inRun config base c = isDigitIn base.radix c := by
  have hne : (c == config.separator) = false :=
    beq_false_of_ne fun heq => hc.separator_notMem (heq ▸ h)
  rw [inRun, hne, Bool.false_or]

/-- A sign is neither a digit nor a chosen character. -/
theorem inRun_of_mem_signs (hc : Separated config) {c : Char} (h : c ∈ ['+', '-']) (base : Base) :
    inRun config base c = false := by
  simp only [List.mem_cons, List.not_mem_nil, or_false] at h
  rcases h with rfl | rfl <;> rw [inRun_of_taken hc (by decide)] <;> cases base <;> decide

/-- The sign of an exponent is passed over: a minus would have made a
floating-point number. -/
theorem exists_behind_exponentSign (hc : Separated config) {base : Base} {x s : Progress}
    (hconf : Confined x) (hx : Reads base .exponent .unknown x) (hst : x.stage = .exponent)
    {t : List Char} (h : runFrom config x t = some s) (hs : s.type.isIntegral = true) :
    ∃ st e, st ∈ [.exponent, .sign]
      ∧ (st = .exponent → ∀ c v, afterSign t = c :: v → c ∉ ['+', '-'])
      ∧ runFrom config { x with stage := st, exponentSign := e } (afterSign t) = some s := by
  have hstay : runFrom config { x with stage := .exponent, exponentSign := x.exponentSign } t
      = some s := by rwa [← hst]
  cases t with
  | nil => exact ⟨.exponent, x.exponentSign, by simp, by simp [afterSign], hstay⟩
  | cons c v =>
    by_cases hsign : c ∈ ['+', '-']
    · rw [afterSign, if_pos hsign]
      obtain ⟨st, hmem, ha, he, hrun⟩ := (runFrom_cons_iff hc hconf).mp h
      have hnext : Confined (entered config st x c) := hconf.entered hmem ha c
      obtain rfl : st = .sign := by
        simp only [hst, Stage.targets, List.mem_cons, List.not_mem_nil, or_false] at hmem
        refine hmem.resolve_right ?_
        rintro rfl
        simp [canEnter_digit, inRun_of_mem_signs hc hsign] at he
      have hplus : c ≠ '-' := by
        rintro rfl
        have hfloat : Floating (entered config .sign x '-') := floating_entered_minus hx.part_eq
        simp [(hfloat.runFrom hc hnext hrun).type] at hs
      have hentered : entered config .sign x c
          = { x with stage := .sign, exponentSign := .positive } := by
        simp [entered, onEnter, takeSign, hx.part_eq, hplus]
      exact ⟨.sign, .positive, by simp, by simp, hentered ▸ hrun⟩
    · rw [afterSign, if_neg hsign]
      refine ⟨.exponent, x.exponentSign, by simp, fun _ d u heq => ?_, hstay⟩
      exact (List.cons_eq_cons.mp heq).1 ▸ hsign

/-- **The exponent of an integer literal**: from its letter on, a run passes a
point that remembers its digits, and only the end of the literal is left. -/
theorem exists_exponent_counted (hc : Separated config) {base : Base} {x s : Progress}
    (hconf : Confined x) (hx : Reads base .exponent .unknown x) (hst : x.stage = .exponent)
    (hzero : x.exponent = 0) {t : List Char} (h : runFrom config x t = some s)
    (hs : s.type.isIntegral = true) :
    ∃ z, Reads base .exponent .unknown z ∧ z.integral = x.integral ∧ z.sign = x.sign
      ∧ z.exponent = Int64.ofNat
          (runNumber config base ((afterSign t).takeWhile (inRun config base)))
      ∧ IntegerEnd config z ((afterSign t).dropWhile (inRun config base)) s := by
  obtain ⟨st, e, hmem, hnosign, hrun⟩ := exists_behind_exponentSign hc hconf hx hst h hs
  have hhex : x.base ≠ .hex := fun hb => by simpa [hst] using hconf hb
  obtain ⟨rfl, hpart, htype, hunsigned⟩ := hx
  obtain ⟨y, hy⟩ : ∃ y : Progress, y = { x with stage := st, exponentSign := e } := ⟨_, rfl⟩
  have hbase : y.base = x.base := by rw [hy]
  have hyconf : Confined y := confined_of_base (by rwa [hbase])
  have hopen : DigitOpen y := by
    simp only [List.mem_cons, List.not_mem_nil, or_false] at hmem
    rcases hmem with rfl | rfl <;> simp [DigitOpen, hy, Stage.targets, allows, hpart]
  have hdigits : ∀ c ∈ (afterSign t).takeWhile (inRun config y.base),
      inRun config y.base c = true := fun _ => List.mem_takeWhile_imp
  obtain ⟨z, hz⟩ :
      ∃ z, z = readDigits config y ((afterSign t).takeWhile (inRun config y.base)) := ⟨_, rfl⟩
  have hzconf : Confined z := hz ▸ confined_readDigits hc hyconf hopen hdigits
  rw [← hy, runFrom_takeWhile hc hyconf hopen, ← hz, hbase] at hrun
  rw [readDigits_of_exponent (by rw [hy, hpart]) (by rw [hy, hzero]) hdigits, hbase, hy] at hz
  have hzstage : z.stage
      = if (afterSign t).takeWhile (inRun config x.base) = [] then st else .digit := by rw [hz]
  have hzreads : Reads x.base .exponent .unknown z :=
    ⟨by rw [hz], by rw [hz, hpart], by rw [hz, htype], by rw [hz, hunsigned]⟩
  refine ⟨z, hzreads, by rw [hz], by rw [hz], by rw [hz], ?_⟩
  refine integerEnd_of_exponent hc hzconf ?_ hzreads.part_eq
    (hzreads.base_eq ▸ runEnds_dropWhile _ _) ?_ hrun hs
  · rw [hzstage]
    split_ifs
    · exact List.mem_append_left [.digit] hmem
    · simp
  · rw [hzstage]
    split_ifs with hnil
    · rwa [dropWhile_of_takeWhile_eq_nil hnil]
    · simp

/-! ## The point behind the digits -/

/-- **A point behind the digits of an integer literal** remembers the numbers
that its text spells, as 64-bit words. -/
structure Counted (config : NumericConfig) (u : List Char) (sign : Sign) (q : Progress) :
    Prop where
  integral : q.integral = Int64.ofNat (wholeOf config u)
  exponent : q.part = .integral ∧ tenPower config u = 0
    ∨ q.part = .exponent ∧ q.exponent = Int64.ofNat (tenPower config u)
  sign : q.sign = sign
  type : q.type = .unknown
  unsigned : q.unsigned = false

theorem IntegerEnd.head {q s : Progress} {w : List Char} (h : IntegerEnd config q w s) :
    ∀ c t, w = c :: t → c ∉ ['e', 'E'] := by
  rintro c t rfl
  cases h with
  | unsigned hmem _ =>
    simp only [List.mem_cons, List.not_mem_nil, or_false] at hmem
    rcases hmem with rfl | rfl <;> decide
  | width hmem _ =>
    simp only [List.mem_cons, List.not_mem_nil, or_false] at hmem
    rcases hmem with rfl | rfl | rfl | rfl | rfl | rfl <;> decide

theorem exponentText_of_head {u : List Char}
    (h : ∀ c t, behindWhole config u = c :: t → c ∉ ['e', 'E']) :
    exponentText config u = none := by
  rw [exponentText]
  split
  next c t heq => exact if_neg (h c t heq)
  next => rfl

/-- **The digits of the whole**: from its first digits on, of which `pre` have been
read already, a run passes a point that remembers them all. -/
theorem exists_behindWhole (hc : Separated config) (pre : List Char) {u w : List Char}
    {p s : Progress} (hp : Confined p) (hreads : Reads (baseOf u) .integral .unknown p)
    (hst : p.stage ∈ [.leadZero, .leadDigit, .baseSpecifier])
    (hz : p.stage = .leadZero → ∀ c t, w = c :: t → c ∉ ['b', 'B', 'x', 'X'])
    (hpre : ∀ c ∈ pre, inRun config (baseOf u) c = true) (hu : fromDigits u = pre ++ w)
    (hamount : p.integral = Int64.ofNat (runNumber config (baseOf u) pre))
    (h : runFrom config p w = some s) :
    ∃ q, Confined q ∧ Reads (baseOf u) .integral .unknown q
      ∧ q.integral = Int64.ofNat (wholeOf config u) ∧ q.exponent = p.exponent ∧ q.sign = p.sign
      ∧ q.stage ∈ [.leadZero, .leadDigit, .baseSpecifier, .digit]
      ∧ (q.stage = .leadZero →
          ∀ c t, behindWhole config u = c :: t → c ∉ ['b', 'B', 'x', 'X'])
      ∧ runFrom config q (behindWhole config u) = some s := by
  obtain ⟨hbase, hpart, htype, hunsigned⟩ := hreads
  rw [← hbase] at hpre hamount
  have hopen : DigitOpen p := by
    simp only [List.mem_cons, List.not_mem_nil, or_false] at hst
    rcases hst with hst | hst | hst <;> simp [DigitOpen, hst, Stage.targets, allows]
  have hdigits : ∀ c ∈ w.takeWhile (inRun config p.base), inRun config p.base c = true :=
    fun _ => List.mem_takeWhile_imp
  have hwhole : wholeOf config u
      = runNumber config p.base (pre ++ w.takeWhile (inRun config p.base)) := by
    rw [wholeOf, hu, ← hbase, List.takeWhile_append_of_pos hpre]
  have hrest : behindWhole config u = w.dropWhile (inRun config p.base) := by
    rw [behindWhole, hu, ← hbase, List.dropWhile_append_of_pos hpre]
  obtain ⟨q, hq⟩ : ∃ q, q = readDigits config p (w.takeWhile (inRun config p.base)) := ⟨_, rfl⟩
  have hconf : Confined q := hq ▸ confined_readDigits hc hp hopen hdigits
  rw [runFrom_takeWhile hc hp hopen, ← hq, ← hrest] at h
  rw [readDigits_of_integral hpart hamount hdigits, ← hwhole] at hq
  have hstage : q.stage = if w.takeWhile (inRun config p.base) = [] then p.stage else .digit := by
    rw [hq]
  refine ⟨q, hconf, ⟨by rw [hq, hbase], by rw [hq, hpart], by rw [hq, htype],
    by rw [hq, hunsigned]⟩, by rw [hq], by rw [hq], by rw [hq], ?_, ?_, h⟩
  · rw [hstage]
    split_ifs
    · exact List.mem_append_left [.digit] hst
    · simp
  · rw [hstage, hrest]
    split_ifs with hnil
    · rwa [dropWhile_of_takeWhile_eq_nil hnil]
    · simp

/-- **From the first digits of an integer literal on** a run passes a point that
remembers the numbers of the literal, and only the end of the literal is left. -/
theorem exists_counted_of_digits (hc : Separated config) (pre : List Char) {u w : List Char}
    {p s : Progress} (hp : Confined p) (hreads : Reads (baseOf u) .integral .unknown p)
    (hst : p.stage ∈ [.leadZero, .leadDigit, .baseSpecifier])
    (hz : p.stage = .leadZero → ∀ c t, w = c :: t → c ∉ ['b', 'B', 'x', 'X'])
    (hpre : ∀ c ∈ pre, inRun config (baseOf u) c = true) (hu : fromDigits u = pre ++ w)
    (hamount : p.integral = Int64.ofNat (runNumber config (baseOf u) pre)) (hexp : p.exponent = 0)
    (h : runFrom config p w = some s) (hs : s.type.isIntegral = true) :
    ∃ q, Counted config u p.sign q ∧ IntegerEnd config q (suffixOf config u) s := by
  obtain ⟨q, hconf, hqreads, hqint, hqexp, hqsign, hqst, hqz, hrun⟩ :=
    exists_behindWhole hc pre hp hreads hst hz hpre hu hamount h
  have hends : RunEnds config q.base (behindWhole config u) :=
    hqreads.base_eq ▸ runEnds_dropWhile _ _
  rcases integerEnd_or_exponent hc hconf hqst hends hqz hrun hs
    with hend | ⟨c, t, heq, he, hx, hrun⟩
  · have hnone := exponentText_of_head hend.head
    refine ⟨q, ⟨hqint, .inl ⟨hqreads.part_eq, by rw [tenPower, hnone]⟩, hqsign, hqreads.type_eq,
      hqreads.unsigned_eq⟩, ?_⟩
    rw [suffixOf, hnone]
    exact hend
  · have hsome : exponentText config u = some (afterSign t) := by
      rw [exponentText, heq]
      exact if_pos he
    have hxreads : Reads (baseOf u) .exponent .unknown (entered config .exponent q c) :=
      ⟨hqreads.base_eq, rfl, hqreads.type_eq, hqreads.unsigned_eq⟩
    obtain ⟨z, hzreads, hzint, hzsign, hzexp, hzend⟩ :=
      exists_exponent_counted hc hx hxreads rfl (hqexp.trans hexp) hrun hs
    refine ⟨z, ⟨hzint.trans hqint, .inr ⟨hzreads.part_eq, ?_⟩, hzsign.trans hqsign,
      hzreads.type_eq, hzreads.unsigned_eq⟩, ?_⟩
    · rw [hzexp, tenPower, hsome]
    · rw [suffixOf, hsome]
      exact hzend

theorem baseOf_zero_cons {c : Char} (h : c ∉ ['b', 'B', 'x', 'X']) (t : List Char) :
    baseOf ('0' :: c :: t) = .octal := by
  unfold baseOf
  split <;> simp_all

theorem baseOf_of_ne_zero {c : Char} (h : c ≠ '0') (t : List Char) :
    baseOf (c :: t) = .decimal := by
  unfold baseOf
  split <;> simp_all

/-- Behind a leading zero: the letter of a base and its digits, or octal
digits. -/
theorem exists_counted_of_zero (hc : Separated config) {t : List Char} {p s : Progress}
    (hp : p.stage = .leadZero) (hreads : Reads .octal .integral .unknown p)
    (hint : p.integral = 0) (hexp : p.exponent = 0) (h : runFrom config p t = some s)
    (hs : s.type.isIntegral = true) :
    ∃ q, Counted config ('0' :: t) p.sign q
      ∧ IntegerEnd config q (suffixOf config ('0' :: t)) s := by
  have hconf : Confined p := confined_of_base (by simp [hreads.base_eq])
  by_cases hletter : ∃ d v, t = d :: v ∧ d ∈ ['b', 'B', 'x', 'X']
  · obtain ⟨d, v, rfl, hd⟩ := hletter
    have hmem : Stage.baseSpecifier ∈ p.stage.targets := by simp [hp, Stage.targets]
    have ha : allows p.stage .baseSpecifier p = true := by rw [hp]; rfl
    rw [runFrom_cons_of_enter hc hconf hmem ha (by simpa [canEnter] using hd)] at h
    have hbase : baseOf ('0' :: d :: v) = if d.toLower = 'b' then .binary else .hex := by
      simp only [List.mem_cons, List.not_mem_nil, or_false] at hd
      rcases hd with rfl | rfl | rfl | rfl <;> rfl
    refine exists_counted_of_digits (p := entered config .baseSpecifier p d) hc []
      (hconf.entered hmem ha d) ⟨hbase.symm, hreads.part_eq, hreads.type_eq, hreads.unsigned_eq⟩
      (by simp [entered]) (by simp [entered]) (by simp) ?_ hint hexp h hs
    rw [fromDigits, hbase]
    split_ifs <;> rfl
  · have hbase : baseOf ('0' :: t) = .octal := by
      cases t with
      | nil => rfl
      | cons d v => exact baseOf_zero_cons (fun hd => hletter ⟨d, v, rfl, hd⟩) v
    have hdigit : ∀ c ∈ ['0'], inRun config (baseOf ('0' :: t)) c = true := by
      rw [hbase]
      simp [inRun, isDigitIn, digitIn?, digitValue?, Base.radix]
    refine exists_counted_of_digits hc ['0'] hconf (hbase ▸ hreads) (by simp [hp])
      (fun _ d v heq hd => hletter ⟨d, v, heq, hd⟩) hdigit (by rw [fromDigits, hbase]; rfl) ?_ hexp
      h hs
    have hsep : '0' ≠ config.separator := fun heq =>
      hc.separator_notMem (heq ▸ marks_subset .decimal .leadZero '0' (by simp [marks]))
    rw [hint, runNumber_singleton hsep]
    rfl

/-- Behind its sign a literal begins with a digit or with the fraction
character. -/
theorem target_of_first {st t : Stage} {sign : Sign} {c : Char}
    (hst : st = .sign ∨ st = .start ∧ c ∉ ['+', '-']) (ht : t ∈ st.targets)
    (ha : allows st t { stage := st, sign := sign } = true)
    (he : canEnter config t { stage := st, sign := sign } c = true) :
    t ∈ [.leadZero, .leadDigit, .fraction] := by
  rcases hst with rfl | ⟨rfl, hsign⟩
  · simp only [Stage.targets, List.mem_cons, List.not_mem_nil, or_false] at ht
    rcases ht with rfl | rfl | rfl | rfl <;> simp [allows] at ha ⊢
  · simp only [Stage.targets, List.mem_cons, List.not_mem_nil, or_false] at ht
    rcases ht with rfl | rfl | rfl | rfl
    · simp
    · simp
    · exact absurd (by simpa [canEnter] using he) hsign
    · simp

/-- **A run over an integer literal**, behind its sign. -/
theorem exists_counted (hc : Separated config) {st : Stage} {sign : Sign} {u : List Char}
    {s : Progress} (hst : st = .sign ∨ st = .start ∧ ∀ c t, u = c :: t → c ∉ ['+', '-'])
    (h : runFrom config { stage := st, sign := sign } u = some s)
    (hs : s.type.isIntegral = true) :
    ∃ q, Counted config u sign q ∧ IntegerEnd config q (suffixOf config u) s := by
  cases u with
  | nil =>
    obtain rfl := Option.some.inj h
    exact ⟨_, ⟨rfl, .inl ⟨rfl, rfl⟩, rfl, rfl, rfl⟩, .bare⟩
  | cons c t =>
    have hconf : Confined { stage := st, sign := sign } := confined_of_base (by simp)
    obtain ⟨target, hmem, ha, he, hrun⟩ := (runFrom_cons_iff hc hconf).mp h
    have hnext : Confined (entered config target _ c) := hconf.entered hmem ha c
    have htarget : target ∈ [.leadZero, .leadDigit, .fraction] :=
      target_of_first (hst.imp_right (And.imp_right fun hsign => hsign c t rfl)) hmem ha he
    simp only [List.mem_cons, List.not_mem_nil, or_false] at htarget
    rcases htarget with rfl | rfl | rfl
    · obtain rfl : c = '0' := by simpa [canEnter] using he
      exact exists_counted_of_zero (p := entered config .leadZero { stage := st, sign := sign } '0')
        hc rfl ⟨rfl, rfl, rfl, rfl⟩ rfl rfl hrun hs
    · have hrange : '1' ≤ c ∧ c ≤ '9' := by simpa [canEnter] using he
      have hmark := mem_marks_leadDigit hrange
      have hsep : c ≠ config.separator := fun heq =>
        hc.separator_notMem (heq ▸ marks_subset _ _ c hmark)
      have hbase : baseOf (c :: t) = .decimal := by
        refine baseOf_of_ne_zero ?_ t
        rintro rfl
        exact absurd hrange.1 (by decide)
      have hdigit : isDigitIn Base.decimal.radix c = true := by
        simp only [marks, List.mem_cons, List.not_mem_nil, or_false] at hmark
        rcases hmark with rfl | rfl | rfl | rfl | rfl | rfl | rfl | rfl | rfl <;> decide
      refine exists_counted_of_digits hc [c] hnext (hbase ▸ ⟨rfl, rfl, rfl, rfl⟩)
        (by simp [entered]) (by simp [entered]) ?_ (by rw [fromDigits, hbase]; rfl) ?_ rfl hrun hs
      · rw [hbase]
        simp [inRun, hdigit]
      · show Int64.ofNat (digitValue c) = _
        rw [hbase, digitValue_eq hdigit, runNumber_singleton hsep]
    · have hfloat : Floating (entered config .fraction { stage := st, sign := sign } c) :=
        floating_entered (by simp) _ c
      simp [(hfloat.runFrom hc hnext hrun).type] at hs

/-- **The sign of a literal is read**, if it has one, and the rest of the run is
over the text without it. -/
theorem exists_run_afterSign (hc : Separated config) {w : List Char} {s : Progress}
    (h : runFrom config {} w = some s) :
    ∃ st sign, (sign = .negative ↔ w.head? = some '-')
      ∧ (st = .sign ∨ st = .start ∧ ∀ c t, afterSign w = c :: t → c ∉ ['+', '-'])
      ∧ runFrom config { stage := st, sign := sign } (afterSign w) = some s := by
  by_cases hsign : ∃ c v, w = c :: v ∧ c ∈ ['+', '-']
  · obtain ⟨c, v, rfl, hmem⟩ := hsign
    refine ⟨.sign, if c = '-' then .negative else .positive, ?_, .inl rfl, ?_⟩
    · by_cases hminus : c = '-' <;> simp [hminus]
    · rw [afterSign, if_pos hmem]
      rwa [runFrom_cons_of_enter (t := .sign) hc confined_fresh (by simp [Stage.targets]) rfl
        (by simpa [canEnter] using hmem)] at h
  · have hafter : afterSign w = w := by
      cases w with
      | nil => rfl
      | cons c v => exact if_neg fun hmem => hsign ⟨c, v, rfl, hmem⟩
    refine ⟨.start, .unwritten, ⟨by simp, fun hhead => ?_⟩, .inr ⟨rfl, ?_⟩, by rwa [hafter]⟩
    · obtain ⟨v, hv⟩ := List.head?_eq_some_iff.mp hhead
      exact absurd ⟨'-', v, hv, by simp⟩ hsign
    · rw [hafter]
      exact fun c v heq hmem => hsign ⟨c, v, heq, hmem⟩

/-- **A run over an integer literal** passes a point that remembers the numbers
its text spells, and from there only the end of the literal is left. -/
theorem exists_counted_of_run (hc : Separated config) {w : List Char} {s : Progress}
    (h : runFrom config {} w = some s) (hs : s.type.isIntegral = true) :
    ∃ sign q, (sign = .negative ↔ w.head? = some '-') ∧ Counted config (afterSign w) sign q
      ∧ IntegerEnd config q (suffixOf config (afterSign w)) s := by
  obtain ⟨st, sign, hsign, hst, hrun⟩ := exists_run_afterSign hc h
  obtain ⟨q, hq⟩ := exists_counted hc hst hrun hs
  exact ⟨sign, q, hsign, hq⟩

end Lexing.Numeric
