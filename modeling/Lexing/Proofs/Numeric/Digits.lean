import Mathlib.Data.List.Induction
import Mathlib.Data.List.TakeWhile
import Mathlib.Data.Nat.Digits.Defs
import Lexing.Proofs.Numeric.Run

/-!
# The numbers that digits add up to

A run of digits denotes a natural number of any size (`runNumber`): its digits
in positional notation, with the separators left out. What the table remembers
of a run is that number as a 64-bit word (`readDigits_eq`), since wrapping
around commutes with adding a digit.
-/

namespace Lexing.Numeric

variable {config : NumericConfig} {base : Base}

/-! ## Numbers -/

/-- The value of a digit: its place among the digits, in either case. -/
def digitOf (c : Char) : Nat :=
  ['0', '1', '2', '3', '4', '5', '6', '7', '8', '9', 'a', 'b', 'c', 'd', 'e', 'f'].idxOf c.toLower

/-- **The number that a run of digits denotes**, in positional notation and
without its separators. -/
def runNumber (config : NumericConfig) (base : Base) (ds : List Char) : Nat :=
  Nat.ofDigits base.radix ((ds.filter (· != config.separator)).map digitOf).reverse

theorem runNumber_nil (config : NumericConfig) (base : Base) : runNumber config base [] = 0 := rfl

theorem runNumber_separator (config : NumericConfig) (base : Base) (ds : List Char) :
    runNumber config base (ds ++ [config.separator]) = runNumber config base ds := by
  simp [runNumber]

/-- **One more digit** moves the others up by one place. -/
theorem runNumber_digit {c : Char} (h : c ≠ config.separator) (base : Base) (ds : List Char) :
    runNumber config base (ds ++ [c]) = runNumber config base ds * base.radix + digitOf c := by
  simp [runNumber, h, Nat.ofDigits_cons]
  ring

theorem runNumber_singleton {c : Char} (h : c ≠ config.separator) (base : Base) :
    runNumber config base [c] = digitOf c := by
  rw [← List.nil_append [c], runNumber_digit h, runNumber_nil, Nat.zero_mul, Nat.zero_add]

theorem digitValue_eq {c : Char} (h : isDigitIn base.radix c = true) :
    digitValue c = digitOf c := by
  have key : ∀ k < 128, isDigitIn base.radix (Char.ofNat k) = true →
      digitValue (Char.ofNat k) = digitOf (Char.ofNat k) := by
    cases base <;> decide +kernel
  exact forall_lt_of_ofNat
    (P := fun c => isDigitIn base.radix c = true → digitValue c = digitOf c) key
    (lt_of_isDigitIn h) h

/-- Wrapping around commutes with adding a digit. -/
theorem appendDigit_ofNat (n radix digit : Nat) :
    appendDigit (Int64.ofNat n) radix digit = Int64.ofNat (n * radix + digit) := by
  rw [appendDigit, Int64.ofNat_add, Int64.ofNat_mul]

/-! ## Runs of digits in the table -/

/-- A digit of a base, or the separator. -/
def inRun (config : NumericConfig) (base : Base) (c : Char) : Bool :=
  c == config.separator || isDigitIn base.radix c

theorem canEnter_digit (s : Progress) (c : Char) :
    canEnter config .digit s c = inRun config s.base c := rfl

/-- Whether a digit may come next. -/
def DigitOpen (s : Progress) : Prop :=
  .digit ∈ s.stage.targets ∧ allows s.stage .digit s = true

theorem digitOpen_of_stage {s : Progress} (h : s.stage = .digit) : DigitOpen s := by
  rw [DigitOpen, h]
  exact ⟨by simp [Stage.targets], rfl⟩

/-- The point behind a run of digits. -/
def readDigits (config : NumericConfig) (s : Progress) (ds : List Char) : Progress :=
  ds.foldl (entered config .digit) s

theorem readDigits_snoc (s : Progress) (ds : List Char) (c : Char) :
    readDigits config s (ds ++ [c]) = entered config .digit (readDigits config s ds) c :=
  List.foldl_append

/-- **A run of digits is read to its end.** -/
theorem runFrom_digits (hc : Separated config) {s : Progress} (hs : Confined s)
    (ho : DigitOpen s) {ds : List Char} (hds : ∀ c ∈ ds, inRun config s.base c = true)
    (w : List Char) :
    runFrom config s (ds ++ w) = runFrom config (readDigits config s ds) w := by
  induction ds generalizing s with
  | nil => rfl
  | cons c ds ih =>
    obtain ⟨hc₁, hds⟩ := List.forall_mem_cons.mp hds
    have hbase : (entered config .digit s c).base = s.base := base_entered (by simp) s c
    rw [List.cons_append, runFrom_cons_of_enter hc hs ho.1 ho.2 hc₁]
    exact ih (hs.entered ho.1 ho.2 c) (digitOpen_of_stage rfl) (by rwa [hbase])

theorem confined_readDigits (hc : Separated config) {s : Progress} (hs : Confined s)
    (ho : DigitOpen s) {ds : List Char} (hds : ∀ c ∈ ds, inRun config s.base c = true) :
    Confined (readDigits config s ds) :=
  hs.runFrom hc (w := ds) (by rw [← ds.append_nil, runFrom_digits hc hs ho hds, ds.append_nil]; rfl)

/-- The digits that a text begins with are read first. -/
theorem runFrom_takeWhile (hc : Separated config) {s : Progress} (hs : Confined s)
    (ho : DigitOpen s) (w : List Char) :
    runFrom config s w
      = runFrom config (readDigits config s (w.takeWhile (inRun config s.base)))
          (w.dropWhile (inRun config s.base)) := by
  rw [← runFrom_digits hc hs ho fun _ => List.mem_takeWhile_imp, List.takeWhile_append_dropWhile]

namespace Progress

/-- The number of the part that digits are added to. -/
def amount (s : Progress) : Int64 :=
  match s.part with
  | .integral => s.integral
  | .fraction => s.fraction
  | .exponent => s.exponent

/-- The same point with another number in the part that digits are added to. -/
def withAmount (s : Progress) (n : Int64) : Progress :=
  match s.part with
  | .integral => { s with integral := n }
  | .fraction => { s with fraction := n }
  | .exponent => { s with exponent := n }

theorem withAmount_amount (s : Progress) : s.withAmount s.amount = s := by
  obtain ⟨_, _, _, part⟩ := s
  cases part <;> rfl

end Progress

/-- **What is remembered of a run of digits** is the number that it denotes,
modulo `2^64`, and whether there was a digit in it. -/
theorem readDigits_eq {s : Progress} (hp : s.part ≠ .fraction) (pre : List Char)
    (hn : s.amount = Int64.ofNat (runNumber config s.base pre)) {ds : List Char}
    (hds : ∀ c ∈ ds, inRun config s.base c = true) :
    readDigits config s ds =
      { s.withAmount (Int64.ofNat (runNumber config s.base (pre ++ ds))) with
        stage := if ds = [] then s.stage else .digit
        valid := s.valid || ds.any (· != config.separator) } := by
  induction ds using List.reverseRecOn with
  | nil => simp [readDigits, ← hn, s.withAmount_amount]
  | append_singleton ds c ih =>
    rw [List.forall_mem_append] at hds
    obtain ⟨hds, hlast⟩ := hds
    have hrun : c = config.separator ∨ isDigitIn s.base.radix c = true := by
      simpa [inRun] using hlast c (List.mem_singleton.mpr rfl)
    rw [readDigits_snoc, ih hds, ← List.append_assoc]
    by_cases hsep : c = config.separator
    · rw [hsep, runNumber_separator]
      simp [entered, onEnter]
    · have hdigit := digitValue_eq (hrun.resolve_left hsep)
      rw [runNumber_digit hsep, ← appendDigit_ofNat, ← hdigit]
      cases hpart : s.part with
      | fraction => exact absurd hpart hp
      | integral =>
        simp [entered, onEnter, hsep, takeDigit, Progress.withAmount, hpart]
      | exponent =>
        simp [entered, onEnter, hsep, takeDigit, Progress.withAmount, hpart]

/-- Digits in front of the fraction character, behind the digits `pre`. -/
theorem readDigits_of_integral {s : Progress} (hp : s.part = .integral) {pre : List Char}
    (hn : s.integral = Int64.ofNat (runNumber config s.base pre)) {ds : List Char}
    (hds : ∀ c ∈ ds, inRun config s.base c = true) :
    readDigits config s ds =
      { s with
        stage := if ds = [] then s.stage else .digit
        valid := s.valid || ds.any (· != config.separator)
        integral := Int64.ofNat (runNumber config s.base (pre ++ ds)) } := by
  rw [readDigits_eq (by simp [hp]) pre (by rwa [Progress.amount, hp]) hds,
    Progress.withAmount, hp]

/-- Digits of an exponent. -/
theorem readDigits_of_exponent {s : Progress} (hp : s.part = .exponent) (hn : s.exponent = 0)
    {ds : List Char} (hds : ∀ c ∈ ds, inRun config s.base c = true) :
    readDigits config s ds =
      { s with
        stage := if ds = [] then s.stage else .digit
        valid := s.valid || ds.any (· != config.separator)
        exponent := Int64.ofNat (runNumber config s.base ds) } := by
  rw [readDigits_eq (by simp [hp]) [] (by rw [Progress.amount, hp]; exact hn) hds,
    Progress.withAmount, hp]
  rfl

end Lexing.Numeric
