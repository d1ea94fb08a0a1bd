import Lexing.Proofs.Numeric.Integer

/-!
# The widths of integer literals without a suffix

An integer literal that names no width takes the narrowest of 8, 16 and 32 bits
that holds its magnitude (`narrowest`). What is compared is the magnitude as a
64-bit word with sign (`kind_of_word`): that is the magnitude itself below
`2^63` (`kind_of_unsuffixed`), but not from there on. The magnitude `2^63` is the
most negative word, and the literal becomes an 8-bit one
(`not_forall_kind_of_unsuffixed`).
-/

namespace Lexing

/-- **The narrowest kind** of 8, 16 and 32 bits that holds a magnitude; the
32-bit one if none does. -/
def ValueKind.narrowest (unsigned : Bool) (n : Int) : ValueKind :=
  match unsigned with
  | false => if n ≤ 127 then .i8 else if n ≤ 32767 then .i16 else .i32
  | true => if n ≤ 255 then .u8 else if n ≤ 65535 then .u16 else .u32

namespace Numeric

variable {config : NumericConfig}

/-- **The inferred width** is the narrowest for the word that is compared. -/
theorem kind_cutDown_inferWidth (magnitude v : Int64) (unsigned : Bool) :
    (cutDown (inferWidth magnitude unsigned) unsigned v).kind
      = .narrowest unsigned magnitude.toInt := by
  have hlt : ∀ bound : Int64, bound < magnitude ↔ ¬ magnitude.toInt ≤ bound.toInt := fun bound => by
    rw [Int64.lt_iff_toInt_lt, not_le]
  cases unsigned with
  | false =>
    simp only [inferWidth, ValueKind.narrowest, hlt, Bool.false_eq_true, if_false, ite_not,
      show (127 : Int64).toInt = 127 from rfl, show (32767 : Int64).toInt = 32767 from rfl]
    split_ifs <;> first | rfl | omega
  | true =>
    simp only [inferWidth, ValueKind.narrowest, hlt, if_true, ite_not,
      show (255 : Int64).toInt = 255 from rfl, show (65535 : Int64).toInt = 65535 from rfl]
    split_ifs <;> first | rfl | omega

/-- The letters that name a width. -/
def widthLetters : List Char := ['i', 'I', 'l', 'L', 's', 'S']

/-- Whether a suffix asks for a number without sign. -/
def asksUnsigned (t : List Char) : Bool := t.any (· ∈ ['u', 'U'])

/-- **Without a width letter** an integer literal ends bare or with the suffix
for a number without sign, and its width is left open. -/
theorem IntegerEnd.of_no_width (hc : Separated config) {q s : Progress} {t : List Char}
    (h : IntegerEnd config q t s) (ht : ∀ c ∈ t, c ∉ widthLetters) (htype : q.type = .unknown)
    (hunsigned : q.unsigned = false) : s.type = .unknown ∧ s.unsigned = asksUnsigned t := by
  cases h with
  | bare => exact ⟨htype, hunsigned⟩
  | @unsigned c w _ hmem hw =>
    cases w with
    | nil =>
      obtain rfl := Option.some.inj hw
      exact ⟨htype, by simpa [entered, onEnter, asksUnsigned] using hmem⟩
    | cons d w =>
      -- behind the suffix for a number without sign only a width could follow
      obtain ⟨st, hst, -, he, -⟩ := (runFrom_cons_iff hc (fun _ => by simp [entered])).mp hw
      obtain rfl : st = .widthSpecifier := by simpa [entered, Stage.targets] using hst
      exact absurd (by simpa [canEnter, widthLetters] using he) (ht d (by simp))
  | width hmem _ => exact absurd hmem (ht _ (by simp))

/-- **The width of a literal by its word**: the narrowest for the magnitude that
the text spells, reduced to the 64-bit words with sign. -/
theorem kind_of_word (hc : Separated config) {w : List Char} {s : Progress}
    (hrun : runFrom config {} w = some s) (hs : s.type.isIntegral = true)
    (hwidth : ∀ c ∈ suffixOf config (afterSign w), c ∉ widthLetters)
    (hexponent : wholeOf config (afterSign w) = 0 ∨ tenPower config (afterSign w) < 2 ^ 63) :
    (decode config s).kind = .narrowest (asksUnsigned (suffixOf config (afterSign w)))
      (Int.bmod (magnitudeOf config (afterSign w)) (2 ^ 64)) := by
  obtain ⟨sign, q, -, hq, hend⟩ := exists_counted_of_run hc hrun hs
  obtain ⟨htype, hunsigned⟩ := hend.of_no_width hc hwidth hq.type hq.unsigned
  obtain ⟨st, type, unsigned, rfl⟩ := hend.exists_eq hc
  have hmag := hq.magnitude_eq (s := { q with stage := st, type := type, unsigned := unsigned })
    rfl rfl rfl hexponent
  rw [decode, if_pos hs, decodeInteger, if_pos htype, kind_cutDown_inferWidth, hmag, ← hunsigned,
    ← Int64.ofInt_eq_ofNat, Int64.toInt_ofInt]
  rfl

/-- Digits other than zeros keep the exponent of a number that is not too large
below it. -/
theorem whole_eq_zero_or_tenPower_lt {u : List Char} {b : Nat} (h : magnitudeOf config u < b) :
    wholeOf config u = 0 ∨ tenPower config u < b := by
  refine or_iff_not_imp_left.mpr fun hwhole => ?_
  calc tenPower config u < 10 ^ tenPower config u := Nat.lt_pow_self (by decide)
    _ ≤ magnitudeOf config u := Nat.le_mul_of_pos_left _ (Nat.pos_of_ne_zero hwhole)
    _ < b := h

/-- **Width inference follows the magnitude** of an integer literal without a
width suffix, as long as the magnitude fits 63 bits. -/
theorem kind_of_unsuffixed (hconfig : config.validate = .ok ()) (id : Nat)
    (reserved : Option Reserved) {w : List Char} {s : Progress} {v : Value}
    (hrun : (Token.numeric config id).run ((Token.numeric config id).fresh reserved) [] w = some s)
    (hdecode : (Token.numeric config id).decode? s w = .ok (some v)) (hinteger : v.isFloat = false)
    (hwidth : ∀ c ∈ suffixOf config (afterSign w), c ∉ widthLetters)
    (hfits : magnitudeOf config (afterSign w) < 2 ^ 63) :
    v.kind = .narrowest (asksUnsigned (suffixOf config (afterSign w)))
      (magnitudeOf config (afterSign w)) := by
  obtain ⟨-, rfl⟩ := decode?_eq_ok_iff.mp hdecode
  have hs : s.type.isIntegral = true := by simpa [isFloat_decode] using hinteger
  rw [run_numeric] at hrun
  rw [kind_of_word (separated_of_validate hconfig) hrun hs hwidth
    (whole_eq_zero_or_tenPower_lt hfits)]
  -- below `2^63` the word is the magnitude
  rw [Int.bmod_eq_of_le (by omega) (by omega)]

/-- The greatest magnitude for which the width is the one it asks for. -/
theorem kind_of_largest : (Value.i32 (-1)).kind = .narrowest false ((2 ^ 63 - 1 : Nat) : Int) :=
  @kind_of_unsuffixed {} rfl 0 none "9223372036854775807".toList _ _ rfl rfl rfl
    (by rw [show suffixOf {} _ = [] from rfl]; simp) (by decide +kernel)

/-- **A larger magnitude may take a narrower width**: the literal of `2^63` is
an 8-bit one. -/
theorem not_forall_kind_of_unsuffixed : ¬ ∀ {w : List Char} {s : Progress} {v : Value},
    (Token.numeric {} 0).run ((Token.numeric {} 0).fresh none) [] w = some s →
    (Token.numeric {} 0).decode? s w = .ok (some v) → v.isFloat = false →
    (∀ c ∈ suffixOf {} (afterSign w), c ∉ widthLetters) →
    v.kind = .narrowest (asksUnsigned (suffixOf {} (afterSign w)))
      (magnitudeOf {} (afterSign w)) := by
  intro h
  have hkind : (Value.i8 0).kind = .narrowest false ((2 ^ 63 : Nat) : Int) :=
    @h "9223372036854775808".toList _ _ rfl rfl rfl
      (by rw [show suffixOf {} _ = [] from rfl]; simp)
  exact absurd hkind (by decide)

end Numeric

end Lexing
