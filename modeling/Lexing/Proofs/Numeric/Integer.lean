import Mathlib.Data.Int.ModEq
import Lexing.Proofs.Numeric.Spelling

/-!
# The values of integer literals

A literal spells a whole number `M`, an exponent `E` and a sign, each of any
size. Its value is the one number of its kind that is congruent to
`± M · 10^E` modulo the width of the kind (`decode_integer_modEq`): digits and
powers of ten may wrap around on the way, and an exponent beyond 64 counts as
one that clears all bits, which is what such a power of ten does.
-/

namespace Lexing

namespace ValueKind

/-- The number of bits of a kind. -/
def bits : ValueKind → Nat
  | i8 | u8 => 8
  | i16 | u16 => 16
  | i32 | u32 | f32 => 32
  | i64 | u64 | f64 => 64

/-- Whether a kind is one of integers without sign. -/
def isUnsigned : ValueKind → Bool
  | u8 | u16 | u32 | u64 => true
  | _ => false

/-- **The integers that a kind holds.** -/
def Holds (k : ValueKind) (n : Int) : Prop :=
  if k.isUnsigned then 0 ≤ n ∧ n < 2 ^ k.bits
  else -2 ^ (k.bits - 1) ≤ n ∧ n < 2 ^ (k.bits - 1)

theorem bits_le (k : ValueKind) : k.bits ≤ 64 := by cases k <;> decide

/-- A kind holds one integer of each residue class. -/
theorem Holds.eq_of_modEq {k : ValueKind} {m n : Int} (hm : k.Holds m) (hn : k.Holds n)
    (h : m ≡ n [ZMOD 2 ^ k.bits]) : m = n := by
  have hdvd := h.dvd
  cases k <;> simp only [Holds, bits, isUnsigned] at hm hn hdvd <;> norm_num at hm hn hdvd <;> omega

end ValueKind

namespace Numeric

variable {config : NumericConfig}

/-! ## Words -/

/-- A word without its upper bits, read as a number without sign. -/
theorem toUInt64_modEq (v : Int64) {k : Nat} (hk : k ≤ 64) :
    ((v.toUInt64.toNat % 2 ^ k : Nat) : Int) ≡ v.toInt [ZMOD 2 ^ k] := by
  have hword : v.toInt = Int.bmod v.toUInt64.toNat (2 ^ 64) := BitVec.toInt_eq_toNat_bmod v.toBitVec
  have hdvd : (2 ^ k : Int) ∣ ((2 ^ 64 : Nat) : Int) := by
    push_cast
    exact pow_dvd_pow 2 hk
  calc ((v.toUInt64.toNat % 2 ^ k : Nat) : Int)
      ≡ v.toUInt64.toNat [ZMOD 2 ^ k] := by
        push_cast
        exact Int.mod_modEq _ _
    _ ≡ v.toInt [ZMOD 2 ^ k] := by
        rw [hword]
        exact (Int.ModEq.of_dvd hdvd Int.bmod_emod).symm

/-- **A word cut down to a kind** is the number of that kind that is congruent
to it. -/
theorem cutDown_modEq (type : NumberType) (unsigned : Bool) (v : Int64) :
    ∃ n, (cutDown type unsigned v).toInt? = some n ∧ (cutDown type unsigned v).kind.Holds n
      ∧ n ≡ v.toInt [ZMOD 2 ^ (cutDown type unsigned v).kind.bits] := by
  have hsigned : (Value.i64 v).kind.Holds v.toInt := ⟨Int64.le_toInt v, Int64.toInt_lt v⟩
  have hunsigned : (Value.u64 v.toUInt64).kind.Holds v.toUInt64.toNat :=
    ⟨Int.natCast_nonneg _, by exact_mod_cast v.toUInt64.toNat_lt⟩
  have hlong : ((v.toUInt64.toNat : Nat) : Int) ≡ v.toInt [ZMOD 2 ^ 64] := by
    have hmod := toUInt64_modEq v (Nat.le_refl 64)
    rwa [Nat.mod_eq_of_lt v.toUInt64.toNat_lt] at hmod
  cases unsigned with
  | false =>
    cases type with
    | byte =>
      exact ⟨v.toInt8.toInt, rfl, ⟨v.toInt8.le_toInt, v.toInt8.toInt_lt⟩,
        v.toInt_toInt8 ▸ Int.bmod_emod⟩
    | short =>
      exact ⟨v.toInt16.toInt, rfl, ⟨v.toInt16.le_toInt, v.toInt16.toInt_lt⟩,
        v.toInt_toInt16 ▸ Int.bmod_emod⟩
    | int =>
      exact ⟨v.toInt32.toInt, rfl, ⟨v.toInt32.le_toInt, v.toInt32.toInt_lt⟩,
        v.toInt_toInt32 ▸ Int.bmod_emod⟩
    | _ => exact ⟨v.toInt, rfl, hsigned, rfl⟩
  | true =>
    cases type with
    | byte =>
      exact ⟨_, rfl, ⟨Int.natCast_nonneg _, by exact_mod_cast v.toUInt64.toUInt8.toNat_lt⟩,
        v.toUInt64.toNat_toUInt8 ▸ toUInt64_modEq v (show 8 ≤ 64 by decide)⟩
    | short =>
      exact ⟨_, rfl, ⟨Int.natCast_nonneg _, by exact_mod_cast v.toUInt64.toUInt16.toNat_lt⟩,
        v.toUInt64.toNat_toUInt16 ▸ toUInt64_modEq v (show 16 ≤ 64 by decide)⟩
    | int =>
      exact ⟨_, rfl, ⟨Int.natCast_nonneg _, by exact_mod_cast v.toUInt64.toUInt32.toNat_lt⟩,
        v.toUInt64.toNat_toUInt32 ▸ toUInt64_modEq v (show 32 ≤ 64 by decide)⟩
    | _ => exact ⟨_, rfl, hunsigned, hlong⟩

/-- A power of ten from `10^64` on is a multiple of `2^64`. -/
theorem powerOfTen_ofNat {e : Nat} (h : e < 2 ^ 63) :
    powerOfTen (Int64.ofNat e) = Int64.ofNat (10 ^ e) := by
  have he : (Int64.ofNat e).toInt = e := Int64.toInt_ofNat_of_lt h
  rw [powerOfTen, he]
  split_ifs with h64
  · rfl
  · have hdvd : 2 ^ 64 ∣ 10 ^ e := by
      calc 2 ^ 64 ∣ 2 ^ e := pow_dvd_pow 2 (by omega)
        _ ∣ 10 ^ e := pow_dvd_pow_of_dvd (by decide) e
    obtain ⟨k, hk⟩ := hdvd
    rw [hk, Int64.ofNat_mul, show Int64.ofNat (2 ^ 64) = 0 from rfl, Int64.zero_mul]

/-! ## Integer literals -/

/-- The magnitude that a text spells. -/
def magnitudeOf (config : NumericConfig) (u : List Char) : Nat :=
  wholeOf config u * 10 ^ tenPower config u

/-- **The magnitude of a literal as a word**, unless the exponent is too large
to be remembered. -/
theorem Counted.magnitude_eq {u : List Char} {sign : Sign} {q s : Progress}
    (hq : Counted config u sign q) (hint : s.integral = q.integral) (hpart : s.part = q.part)
    (hexp : s.exponent = q.exponent) (he : wholeOf config u = 0 ∨ tenPower config u < 2 ^ 63) :
    magnitude s = Int64.ofNat (magnitudeOf config u) := by
  unfold magnitude magnitudeOf
  rw [hpart, hint, hexp, hq.integral]
  rcases hq.exponent with ⟨hp, hzero⟩ | ⟨hp, hpower⟩
  · rw [if_neg (by simp [hp]), hzero, pow_zero, Nat.mul_one]
  · rw [if_pos hp, hpower]
    rcases he with hwhole | he
    · simp [hwhole]
    · rw [powerOfTen_ofNat he, Int64.ofNat_mul]

theorem isFloat_cutDown (type : NumberType) (unsigned : Bool) (v : Int64) :
    (cutDown type unsigned v).isFloat = false := by
  cases unsigned <;> cases type <;> rfl

theorem isFloat_decodeFloat (config : NumericConfig) (s : Progress) :
    (decodeFloat config s).isFloat = true := by
  unfold decodeFloat
  cases floatWidth config s.type <;> rfl

theorem isFloat_decode (config : NumericConfig) (s : Progress) :
    (decode config s).isFloat = !s.type.isIntegral := by
  unfold decode
  split_ifs with h
  · rw [h]
    exact isFloat_cutDown _ _ _
  · rw [isFloat_decodeFloat, eq_false_of_ne_true h]
    rfl

/-- The token decodes what is complete. -/
theorem decode?_eq_ok_iff {id : Nat} {s : Progress} {w : List Char} {v : Value} :
    (Token.numeric config id).decode? s w = .ok (some v)
      ↔ s.valid = true ∧ v = decode config s := by
  show (if !s.valid then Except.error _ else .ok (some (decode config s))) = .ok (some v) ↔ _
  cases s.valid with
  | false => simp
  | true => simp [eq_comm]

/-- The word that is cut down to a value, by the text. -/
theorem word_modEq {sign : Sign} {w : List Char} {n : Nat}
    (h : sign = .negative ↔ w.head? = some '-') :
    (if sign = .negative then -Int64.ofNat n else Int64.ofNat n).toInt
      ≡ signFactor w * n [ZMOD 2 ^ 64] := by
  have hword : (if sign = .negative then -Int64.ofNat n else Int64.ofNat n)
      = Int64.ofInt (signFactor w * n) := by
    unfold signFactor
    by_cases hneg : sign = .negative
    · rw [if_pos hneg, if_pos (h.mp hneg), ← Int64.ofInt_eq_ofNat, ← Int64.ofInt_neg, neg_one_mul]
    · rw [if_neg hneg, if_neg (fun hhead => hneg (h.mpr hhead)), ← Int64.ofInt_eq_ofNat, one_mul]
  rw [hword, Int64.toInt_ofInt]
  exact Int.bmod_emod

/-- **Integer literals decode to their exact value modulo the width.** The
value is the one number that its kind holds and that is congruent to what the
text spells. -/
theorem decode_integer_modEq (hconfig : config.validate = .ok ()) (id : Nat)
    (reserved : Option Reserved) {w : List Char} {s : Progress} {v : Value}
    (hrun : (Token.numeric config id).run ((Token.numeric config id).fresh reserved) [] w = some s)
    (hdecode : (Token.numeric config id).decode? s w = .ok (some v)) (hinteger : v.isFloat = false)
    (hexponent : tenPower config (afterSign w) < 2 ^ 63) :
    ∃ n, v.toInt? = some n ∧ v.kind.Holds n
      ∧ n ≡ signFactor w * wholeOf config (afterSign w) * 10 ^ tenPower config (afterSign w)
          [ZMOD 2 ^ v.kind.bits]
      ∧ ∀ m, v.kind.Holds m → m ≡ n [ZMOD 2 ^ v.kind.bits] → m = n := by
  have hc := separated_of_validate hconfig
  obtain ⟨-, rfl⟩ := decode?_eq_ok_iff.mp hdecode
  have hs : s.type.isIntegral = true := by simpa [isFloat_decode] using hinteger
  rw [run_numeric] at hrun
  obtain ⟨sign, q, hsign, hq, hend⟩ := exists_counted_of_run hc hrun hs
  obtain ⟨st, type, unsigned, rfl⟩ := hend.exists_eq hc
  have hmag := hq.magnitude_eq (s := { q with stage := st, type := type, unsigned := unsigned })
    rfl rfl rfl (.inr hexponent)
  rw [decode, if_pos hs, decodeInteger, hmag]
  obtain ⟨n, hn, hholds, hmod⟩ := cutDown_modEq
    (if type = .unknown then inferWidth (Int64.ofNat (magnitudeOf config (afterSign w))) unsigned
      else type) unsigned
    (if q.sign = .negative then -Int64.ofNat (magnitudeOf config (afterSign w))
      else Int64.ofNat (magnitudeOf config (afterSign w)))
  refine ⟨n, hn, hholds, hmod.trans ?_, fun m hm h => hm.eq_of_modEq hholds h⟩
  have hword := word_modEq (n := magnitudeOf config (afterSign w)) (hq.sign.symm ▸ hsign)
  refine (hword.of_dvd (pow_dvd_pow 2 (ValueKind.bits_le _))).trans ?_
  rw [magnitudeOf, Nat.cast_mul, Nat.cast_pow, Nat.cast_ofNat, mul_assoc]

/-- Octal digits that overflow an 8-bit number without sign. -/
theorem decode_octal_modEq : ∃ n, (Value.u8 169).toInt? = some n ∧ ValueKind.u8.Holds n
      ∧ n ≡ 1 * 169 * 10 ^ 0 [ZMOD 2 ^ 8]
      ∧ ∀ m, ValueKind.u8.Holds m → m ≡ n [ZMOD 2 ^ 8] → m = n :=
  @decode_integer_modEq {} rfl 0 none "+0251Su".toList _ _ rfl rfl rfl (by decide)

end Numeric

end Lexing
