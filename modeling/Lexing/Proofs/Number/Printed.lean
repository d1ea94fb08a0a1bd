import Mathlib.Algebra.Order.Ring.Nat
import Mathlib.Tactic.Common
import Mathlib.Tactic.Ring
import Lexing.Number.Layout

/-!
# What printed numbers look like

The decimal digits of a positive number begin with a digit other than zero, and
so do those of the shortest decimal of a binary number other than zero. Hence
the form with an exponent (`Scientific`) of every such number: one digit other
than zero in front of the point, further digits behind it or no point at all,
and a whole exponent (`scientific_render`).

The bit patterns without such a form are those that the floating-point
arithmetic itself calls infinite or no number (`isFinite_decodeDouble`).
-/

namespace Lexing.Number

/-! ## Decimal digits -/

theorem isDigit_of_mem_decimalDigits {n : Nat} {c : Char} (h : c ∈ decimalDigits n) :
    c.isDigit = true :=
  Nat.isDigit_of_mem_toDigits (by decide) (by decide) h

theorem decimalDigits_ne_nil (n : Nat) : decimalDigits n ≠ [] := Nat.toDigits_ne_nil

/-- The last digit stands behind the others. -/
theorem decimalDigits_eq (n : Nat) :
    decimalDigits n
      = if n < 10 then [n.digitChar] else decimalDigits (n / 10) ++ [(n % 10).digitChar] :=
  Nat.toDigits_eq_if (by decide)

/-- **A positive number does not begin with a zero.** -/
theorem exists_decimalDigits_eq {n : Nat} (h : 0 < n) :
    ∃ d ds, decimalDigits n = d :: ds ∧ '1' ≤ d ∧ d ≤ '9' := by
  induction n using Nat.strongRecOn with
  | ind n ih =>
    rw [decimalDigits_eq]
    split_ifs with hlt
    · have key : ∀ n < 10, 0 < n → '1' ≤ n.digitChar ∧ n.digitChar ≤ '9' := by decide
      exact ⟨_, [], rfl, key n hlt h⟩
    · obtain ⟨d, ds, hds, hd⟩ := ih (n / 10) (by omega) (by omega)
      exact ⟨d, ds ++ [(n % 10).digitChar], by rw [hds, List.cons_append], hd⟩

/-! ## The shortest decimal -/

theorem chooseNeighbour_pos {tie : Tie} {r : ReadBack} {t : Int} {c : Nat}
    (h : chooseNeighbour tie r t = some c) : 0 < c := by
  unfold chooseNeighbour at h
  extract_lets up down num den k rest lower upper at h
  have hlower : lower = true → 0 < k := fun hl => of_decide_eq_true (Bool.and_eq_true_iff.mp hl).2
  split_ifs at h with hboth _ _ hlow
  · obtain rfl := Option.some.inj h
    exact hlower (Bool.and_eq_true_iff.mp hboth).1
  · obtain rfl := Option.some.inj h
    exact Nat.succ_pos _
  · have hk := hlower (Bool.and_eq_true_iff.mp hboth).1
    cases tie <;> obtain rfl := Option.some.inj h <;> omega
  · obtain rfl := Option.some.inj h
    exact hlower hlow
  · obtain rfl := Option.some.inj h
    exact Nat.succ_pos _

theorem searchGrids_pos {tie : Tie} {r : ReadBack} {place : Int} {d : Decimal} {fuel n : Nat}
    (h : searchGrids tie r place fuel n = some d) : 0 < d.coefficient := by
  induction fuel generalizing n with
  | zero => exact nomatch h
  | succ fuel ih =>
    rw [searchGrids] at h
    split at h
    next c hc =>
      obtain rfl := Option.some.inj h
      exact chooseNeighbour_pos hc
    next => exact ih h

theorem stripZeros_pos {d : Decimal} (h : 0 < d.coefficient) (fuel : Nat) :
    0 < (stripZeros fuel d).coefficient := by
  induction fuel generalizing d with
  | zero => exact h
  | succ fuel ih =>
    rw [stripZeros]
    split_ifs with hzero
    · exact ih (d := ⟨d.coefficient / 10, d.exponent + 1⟩) (by dsimp only; omega)
    · exact h

/-- **The shortest decimal of a number other than zero** is not zero. -/
theorem shortest_pos (f : BinaryFormat) (tie : Tie) {m : Nat} (hm : 0 < m) (q : Int) :
    0 < (shortest f tie m q).coefficient := by
  rw [shortest, if_neg hm.ne']
  dsimp only
  split
  next d hd => exact stripZeros_pos (searchGrids_pos hd) _
  next =>
    unfold exactDecimal
    split_ifs
    · exact Nat.mul_pos hm (Nat.pow_pos (by decide))
    · exact Nat.mul_pos hm (Nat.pow_pos (by decide))

/-! ## The form with an exponent -/

/-- A minus, or nothing. -/
def minus (negative : Bool) : List Char := if negative then ['-'] else []

theorem integerDigits_eq (n : Int) :
    integerDigits n = minus (n < 0) ++ decimalDigits n.natAbs := by
  unfold integerDigits minus
  by_cases h : n < 0 <;> simp [h]

/-- **A number written with an exponent**: a digit other than zero, further
digits behind a point if there are any, and a whole exponent. -/
inductive Scientific : List Char → Prop
  | whole (negative : Bool) {d : Char} (hd : '1' ≤ d ∧ d ≤ '9') (e : Int) :
      Scientific (minus negative ++ d :: 'e' :: integerDigits e)
  | fraction (negative : Bool) {d : Char} {ds : List Char} (hd : '1' ≤ d ∧ d ≤ '9')
      (hds : ∀ c ∈ ds, c.isDigit = true) (e : Int) :
      Scientific (minus negative ++ d :: '.' :: (ds ++ 'e' :: integerDigits e))

/-- **Every number other than zero has such a form.** -/
theorem scientific_render {f : BinaryFormat} {x : Decoded} (hfinite : x.isFinite = true)
    (hzero : x.isZero = false) : Scientific (x.render f .scientific) := by
  cases x with
  | nan => exact nomatch hfinite
  | infinite negative => exact nomatch hfinite
  | finite negative m q =>
    have hm : 0 < m := Nat.pos_of_ne_zero (by simpa [Decoded.isZero] using hzero)
    obtain ⟨d, ds, hds, hd⟩ := exists_decimalDigits_eq (shortest_pos f .away hm q)
    have hdigit : ∀ c ∈ ds, c.isDigit = true := fun c hc =>
      isDigit_of_mem_decimalDigits (hds ▸ List.mem_cons_of_mem d hc)
    show Scientific (minus negative ++ layOut .scientific (shortest f .away m q))
    unfold layOut
    dsimp only [Layout.scientific]
    rw [if_pos rfl, hds]
    cases ds with
    | nil => simpa [withExponent] using .whole negative hd _
    | cons c ds => simpa [withExponent] using .fraction negative hd hdigit _

/-! ## Infinities and what is no number -/

theorem isFinite_decodeBits (f : BinaryFormat) (bits : Nat) :
    (decodeBits f bits).isFinite
      = (bits % f.signBit / Nat.pow 2 f.fractionBits != f.maxField) := by
  unfold decodeBits
  dsimp only
  split_ifs with h <;> simp_all [Decoded.isFinite]

section Model

open Float.Model

theorem isNaN_or_isInf_unpack (spec : Format) (b : BitVec spec.numBits) :
    ((UnpackedFloat.unpack spec b).isNaN || (UnpackedFloat.unpack spec b).isInf)
      = (UnpackedFloat.unpackExponent b == BitVec.allOnes spec.exponentBits) := by
  unfold UnpackedFloat.unpack
  dsimp only
  rw [BitVec.neg_one_eq_allOnes]
  by_cases hones : UnpackedFloat.unpackExponent b = BitVec.allOnes spec.exponentBits
  · rw [if_pos hones, beq_iff_eq.mpr hones]
    by_cases hm : UnpackedFloat.unpackMantissa b = BitVec.ofNat _ 0
    · rw [if_pos hm]
      rfl
    · rw [if_neg hm]
      rfl
  · rw [if_neg hones, beq_eq_false_iff_ne.mpr hones]
    by_cases hzero : UnpackedFloat.unpackExponent b = BitVec.ofNat _ 0
    · rw [if_pos hzero]
      by_cases hm : UnpackedFloat.unpackMantissa b = BitVec.ofNat _ 0
      · rw [dif_pos hm]
        rfl
      · rw [dif_neg hm]
        rfl
    · rw [if_neg hzero]
      rfl

/-- **A bit pattern is no finite number** where its exponent has all bits set. -/
theorem isFinite_decodeBits_unpack (spec : Format) (f : BinaryFormat)
    (hm : f.fractionBits = spec.mantissaBitsWithoutImplicit)
    (he : f.exponentBits = spec.exponentBits) (b : BitVec spec.numBits) :
    (decodeBits f b.toNat).isFinite
      = !((UnpackedFloat.unpack spec b).isNaN || (UnpackedFloat.unpack spec b).isInf) := by
  have hwidth : f.fractionBits + f.exponentBits - 1 - f.fractionBits + 1 = f.exponentBits := by
    have := spec.he
    omega
  have hfield : (UnpackedFloat.unpackExponent b).toNat
      = b.toNat % f.signBit / Nat.pow 2 f.fractionBits := by
    rw [UnpackedFloat.unpackExponent, BitVec.toNat_cast, BitVec.extractLsb_toNat,
      Nat.shiftRight_eq_div_pow, ← hm, ← he, hwidth]
    show _ = b.toNat % 2 ^ (f.fractionBits + f.exponentBits) / 2 ^ f.fractionBits
    rw [pow_add, Nat.mod_mul_right_div_self]
  rw [isNaN_or_isInf_unpack, isFinite_decodeBits, ← hfield, bne]
  congr 1
  rw [Bool.eq_iff_iff, beq_iff_eq, beq_iff_eq, ← BitVec.toNat_inj, BitVec.toNat_allOnes,
    BinaryFormat.maxField, he]
  rfl

end Model

theorem isFinite_decodeDouble (x : Float) : (decodeDouble x).isFinite = !(x.isNaN || x.isInf) :=
  isFinite_decodeBits_unpack .binary64 .double rfl rfl x.toBits.toBitVec

theorem isFinite_decodeSingle (x : Float32) :
    (decodeSingle x).isFinite = !(x.isNaN || x.isInf) :=
  isFinite_decodeBits_unpack .binary32 .single rfl rfl x.toBits.toBitVec

end Lexing.Number
