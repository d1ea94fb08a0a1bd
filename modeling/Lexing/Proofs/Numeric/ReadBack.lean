import Lexing.Proofs.Numeric.Written

/-!
# Written values read back

Every value but an infinity or what is no number has a written form, and
extraction takes that form as a whole and gives a value of the same kind: the
value itself if it is an integer of any width or a zero of either sign
(`written_reads_back`). A floating-point number other than zero may come back
rounded, since literals are not read by a correctly rounding conversion.
-/

namespace Lexing

/-- Whether a value is infinite or no number. -/
def Value.isNonFinite : Value → Bool
  | f32 x => x.isNaN || x.isInf
  | f64 x => x.isNaN || x.isInf
  | _ => false

namespace Numeric

variable {config : NumericConfig}

/-- **The digits of a floating-point number read back** under the suffix of a
width, and a zero keeps its sign. -/
theorem exists_run_of_floatBody (hc : Separated config) {f : Number.BinaryFormat}
    {x : Number.Decoded} {body : List Char} (h : floatBody? config f x = some body)
    (width : FloatWidth) :
    ∃ s, runFrom config {} (body ++ [floatLetter width]) = some s ∧ s.valid = true
      ∧ (decode config s).kind = floatKind width
      ∧ (x.isZero = true → decode config s = .signedZero width x.isNegative) := by
  unfold floatBody? at h
  by_cases hfinite : x.isFinite = true
  · rw [if_neg (by simp [hfinite])] at h
    obtain rfl := Option.some.inj h
    by_cases hzero : x.isZero = true
    · refine ⟨_, ?_, rfl, kind_decode_floatSpecifier _ _,
        fun _ => decode_behindZero x.isNegative width⟩
      rw [← runFrom_zero hc, if_pos hzero]
      cases x.isNegative <;> rfl
    · obtain ⟨s, hs, hvalid, hkind⟩ := exists_run_of_scientific hc
        (Number.scientific_render (f := f) hfinite (eq_false_of_ne_true hzero)) width
      rw [if_neg hzero]
      exact ⟨s, hs, hvalid, hkind, fun h => absurd h hzero⟩
  · rw [if_pos (by simp [hfinite])] at h
    exact nomatch h

theorem floatBody?_eq_none_iff {f : Number.BinaryFormat} {x : Number.Decoded} :
    floatBody? config f x = none ↔ x.isFinite = false := by
  unfold floatBody?
  split_ifs with h <;> simp_all

/-- **What has no written form** is infinite or no number. -/
theorem written_eq_none_iff {v : Value} : written config v = none ↔ v.isNonFinite = true := by
  cases v with
  | f32 x =>
    show (Option.map _ _ : Option (List Char)) = none ↔ _
    rw [Option.map_eq_none_iff, floatBody?_eq_none_iff, Number.isFinite_decodeSingle,
      Bool.not_eq_false']
    rfl
  | f64 x =>
    show (Option.map _ _ : Option (List Char)) = none ↔ _
    rw [Option.map_eq_none_iff, floatBody?_eq_none_iff, Number.isFinite_decodeDouble,
      Bool.not_eq_false']
    rfl
  | _ => simp [written, Value.toInt?, Value.isNonFinite]

/-- A value that is a signed zero is one as a bit pattern. -/
theorem isZero_decodeSingle {x : Float32} {width : FloatWidth} {negative : Bool}
    (h : Value.f32 x = .signedZero width negative) :
    width = .f32 ∧ (Number.decodeSingle x).isZero = true
      ∧ (Number.decodeSingle x).isNegative = negative := by
  cases width with
  | f32 =>
    obtain rfl := Value.f32.inj h
    cases negative <;> decide +kernel
  | f64 => exact nomatch h

theorem isZero_decodeDouble {x : Float} {width : FloatWidth} {negative : Bool}
    (h : Value.f64 x = .signedZero width negative) :
    width = .f64 ∧ (Number.decodeDouble x).isZero = true
      ∧ (Number.decodeDouble x).isNegative = negative := by
  cases width with
  | f32 => exact nomatch h
  | f64 =>
    obtain rfl := Value.f64.inj h
    cases negative <;> decide +kernel

/-- **A written form leads to a value of its kind**, and to the value itself if
it is an integer or a zero. -/
theorem exists_run_of_written (hc : Separated config) {v : Value} {text : List Char}
    (h : written config v = some text) :
    ∃ s, runFrom config {} text = some s ∧ s.valid = true ∧ (decode config s).kind = v.kind
      ∧ (v.isFloat = false ∨ (∃ width negative, v = .signedZero width negative) →
          decode config s = v) := by
  have hinteger : ∀ n, v.toInt? = some n → text = Number.integerDigits n ++ suffix v.kind →
      ∃ s, runFrom config {} text = some s ∧ s.valid = true ∧ (decode config s).kind = v.kind
        ∧ (v.isFloat = false ∨ (∃ width negative, v = .signedZero width negative) →
            decode config s = v) := by
    rintro n hn rfl
    obtain ⟨s, hs, hvalid, hdecode⟩ := exists_run_of_integer hc hn
    exact ⟨s, hs, hvalid, by rw [hdecode], fun _ => hdecode⟩
  cases v with
  | f32 x =>
    obtain ⟨body, hbody, rfl⟩ := Option.map_eq_some_iff.mp h
    obtain ⟨s, hs, hvalid, hkind, hzero⟩ := exists_run_of_floatBody hc hbody .f32
    refine ⟨s, hs, hvalid, hkind, ?_⟩
    rintro (hfloat | ⟨width, negative, heq⟩)
    · exact nomatch hfloat
    · obtain ⟨rfl, hz, hsign⟩ := isZero_decodeSingle heq
      rw [hzero hz, hsign, heq]
  | f64 x =>
    obtain ⟨body, hbody, rfl⟩ := Option.map_eq_some_iff.mp h
    obtain ⟨s, hs, hvalid, hkind, hzero⟩ := exists_run_of_floatBody hc hbody .f64
    refine ⟨s, hs, hvalid, hkind, ?_⟩
    rintro (hfloat | ⟨width, negative, heq⟩)
    · exact nomatch hfloat
    · obtain ⟨rfl, hz, hsign⟩ := isZero_decodeDouble heq
      rw [hzero hz, hsign, heq]
  | _ => exact hinteger _ rfl (Option.some.inj h).symm

/-- **Written values read back.** Only infinities and what is no number have no
written form; any other is read as a whole, as a value of the same kind, and as
the value itself if it is an integer or a signed zero. -/
theorem written_reads_back (hconfig : config.validate = .ok ()) (id : Nat) (v : Value) :
    ((Token.numeric config id).written v = none ↔ v.isNonFinite = true)
      ∧ ∀ text, (Token.numeric config id).written v = some text →
          ∃ l v', extract (Token.numeric config id).toToken text = .ok l
            ∧ l.isRecognized = true ∧ l.text = text
            ∧ l.start = 0 ∧ l.stop = Text.byteLength text
            ∧ l.value = some v' ∧ v'.kind = v.kind
            ∧ (v.isFloat = false ∨ (∃ width negative, v = .signedZero width negative) →
                v' = v) := by
  refine ⟨written_eq_none_iff, fun text htext => ?_⟩
  obtain ⟨s, hs, hvalid, hkind, hsame⟩ :=
    exists_run_of_written (separated_of_validate hconfig) htext
  have hlength := byteLength_of_ascii (isAscii_of_runFrom hconfig confined_fresh hs)
  exact ⟨_, _, extract_of_runFrom hconfig id none .utf8 hs hvalid, rfl, rfl, rfl, hlength.symm,
    rfl, hkind, hsame⟩

/-- The least number of 64 bits, whose magnitude is no such number. -/
theorem written_reads_back_least :
    ∃ l v', extract (Token.numeric ⟨'_', ',', .f64⟩ 7).toToken "-9223372036854775808ll".toList
        = .ok l ∧ l.isRecognized = true ∧ l.text = "-9223372036854775808ll".toList
      ∧ l.start = 0 ∧ l.stop = Text.byteLength "-9223372036854775808ll".toList
      ∧ l.value = some v' ∧ v'.kind = .i64
      ∧ ((Value.i64 Int64.minValue).isFloat = false
          ∨ (∃ width negative, Value.i64 Int64.minValue = .signedZero width negative) →
        v' = .i64 Int64.minValue) :=
  (@written_reads_back ⟨'_', ',', .f64⟩ rfl 7 (.i64 Int64.minValue)).2 _ (by decide +kernel)

end Numeric

end Lexing
