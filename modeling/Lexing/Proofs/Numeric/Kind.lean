import Lexing.Proofs.Numeric.Announced
import Lexing.Proofs.Numeric.Width
import Lexing.Proofs.Numeric.Written

/-!
# The kind of a literal, read off its text

Which kind of number a literal is can be told from its text alone
(`kind_of_text`). A letter for a floating-point width at the end decides first,
except in hexadecimal literals, where `d` and `f` are digits; without one the
fraction character or a negative exponent makes a floating-point number of the
configured width; and any other literal is an integer, for which the letters of
the suffix name the sign and the width, in either order.

The suffix of an integer is followed letter by letter (`suffix_runFrom`): the
letters read so far are those that lead to the type and to the number without
sign that the table remembers.
-/

namespace Lexing.Numeric

variable {config : NumericConfig}

/-! ## Suffixes of integers -/

/-- The letters of a suffix that name a width, in lower case. -/
def widthOf (t : List Char) : List Char := (t.map Char.toLower).filter (· ≠ 'u')

/-- **The bits that a suffix asks for**; without the letters of a width one of
three is chosen. -/
def suffixBits (t : List Char) : List Nat :=
  match widthOf t with
  | ['l', 'l'] => [64]
  | ['l'] => [32]
  | ['i'] => [16]
  | ['s'] => [8]
  | [] => [8, 16, 32]
  | _ => []

/-- The letters that lead to a type of integers. -/
def typeLetters : NumberType → List Char
  | .byte => ['s']
  | .short => ['i']
  | .int => ['l']
  | .long => ['l', 'l']
  | _ => []

/-- **A letter of a suffix** is added to those of the type, or asks for a number
without sign. -/
theorem suffix_entered {p : Progress} {t : Stage} {c : Char}
    (ht : t ∈ [.signSpecifier, .widthSpecifier, .longSpecifier])
    (hwidth : t = .widthSpecifier → p.type = .unknown)
    (hlong : t = .longSpecifier → p.type = .int) (he : canEnter config t p c = true) :
    typeLetters (entered config t p c).type = typeLetters p.type ++ widthOf [c]
      ∧ (entered config t p c).unsigned = (p.unsigned || asksUnsigned [c]) := by
  simp only [List.mem_cons, List.not_mem_nil, or_false] at ht
  rcases ht with rfl | rfl | rfl
  · have hmem : c ∈ ['u', 'U'] := by simpa [canEnter] using he
    simp only [List.mem_cons, List.not_mem_nil, or_false] at hmem
    rcases hmem with rfl | rfl <;> simp [entered, onEnter, widthOf, asksUnsigned]
  · have hmem : c ∈ widthLetters := by simpa [canEnter, widthLetters] using he
    simp only [widthLetters, List.mem_cons, List.not_mem_nil, or_false] at hmem
    rcases hmem with rfl | rfl | rfl | rfl | rfl | rfl <;>
      simp [entered, onEnter, hwidth rfl, asksUnsigned, widthOf, typeLetters]
  · have hmem : c ∈ ['l', 'L'] := by simpa [canEnter] using he
    simp only [List.mem_cons, List.not_mem_nil, or_false] at hmem
    rcases hmem with rfl | rfl <;>
      simp [entered, onEnter, hlong rfl, asksUnsigned, widthOf, typeLetters]

theorem widthOf_cons (c : Char) (t : List Char) : widthOf (c :: t) = widthOf [c] ++ widthOf t := by
  rw [← List.singleton_append, widthOf, List.map_append, List.filter_append]
  rfl

theorem asksUnsigned_cons (c : Char) (t : List Char) :
    asksUnsigned (c :: t) = (asksUnsigned [c] || asksUnsigned t) := by
  simp [asksUnsigned]

/-- **The letters of a suffix**, from any of its stages on. -/
theorem suffix_runFrom (hc : Separated config) {p s : Progress} {t : List Char}
    (hst : p.stage ∈ [.signSpecifier, .widthSpecifier, .longSpecifier])
    (h : runFrom config p t = some s) :
    typeLetters s.type = typeLetters p.type ++ widthOf t
      ∧ s.unsigned = (p.unsigned || asksUnsigned t) := by
  induction t generalizing p with
  | nil =>
    obtain rfl := Option.some.inj h
    simp [widthOf, asksUnsigned]
  | cons c t ih =>
    have hconf : Confined p := fun _ =>
      List.mem_append_right [Stage.baseSpecifier, .digit] hst
    obtain ⟨st, hmem, ha, he, hrun⟩ := (runFrom_cons_iff hc hconf).mp h
    have hnext : st ∈ [.signSpecifier, .widthSpecifier, .longSpecifier]
        ∧ (st = .widthSpecifier → p.type = .unknown) ∧ (st = .longSpecifier → p.type = .int) := by
      simp only [List.mem_cons, List.not_mem_nil, or_false] at hst
      rcases hst with hst | hst | hst <;> rw [hst] at hmem ha <;>
        simp only [Stage.targets, List.mem_cons, List.not_mem_nil, or_false] at hmem
      · subst hmem
        simpa [allows] using ha
      · rcases hmem with rfl | rfl <;> simp [allows] at ha ⊢
        exact ha
      · subst hmem
        simp
    obtain ⟨htype, hunsigned⟩ := suffix_entered hnext.1 hnext.2.1 hnext.2.2 he
    obtain ⟨ihtype, ihunsigned⟩ := ih hnext.1 hrun
    constructor
    · rw [ihtype, htype, widthOf_cons c t, List.append_assoc]
    · rw [ihunsigned, hunsigned, asksUnsigned_cons c t, Bool.or_assoc]

/-- **The suffix of an integer literal** says its type, and whether it is one
without sign. -/
theorem IntegerEnd.typeLetters_eq (hc : Separated config) {q s : Progress} {t : List Char}
    (h : IntegerEnd config q t s) (htype : q.type = .unknown) (hunsigned : q.unsigned = false) :
    typeLetters s.type = widthOf t ∧ s.unsigned = asksUnsigned t := by
  -- behind the first letter, which enters one of the stages of suffixes
  have hletter : ∀ {st c t}, st ∈ [.signSpecifier, .widthSpecifier] →
      canEnter config st q c = true → runFrom config (entered config st q c) t = some s →
      typeLetters s.type = widthOf (c :: t) ∧ s.unsigned = asksUnsigned (c :: t) := by
    intro st c t hst he hw
    have hmem : st ∈ [.signSpecifier, .widthSpecifier, .longSpecifier] :=
      List.mem_append_left [Stage.longSpecifier] hst
    have hlong : st = .longSpecifier → q.type = .int := by
      rintro rfl
      simp at hst
    obtain ⟨hfirst, hfirstUnsigned⟩ := suffix_entered hmem (fun _ => htype) hlong he
    obtain ⟨hrest, hrestUnsigned⟩ := suffix_runFrom hc (p := entered config st q c) hmem hw
    constructor
    · rw [hrest, hfirst, htype, widthOf_cons c t]
      rfl
    · rw [hrestUnsigned, hfirstUnsigned, hunsigned, asksUnsigned_cons c t, Bool.false_or]
  cases h with
  | bare => simp [htype, hunsigned, typeLetters, widthOf, asksUnsigned]
  | unsigned hmem hw => exact hletter (by simp) (by simpa [canEnter] using hmem) hw
  | width hmem hw => exact hletter (by simp) (by simpa [canEnter] using hmem) hw

/-! ## Kinds of integers -/

/-- A word is cut down to the sign that is asked for and the bits of its type. -/
theorem kind_cutDown (type : NumberType) (unsigned : Bool) (v : Int64) :
    (cutDown type unsigned v).kind.isUnsigned = unsigned
      ∧ (cutDown type unsigned v).kind.bits
        = match type with
          | .byte => 8
          | .short => 16
          | .int => 32
          | _ => 64 := by
  cases unsigned <;> cases type <;> exact ⟨rfl, rfl⟩

theorem inferWidth_mem (magnitude : Int64) (unsigned : Bool) :
    inferWidth magnitude unsigned ∈ [.byte, .short, .int] := by
  unfold inferWidth
  dsimp only
  split_ifs <;> simp

/-- **The kind of an integer** has the sign and one of the widths of its suffix. -/
theorem kind_decodeInteger {s : Progress} {t : List Char} (hs : s.type.isIntegral = true)
    (htype : typeLetters s.type = widthOf t) :
    (decodeInteger s).kind.isUnsigned = s.unsigned
      ∧ (decodeInteger s).kind.bits ∈ suffixBits t := by
  unfold decodeInteger
  dsimp only
  refine ⟨(kind_cutDown _ _ _).1, ?_⟩
  rw [(kind_cutDown _ _ _).2, suffixBits, ← htype]
  cases hst : s.type with
  | unknown =>
    have hmem := inferWidth_mem (magnitude s) s.unsigned
    simp only [List.mem_cons, List.not_mem_nil, or_false] at hmem
    rcases hmem with hmem | hmem | hmem <;> simp [hmem, typeLetters]
  | byte | short | int | long => simp [typeLetters]
  | unknownFloat | float | double => simp [hst, NumberType.isIntegral] at hs

/-- **An integer literal** has the kind that its suffix names. -/
theorem kind_of_integer (hc : Separated config) {w : List Char} {s : Progress}
    (h : runFrom config {} w = some s) (hs : s.type.isIntegral = true) :
    (decode config s).kind.isUnsigned = asksUnsigned (suffixOf config (afterSign w))
      ∧ (decode config s).kind.bits ∈ suffixBits (suffixOf config (afterSign w)) := by
  obtain ⟨sign, q, -, hq, hend⟩ := exists_counted_of_run hc h hs
  obtain ⟨htype, hunsigned⟩ := hend.typeLetters_eq hc hq.type hq.unsigned
  rw [decode, if_pos hs, ← hunsigned]
  exact kind_decodeInteger hs htype

/-! ## Kinds of floating-point numbers -/

/-- **The floating-point width that the last letter of a text names**, except in
hexadecimal literals. -/
def floatSuffix? (w : List Char) : Option FloatWidth :=
  if baseOf (afterSign w) = .hex then none
  else match w.getLast? with
    | some 'f' | some 'F' => some .f32
    | some 'd' | some 'D' => some .f64
    | _ => none

/-- A literal with the suffix of a floating-point width has that width. -/
theorem kind_of_floatSpecifier (hc : Separated config) {w : List Char} {s : Progress}
    (h : runFrom config {} w = some s) (hst : s.stage = .floatSpecifier) :
    ∃ width, floatSuffix? w = some width ∧ (decode config s).kind = floatKind width := by
  have hbase : baseOf (afterSign w) ≠ .hex := by
    rw [ne_eq, ← base_eq_hex_iff hc h]
    intro hb
    simpa [hst] using confined_fresh.runFrom hc h hb
  rcases List.eq_nil_or_concat' w with rfl | ⟨v, c, rfl⟩
  · obtain rfl := Option.some.inj h
    cases hst
  · obtain ⟨p, t, -, hstep, rfl⟩ := exists_last_step hc h
    obtain rfl : t = .floatSpecifier := hst
    have hmem : c ∈ ['f', 'F', 'd', 'D'] := by simpa [canEnter] using hstep.enters
    rw [floatSuffix?, if_neg hbase, List.getLast?_concat]
    simp only [List.mem_cons, List.not_mem_nil, or_false] at hmem
    rcases hmem with rfl | rfl | rfl | rfl
    · exact ⟨.f32, rfl, rfl⟩
    · exact ⟨.f32, rfl, rfl⟩
    · exact ⟨.f64, rfl, rfl⟩
    · exact ⟨.f64, rfl, rfl⟩

/-- Without such a suffix no text ends like one. -/
theorem floatSuffix?_eq_none (hc : Separated config) {w : List Char} {s : Progress}
    (h : runFrom config {} w = some s) (hst : s.stage ≠ .floatSpecifier) :
    floatSuffix? w = none := by
  unfold floatSuffix?
  split_ifs with hbase
  · rfl
  rcases List.eq_nil_or_concat' w with rfl | ⟨v, c, rfl⟩
  · rfl
  · rw [← base_eq_hex_iff hc h] at hbase
    obtain ⟨p, t, -, hstep, rfl⟩ := exists_last_step hc h
    have ht : t ≠ .floatSpecifier := hst
    have hmem : c ∉ marks p.base .floatSpecifier := by
      refine notMem_marks_of_canEnter hc hstep.enters ?_
      cases t with
      | floatSpecifier => exact absurd rfl ht
      | digit =>
        rw [base_entered (by simp)] at hbase
        cases hb : p.base with
        | hex => exact absurd hb hbase
        | _ => simp [marks, Base.digits]
      | _ => simp [marks]
    rw [List.getLast?_concat]
    simp only [marks, List.mem_cons, List.not_mem_nil, or_false, not_or] at hmem
    split <;> simp_all

/-- A floating-point number without such a suffix has the usual width. -/
theorem kind_of_unknownFloat {s : Progress} (hs : s.type = .unknownFloat) :
    (decode config s).kind = floatKind config.defaultFloat := by
  have hwidth : floatWidth config s.type = config.defaultFloat := by
    rw [hs]
    rfl
  rw [decode, hs, if_neg (by simp [NumberType.isIntegral]), decodeFloat, hwidth]
  cases config.defaultFloat <;> rfl

/-! ## Literals of any kind -/

/-- **The kind of a literal can be read off its text.** A suffix for a
floating-point width decides first, then the form of a floating-point number;
any other literal is an integer with the sign and a width of its suffix. -/
theorem kind_of_text (hconfig : config.validate = .ok ()) (id : Nat) (reserved : Option Reserved)
    {w : List Char} (hw : (Token.numeric config id).accepts reserved w = true) :
    ∃ s v, (Token.numeric config id).run ((Token.numeric config id).fresh reserved) [] w = some s
      ∧ (Token.numeric config id).decode? s w = .ok (some v)
      ∧ (∀ width, floatSuffix? w = some width → v.kind = floatKind width)
      ∧ (floatSuffix? w = none → FloatForm config w → v.kind = floatKind config.defaultFloat)
      ∧ (floatSuffix? w = none → ¬ FloatForm config w → v.isFloat = false
        ∧ v.kind.isUnsigned = asksUnsigned (suffixOf config (afterSign w))
        ∧ v.kind.bits ∈ suffixBits (suffixOf config (afterSign w))) := by
  have hc := separated_of_validate hconfig
  rw [accepts_numeric, completes_eq, Option.any_eq_true] at hw
  obtain ⟨s, hrun, hvalid⟩ := hw
  refine ⟨s, decode config s, by rwa [run_numeric], decode?_eq_ok_iff.mpr ⟨hvalid, rfl⟩, ?_⟩
  by_cases hst : s.stage = .floatSpecifier
  · obtain ⟨width, hsuffix, hkind⟩ := kind_of_floatSpecifier hc hrun hst
    rw [hsuffix]
    exact ⟨fun width' heq => Option.some.inj heq ▸ hkind, nofun, nofun⟩
  · rw [floatSuffix?_eq_none hc hrun hst]
    rcases (floatForm_cases hc hrun).resolve_left hst with ⟨hform, htype⟩ | ⟨hform, hs⟩
    · exact ⟨nofun, fun _ _ => kind_of_unknownFloat htype, fun _ hno => absurd hform hno⟩
    · refine ⟨nofun, fun _ hyes => absurd hyes hform, fun _ _ => ⟨?_, kind_of_integer hc hrun hs⟩⟩
      rw [isFloat_decode, hs]
      rfl

/-- In a hexadecimal literal the letters of floating-point widths are digits, and
the suffix may name sign and width in either order. -/
theorem kind_of_text_hex : (Token.numeric {} 0).accepts none "0x1FdLu".toList = true
    ∧ ∃ s v, (Token.numeric {} 0).run {} [] "0x1FdLu".toList = some s
      ∧ (Token.numeric {} 0).decode? s "0x1FdLu".toList = .ok (some v)
      ∧ v.isFloat = false ∧ v.kind.isUnsigned = true ∧ v.kind.bits = 32 := by
  have haccepts : (Token.numeric {} 0).accepts none "0x1FdLu".toList = true := rfl
  obtain ⟨s, v, hrun, hdecode, -, -, hinteger⟩ := @kind_of_text {} rfl 0 none _ haccepts
  obtain ⟨hfloat, hunsigned, hbits⟩ := hinteger (by decide) (by decide +kernel)
  have hsuffix : suffixOf {} (afterSign "0x1FdLu".toList) = ['L', 'u'] := by decide +kernel
  have hnamed : suffixBits ['L', 'u'] = [32] := by decide +kernel
  rw [hsuffix] at hunsigned hbits
  rw [hnamed] at hbits
  exact ⟨haccepts, s, v, hrun, hdecode, hfloat, hunsigned, List.mem_singleton.mp hbits⟩

end Lexing.Numeric
