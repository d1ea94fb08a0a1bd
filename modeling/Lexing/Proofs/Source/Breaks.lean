import Lexing.Proofs.Charset.Glyphs
import Lexing.Proofs.Source.Lines

/-!
# The lines of a source

A run of line breaks ends one line, and the next line starts behind it. So the
lines of a text can be listed at once, by the places where its maximal runs of
line breaks end (`breakEnds`, `sourceLines`), and a table that grows while the
text is read can be compared with that list.

Every encoding writes a line break as one unit, and a unit behind it always
leads a glyph. The places can therefore be read off the units as well, without
regard to the glyphs (`charts_sourceLines`, `glyphs_ofText`).
-/

namespace Lexing

/-- A unit that shows a line break. -/
def IsBreak (u : UInt32) : Prop := Category.of (leadToChar u) = .newline

instance (u : UInt32) : Decidable (IsBreak u) := inferInstanceAs (Decidable (_ = _))

theorem IsBreak.glyphUnits_eq {u : UInt32} (h : IsBreak u) (e : Encoding) :
    e.glyphUnits u = 1 := by
  refine Encoding.glyphUnits_of_ascii ?_ e
  by_contra hlarge
  rw [IsBreak, leadToChar_eq, if_neg hlarge] at h
  exact absurd h (by decide)

theorem of_toAscii_eq_newline {c : Char} :
    Category.of (toAscii c) = .newline ↔ Category.of c = .newline := by
  by_cases hascii : c.toNat < 0x80
  · rw [toAscii_of_lt hascii]
  · have hother : Category.of c = .notAscii := by
      rw [Category.of, if_pos (Nat.le_of_not_lt hascii)]
    rw [toAscii, if_neg hascii, hother]
    decide

/-! ## Streams of units -/

/-- A stream of units that starts at an offset. -/
structure UnitStream where
  offset : Nat
  units : List UInt32

namespace UnitStream

variable {s : UnitStream} {e : Encoding} {o p q : Nat}

/-- The unit at an offset. -/
def at? (s : UnitStream) (q : Nat) : Option UInt32 :=
  if s.offset ≤ q then s.units[q - s.offset]? else none

/-- A line break stands at an offset. -/
def BreakAt (s : UnitStream) (q : Nat) : Prop := ∃ u, s.at? q = some u ∧ IsBreak u

/-- A unit that leads nothing stands at an offset. -/
def ContinuesAt (s : UnitStream) (e : Encoding) (q : Nat) : Prop :=
  ∃ u, s.at? q = some u ∧ e.glyphUnits u = 0

/-- **The units group into glyphs**, as far as lines depend on it. -/
structure Glyphs (s : UnitStream) (e : Encoding) : Prop where
  /-- a glyph has as many units as its lead announces -/
  whole : ∀ q u, s.at? q = some u → ∀ i, 0 < i → i < e.glyphUnits u → s.ContinuesAt e (q + i)
  /-- behind a line break another glyph begins -/
  behind : ∀ q, s.BreakAt q → ¬s.ContinuesAt e (q + 1)

/-- What continues a glyph is no line break. -/
theorem ContinuesAt.not_breakAt (h : s.ContinuesAt e q) : ¬s.BreakAt q := by
  rintro ⟨u, hu, hbreak⟩
  obtain ⟨v, hv, hzero⟩ := h
  obtain rfl := Option.some.inj (hu.symm.trans hv)
  rw [hbreak.glyphUnits_eq e] at hzero
  exact absurd hzero (by decide)

/-- The stream of a text. -/
def ofText (e : Encoding) (o : Nat) (text : List Char) : UnitStream :=
  ⟨o, text.flatMap e.encodeChar⟩

theorem at?_nil (o q : Nat) : at? ⟨o, []⟩ q = none := by
  unfold at?
  split <;> rfl

theorem at?_offset_add (s : UnitStream) (i : Nat) : s.at? (s.offset + i) = s.units[i]? := by
  rw [at?, if_pos (Nat.le_add_right _ _), Nat.add_sub_cancel_left]

theorem at?_append_left (o : Nat) {us : List UInt32} (vs : List UInt32) {i : Nat}
    (h : i < us.length) : at? ⟨o, us ++ vs⟩ (o + i) = us[i]? := by
  rw [at?_offset_add ⟨o, us ++ vs⟩ i, List.getElem?_append_left h]

theorem at?_append_right {us vs : List UInt32} (h : o + us.length ≤ q) :
    at? ⟨o, us ++ vs⟩ q = at? ⟨o + us.length, vs⟩ q := by
  unfold at?
  rw [if_pos (show o ≤ q by omega), if_pos h]
  show (us ++ vs)[q - o]? = vs[q - (o + us.length)]?
  rw [List.getElem?_append_right (by omega), Nat.sub_sub]

theorem lt_end_of_at? {u : UInt32} (h : s.at? q = some u) : q < s.offset + s.units.length := by
  rw [at?] at h
  split at h
  · have := (List.getElem?_eq_some_iff.1 h).1
    omega
  · exact nomatch h

theorem offset_le_of_at? {u : UInt32} (h : s.at? q = some u) : s.offset ≤ q := by
  by_contra hlt
  rw [at?, if_neg hlt] at h
  exact nomatch h

/-! ## The stream of a text, glyph by glyph -/

section Text

variable {c : Char} {text : List Char}

/-- The first unit leads the first character. -/
theorem exists_lead (e : Encoding) (o : Nat) (c : Char) (text : List Char) :
    ∃ u, (ofText e o (c :: text)).at? o = some u ∧ e.Leads u c := by
  obtain ⟨lead, rest, hunits, hlead, -⟩ := e.isGlyph_encodeChar c
  have hlength : 0 < (e.encodeChar c).length := by simp [hunits]
  have hat := at?_append_left o (text.flatMap e.encodeChar) hlength
  refine ⟨lead, ?_, hlead⟩
  rw [ofText, List.flatMap_cons]
  rw [Nat.add_zero] at hat
  rw [hat, hunits]
  rfl

/-- The other units of its glyph lead nothing. -/
theorem continuesAt_glyph (e : Encoding) (o : Nat) (c : Char) (text : List Char) {i : Nat}
    (hi : 0 < i) (hlt : i < e.unitLen c) : (ofText e o (c :: text)).ContinuesAt e (o + i) := by
  obtain ⟨lead, rest, hunits, -, hrest⟩ := e.isGlyph_encodeChar c
  have hlength : i < (e.encodeChar c).length := by rwa [Encoding.length_encodeChar]
  have hat := at?_append_left o (text.flatMap e.encodeChar) hlength
  obtain ⟨i, rfl⟩ := Nat.exists_eq_add_one_of_ne_zero (Nat.ne_of_gt hi)
  have hmem : i < rest.length := by
    rw [hunits, List.length_cons] at hlength
    exact Nat.lt_of_succ_lt_succ hlength
  refine ⟨rest[i], ?_, hrest _ (List.getElem_mem hmem)⟩
  rw [ofText, List.flatMap_cons, hat]
  simp only [hunits, List.getElem?_cons_succ]
  exact List.getElem?_eq_getElem hmem

/-- Behind the first glyph the stream is that of the other characters. -/
theorem at?_behind (h : o + e.unitLen c ≤ q) :
    (ofText e o (c :: text)).at? q = (ofText e (o + e.unitLen c) text).at? q := by
  rw [← Encoding.length_encodeChar] at h ⊢
  rw [ofText, List.flatMap_cons, at?_append_right h]
  rfl

/-- **Where the units of a text stand**: the first leads the first character,
the others of its glyph lead nothing, and then come the other characters. -/
theorem at?_cases {u : UInt32} (h : (ofText e o (c :: text)).at? q = some u) :
    q = o ∧ e.Leads u c ∨ (∃ i, 0 < i ∧ i < e.unitLen c ∧ q = o + i ∧ e.glyphUnits u = 0) ∨
      o + e.unitLen c ≤ q ∧ (ofText e (o + e.unitLen c) text).at? q = some u := by
  have hle : o ≤ q := offset_le_of_at? h
  obtain ⟨i, rfl⟩ := Nat.exists_eq_add_of_le hle
  obtain hlt | hge := Nat.lt_or_ge i (e.unitLen c)
  · obtain rfl | hi := Nat.eq_zero_or_pos i
    · obtain ⟨v, hv, hlead⟩ := exists_lead e o c text
      obtain rfl := Option.some.inj (h.symm.trans hv)
      exact .inl ⟨rfl, hlead⟩
    · obtain ⟨v, hv, hzero⟩ := continuesAt_glyph e o c text hi hlt
      obtain rfl := Option.some.inj (h.symm.trans hv)
      exact .inr (.inl ⟨i, hi, hlt, rfl, hzero⟩)
  · have hbehind : o + e.unitLen c ≤ o + i := Nat.add_le_add_left hge o
    rw [at?_behind hbehind] at h
    exact .inr (.inr ⟨hbehind, h⟩)

theorem isBreak_of_leads {u : UInt32} (h : e.Leads u c) :
    IsBreak u ↔ Category.of c = .newline := by
  rw [IsBreak, h.leadToChar_eq, of_toAscii_eq_newline]

/-- A line break is one unit. -/
theorem unitLen_of_newline (e : Encoding) (h : Category.of c = .newline) : e.unitLen c = 1 := by
  obtain ⟨u, -, hlead⟩ := exists_lead e 0 c []
  rw [← hlead.glyphUnits_eq, ((isBreak_of_leads hlead).2 h).glyphUnits_eq e]

/-- The line breaks of a text. -/
theorem breakAt_cons_iff : (ofText e o (c :: text)).BreakAt q ↔
    q = o ∧ Category.of c = .newline ∨ (ofText e (o + e.unitLen c) text).BreakAt q := by
  constructor
  · rintro ⟨u, hu, hbreak⟩
    obtain ⟨rfl, hlead⟩ | ⟨i, -, -, rfl, hzero⟩ | ⟨-, hu⟩ := at?_cases hu
    · exact .inl ⟨rfl, (isBreak_of_leads hlead).1 hbreak⟩
    · rw [hbreak.glyphUnits_eq e] at hzero
      exact absurd hzero (by decide)
    · exact .inr ⟨u, hu, hbreak⟩
  · rintro (⟨rfl, hc⟩ | ⟨u, hu, hbreak⟩)
    · obtain ⟨u, hu, hlead⟩ := exists_lead e q c text
      exact ⟨u, hu, (isBreak_of_leads hlead).2 hc⟩
    · exact ⟨u, (at?_behind (offset_le_of_at? hu)).trans hu, hbreak⟩

theorem not_breakAt_nil (e : Encoding) (o q : Nat) : ¬(ofText e o []).BreakAt q := by
  rintro ⟨u, hu, -⟩
  exact nomatch (at?_nil o q).symm.trans hu

theorem offset_le_of_breakAt (h : s.BreakAt q) : s.offset ≤ q :=
  have ⟨_, hu, _⟩ := h
  offset_le_of_at? hu

/-- A text begins with a line break if its first character is one. -/
theorem breakAt_offset_iff (e : Encoding) (o : Nat) (text : List Char) :
    (ofText e o text).BreakAt o ↔ text.head?.map Category.of = some .newline := by
  cases text with
  | nil => simpa using not_breakAt_nil e o o
  | cons c text =>
    have hbehind : ¬(ofText e (o + e.unitLen c) text).BreakAt o := fun h =>
      Nat.not_lt.2 (offset_le_of_breakAt h) (Nat.lt_add_of_pos_right (e.unitLen_pos c))
    simp [breakAt_cons_iff, hbehind]

/-- **The units of a text group into glyphs.** -/
theorem glyphs_ofText (e : Encoding) (o : Nat) (text : List Char) : (ofText e o text).Glyphs e := by
  induction text generalizing o with
  | nil =>
    exact ⟨fun q u hu => (nomatch (at?_nil o q).symm.trans hu),
      fun q hbreak => (not_breakAt_nil e o q hbreak).elim⟩
  | cons c text ih =>
    have hbehind {q : Nat} (h : o + e.unitLen c ≤ q) :
        (ofText e o (c :: text)).ContinuesAt e q ↔
          (ofText e (o + e.unitLen c) text).ContinuesAt e q := by
      rw [ContinuesAt, ContinuesAt, at?_behind h]
    refine ⟨fun q u hu i hi hlt => ?_, fun q hbreak hcont => ?_⟩
    · obtain ⟨rfl, hlead⟩ | ⟨j, -, -, -, hzero⟩ | ⟨hle, hu⟩ := at?_cases hu
      · rw [hlead.glyphUnits_eq] at hlt
        exact continuesAt_glyph e q c text hi hlt
      · rw [hzero] at hlt
        exact absurd hlt (Nat.not_lt_zero i)
      · exact (hbehind (Nat.le_add_right_of_le hle)).2 ((ih _).whole q u hu i hi hlt)
    · obtain ⟨rfl, hc⟩ | hbreak := breakAt_cons_iff.1 hbreak
      · -- a line break is one unit, and behind it the next character begins
        rw [← unitLen_of_newline e hc] at hcont
        obtain ⟨v, hv, hzero⟩ := (hbehind (Nat.le_refl _)).1 hcont
        cases text with
        | nil => exact nomatch (at?_nil _ _).symm.trans hv
        | cons d text =>
          obtain ⟨w, hw, hlead⟩ := exists_lead e (q + e.unitLen c) d text
          obtain rfl := Option.some.inj (hv.symm.trans hw)
          rw [hlead.glyphUnits_eq] at hzero
          exact absurd hzero (Nat.ne_of_gt (e.unitLen_pos d))
      · have hle := offset_le_of_breakAt hbreak
        exact (ih _).behind q hbreak ((hbehind (Nat.le_succ_of_le hle)).1 hcont)

end Text

end UnitStream

/-! ## The lines of a text -/

/-- **Where the maximal runs of line breaks end** in a text that starts at an
offset. A run ends with a line break that no line break follows. -/
def breakEnds (e : Encoding) (o : Nat) : List Char → List Nat
  | [] => []
  | c :: text =>
    let behind := breakEnds e (o + e.unitLen c) text
    if Category.of c = .newline ∧ text.head?.map Category.of ≠ some .newline then
      (o + e.unitLen c) :: behind
    else behind

/-- The lines of a text that starts at an offset. -/
def sourceLines (line : Nat) (e : Encoding) (o : Nat) (text : List Char) : LineTable :=
  ⟨line, o, breakEnds e o text⟩

/-- **A table lists the lines of a stream**: a line starts behind each line
break that no line break follows. -/
structure LineTable.Charts (T : LineTable) (s : UnitStream) : Prop where
  ordered : T.Ordered
  mem_later : ∀ q, q ∈ T.later ↔ ∃ p, q = p + 1 ∧ s.BreakAt p ∧ ¬s.BreakAt (p + 1)

section Lines

variable {e : Encoding} {o q : Nat} {text : List Char}

theorem pairwise_breakEnds (e : Encoding) (o : Nat) (text : List Char) :
    (o :: breakEnds e o text).Pairwise (· < ·) := by
  induction text generalizing o with
  | nil => exact List.pairwise_singleton _ _
  | cons c text ih =>
    have hpos := e.unitLen_pos c
    obtain ⟨hlt, hrest⟩ := List.pairwise_cons.1 (ih (o + e.unitLen c))
    rw [breakEnds]
    split
    · refine List.pairwise_cons.2 ⟨List.forall_mem_cons.2 ⟨by omega, fun q hq => ?_⟩, ih _⟩
      have := hlt q hq
      omega
    · refine List.pairwise_cons.2 ⟨fun q hq => ?_, hrest⟩
      have := hlt q hq
      omega

theorem mem_breakEnds_cons {c : Char} : q ∈ breakEnds e o (c :: text) ↔
    (Category.of c = .newline ∧ text.head?.map Category.of ≠ some .newline) ∧ q = o + e.unitLen c ∨
      q ∈ breakEnds e (o + e.unitLen c) text := by
  rw [breakEnds]
  split
  next h => rw [List.mem_cons, and_iff_right h]
  next h => rw [or_iff_right fun hq => h hq.1]

/-- The ends of the runs, read off the units. -/
theorem mem_breakEnds_iff_breakAt : q ∈ breakEnds e o text ↔ ∃ p, q = p + 1 ∧
    (UnitStream.ofText e o text).BreakAt p ∧ ¬(UnitStream.ofText e o text).BreakAt (p + 1) := by
  induction text generalizing o with
  | nil => simp [breakEnds, UnitStream.not_breakAt_nil]
  | cons c text ih =>
    -- a break that is the first character is judged by the second one, the
    -- others as they are without it
    have hfirst (hc : Category.of c = .newline) :
        (UnitStream.ofText e o (c :: text)).BreakAt (o + 1) ↔
          text.head?.map Category.of = some .newline := by
      rw [UnitStream.breakAt_cons_iff, UnitStream.unitLen_of_newline e hc,
        UnitStream.breakAt_offset_iff]
      simp
    have hbehind {p : Nat} (hp : (UnitStream.ofText e (o + e.unitLen c) text).BreakAt p) :
        (UnitStream.ofText e o (c :: text)).BreakAt (p + 1) ↔
          (UnitStream.ofText e (o + e.unitLen c) text).BreakAt (p + 1) := by
      have hle : o + e.unitLen c ≤ p := UnitStream.offset_le_of_breakAt hp
      rw [UnitStream.breakAt_cons_iff, or_iff_right]
      rintro ⟨h, -⟩
      omega
    rw [mem_breakEnds_cons, ih]
    constructor
    · rintro (⟨⟨hc, hnext⟩, rfl⟩ | ⟨p, rfl, hp, hnext⟩)
      · rw [UnitStream.unitLen_of_newline e hc]
        exact ⟨o, rfl, UnitStream.breakAt_cons_iff.2 (.inl ⟨rfl, hc⟩),
          fun h => hnext ((hfirst hc).1 h)⟩
      · exact ⟨p, rfl, UnitStream.breakAt_cons_iff.2 (.inr hp), fun h => hnext ((hbehind hp).1 h)⟩
    · rintro ⟨p, rfl, hp, hnext⟩
      obtain ⟨rfl, hc⟩ | hp := UnitStream.breakAt_cons_iff.1 hp
      · refine .inl ⟨⟨hc, fun h => hnext ((hfirst hc).2 h)⟩, ?_⟩
        rw [UnitStream.unitLen_of_newline e hc]
      · exact .inr ⟨p, rfl, hp, fun h => hnext ((hbehind hp).2 h)⟩

/-- **The lines of a text are those of its units.** -/
theorem charts_sourceLines (line : Nat) (e : Encoding) (o : Nat) (text : List Char) :
    (sourceLines line e o text).Charts (.ofText e o text) :=
  ⟨pairwise_breakEnds e o text, fun _ => mem_breakEnds_iff_breakAt⟩

end Lines

end Lexing
