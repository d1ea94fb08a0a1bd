import Mathlib.Tactic.Common
import Lexing.Charset.Encoding

/-!
# Glyphs in a stream of units

Every character is written as one glyph: a lead unit that announces how many
units the glyph has and shows the character that tokens see, and then units
that lead nothing. The units of a text are those of its characters, one after
the other, so a stream that comes from a text can be read character by
character (`isGlyph_encodeChar`, `units_eq_flatMap`), and the lengths that its
units announce show where the characters begin (`units_segment`).
-/

namespace Lexing

namespace Encoding

/-- A unit leads the glyph of a character. -/
structure Leads (e : Encoding) (u : UInt32) (c : Char) : Prop where
  glyphUnits_eq : e.glyphUnits u = e.unitLen c
  leadToChar_eq : leadToChar u = toAscii c

theorem unitLen_pos (e : Encoding) (c : Char) : 0 < e.unitLen c := by
  cases e with
  | utf8 => exact c.utf8Size_pos
  | utf16 =>
    simp only [unitLen]
    split <;> decide
  | utf32 => exact Nat.one_pos
  | ascii => exact Nat.one_pos

theorem glyphUnits_utf8 (u : UInt32) :
    utf8.glyphUnits u =
      if u.toNat < 0x80 then 1
      else if u.toNat < 0xc0 then 0
      else if u.toNat < 0xe0 then 2
      else if u.toNat < 0xf0 then 3
      else if u.toNat < 0xf8 then 4
      else 0 := by
  simp [glyphUnits, UInt32.lt_iff_toNat_lt]

theorem glyphUnits_utf16 (u : UInt32) :
    utf16.glyphUnits u =
      if 0xd800 ≤ u.toNat ∧ u.toNat < 0xdc00 then 2
      else if 0xdc00 ≤ u.toNat ∧ u.toNat < 0xe000 then 0
      else 1 := by
  simp [glyphUnits, UInt32.lt_iff_toNat_lt, UInt32.le_iff_toNat_le]

/-- A unit below `0x80` is a glyph of its own in every encoding. -/
theorem glyphUnits_of_ascii {u : UInt32} (h : u.toNat < 0x80) (e : Encoding) :
    e.glyphUnits u = 1 := by
  cases e with
  | utf8 => rw [glyphUnits_utf8, if_pos h]
  | utf16 => rw [glyphUnits_utf16, if_neg (by omega), if_neg (by omega)]
  | utf32 => rfl
  | ascii => rfl

end Encoding

theorem leadToChar_eq (u : UInt32) :
    leadToChar u = if u.toNat < 0x80 then Char.ofNat u.toNat else substitute := by
  simp [leadToChar, UInt32.lt_iff_toNat_lt]

/-- What a unit brings to the tokens is ASCII. -/
theorem toNat_leadToChar_lt (u : UInt32) : (leadToChar u).toNat < 0x80 := by
  rw [leadToChar_eq]
  split
  next h =>
    have hvalid : u.toNat.isValidChar := .inl (by omega)
    rw [Char.ofNat, dif_pos hvalid]
    exact h
  next => decide

/-- An ASCII character is led by the unit that has its code. -/
theorem leadToChar_of_toNat {u : UInt32} {c : Char} (h : u.toNat = c.toNat) :
    leadToChar u = toAscii c := by
  rw [leadToChar_eq, toAscii, h, Char.ofNat_toNat]

/-- Outside ASCII both sides show the substitute. -/
theorem leadToChar_of_le {u : UInt32} {c : Char} (hu : 0x80 ≤ u.toNat) (hc : 0x80 ≤ c.toNat) :
    leadToChar u = toAscii c := by
  rw [leadToChar_eq, toAscii, if_neg (by omega), if_neg (by omega)]

namespace Encoding

theorem toNat_byte {n : Nat} (h : n < 256) : (UInt8.ofNat n).toUInt32.toNat = n := by
  simp [Nat.mod_eq_of_lt h]

/-- A byte in `0x80..0xbf` continues a glyph. -/
theorem glyphUnits_tail (n : Nat) :
    utf8.glyphUnits (UInt8.ofNat (n % 0x40 + 0x80)).toUInt32 = 0 := by
  rw [glyphUnits_utf8, toNat_byte (by omega), if_neg (by omega), if_pos (by omega)]

/-- Units that make up the glyph of a character. -/
def IsGlyph (e : Encoding) (units : List UInt32) (c : Char) : Prop :=
  ∃ lead rest, units = lead :: rest ∧ e.Leads lead c ∧ ∀ u ∈ rest, e.glyphUnits u = 0

theorem toNat_lt (c : Char) : c.toNat < 0x110000 := by
  have := c.valid
  rw [UInt32.isValidChar, Nat.isValidChar] at this
  exact this.elim (fun h => Nat.lt_trans h (by decide)) fun h => h.2

theorem unitLen_utf8 (c : Char) :
    utf8.unitLen c = if c.toNat ≤ 0x7f then 1 else if c.toNat ≤ 0x7ff then 2
      else if c.toNat ≤ 0xffff then 3 else 4 := by
  simp [unitLen, Char.utf8Size, UInt32.le_iff_toNat_le]

/-- In UTF-8, the lead byte tells the length in its upper bits. -/
theorem leads_utf8 {n : Nat} {c : Char} (hn : n < 256) (hc : 0x80 ≤ c.toNat)
    (hwidth : 0xc0 ≤ n ∧ n < 0xe0 ∧ utf8.unitLen c = 2 ∨ 0xe0 ≤ n ∧ n < 0xf0 ∧ utf8.unitLen c = 3 ∨
      0xf0 ≤ n ∧ n < 0xf8 ∧ utf8.unitLen c = 4) :
    utf8.Leads (UInt8.ofNat n).toUInt32 c := by
  have hlead := toNat_byte hn
  refine ⟨?_, leadToChar_of_le (by rw [hlead]; omega) hc⟩
  rw [glyphUnits_utf8, hlead, if_neg (by omega), if_neg (by omega)]
  obtain h | h | h := hwidth
  · rw [if_pos (by omega), h.2.2]
  · rw [if_neg (by omega), if_pos (by omega), h.2.2]
  · rw [if_neg (by omega), if_neg (by omega), if_pos (by omega), h.2.2]

theorem isGlyph_utf8 (c : Char) : utf8.IsGlyph (utf8.encodeChar c) c := by
  have hmax := toNat_lt c
  have hval : c.val.toNat = c.toNat := rfl
  have hsize := unitLen_utf8 c
  simp only [encodeChar, String.utf8EncodeChar, hval]
  by_cases h1 : c.toNat ≤ 0x7f
  · rw [if_pos h1] at hsize ⊢
    have hlead := toNat_byte (n := c.toNat) (by omega)
    refine ⟨_, _, rfl, ⟨?_, leadToChar_of_toNat hlead⟩, by simp⟩
    rw [glyphUnits_utf8, hlead, hsize, if_pos (by omega)]
  rw [if_neg h1] at hsize ⊢
  by_cases h2 : c.toNat ≤ 0x7ff
  · rw [if_pos h2] at hsize ⊢
    refine ⟨_, _, rfl, leads_utf8 (by omega) (by omega) (by omega), ?_⟩
    exact List.forall_mem_singleton.2 (glyphUnits_tail _)
  rw [if_neg h2] at hsize ⊢
  by_cases h3 : c.toNat ≤ 0xffff
  · rw [if_pos h3] at hsize ⊢
    refine ⟨_, _, rfl, leads_utf8 (by omega) (by omega) (by omega), ?_⟩
    exact List.forall_mem_cons.2
      ⟨glyphUnits_tail _, List.forall_mem_singleton.2 (glyphUnits_tail _)⟩
  · rw [if_neg h3] at hsize ⊢
    refine ⟨_, _, rfl, leads_utf8 (by omega) (by omega) (by omega), ?_⟩
    exact List.forall_mem_cons.2 ⟨glyphUnits_tail _, List.forall_mem_cons.2
      ⟨glyphUnits_tail _, List.forall_mem_singleton.2 (glyphUnits_tail _)⟩⟩

/-- In UTF-16, a pair of surrogates stands for a character above `0xffff`. -/
theorem isGlyph_utf16 (c : Char) : utf16.IsGlyph (utf16.encodeChar c) c := by
  have hvalid : c.toNat < 0xd800 ∨ 0xdfff < c.toNat ∧ c.toNat < 0x110000 := by
    have := c.valid
    rwa [UInt32.isValidChar, Nat.isValidChar] at this
  have hval : c.val.toNat = c.toNat := rfl
  simp only [encodeChar, utf16Units]
  by_cases h : c.toNat < 0x10000
  · rw [if_pos h]
    refine ⟨_, _, rfl, ⟨?_, leadToChar_of_toNat hval⟩, by simp⟩
    rw [glyphUnits_utf16, hval, unitLen, if_neg (by omega), if_neg (by omega), if_pos h]
  · rw [if_neg h]
    have hunit {n : Nat} (hn : n < 0x110000) : n.toUInt32.toNat = n := by
      simp
      omega
    have hlead := hunit (n := 0xd800 + (c.toNat - 0x10000) / 0x400) (by omega)
    have htrail := hunit (n := 0xdc00 + (c.toNat - 0x10000) % 0x400) (by omega)
    refine ⟨_, _, rfl, ⟨?_, leadToChar_of_le (by rw [hlead]; omega) (by omega)⟩, ?_⟩
    · rw [glyphUnits_utf16, hlead, unitLen, if_pos (by omega), if_neg h]
    · rw [List.forall_mem_singleton, glyphUnits_utf16, htrail, if_neg (by omega),
        if_pos (by omega)]

/-- **A character is one glyph.** Its first unit leads it, and no other unit
leads anything. -/
theorem isGlyph_encodeChar (e : Encoding) (c : Char) : e.IsGlyph (e.encodeChar c) c := by
  cases e with
  | utf8 => exact isGlyph_utf8 c
  | utf16 => exact isGlyph_utf16 c
  | utf32 => exact ⟨_, _, rfl, ⟨rfl, leadToChar_of_toNat rfl⟩, by simp⟩
  | ascii =>
    refine ⟨_, _, rfl, ⟨rfl, ?_⟩, by simp⟩
    rw [← toAscii_toAscii c]
    exact leadToChar_of_toNat (congrArg Char.toNat (toAscii_toAscii c))

/-- **The units of a text** are those of its characters. -/
theorem units_eq_flatMap (e : Encoding) (source : String) :
    e.units source = source.toList.flatMap e.encodeChar := by
  cases e with
  | utf8 =>
    have hbytes : source.toByteArray.data.toList
        = source.toList.flatMap String.utf8EncodeChar := by
      rw [← String.utf8Encode_toList, List.utf8Encode]
      simp
    simp only [units, hbytes, List.map_flatMap]
    rfl
  | utf16 => rfl
  | utf32 => exact List.map_eq_flatMap
  | ascii => exact List.map_eq_flatMap

/-! ## Where the characters begin

The units that announce a length mark the places at which the characters of a
text begin, and nothing else does. So the length alone cuts a stream into its
glyphs, without a look at the characters. -/

/-- The first unit of a character. -/
def lead (e : Encoding) (c : Char) : UInt32 := (e.encodeChar c).headD 0

/-- **Where characters begin** among their units, each with its first unit. The
first of them begins at an offset. -/
def beginnings (e : Encoding) : Nat → List Char → List (UInt32 × Nat)
  | _, [] => []
  | o, c :: cs => (e.lead c, o) :: beginnings e (o + (e.encodeChar c).length) cs

theorem exists_encodeChar_eq (e : Encoding) (c : Char) :
    ∃ rest, e.encodeChar c = e.lead c :: rest ∧ e.Leads (e.lead c) c ∧
      ∀ u ∈ rest, e.glyphUnits u = 0 := by
  obtain ⟨u, rest, hunits, hleads, hrest⟩ := isGlyph_encodeChar e c
  have hlead : e.lead c = u := by rw [lead, hunits, List.headD_cons]
  exact ⟨rest, hlead ▸ hunits, hlead ▸ hleads, hrest⟩

/-- Of the units of a character only the first announces a length. -/
theorem filter_zipIdx_encodeChar (e : Encoding) (c : Char) (o : Nat) :
    ((e.encodeChar c).zipIdx o).filter (fun p => e.glyphUnits p.1 ≠ 0) = [(e.lead c, o)] := by
  obtain ⟨rest, hunits, hleads, hrest⟩ := exists_encodeChar_eq e c
  have hlead : e.glyphUnits (e.lead c) ≠ 0 := by
    rw [hleads.glyphUnits_eq]
    exact Nat.ne_of_gt (e.unitLen_pos c)
  have hnone : (rest.zipIdx (o + 1)).filter (fun p => e.glyphUnits p.1 ≠ 0) = [] :=
    List.filter_eq_nil_iff.2 fun p hp => by
      simp [hrest p.1 (List.fst_mem_of_mem_zipIdx hp)]
  rw [hunits, List.zipIdx_cons, List.filter_cons_of_pos (by simpa using hlead), hnone]

/-- **The units that announce a length** are the first ones of the characters, in
order. -/
theorem filter_zipIdx_flatMap (e : Encoding) (cs : List Char) (o : Nat) :
    ((cs.flatMap e.encodeChar).zipIdx o).filter (fun p => e.glyphUnits p.1 ≠ 0)
      = e.beginnings o cs := by
  induction cs generalizing o with
  | nil => rfl
  | cons c cs ih =>
    rw [List.flatMap_cons, List.zipIdx_append, List.filter_append, filter_zipIdx_encodeChar, ih]
    rfl

/-- **Units fall into glyphs**, in every encoding. The units of a text are those of
its characters, and exactly the first unit of each character announces a length.
That length is the number of units of the character, and the unit shows the
character as tokens see it. -/
theorem units_segment (e : Encoding) (source : String) :
    e.units source = source.toList.flatMap e.encodeChar ∧
      (e.units source).zipIdx.filter (fun p => e.glyphUnits p.1 ≠ 0)
        = e.beginnings 0 source.toList ∧
      ∀ c, (e.encodeChar c).head? = some (e.lead c) ∧
        e.glyphUnits (e.lead c) = e.unitLen c ∧ e.unitLen c = (e.encodeChar c).length ∧
        leadToChar (e.lead c) = toAscii c := by
  have hunits := units_eq_flatMap e source
  refine ⟨hunits, ?_, fun c => ?_⟩
  · rw [hunits]
    exact filter_zipIdx_flatMap e source.toList 0
  · obtain ⟨rest, hglyph, hleads, -⟩ := exists_encodeChar_eq e c
    refine ⟨by rw [hglyph]; rfl, hleads.glyphUnits_eq, (length_encodeChar e c).symm, ?_⟩
    exact hleads.leadToChar_eq

/-- A letter, a character of two bytes, one of three and one of four. -/
example : (utf8.units "aé€😀").zipIdx.filter (fun p => utf8.glyphUnits p.1 ≠ 0)
    = [(0x61, 0), (0xc3, 1), (0xe2, 3), (0xf0, 6)] := by
  decide +kernel

end Encoding

end Lexing
